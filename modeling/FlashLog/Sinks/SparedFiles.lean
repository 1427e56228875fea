import Mathlib.Data.Option.Basic
import FlashLog.Sinks.Rotation

/-!
An `EffectiveSink` in a directory that others write to as well. `EliminateFiles_` does not ask
whose a log file is, nor whether it is open: it spares the files of others and the current one
exactly as long as no newer files reach the capacity.
-/

set_option autoImplicit false
set_option relaxedAutoImplicit false

namespace FlashLog.Sinks.EffectiveSink

open FlashLog.Support
open FlashLog.Support.Machine (run Meets meets_of_invariant)

variable {σ : Type}

/-- A sink, and the files it has written: those its stream was opened on, and those of earlier
processes that count as its own. -/
structure Shared (σ : Type) where
  sink : FileSink σ
  own : List String

namespace Shared

/-- Others may change the directory as they like, but for the file that the stream is open on:
they neither remove it nor put another one in its place. -/
inductive Action
  | call (c : Call)
  | others (dir : LogDir)

section Step

variable (conf : Conf) (totalSize : UInt64) (keys : Keys) (resetStream : σ → σ)

def step (s : Shared σ) : Action → Option (Shared σ)
  | .call c =>
    (call conf totalSize keys resetStream s.sink c).map fun sink =>
      { sink, own := (sink.ofs.file.map OpenFile.name).toList ++ s.own }
  | .others dir =>
    if ∀ file ∈ s.sink.ofs.file,
        (dir.lookup file.name).isSome = (s.sink.dir.lookup file.name).isSome then
      some { s with sink := { s.sink with dir } }
    else none

def Protected (s : Shared σ) (name : String) : Prop := name ∉ s.own ∨ name = s.sink.filePath

/-- The chunk that `CacheToFile_` writes goes to a file that is there under the sink's path. -/
def Lands (io : Io) (s : FileSink σ) : Prop :=
  let next := SinkName.effective.cacheToFile conf keys resetStream io s
  (∀ file ∈ next.ofs.file,
    file.name = next.filePath ∧ (next.dir.lookup next.filePath).isSome) ∧
    (SinkName.effective.Accepts conf keys io s →
      next.stored next.filePath =
        s.stored next.filePath ++ ((SinkName.effective.header keys io s).bytes ++ s.cache))

/-- `EliminateFiles_` removes files that the sink wrote and has rotated away from, and not the one
that is open; `CacheToFile_` writes to a file that is there. -/
def Spares (s : Shared σ) : Action → Prop
  | .call (.eliminateFiles _ files) =>
    ∀ gone ∈ (eliminateFiles totalSize files).2, ¬ s.Protected gone.name ∧
      ∀ file ∈ s.sink.ofs.file, gone.name ≠ file.name
  | .call (.sink (.cacheToFile io)) =>
    SinkName.effective.Writes s.sink → Lands conf keys resetStream io s.sink
  | _ => True

/-- No log files that are newer than a protected one reach the capacity, whichever of the newest
are added up. -/
def Reserves (s : Shared σ) : Action → Prop
  | .call (.eliminateFiles _ files) =>
    ∀ newer file older, files = newer ++ file :: older → s.Protected file.name →
      ∀ front, front <+: newer →
        curTotalSize front < Space.spaceCast Space.mb Space.b totalSize
  | _ => True

/-- The open file is the one under the sink's path, and it is there. -/
structure Live (s : Shared σ) : Prop where
  named : s.sink.Named
  present : s.sink.Present

variable {conf totalSize keys resetStream} {s next : Shared σ}

theorem unprotected_iff (files : List DirectoryEntry) :
    (∀ gone ∈ (eliminateFiles totalSize files).2, ¬ s.Protected gone.name) ↔
      ∀ newer file older, files = newer ++ file :: older → s.Protected file.name →
        ∀ front, front <+: newer →
          curTotalSize front < Space.spaceCast Space.mb Space.b totalSize := by
  constructor
  · intro unprotected newer file older hfiles hprotected
    by_contra beyond
    exact unprotected file (Budget.mem_dropped_iff.mpr ⟨newer, older, hfiles, beyond⟩) hprotected
  · intro below gone hgone hprotected
    obtain ⟨newer, older, hfiles, beyond⟩ := Budget.mem_dropped_iff.mp hgone
    exact beyond (below newer gone older hfiles hprotected)

theorem reserves_of_spares {a : Action}
    (h : s.Spares conf totalSize keys resetStream a) : s.Reserves totalSize a := by
  match a with
  | .call (.eliminateFiles _ files) =>
    exact (unprotected_iff files).mp fun gone hgone => (h gone hgone).1
  | .call (.sink _) => trivial
  | .others _ => trivial

theorem Live.open_spared (live : s.Live) {files : List DirectoryEntry}
    (unprotected : ∀ gone ∈ (eliminateFiles totalSize files).2, ¬ s.Protected gone.name) :
    ∀ gone ∈ (eliminateFiles totalSize files).2, ∀ file ∈ s.sink.ofs.file,
      gone.name ≠ file.name := by
  intro gone hgone file hfile same
  exact unprotected gone hgone (Or.inr (same.trans (live.named file hfile)))

/-- A write of a live sink lands. -/
theorem Live.lands (live : s.Live) (io : Io) (writes : SinkName.effective.Writes s.sink) :
    Lands conf keys resetStream io s.sink := by
  obtain ⟨free, compress, hnext⟩ :=
    SinkName.cacheToFile_of_writes .effective conf keys resetStream io s.sink writes
  rw [Lands, hnext]
  constructor
  · intro file hfile
    have named := FileSink.named_putChunk conf SinkName.effective.flag
      (SinkName.effective.header keys io s.sink) io live.named file hfile
    have present := FileSink.present_putChunk conf SinkName.effective.flag
      (SinkName.effective.header keys io s.sink) io live.present file hfile
    refine ⟨named, ?_⟩
    rw [named] at present
    exact present
  · intro accepts
    obtain ⟨busy, filled⟩ := writes rfl
    rcases accepts with stopped | empty | ⟨usable, hheader, hpayload⟩
    · exact absurd writes stopped
    · exact absurd empty filled
    · exact FileSink.putChunk_lands conf _ _ io live.present live.named usable hheader hpayload

theorem spares_of_reserves {a : Action} (live : s.Live) (h : s.Reserves totalSize a) :
    s.Spares conf totalSize keys resetStream a := by
  match a with
  | .call (.eliminateFiles _ files) =>
    have unprotected := (unprotected_iff files).mpr h
    exact fun gone hgone => ⟨unprotected gone hgone, live.open_spared unprotected gone hgone⟩
  | .call (.sink (.cacheToFile io)) => exact live.lands io
  | .call (.sink (.writeToCache _)) => trivial
  | .call (.sink .swapCache) => trivial
  | .others _ => trivial

theorem Live.step (live : s.Live) {a : Action} (h : s.Reserves totalSize a)
    (hstep : s.step conf totalSize keys resetStream a = some next) : next.Live := by
  match a with
  | .call (.sink a) =>
    obtain ⟨sink, hsink, rfl⟩ := Option.map_eq_some_iff.mp hstep
    exact ⟨named_step live.named hsink, SinkName.present_step live.present hsink⟩
  | .call (.eliminateFiles writeTime files) =>
    obtain ⟨sink, hsink, rfl⟩ := Option.map_eq_some_iff.mp hstep
    obtain ⟨-, rfl⟩ := call_eliminateFiles hsink
    have spared := live.open_spared ((unprotected_iff files).mpr h)
    refine ⟨live.named, ?_⟩
    intro file hfile
    have kept : file.name ∉ (eliminateFiles totalSize files).2.map DirectoryEntry.name := by
      intro hmem
      obtain ⟨gone, hgone, same⟩ := List.mem_map.mp hmem
      exact spared gone hgone file hfile same
    exact (congrArg Option.isSome (LogDir.lookup_remove kept)).trans (live.present file hfile)
  | .others dir =>
    rw [Shared.step] at hstep
    split at hstep
    · rename_i untouched
      obtain rfl := Option.some.inj hstep
      refine ⟨live.named, ?_⟩
      intro file hfile
      exact (untouched file hfile).trans (live.present file hfile)
    · cases hstep

end Step

/-- In every run, `EliminateFiles_` removes only rotated files of the sink and `CacheToFile_`
writes to a file that is there if and only if, whenever `EliminateFiles_` runs, no log files newer
than the current one or than one of others reach the capacity. -/
theorem eliminateFiles_spares_iff (conf : Conf) (totalSize : UInt64) (keys : Keys)
    (resetStream : σ → σ) (dir : LogDir) (masterFile slaveFile : Bytes) (compress : σ)
    (earlier : List String) (as : List Action) (t : Shared σ)
    (hrun : run (step conf totalSize keys resetStream)
      ⟨SinkName.effective.initial dir masterFile slaveFile compress, earlier⟩ as = some t) :
    Meets (step conf totalSize keys resetStream) (Spares conf totalSize keys resetStream)
        ⟨SinkName.effective.initial dir masterFile slaveFile compress, earlier⟩ as ↔
      Meets (step conf totalSize keys resetStream) (Reserves totalSize)
        ⟨SinkName.effective.initial dir masterFile slaveFile compress, earlier⟩ as := by
  have start : Live ⟨SinkName.effective.initial dir masterFile slaveFile compress, earlier⟩ :=
    ⟨nofun, SinkName.present_initial .effective dir masterFile slaveFile compress⟩
  constructor
  · exact Meets.imp fun s a => reserves_of_spares
  · intro meets
    have preserved : ∀ (s : Shared σ) (a : Action) (next : Shared σ), s.Live →
        s.Reserves totalSize a → s.step conf totalSize keys resetStream a = some next →
          next.Live :=
      fun _ _ _ live reserves hstep => live.step reserves hstep
    have guards : ∀ (s : Shared σ) (a : Action), s.Live → s.Reserves totalSize a →
        (s.step conf totalSize keys resetStream a).isSome →
          s.Spares conf totalSize keys resetStream a :=
      fun _ _ live reserves _ => spares_of_reserves live reserves
    exact meets_of_invariant preserved guards start meets hrun

section Example

def writeOne : List Action :=
  [.call (.sink (.writeToCache [104, 105])), .call (.sink .swapCache),
    .call (.sink (.cacheToFile (SinkName.ioOfOpen true)))]

def beside (content : Bytes) (own : List String) : Shared Unit :=
  ⟨SinkName.effective.initial [("other.log", content), ("older.log", [1, 2, 3])] [] [] (), own⟩

def pendingBeside (content : Bytes) : FileSink Unit :=
  { (beside content []).sink with
    cache := SinkName.pendingEffective.cache, isSlaveFree := false }

def writtenBeside (content : Bytes) (own : List String) : Shared Unit :=
  ⟨{ filePath := "loggerdemo_20260311053351.log"
     ofs := ⟨some ⟨"loggerdemo_20260311053351.log",
       (SinkName.effective.header SinkName.realKeys (SinkName.ioOfOpen true)
         SinkName.pendingEffective).bytes ++ SinkName.pendingEffective.cache⟩, false⟩
     dir := [("other.log", content), ("older.log", [1, 2, 3]),
       ("loggerdemo_20260311053351.log", [])]
     cache := [], master := [], isSlaveFree := true, compress := () },
    "loggerdemo_20260311053351.log" :: own⟩

theorem run_writeOne (content : Bytes) (own : List String) :
    run (step SinkName.demoConf 1 SinkName.realKeys id) (beside content own) writeOne =
      some (writtenBeside content own) := by
  have filled : (pendingBeside content).cache ≠ [] :=
    show SinkName.pendingEffective.cache ≠ [] by decide
  have opened : (pendingBeside content).openLog (SinkName.ioOfOpen true)
      (getFilePath SinkName.demoConf "" (SinkName.ioOfOpen true).time (pendingBeside content).dir
        (pendingBeside content).filePath) =
        { pendingBeside content with
          filePath := "loggerdemo_20260311053351.log"
          ofs := ⟨some ⟨"loggerdemo_20260311053351.log", []⟩, false⟩
          dir := [("other.log", content), ("older.log", [1, 2, 3]),
            ("loggerdemo_20260311053351.log", [])] } := rfl
  have written : SinkName.effective.cacheToFile SinkName.demoConf SinkName.realKeys id
      (SinkName.ioOfOpen true) (pendingBeside content) = (writtenBeside content own).sink := by
    rw [cacheToFile_working rfl filled opened rfl rfl rfl]
    rfl
  have pushes : run (step SinkName.demoConf 1 SinkName.realKeys id) (beside content own)
      (writeOne.take 2) = some ⟨pendingBeside content, own⟩ := rfl
  have writes : step SinkName.demoConf 1 SinkName.realKeys id ⟨pendingBeside content, own⟩
      (.call (.sink (.cacheToFile (SinkName.ioOfOpen true)))) =
        some (writtenBeside content own) := by
    rw [step, call, SinkName.step, written]
    rfl
  rw [← List.take_append_drop 2 writeOne, Machine.run_append, pushes, Option.bind_some]
  exact congrArg (Option.bind · some) writes

def timeOf (other : Int) (name : String) : Int :=
  if name = "other.log" then other else if name = "older.log" then -1 else 1

def currentFile : DirectoryEntry := ⟨"loggerdemo_20260311053351.log", 0, 1⟩

def otherFile (writeTime : Int) : DirectoryEntry := ⟨"other.log", 1048576, writeTime⟩

def olderFile : DirectoryEntry := ⟨"older.log", 3, -1⟩

theorem logFiles_writtenBeside {content : Bytes} (h : content.length = 1048576) (own : List String)
    (other : Int) : (writtenBeside content own).sink.dir.logFiles (timeOf other) =
      [otherFile other, olderFile, currentFile] := by
  simp [LogDir.logFiles, writtenBeside, h, otherFile, olderFile, currentFile, timeOf]

theorem eliminateFiles_removes_current :
    let s := writtenBeside (List.replicate 1048576 0) []
    let elimination : Action :=
      .call (.eliminateFiles (timeOf 2) [otherFile 2, currentFile, olderFile])
    run (step SinkName.demoConf 1 SinkName.realKeys id) (beside (List.replicate 1048576 0) []) writeOne =
        some s ∧
      ((s.step SinkName.demoConf 1 SinkName.realKeys id elimination).map fun next =>
        (next.sink.filePath, next.sink.dir.map Prod.fst)) =
          some ("loggerdemo_20260311053351.log", ["other.log"]) ∧
      ¬ s.Spares SinkName.demoConf 1 SinkName.realKeys id elimination := by
  intro s elimination
  have order : NewestFirst (s.sink.dir.logFiles (timeOf 2))
      [otherFile 2, currentFile, olderFile] := by
    rw [logFiles_writtenBeside List.length_replicate]
    exact ⟨by decide, by decide⟩
  refine ⟨run_writeOne _ _, ?_, ?_⟩
  · simp only [elimination, Shared.step, call, if_pos order]
    rfl
  · intro spares
    exact (spares currentFile (by decide)).1 (Or.inr rfl)

theorem eliminateFiles_spares_iff_ownFiles :
    let elimination : Action :=
      .call (.eliminateFiles (timeOf 0) [currentFile, otherFile 0, olderFile])
    Meets (step SinkName.demoConf 1 SinkName.realKeys id)
      (Spares SinkName.demoConf 1 SinkName.realKeys id)
      (beside (List.replicate 1048576 0) ["other.log", "older.log"])
        (writeOne ++ [elimination]) := by
  intro elimination
  have order : NewestFirst ((writtenBeside (List.replicate 1048576 0)
      ["other.log", "older.log"]).sink.dir.logFiles (timeOf 0))
        [currentFile, otherFile 0, olderFile] := by
    rw [logFiles_writtenBeside List.length_replicate]
    exact ⟨by decide, by decide⟩
  have last : ∃ t, step SinkName.demoConf 1 SinkName.realKeys id (writtenBeside (List.replicate 1048576 0)
      ["other.log", "older.log"]) elimination = some t := by
    simp only [elimination, Shared.step, call, if_pos order]
    exact ⟨_, rfl⟩
  obtain ⟨t, ht⟩ := last
  have hrun : run (step SinkName.demoConf 1 SinkName.realKeys id)
      (beside (List.replicate 1048576 0) ["other.log", "older.log"])
        (writeOne ++ [elimination]) = some t := by
    rw [Machine.run_append, run_writeOne, Option.bind_some, Machine.run_cons, ht]
    rfl
  refine (eliminateFiles_spares_iff SinkName.demoConf 1 SinkName.realKeys id _ [] [] () _ _ t hrun).mpr ?_
  refine (Machine.meets_append _ _ _ _ _).mpr ⟨?_, ?_⟩
  · exact Meets.cons trivial rfl (Meets.cons trivial rfl (Meets.cons trivial rfl trivial))
  · intro s hs
    obtain rfl := Option.some.inj (hs.symm.trans (run_writeOne _ _))
    refine ⟨?_, fun _ _ => trivial⟩
    intro newer file older hfiles hprotected front hfront
    cases newer with
    | nil =>
      rw [List.prefix_nil.mp hfront]
      decide
    | cons first newer =>
      -- the files behind the first one are old files of the sink
      have old : ∀ file ∈ [otherFile 0, olderFile],
          file.name ∈ ["loggerdemo_20260311053351.log", "other.log", "older.log"] ∧
            file.name ≠ "loggerdemo_20260311053351.log" := by
        decide
      have hmem : file ∈ [otherFile 0, olderFile] := by
        rw [(List.cons.inj hfiles).2]
        simp
      rcases hprotected with foreign | current
      · exact absurd (old file hmem).1 foreign
      · exact absurd current (old file hmem).2

end Example

end Shared

end FlashLog.Sinks.EffectiveSink
