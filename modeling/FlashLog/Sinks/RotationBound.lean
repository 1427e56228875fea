import FlashLog.Sinks.Rotation

/-!
How large the log files of an `EffectiveSink` grow. `GetFilePath_` measures the file in the
directory: it misses the bytes that the stream still holds and those of a file that is gone, and
the name it goes on to may be taken.
-/

set_option autoImplicit false
set_option relaxedAutoImplicit false

namespace FlashLog.Sinks

open FlashLog.Support
open FlashLog.Support.Machine (run Meets meets_of_invariant)

def OfStream.takes (ofs : OfStream) (bs : Bytes) (outcome : WriteOutcome) : Nat :=
  if ofs.failed ∨ ofs.file = none then 0 else (bs.take (outcome.taken.getD bs.length)).length

section Path

variable {conf : Conf} {time filePath : String} {dir : LogDir}

theorem getFilePath_of_room (named : filePath ≠ "")
    (room : ¬ conf.singleSize < (dir.contents filePath).length) :
    getFilePath conf "" time dir filePath = filePath := by
  rw [getFilePath, if_neg named, if_neg room]

theorem getFilePath_fresh_iff (named : filePath ≠ "")
    (full : conf.singleSize < (dir.contents filePath).length) :
    (dir.lookup (getFilePath conf "" time dir filePath)).isSome = false ↔
      ((dir.lookup (getDataTimePath conf time ++ kFileSuffix)).isSome →
        (dir.lookup (getDataTimePath conf time ++ "_" ++
          toString (dateCount conf time (dir.map Prod.fst)) ++ kFileSuffix)).isSome = false) := by
  have hempty : getDataTimePath conf time ++ "" = getDataTimePath conf time := String.append_empty
  rw [getFilePath, if_neg named, if_pos full]
  simp only [hempty, countP_date]
  by_cases taken : (dir.lookup (getDataTimePath conf time ++ kFileSuffix)).isSome = true
  · rw [if_pos taken]
    exact ⟨fun fresh _ => fresh, fun fresh => fresh taken⟩
  · rw [if_neg taken]
    exact ⟨fun _ there => absurd there taken, fun _ => Bool.not_eq_true _ |>.mp taken⟩

theorem getFilePath_ne_empty : getFilePath conf "" time dir filePath ≠ "" := by
  rw [getFilePath]
  split
  · exact suffixed_ne_empty _
  · rename_i named
    split
    · dsimp only
      split <;> exact suffixed_ne_empty _
    · exact named

end Path

namespace FileSink

variable {σ : Type} {s : FileSink σ}

def Stays (s : FileSink σ) (filePath : String) : Prop :=
  s.ofs.file.isSome ∧ s.filePath = filePath

instance (s : FileSink σ) (filePath : String) : Decidable (s.Stays filePath) :=
  inferInstanceAs (Decidable (_ ∧ _))

theorem usable_of_stays {io : Io} {filePath : String} (h : s.Stays filePath) :
    s.Usable io filePath ↔ s.ofs.failed = false :=
  Iff.of_eq (if_pos h)

theorem openLog_of_not_stays (io : Io) {filePath : String} (h : ¬ s.Stays filePath) :
    ∀ file ∈ (s.openLog io filePath).ofs.file, file = ⟨filePath, []⟩ := by
  rw [openLog_opens io h]
  exact file_openFile (file_close s.ofs s.dir) _ _ _

theorem contents_openLog (io : Io) {filePath : String}
    (other : ∀ file ∈ s.ofs.file, file.name ≠ filePath) :
    (s.openLog io filePath).dir.contents filePath = s.dir.contents filePath := by
  have hopened : ∀ (ofs : OfStream) (dir : LogDir),
      (ofs.openFile dir filePath io.opens).2.contents filePath = dir.contents filePath := by
    intro ofs dir
    rw [OfStream.openFile]
    split
    · exact LogDir.contents_create _ _ _
    · rfl
  by_cases keeps : s.ofs.file.isSome ∧ s.filePath = filePath
  · rw [openLog_keeps io keeps]
  · rw [openLog_opens io keeps, hopened, OfStream.close]
    split
    · rfl
    · rename_i file hfile
      exact LogDir.contents_append_of_ne _ (Ne.symm (other file hfile)) _

/-- While the open file is in the directory, `received` are its bytes there and those held back. -/
def Counted (s : FileSink σ) (received : Nat) : Prop :=
  ∀ file ∈ s.ofs.file, (s.dir.lookup file.name).isSome →
    received = (s.dir.contents file.name).length + file.buffer.length

theorem Counted.writeOut {received : Nat} (h : s.Counted received) (bs : Bytes)
    (outcome : WriteOutcome) :
    (s.writeOut bs outcome).Counted (received + s.ofs.takes bs outcome) := by
  by_cases hfailed : s.ofs.failed = true
  · rw [writeOut_failed _ _ hfailed, OfStream.takes, if_pos (Or.inl hfailed)]
    exact h
  · cases hfile : s.ofs.file with
    | none =>
      intro file hmem
      simp [FileSink.writeOut, OfStream.write, hfailed, hfile] at hmem
    | some file =>
      have hofs : s.ofs = ⟨some file, false⟩ := by
        rw [← hfile, ← Bool.not_eq_true _ |>.mp hfailed]
      have htakes : s.ofs.takes bs outcome =
          (bs.take (outcome.taken.getD bs.length)).length := by
        rw [hofs]
        rfl
      by_cases hthere : (s.dir.lookup file.name).isSome
      · obtain ⟨buffer, dir, hwrite, -, hsame, -⟩ := writeOut_good bs outcome hofs hthere
        have hstored : s.stored file.name = s.dir.contents file.name ++ file.buffer := by
          rw [stored, hofs]
          simp [heldBack]
        have lengths := congrArg List.length hsame
        rw [hstored, List.length_append, List.length_append, List.length_append,
          ← h file hfile hthere] at lengths
        rw [hwrite, htakes]
        intro other hother _
        obtain rfl := Option.some.inj hother
        exact lengths.symm
      · intro other hother there
        -- writing does not bring a missing file back
        simp only [FileSink.writeOut, OfStream.write, hofs, Bool.false_eq_true, if_false]
          at hother there
        obtain rfl := Option.some.inj hother
        rw [LogDir.isSome_append] at there
        exact absurd there hthere

theorem takes_le (ofs : OfStream) (bs : Bytes) (outcome : WriteOutcome) :
    ofs.takes bs outcome ≤ bs.length := by
  rw [OfStream.takes]
  split
  · exact Nat.zero_le _
  · exact List.length_take_le' _ _

theorem filePath_putChunk_ne_empty (conf : Conf) (header : ChunkHeader) (io : Io)
    (s : FileSink σ) : (s.putChunk conf "" header io).filePath ≠ "" := by
  rw [filePath_putChunk]
  exact getFilePath_ne_empty

end FileSink

namespace EffectiveSink

variable {σ : Type}

/-- A sink, the bytes that the file its stream is open on has received, and whether this process
has appended a chunk. -/
structure Measured (σ : Type) where
  sink : FileSink σ
  received : Nat
  appended : Bool

namespace Measured

section Step

variable (conf : Conf) (totalSize : UInt64) (keys : Keys) (resetStream : σ → σ)

def path (io : Io) (s : Measured σ) : String :=
  getFilePath conf "" io.time s.sink.dir s.sink.filePath

/-- What the file that `CacheToFile_` appends to has received before. -/
def target (io : Io) (s : Measured σ) : Nat :=
  if s.sink.Stays (s.path conf io) then s.received
  else ((s.sink.openLog io (s.path conf io)).dir.contents (s.path conf io)).length

def gained (header : ChunkHeader) (io : Io) (s : Measured σ) : Nat :=
  let opened := s.sink.openLog io (s.path conf io)
  opened.ofs.takes header.bytes io.header +
    (opened.writeOut header.bytes io.header).ofs.takes s.sink.cache io.payload

/-- What the file has received behind `CacheToFile_`. -/
def receivedAfter (io : Io) (s : Measured σ) : Nat :=
  s.target conf io + s.gained conf (SinkName.effective.header keys io s.sink) io

instance (s : FileSink σ) : Decidable (SinkName.effective.Writes s) :=
  inferInstanceAs (Decidable (true = true → s.isSlaveFree = false ∧ s.cache ≠ []))

instance (io : Io) (filePath : String) (s : FileSink σ) : Decidable (s.Usable io filePath) :=
  inferInstanceAs (Decidable (if s.ofs.file.isSome ∧ s.filePath = filePath then
    s.ofs.failed = false else io.opens = true))

def step (s : Measured σ) (c : Call) : Option (Measured σ) :=
  (call conf totalSize keys resetStream s.sink c).map fun sink =>
    match c with
    | .sink (.cacheToFile io) =>
      if SinkName.effective.Writes s.sink then
        { sink
          received := s.receivedAfter conf keys io
          appended := s.appended || decide (s.sink.Usable io (s.path conf io)) }
      else { s with sink }
    | _ => { s with sink }

/-- A chunk behind the first one goes to a file that has received `single_size` bytes at most, so
that it ends up with no more than these, a header and the chunk; and a full file is left for a
name that no file has. -/
def Bounded (s : Measured σ) : Call → Prop
  | .sink (.cacheToFile io) => SinkName.effective.Writes s.sink →
    (s.appended = true → s.sink.Usable io (s.path conf io) →
      s.target conf io ≤ conf.singleSize ∧
        s.receivedAfter conf keys io ≤ conf.singleSize +
          (SinkName.effective.header keys io s.sink).bytes.length + s.sink.cache.length) ∧
    (s.sink.filePath ≠ "" → conf.singleSize < (s.sink.dir.contents s.sink.filePath).length →
      (s.sink.dir.lookup (s.path conf io)).isSome = false)
  | _ => True

/-- `CacheToFile_` finds the file that its stream is open on in the directory. -/
def Listed (s : Measured σ) : Call → Prop
  | .sink (.cacheToFile _) =>
    ∀ file ∈ s.sink.ofs.file, (s.sink.dir.lookup file.name).isSome
  | _ => True

/-- `CacheToFile_` finds the last file full, and the name with the date free, or the one with the
number of names that contain the date; or it finds room, and there is room for what the stream
still holds as well. -/
def Rotates (s : Measured σ) : Call → Prop
  | .sink (.cacheToFile io) => SinkName.effective.Writes s.sink → s.sink.filePath ≠ "" →
    let dataTimePath := getDataTimePath conf io.time
    if conf.singleSize < (s.sink.dir.contents s.sink.filePath).length then
      (s.sink.dir.lookup (dataTimePath ++ kFileSuffix)).isSome →
        (s.sink.dir.lookup (dataTimePath ++ "_" ++
          toString (dateCount conf io.time (s.sink.dir.map Prod.fst)) ++ kFileSuffix)).isSome =
            false
    else ∀ file ∈ s.sink.ofs.file, s.appended = true → s.sink.ofs.failed = false →
      (s.sink.dir.contents file.name).length + file.buffer.length ≤ conf.singleSize
  | _ => True

structure Consistent (s : Measured σ) : Prop where
  named : s.sink.Named
  counted : s.sink.Counted s.received
  started : s.appended = true → s.sink.filePath ≠ ""

variable {conf totalSize keys resetStream} {s next : Measured σ} {io : Io}

theorem Consistent.counted_openLog (h : s.Consistent) (conf : Conf) (io : Io) :
    (s.sink.openLog io (s.path conf io)).Counted (s.target conf io) := by
  rw [target]
  split
  · rename_i stays
    rw [FileSink.openLog_keeps io stays]
    exact h.counted
  · rename_i moves
    intro file hfile _
    obtain rfl := FileSink.openLog_of_not_stays io moves file hfile
    rfl

theorem Consistent.counted_putChunk (h : s.Consistent) :
    (s.sink.putChunk conf "" (SinkName.effective.header keys io s.sink) io).Counted
      (s.receivedAfter conf keys io) := by
  have written := (h.counted_openLog conf io).writeOut
    (SinkName.effective.header keys io s.sink).bytes io.header
  rw [receivedAfter, gained, ← Nat.add_assoc]
  exact written.writeOut s.sink.cache io.payload

theorem gained_le (conf : Conf) (io : Io) (header : ChunkHeader) (s : Measured σ) :
    s.gained conf header io ≤ header.bytes.length + s.sink.cache.length :=
  Nat.add_le_add (FileSink.takes_le _ _ _) (FileSink.takes_le _ _ _)

theorem Consistent.target_fresh (h : s.Consistent)
    (full : conf.singleSize < (s.sink.dir.contents s.sink.filePath).length)
    (fresh : (s.sink.dir.lookup (s.path conf io)).isSome = false) : s.target conf io = 0 := by
  have hnone : s.sink.dir.lookup (s.path conf io) = none := by simpa using fresh
  have leaves : s.sink.filePath ≠ s.path conf io := by
    intro same
    rw [LogDir.contents, same, hnone] at full
    exact Nat.not_lt_zero _ full
  have other : ∀ file ∈ s.sink.ofs.file, file.name ≠ s.path conf io := by
    intro file hfile
    rw [h.named file hfile]
    exact leaves
  rw [target, if_neg fun stays => leaves stays.2, FileSink.contents_openLog io other,
    LogDir.contents, hnone]
  rfl

theorem Consistent.bounded_of_full (h : s.Consistent) (named : s.sink.filePath ≠ "")
    (full : conf.singleSize < (s.sink.dir.contents s.sink.filePath).length)
    (writes : SinkName.effective.Writes s.sink) :
    s.Bounded conf keys (.sink (.cacheToFile io)) ↔
      (s.sink.dir.lookup (s.path conf io)).isSome = false := by
  constructor
  · intro bounded
    exact (bounded writes).2 named full
  · intro fresh _
    refine ⟨fun _ _ => ?_, fun _ _ => fresh⟩
    have hgained := gained_le conf io (SinkName.effective.header keys io s.sink) s
    rw [receivedAfter, h.target_fresh full fresh]
    omega

theorem bounded_of_room (named : s.sink.filePath ≠ "")
    (room : ¬ conf.singleSize < (s.sink.dir.contents s.sink.filePath).length)
    (writes : SinkName.effective.Writes s.sink) :
    s.Bounded conf keys (.sink (.cacheToFile io)) ↔
      ∀ file ∈ s.sink.ofs.file, s.appended = true → s.sink.ofs.failed = false →
        s.received ≤ conf.singleSize := by
  have hpath : s.path conf io = s.sink.filePath := getFilePath_of_room named room
  have hgained := gained_le conf io (SinkName.effective.header keys io s.sink) s
  constructor
  · intro bounded file hfile appended good
    have stays : s.sink.Stays (s.path conf io) := ⟨by rw [hfile]; rfl, hpath.symm⟩
    have bound := ((bounded writes).1 appended ((FileSink.usable_of_stays stays).mpr good)).1
    rw [target, if_pos stays] at bound
    exact bound
  · intro bounded _
    refine ⟨fun appended usable => ?_, fun _ full => absurd full room⟩
    have bound : s.target conf io ≤ conf.singleSize := by
      cases hfile : s.sink.ofs.file with
      | none =>
        have closed : ∀ file ∈ s.sink.ofs.file, file.name ≠ s.path conf io := by
          rw [hfile]
          exact nofun
        rw [target, if_neg fun stays => by simp [FileSink.Stays, hfile] at stays,
          FileSink.contents_openLog io closed, hpath]
        exact Nat.le_of_not_lt room
      | some file =>
        have stays : s.sink.Stays (s.path conf io) := ⟨by rw [hfile]; rfl, hpath.symm⟩
        rw [target, if_pos stays]
        exact bounded file hfile appended ((FileSink.usable_of_stays stays).mp usable)
    rw [receivedAfter]
    omega

theorem Consistent.bounded_iff (h : s.Consistent) (c : Call) (listed : s.Listed c) :
    s.Bounded conf keys c ↔ s.Rotates conf c := by
  match c with
  | .sink (.cacheToFile io) =>
    by_cases writes : SinkName.effective.Writes s.sink
    · by_cases named : s.sink.filePath = ""
      · have fresh : s.appended ≠ true := fun appended => h.started appended named
        exact iff_of_true (fun _ => ⟨fun appended => absurd appended fresh, fun hne =>
          absurd named hne⟩) (fun _ hne => absurd named hne)
      · by_cases full : conf.singleSize < (s.sink.dir.contents s.sink.filePath).length
        · rw [h.bounded_of_full named full writes, path, getFilePath_fresh_iff named full, Rotates,
            if_pos full]
          exact ⟨fun free _ _ => free, fun rotates => rotates writes named⟩
        · rw [bounded_of_room named full writes, Rotates, if_neg full]
          have known : ∀ file ∈ s.sink.ofs.file,
              s.received = (s.sink.dir.contents file.name).length + file.buffer.length :=
            fun file hfile => h.counted file hfile (listed file hfile)
          constructor
          · intro bounded _ _ file hfile appended good
            rw [← known file hfile]
            exact bounded file hfile appended good
          · intro rotates file hfile appended good
            rw [known file hfile]
            exact rotates writes named file hfile appended good
    · exact iff_of_true (fun hwrites => absurd hwrites writes)
        (fun hwrites => absurd hwrites writes)
  | .sink (.writeToCache _) => exact Iff.rfl
  | .sink .swapCache => exact Iff.rfl
  | .eliminateFiles _ _ => exact Iff.rfl

theorem Consistent.step (h : s.Consistent) {c : Call}
    (hstep : s.step conf totalSize keys resetStream c = some next) : next.Consistent := by
  obtain ⟨sink, hsink, rfl⟩ := Option.map_eq_some_iff.mp hstep
  match c with
  | .sink (.writeToCache item) =>
    obtain rfl := Option.some.inj hsink
    exact ⟨h.named, h.counted, h.started⟩
  | .sink .swapCache =>
    obtain rfl := Option.some.inj hsink
    obtain ⟨cache, master, free, hswap⟩ := swapCache_caches s.sink
    rw [hswap]
    exact ⟨h.named, h.counted, h.started⟩
  | .sink (.cacheToFile io) =>
    obtain rfl := Option.some.inj hsink
    dsimp only
    split
    · rename_i writes
      obtain ⟨free, compress, hnext⟩ :=
        SinkName.cacheToFile_of_writes .effective conf keys resetStream io s.sink writes
      rw [hnext]
      refine ⟨FileSink.named_putChunk conf _ _ io h.named, h.counted_putChunk, fun _ => ?_⟩
      exact FileSink.filePath_putChunk_ne_empty conf
        (SinkName.effective.header keys io s.sink) io s.sink
    · rename_i stopped
      obtain ⟨free, hnext⟩ :=
        SinkName.cacheToFile_of_not_writes .effective conf keys resetStream io s.sink stopped
      rw [hnext]
      exact ⟨h.named, h.counted, h.started⟩
  | .eliminateFiles writeTime files =>
    obtain ⟨-, rfl⟩ := call_eliminateFiles hsink
    refine ⟨h.named, ?_, h.started⟩
    intro file hfile there
    have same : (s.sink.dir.remove _).lookup file.name = s.sink.dir.lookup file.name :=
      LogDir.lookup_remove (LogDir.not_mem_of_lookup_remove there)
    rw [same] at there
    rw [LogDir.contents, same]
    exact h.counted file hfile there

end Step

def start (dir : LogDir) (masterFile slaveFile : Bytes) (compress : σ) : Measured σ :=
  ⟨SinkName.effective.initial dir masterFile slaveFile compress, 0, false⟩

theorem consistent_start (dir : LogDir) (masterFile slaveFile : Bytes) (compress : σ) :
    (start dir masterFile slaveFile compress).Consistent :=
  ⟨nofun, nofun, nofun⟩

/-- In every run that writes only while the open file is in the directory, the log files keep to
the bound if and only if each `CacheToFile_` that leaves a full file finds a free name, and each
that does not finds room for what the stream holds back. -/
theorem rotation_bounded_iff (conf : Conf) (totalSize : UInt64) (keys : Keys)
    (resetStream : σ → σ) (dir : LogDir) (masterFile slaveFile : Bytes) (compress : σ)
    (cs : List Call) (t : Measured σ)
    (hrun : run (step conf totalSize keys resetStream)
      (start dir masterFile slaveFile compress) cs = some t)
    (listed : Meets (step conf totalSize keys resetStream) Listed
      (start dir masterFile slaveFile compress) cs) :
    Meets (step conf totalSize keys resetStream) (Bounded conf keys)
        (start dir masterFile slaveFile compress) cs ↔
      Meets (step conf totalSize keys resetStream) (Rotates conf)
        (start dir masterFile slaveFile compress) cs := by
  have kept : ∀ (ok : Measured σ → Call → Prop) (s : Measured σ) (c : Call) (next : Measured σ),
      s.Consistent → ok s c → s.step conf totalSize keys resetStream c = some next →
        next.Consistent :=
    fun _ _ _ _ consistent _ hstep => consistent.step hstep
  have consistent := consistent_start dir masterFile slaveFile compress
  constructor
  · intro bounded
    exact meets_of_invariant (kept _) (fun _ c h guards _ => (h.bounded_iff c guards.1).mp guards.2)
      consistent (listed.and bounded) hrun
  · intro rotates
    exact meets_of_invariant (kept _)
      (fun _ c h guards _ => (h.bounded_iff c guards.1).mpr guards.2)
      consistent (listed.and rotates) hrun

section Example

def demoConf : Conf := ⟨"loggerdemo", 1048576⟩

def ioHanding (handed : Nat) : Io :=
  ⟨"20260311053351", true, ⟨none, 0⟩, ⟨none, handed⟩, SinkName.zeroStack⟩

def writeItem (item : Bytes) (handed : Nat) : List Call :=
  [.sink (.writeToCache item), .sink .swapCache, .sink (.cacheToFile (ioHanding handed))]

def chunkOf (item : Bytes) : Bytes :=
  ((ChunkHeader.onStack SinkName.zeroStack (ItemHeader.framing.frame item).length).copyKeys
    SinkName.realKeys).bytes ++ ItemHeader.framing.frame item

theorem length_chunkOf (item : Bytes) : (chunkOf item).length = 184 + item.length := by
  have hiv : (Bytes.store SinkName.zeroStack.iv 0 SinkName.realKeys.iv).length = 32 := rfl
  have hpubKey : (Bytes.store SinkName.zeroStack.pubKey 0 SinkName.realKeys.pubKey).length = 128 :=
    rfl
  have hframe : (ItemHeader.framing.frame item).length = 8 + item.length := by
    rw [Framing.frame, List.length_append]
    exact congrArg (· + item.length) (ItemHeader.length_bytes _)
  simp only [chunkOf, ChunkHeader.bytes, ChunkHeader.copyKeys, ChunkHeader.onStack,
    List.length_append, Bytes.length_ofNatLE, hiv, hpubKey, hframe]
  omega

/-- A sink whose only file has `content`, while the stream holds `buffer` back. -/
def writing (content buffer : Bytes) : FileSink Unit :=
  { filePath := "loggerdemo_20260311053351.log"
    ofs := ⟨some ⟨"loggerdemo_20260311053351.log", buffer⟩, false⟩
    dir := [("loggerdemo_20260311053351.log", content)]
    cache := [], master := [], isSlaveFree := true, compress := () }

def swapped (s : FileSink Unit) (item : Bytes) : FileSink Unit :=
  { s with cache := ItemHeader.framing.frame item, isSlaveFree := false }

theorem frame_ne_nil (item : Bytes) : ItemHeader.framing.frame item ≠ [] := by
  rw [Framing.frame]
  intro hnil
  exact absurd (List.append_eq_nil_iff.mp hnil).1 (List.cons_ne_nil _ _)

theorem run_swapped {s : FileSink Unit} (emptied : s.cache = [] ∧ s.master = [])
    (free : s.isSlaveFree = true) (item : Bytes) (received : Nat) (appended : Bool) :
    run (step demoConf 100 SinkName.realKeys id) ⟨s, received, appended⟩
        [.sink (.writeToCache item), .sink .swapCache] =
      some ⟨swapped s item, received, appended⟩ := by
  obtain ⟨filePath, ofs, dir, cache, master, isSlaveFree, compress⟩ := s
  obtain ⟨rfl, rfl⟩ : cache = [] ∧ master = [] := emptied
  obtain rfl : isSlaveFree = true := free
  simp only [run, step, call, SinkName.step, SinkName.writeToCache_effective, Option.map_some,
    Option.bind_some, List.nil_append]
  rfl

theorem run_writeItem {s : FileSink Unit} {content buffer : Bytes}
    (emptied : s.cache = [] ∧ s.master = []) (free : s.isSlaveFree = true) (item : Bytes)
    (handed : Nat) (opened : (swapped s item).openLog (ioHanding handed)
      (getFilePath demoConf "" (ioHanding handed).time s.dir s.filePath) =
        { swapped s item with
          filePath := "loggerdemo_20260311053351.log"
          ofs := ⟨some ⟨"loggerdemo_20260311053351.log", buffer⟩, false⟩
          dir := [("loggerdemo_20260311053351.log", content)] })
    (usable : (swapped s item).Usable (ioHanding handed)
      (getFilePath demoConf "" (ioHanding handed).time s.dir s.filePath))
    (received : Nat) (appended : Bool) : ∃ received',
      run (step demoConf 100 SinkName.realKeys id) ⟨s, received, appended⟩
          (writeItem item handed) =
        some ⟨writing (content ++ (buffer ++ chunkOf item).take handed)
          ((buffer ++ chunkOf item).drop handed), received', true⟩ := by
  have filled : (swapped s item).cache ≠ [] := frame_ne_nil item
  have writes : SinkName.effective.Writes (swapped s item) := fun _ => ⟨rfl, filled⟩
  have written : SinkName.effective.cacheToFile demoConf SinkName.realKeys id (ioHanding handed)
      (swapped s item) = writing (content ++ (buffer ++ chunkOf item).take handed)
        ((buffer ++ chunkOf item).drop handed) := by
    have chunk : buffer ++ ((SinkName.effective.header SinkName.realKeys (ioHanding handed)
        (swapped s item)).bytes ++ (swapped s item).cache) = buffer ++ chunkOf item := rfl
    rw [cacheToFile_working rfl filled opened rfl rfl chunk]
    simp [swapped, writing, emptied, LogDir.append, ioHanding]
  have wrote : step demoConf 100 SinkName.realKeys id ⟨swapped s item, received, appended⟩
      (.sink (.cacheToFile (ioHanding handed))) =
        some ⟨writing (content ++ (buffer ++ chunkOf item).take handed)
          ((buffer ++ chunkOf item).drop handed),
          receivedAfter demoConf SinkName.realKeys (ioHanding handed)
            ⟨swapped s item, received, appended⟩, true⟩ := by
    have good : (swapped s item).Usable (ioHanding handed)
        (path demoConf (ioHanding handed) ⟨swapped s item, received, appended⟩) := usable
    simp only [step, call, SinkName.step, written, Option.map_some, if_pos writes, good,
      decide_true, Bool.or_true]
  refine ⟨receivedAfter demoConf SinkName.realKeys (ioHanding handed)
    ⟨swapped s item, received, appended⟩, ?_⟩
  have split : writeItem item handed = [.sink (.writeToCache item), .sink .swapCache] ++
      [.sink (.cacheToFile (ioHanding handed))] := rfl
  rw [split, Machine.run_append, run_swapped emptied free, Option.bind_some, Machine.run_cons,
    wrote]
  rfl

theorem meets_writeItem {s : FileSink Unit} {received : Nat} {appended : Bool} {item : Bytes}
    {handed : Nat} (emptied : s.cache = [] ∧ s.master = []) (free : s.isSlaveFree = true)
    {ok : Measured Unit → Call → Prop} (others : ∀ m a, (∀ io, a ≠ .cacheToFile io) → ok m (.sink a))
    (write : ok ⟨swapped s item, received, appended⟩ (.sink (.cacheToFile (ioHanding handed)))) :
    Meets (step demoConf 100 SinkName.realKeys id) ok ⟨s, received, appended⟩
      (writeItem item handed) := by
  have split : writeItem item handed = [.sink (.writeToCache item), .sink .swapCache] ++
      [.sink (.cacheToFile (ioHanding handed))] := rfl
  rw [split]
  refine (Machine.meets_append _ _ _ _ _).mpr ⟨?_, ?_⟩
  · exact ⟨others _ _ (fun _ h => by cases h), fun _ _ =>
      ⟨others _ _ (fun _ h => by cases h), fun _ _ => trivial⟩⟩
  · intro t ht
    rw [run_swapped emptied free] at ht
    obtain rfl := Option.some.inj ht
    exact ⟨write, fun _ _ => trivial⟩

theorem run_first (item : Bytes) (handed : Nat) : ∃ received,
    run (step demoConf 100 SinkName.realKeys id) (start [] [] [] ()) (writeItem item handed) =
      some ⟨writing ((chunkOf item).take handed) ((chunkOf item).drop handed), received, true⟩ := by
  have usable : (swapped (SinkName.effective.initial [] [] [] ()) item).Usable (ioHanding handed)
      (getFilePath demoConf "" (ioHanding handed).time [] "") := rfl
  exact run_writeItem ⟨rfl, rfl⟩ rfl item handed rfl usable 0 false

theorem run_second (content buffer : Bytes) (room : content.length ≤ 1048576) (item : Bytes)
    (handed : Nat) (received : Nat) : ∃ received',
    run (step demoConf 100 SinkName.realKeys id) ⟨writing content buffer, received, true⟩
        (writeItem item handed) =
      some ⟨writing (content ++ (buffer ++ chunkOf item).take handed)
        ((buffer ++ chunkOf item).drop handed), received', true⟩ := by
  have named : "loggerdemo_20260311053351.log" ≠ "" := by decide
  have hpath : getFilePath demoConf "" (ioHanding handed).time (writing content buffer).dir
      (writing content buffer).filePath = (writing content buffer).filePath :=
    getFilePath_of_room named (Nat.not_lt.mpr room)
  have usable : (swapped (writing content buffer) item).Usable (ioHanding handed)
      (getFilePath demoConf "" (ioHanding handed).time (writing content buffer).dir
        (writing content buffer).filePath) := by
    rw [hpath]
    rfl
  refine run_writeItem ⟨rfl, rfl⟩ rfl item handed ?_ usable received true
  rw [hpath]
  rfl

/-- The first chunk leaves less than ten bytes of the megabyte and reaches the file as a whole; the
second one is small and stays in the stream, so the third goes to the same file. -/
theorem heldBack_exceeds :
    let before := writeItem (List.replicate 1048384 0) 1048568 ++
      (writeItem (List.replicate 16 0) 0 ++
        [.sink (.writeToCache (List.replicate 16 0)), .sink .swapCache])
    ∃ s, run (step demoConf 100 SinkName.realKeys id) (start [] [] [] ()) before = some s ∧
      s.received = 1048768 ∧
      ¬ s.Bounded demoConf SinkName.realKeys (.sink (.cacheToFile (ioHanding 0))) := by
  intro before
  obtain ⟨received, hfirst⟩ := run_first (List.replicate 1048384 0) 1048568
  have hlength := length_chunkOf (List.replicate 1048384 0)
  have hsmall := length_chunkOf (List.replicate 16 0)
  rw [List.length_replicate] at hlength hsmall
  generalize chunkOf (List.replicate 1048384 0) = chunk at hfirst hlength
  rw [List.take_of_length_le (by omega), List.drop_of_length_le (by omega)] at hfirst
  obtain ⟨received', hsecond⟩ := run_second chunk [] (by omega) (List.replicate 16 0) 0 received
  generalize chunkOf (List.replicate 16 0) = small at hsecond hsmall
  rw [List.nil_append, List.take_zero, List.append_nil, List.drop_zero] at hsecond
  have hrun : run (step demoConf 100 SinkName.realKeys id) (start [] [] [] ()) before =
      some ⟨swapped (writing chunk small) (List.replicate 16 0), received', true⟩ := by
    rw [Machine.run_append, hfirst, Option.bind_some, Machine.run_append, hsecond,
      Option.bind_some, run_swapped ⟨rfl, rfl⟩ rfl]
  have kept : ∀ (s : Measured Unit) (c : Call) (next : Measured Unit), s.Consistent →
      s.step demoConf 100 SinkName.realKeys id c = some next → next.Consistent :=
    fun _ _ _ consistent hstep => consistent.step hstep
  have consistent := Machine.run_preserves _ kept (consistent_start [] [] [] ()) hrun
  have hreceived : received' = chunk.length + small.length :=
    consistent.counted ⟨"loggerdemo_20260311053351.log", small⟩ rfl rfl
  refine ⟨_, hrun, by dsimp only; omega, ?_⟩
  have room : ¬ demoConf.singleSize < (LogDir.contents [("loggerdemo_20260311053351.log",
      chunk)] "loggerdemo_20260311053351.log").length := by
    have hcontents : LogDir.contents [("loggerdemo_20260311053351.log", chunk)]
        "loggerdemo_20260311053351.log" = chunk := rfl
    have hsingle : demoConf.singleSize = 1048576 := rfl
    rw [hcontents, hsingle]
    omega
  have named : "loggerdemo_20260311053351.log" ≠ "" := by decide
  have filled := frame_ne_nil (List.replicate 16 0)
  rw [bounded_of_room named room fun _ => ⟨rfl, filled⟩]
  intro bounded
  have bound : received' ≤ 1048576 :=
    bounded ⟨"loggerdemo_20260311053351.log", small⟩ rfl rfl rfl
  omega

theorem rotation_bounded_iff_twoChunks :
    Meets (step demoConf 100 SinkName.realKeys id) (Bounded demoConf SinkName.realKeys)
      (start [] [] [] ())
      (writeItem (List.replicate 16 1) 0 ++ writeItem (List.replicate 16 2) 0) := by
  obtain ⟨received, hfirst⟩ := run_first (List.replicate 16 1) 0
  have hlength := length_chunkOf (List.replicate 16 1)
  rw [List.length_replicate] at hlength
  rw [List.take_zero, List.drop_zero] at hfirst
  obtain ⟨received', hsecond⟩ := run_second [] (chunkOf (List.replicate 16 1)) (Nat.zero_le _)
    (List.replicate 16 2) 0 received
  have hrun : ∃ t, run (step demoConf 100 SinkName.realKeys id) (start [] [] [] ())
      (writeItem (List.replicate 16 1) 0 ++ writeItem (List.replicate 16 2) 0) = some t := by
    rw [Machine.run_append, hfirst, Option.bind_some, hsecond]
    exact ⟨_, rfl⟩
  obtain ⟨t, hrun⟩ := hrun
  -- what both conditions ask of the two writes
  have both : ∀ ok : Measured Unit → Call → Prop,
      (∀ m a, (∀ io, a ≠ .cacheToFile io) → ok m (.sink a)) →
      ok ⟨swapped (SinkName.effective.initial [] [] [] ()) (List.replicate 16 1), 0, false⟩
        (.sink (.cacheToFile (ioHanding 0))) →
      ok ⟨swapped (writing [] (chunkOf (List.replicate 16 1))) (List.replicate 16 2), received,
        true⟩ (.sink (.cacheToFile (ioHanding 0))) →
      Meets (step demoConf 100 SinkName.realKeys id) ok (start [] [] [] ())
        (writeItem (List.replicate 16 1) 0 ++ writeItem (List.replicate 16 2) 0) := by
    intro ok others first second
    refine (Machine.meets_append _ _ _ _ _).mpr ⟨meets_writeItem ⟨rfl, rfl⟩ rfl others first, ?_⟩
    intro s hs
    rw [hfirst] at hs
    obtain rfl := Option.some.inj hs
    exact meets_writeItem ⟨rfl, rfl⟩ rfl others second
  have others : ∀ (m : Measured Unit) (a : SinkName.Action), (∀ io, a ≠ .cacheToFile io) →
      m.Listed (.sink a) ∧ m.Rotates demoConf (.sink a) := by
    intro m a other
    cases a with
    | cacheToFile io => exact absurd rfl (other io)
    | _ => exact ⟨trivial, trivial⟩
  refine (rotation_bounded_iff demoConf 100 SinkName.realKeys id [] [] [] () _ t hrun ?_).mpr ?_
  · refine both _ (fun m a other => (others m a other).1) (fun file hfile => by cases hfile) ?_
    intro file hfile
    obtain rfl := Option.some.inj hfile
    rfl
  · refine both _ (fun m a other => (others m a other).2) (fun _ named => absurd rfl named) ?_
    have hcontents : (swapped (writing [] (chunkOf (List.replicate 16 1)))
        (List.replicate 16 2)).dir.contents "loggerdemo_20260311053351.log" = [] := rfl
    have room : ¬ demoConf.singleSize < ((swapped (writing [] (chunkOf (List.replicate 16 1)))
        (List.replicate 16 2)).dir.contents "loggerdemo_20260311053351.log").length := by
      rw [hcontents]
      exact Nat.not_lt_zero _
    intro _ _
    refine (if_neg room).mpr ?_
    intro file hfile _ _
    obtain rfl := Option.some.inj hfile
    rw [hcontents, List.length_nil, hlength]
    decide

end Example

end Measured

end EffectiveSink

end FlashLog.Sinks
