import FlashLog.Support.Machine
import FlashLog.Sinks.FileSink

/-!
What a `CacheToFile_` whose open or writes fail does to the cache it was writing.
-/

set_option autoImplicit false
set_option relaxedAutoImplicit false

namespace FlashLog.Sinks

open FlashLog.Support
open FlashLog.Support.Machine (run run_preserves)

namespace LogDir

theorem contents_create (dir : LogDir) (name other : String) :
    (dir.create name).contents other = dir.contents other := by
  rw [create]
  split
  · rfl
  · rename_i habsent
    rw [contents, contents, List.lookup_append]
    by_cases hother : other = name
    · subst hother
      have hnone : dir.lookup other = none := Option.not_isSome_iff_eq_none.mp habsent
      simp [hnone]
    · have hnone : ([(name, [])] : LogDir).lookup other = none := by
        simp [List.lookup_cons, beq_eq_false_iff_ne.mpr hother]
      rw [hnone, Option.or_none]

theorem isSome_create (dir : LogDir) (name : String) : ((dir.create name).lookup name).isSome := by
  rw [create]
  split
  · assumption
  · rw [List.lookup_append]
    simp

private theorem lookup_file (file : String × Bytes) (dir : List (String × Bytes)) (name : String) :
    (file :: dir).lookup name = if name = file.1 then some file.2 else dir.lookup name := by
  rw [List.lookup_cons]
  by_cases hname : name = file.1
  · simp [hname]
  · simp only [beq_eq_false_iff_ne.mpr hname, if_neg hname]

theorem lookup_append_file (dir : LogDir) (name other : String) (bs : Bytes) :
    (dir.append name bs).lookup other =
      (dir.lookup other).map fun old => if other = name then old ++ bs else old := by
  induction dir with
  | nil => rfl
  | cons file dir ih =>
    have hcons : (append (file :: dir) name bs).lookup other =
        List.lookup other ((if file.1 = name then (file.1, file.2 ++ bs) else file) ::
          append dir name bs) := rfl
    rw [hcons, lookup_file file dir]
    by_cases hname : file.1 = name
    · subst hname
      rw [if_pos rfl, lookup_file, ih]
      by_cases hother : other = file.1 <;> simp [hother]
    · rw [if_neg hname, lookup_file, ih]
      by_cases hother : other = file.1
      · subst hother
        simp [hname]
      · simp [hother]

theorem contents_append_same {dir : LogDir} {name : String} (h : (dir.lookup name).isSome)
    (bs : Bytes) : (dir.append name bs).contents name = dir.contents name ++ bs := by
  obtain ⟨old, hold⟩ := Option.isSome_iff_exists.mp h
  rw [contents, contents, lookup_append_file, hold]
  simp

theorem contents_append_of_ne (dir : LogDir) {name other : String} (h : other ≠ name) (bs : Bytes) :
    (dir.append name bs).contents other = dir.contents other := by
  rw [contents, contents, lookup_append_file]
  simp [h]

theorem isSome_append (dir : LogDir) (name other : String) (bs : Bytes) :
    ((dir.append name bs).lookup other).isSome = (dir.lookup other).isSome := by
  rw [lookup_append_file, Option.isSome_map]

end LogDir

namespace FileSink

variable {σ : Type}

def heldBack (ofs : OfStream) (name : String) : Bytes :=
  match ofs.file with
  | none => []
  | some file => if file.name = name then file.buffer else []

def stored (s : FileSink σ) (name : String) : Bytes := s.dir.contents name ++ heldBack s.ofs name

def Present (s : FileSink σ) : Prop :=
  ∀ file ∈ s.ofs.file, (s.dir.lookup file.name).isSome

/-- Before the header is written the stream is open and good: it was so on the same path,
or the open succeeds. -/
def Usable (io : Io) (filePath : String) (s : FileSink σ) : Prop :=
  if s.ofs.file.isSome ∧ s.filePath = filePath then s.ofs.failed = false else io.opens = true

section OpenLog

variable {s : FileSink σ} (io : Io) (filePath : String)

private theorem openFile_stored (ofs : OfStream) (dir : LogDir) (name other : String) (opens : Bool)
    (hclosed : ofs.file = none) :
    (ofs.openFile dir name opens).2.contents other ++
        heldBack (ofs.openFile dir name opens).1 other = dir.contents other := by
  rw [OfStream.openFile]
  split
  · by_cases hname : name = other <;> simp [heldBack, hname, LogDir.contents_create]
  · simp [heldBack, hclosed]

private theorem close_stored {ofs : OfStream} {dir : LogDir}
    (present : ∀ file ∈ ofs.file, (dir.lookup file.name).isSome) (other : String) :
    (ofs.close dir).2.contents other = dir.contents other ++ heldBack ofs other := by
  cases hfile : ofs.file with
  | none => simp [OfStream.close, heldBack, hfile]
  | some file =>
    by_cases hname : file.name = other
    · subst hname
      simp [OfStream.close, heldBack, hfile, LogDir.contents_append_same (present file hfile)]
    · have hother : other ≠ file.name := fun h => hname h.symm
      simp [OfStream.close, heldBack, hfile, hname, LogDir.contents_append_of_ne _ hother]

theorem stored_openLog (h : s.Present) (other : String) :
    (s.openLog io filePath).stored other = s.stored other := by
  by_cases keeps : s.ofs.file.isSome ∧ s.filePath = filePath
  · rw [openLog_keeps io keeps]
  · rw [openLog_opens io keeps, stored, openFile_stored _ _ _ _ _ (file_close s.ofs s.dir),
      close_stored h]
    rfl

theorem openLog_usable (h : s.Usable io filePath) :
    ∃ file, (s.openLog io filePath).ofs = ⟨some file, false⟩ := by
  by_cases keeps : s.ofs.file.isSome ∧ s.filePath = filePath
  · have good : s.ofs.failed = false := (if_pos keeps).mp h
    obtain ⟨file, hfile⟩ := Option.isSome_iff_exists.mp keeps.1
    rw [openLog_keeps io keeps]
    exact ⟨file, by rw [← hfile, ← good]⟩
  · have opens : io.opens = true := (if_neg keeps).mp h
    rw [openLog_opens io keeps]
    exact ⟨⟨filePath, []⟩, by rw [OfStream.openFile, if_pos opens]⟩

theorem openLog_unusable (h : ¬ s.Usable io filePath) :
    (s.openLog io filePath).ofs.failed = true := by
  by_cases keeps : s.ofs.file.isSome ∧ s.filePath = filePath
  · rw [Usable, if_pos keeps, Bool.not_eq_false] at h
    rw [openLog_keeps io keeps]
    exact h
  · rw [Usable, if_neg keeps] at h
    rw [openLog_opens io keeps, OfStream.openFile, if_neg h]

theorem present_openLog (h : s.Present) : (s.openLog io filePath).Present := by
  by_cases keeps : s.ofs.file.isSome ∧ s.filePath = filePath
  · rw [openLog_keeps io keeps]
    exact h
  · rw [openLog_opens io keeps]
    intro file hmem
    rw [file_openFile (file_close s.ofs s.dir) _ _ _ file hmem]
    by_cases opens : io.opens = true
    · rw [OfStream.openFile, if_pos opens]
      exact LogDir.isSome_create _ filePath
    · rw [OfStream.openFile, if_neg opens] at hmem
      have closed := file_close s.ofs s.dir
      simp only [closed] at hmem
      cases hmem

end OpenLog

section WriteOut

variable {s : FileSink σ} (bs : Bytes) (outcome : WriteOutcome)

theorem writeOut_failed (h : s.ofs.failed = true) : s.writeOut bs outcome = s := by
  simp [writeOut, OfStream.write, h]

theorem writeOut_good {file : OpenFile} (h : s.ofs = ⟨some file, false⟩)
    (hpresent : (s.dir.lookup file.name).isSome) :
    ∃ buffer dir, s.writeOut bs outcome =
        { s with
          ofs := ⟨some ⟨file.name, buffer⟩,
            decide ((bs.take (outcome.taken.getD bs.length)).length < bs.length)⟩
          dir } ∧
      (dir.lookup file.name).isSome ∧
      dir.contents file.name ++ buffer =
        s.stored file.name ++ bs.take (outcome.taken.getD bs.length) ∧
      ∀ other, other ≠ file.name → dir.contents other = s.dir.contents other := by
  generalize htaken : bs.take (outcome.taken.getD bs.length) = taken
  refine ⟨(file.buffer ++ taken).drop outcome.handed,
    s.dir.append file.name ((file.buffer ++ taken).take outcome.handed), ?_, ?_, ?_, ?_⟩
  · simp [writeOut, OfStream.write, h, htaken]
  · rw [LogDir.isSome_append]
    exact hpresent
  · rw [LogDir.contents_append_same hpresent, List.append_assoc, List.take_append_drop, stored, h]
    simp [heldBack]
  · intro other hother
    exact LogDir.contents_append_of_ne _ hother _

theorem stored_writeOut {file : OpenFile} (h : s.ofs = ⟨some file, false⟩)
    (hpresent : (s.dir.lookup file.name).isSome) (other : String) :
    (s.writeOut bs outcome).stored other =
      s.stored other ++
        if other = file.name then bs.take (outcome.taken.getD bs.length) else [] := by
  obtain ⟨buffer, dir, hwrite, -, hsame, hne⟩ :=
    writeOut_good bs outcome h hpresent
  rw [hwrite]
  by_cases hother : other = file.name
  · subst hother
    rw [if_pos rfl, ← hsame]
    simp [stored, heldBack]
  · have hname : ¬ file.name = other := fun heq => hother heq.symm
    rw [if_neg hother, List.append_nil]
    simp [stored, heldBack, hname, h, hne other hother]

theorem present_writeOut (h : s.Present) : (s.writeOut bs outcome).Present := by
  by_cases hfailed : s.ofs.failed = true
  · rw [writeOut_failed _ _ hfailed]
    exact h
  · cases hfile : s.ofs.file with
    | none =>
      intro file hmem
      simp [writeOut, OfStream.write, hfailed, hfile] at hmem
    | some file =>
      have hofs : s.ofs = ⟨some file, false⟩ := by
        rw [← hfile, ← Bool.not_eq_true _ |>.mp hfailed]
      obtain ⟨buffer, dir, hwrite, hthere, -⟩ :=
        writeOut_good bs outcome hofs (h file hfile)
      rw [hwrite]
      intro file' hmem
      obtain rfl := Option.some.inj hmem
      exact hthere

end WriteOut

/-- The chunk, header and payload, is among the bytes taken for some log file. -/
def WroteChunk (header : ChunkHeader) (s next : FileSink σ) : Prop :=
  ∃ name, next.stored name = s.stored name ++ (header.bytes ++ s.cache)

section PutChunk

variable (conf : Conf) (flag : String) (header : ChunkHeader) (io : Io) {s : FileSink σ}

def Gains (s next : FileSink σ) (name : String) (gained : Bytes) : Prop :=
  ∀ other, next.stored other = s.stored other ++ if other = name then gained else []

private theorem stored_putChunk_writes {filePath : String} (h : s.Present)
    (hpath : getFilePath conf flag io.time s.dir s.filePath = filePath) (other : String) :
    (s.putChunk conf flag header io).stored other =
        (((s.openLog io filePath).writeOut header.bytes io.header).writeOut s.cache
          io.payload).stored other ∧
      (s.openLog io filePath).stored other = s.stored other := by
  refine ⟨?_, stored_openLog io filePath h other⟩
  rw [putChunk, hpath]
  rfl

private theorem putChunk_unusable {filePath : String} (h : s.Present)
    (hpath : getFilePath conf flag io.time s.dir s.filePath = filePath)
    (unusable : ¬ s.Usable io filePath) : Gains s (s.putChunk conf flag header io) "" [] := by
  intro other
  obtain ⟨hput, hopened⟩ := stored_putChunk_writes conf flag header io h hpath other
  have hfailed := openLog_unusable io filePath unusable
  rw [hput, writeOut_failed _ _ hfailed, writeOut_failed _ _ hfailed, hopened, ite_self,
    List.append_nil]

private theorem putChunk_headerCut {filePath : String} (h : s.Present)
    (hpath : getFilePath conf flag io.time s.dir s.filePath = filePath)
    (husable : s.Usable io filePath) (hcut : ¬ io.header.Whole header.bytes.length) :
    ∃ name gained, Gains s (s.putChunk conf flag header io) name gained ∧
      gained.length < header.bytes.length := by
  obtain ⟨file, hofs⟩ := openLog_usable io filePath husable
  have hpresent := present_openLog io filePath h
  have hfile : ((s.openLog io filePath).dir.lookup file.name).isSome :=
    hpresent file (by rw [hofs]; rfl)
  have hfirst := stored_writeOut header.bytes io.header hofs hfile
  obtain ⟨buffer, dir, hwrite, -⟩ := writeOut_good header.bytes io.header hofs hfile
  have hlt : (header.bytes.take (io.header.taken.getD header.bytes.length)).length <
      header.bytes.length := by
    rw [WriteOutcome.Whole] at hcut
    rw [List.length_take]
    omega
  have hfailed : ((s.openLog io filePath).writeOut header.bytes io.header).ofs.failed = true := by
    rw [hwrite]
    exact decide_eq_true hlt
  refine ⟨file.name, header.bytes.take (io.header.taken.getD header.bytes.length), ?_, hlt⟩
  intro other
  obtain ⟨hput, hopened⟩ := stored_putChunk_writes conf flag header io h hpath other
  rw [hput, writeOut_failed _ _ hfailed, hfirst, hopened]

theorem putChunk_headerWhole {filePath : String} (h : s.Present)
    (hpath : getFilePath conf flag io.time s.dir s.filePath = filePath) {file : OpenFile}
    (hofs : (s.openLog io filePath).ofs = ⟨some file, false⟩)
    (hheader : io.header.Whole header.bytes.length) :
    Gains s (s.putChunk conf flag header io) file.name
      (header.bytes ++ s.cache.take (io.payload.taken.getD s.cache.length)) := by
  have hpresent := present_openLog io filePath h
  have hfile : ((s.openLog io filePath).dir.lookup file.name).isSome :=
    hpresent file (by rw [hofs]; rfl)
  have hfirst := stored_writeOut header.bytes io.header hofs hfile
  obtain ⟨buffer, dir, hwrite, hthere, -⟩ := writeOut_good header.bytes io.header hofs hfile
  have hall : header.bytes.take (io.header.taken.getD header.bytes.length) = header.bytes :=
    List.take_of_length_le hheader
  rw [hall] at hfirst hwrite
  have hgood : ((s.openLog io filePath).writeOut header.bytes io.header).ofs =
      ⟨some ⟨file.name, buffer⟩, false⟩ := by
    rw [hwrite]
    simp
  have hsecond := stored_writeOut s.cache io.payload hgood (by rw [hwrite]; exact hthere)
  intro other
  obtain ⟨hput, hopened⟩ := stored_putChunk_writes conf flag header io h hpath other
  rw [hput, hsecond, hfirst, hopened]
  by_cases hother : other = file.name <;> simp [hother]

private theorem stored_putChunk (h : s.Present) :
    ∃ name gained, Gains s (s.putChunk conf flag header io) name gained ∧
      (gained = header.bytes ++ s.cache ↔
        s.Usable io (getFilePath conf flag io.time s.dir s.filePath) ∧
          io.header.Whole header.bytes.length ∧ io.payload.Whole s.cache.length) := by
  generalize hpath : getFilePath conf flag io.time s.dir s.filePath = filePath
  by_cases husable : s.Usable io filePath
  · by_cases hheader : io.header.Whole header.bytes.length
    · obtain ⟨file, hofs⟩ := openLog_usable io filePath husable
      have hgains := putChunk_headerWhole conf flag header io h hpath hofs hheader
      refine ⟨file.name, _, hgains, ?_⟩
      constructor
      · intro heq
        exact ⟨husable, hheader, (List.take_eq_self_iff _).mp (List.append_cancel_left heq)⟩
      · intro hall
        rw [List.take_of_length_le hall.2.2]
    · obtain ⟨name, gained, hgains, hlt⟩ :=
        putChunk_headerCut conf flag header io h hpath husable hheader
      refine ⟨name, gained, hgains, ?_⟩
      constructor
      · intro heq
        rw [heq, List.length_append] at hlt
        omega
      · intro hall
        exact absurd hall.2.1 hheader
  · refine ⟨"", [], putChunk_unusable conf flag header io h hpath husable, ?_⟩
    constructor
    · intro hnil
      exact absurd (List.append_eq_nil_iff.mp hnil.symm).1 header.bytes_ne_nil
    · intro hall
      exact absurd hall.1 husable

theorem wroteChunk_putChunk_iff (h : s.Present) :
    WroteChunk header s (s.putChunk conf flag header io) ↔
      s.Usable io (getFilePath conf flag io.time s.dir s.filePath) ∧
        io.header.Whole header.bytes.length ∧ io.payload.Whole s.cache.length := by
  obtain ⟨name, gained, hstored, hgained⟩ :=
    stored_putChunk conf flag header io h
  rw [← hgained]
  constructor
  · rintro ⟨other, hother⟩
    have heq := List.append_cancel_left ((hstored other).symm.trans hother)
    by_cases hname : other = name
    · rw [if_pos hname] at heq
      exact heq
    · rw [if_neg hname] at heq
      exact absurd (List.append_eq_nil_iff.mp heq.symm).1 header.bytes_ne_nil
  · intro heq
    refine ⟨name, ?_⟩
    rw [hstored, if_pos rfl, heq]

theorem present_putChunk (h : s.Present) : (s.putChunk conf flag header io).Present := by
  have hopened := present_openLog io (getFilePath conf flag io.time s.dir s.filePath) h
  have hheader := present_writeOut header.bytes io.header hopened
  exact present_writeOut s.cache io.payload hheader

end PutChunk

end FileSink

structure Io.Working (io : Io) : Prop where
  opens : io.opens = true
  header : io.header.taken = none
  payload : io.payload.taken = none

namespace SinkName

variable {σ : Type}

def flag : SinkName → String
  | .effective => ""
  | .async => "_async"
  | .mmap => "_mmap"
  | .simple => "_simple"
  | .protobuf => "_protobuf"
  | .compress => "_compress"
  | .crypto => "_crypto"

def header (name : SinkName) (keys : Keys) (io : Io) (s : FileSink σ) : ChunkHeader :=
  match name with
  | .effective | .crypto => s.keyedHeader keys io
  | _ => s.plainHeader io

/-- `CacheToFile_` gets past its tests of the free flag and of the slave buffer. -/
def Writes (name : SinkName) (s : FileSink σ) : Prop :=
  name.doubleBuffered = true → s.isSlaveFree = false ∧ s.cache ≠ []

section CacheToFile

variable (name : SinkName) (conf : Conf) (keys : Keys) (resetStream : σ → σ) (io : Io)
variable (s : FileSink σ)

/-- Past the tests, the seven sinks do the same to the stream, the files and the cache. -/
theorem cacheToFile_of_writes (h : name.Writes s) :
    ∃ free compress, name.cacheToFile conf keys resetStream io s =
      { s.putChunk conf name.flag (name.header keys io s) io with
        isSlaveFree := free
        compress } := by
  have hguard : name.doubleBuffered = true → ∀ body,
      s.guarded body = { body s with isSlaveFree := true } := by
    intro hname body
    obtain ⟨busy, filled⟩ := h hname
    exact FileSink.guarded_of_filled (by simp [busy]) filled
  cases name with
  | effective => exact ⟨_, _, hguard rfl _⟩
  | async => exact ⟨_, _, hguard rfl _⟩
  | mmap => exact ⟨_, _, rfl⟩
  | simple => exact ⟨_, _, rfl⟩
  | protobuf => exact ⟨_, _, rfl⟩
  | compress => exact ⟨_, _, rfl⟩
  | crypto => exact ⟨_, _, rfl⟩

theorem cacheToFile_of_not_writes (h : ¬ name.Writes s) :
    ∃ free, name.cacheToFile conf keys resetStream io s = { s with isSlaveFree := free } := by
  rw [Writes, Classical.not_imp, not_and_or, Bool.not_eq_false, not_not] at h
  obtain ⟨hname, hstop⟩ := h
  have hguard : ∀ body, ∃ free, s.guarded body = { s with isSlaveFree := free } := by
    intro body
    by_cases hfree : s.isSlaveFree = true
    · exact ⟨s.isSlaveFree, FileSink.guarded_of_free hfree⟩
    · exact ⟨true, FileSink.guarded_of_empty hfree (hstop.resolve_left hfree)⟩
  cases name with
  | effective => exact hguard _
  | async => exact hguard _
  | _ => exact absurd hname Bool.false_ne_true

/-- The cache that was being written is on its way to the file, or it is kept and the next
`CacheToFile_` with working I/O writes it. -/
def Lossless : Prop :=
  name.Writes s → s.cache ≠ [] →
    let next := name.cacheToFile conf keys resetStream io s
    FileSink.WroteChunk (name.header keys io s) s next ∨
      next.cache = s.cache ∧ ∀ later : Io, later.Working →
        FileSink.WroteChunk (name.header keys later next) next
          (name.cacheToFile conf keys resetStream later next)

/-- There is nothing to write; or the stream is usable and takes header and payload. -/
def Accepts : Prop :=
  ¬ name.Writes s ∨ s.cache = [] ∨
    s.Usable io (getFilePath conf name.flag io.time s.dir s.filePath) ∧
      io.header.Whole (name.header keys io s).bytes.length ∧ io.payload.Whole s.cache.length

variable {name conf keys resetStream io s}

private theorem lossless_iff_accepts (h : s.Present) :
    name.Lossless conf keys resetStream io s ↔ name.Accepts conf keys io s := by
  by_cases hwrites : name.Writes s
  · by_cases hcache : s.cache = []
    · exact iff_of_true (fun _ hne => absurd hcache hne) (Or.inr (Or.inl hcache))
    · obtain ⟨free, compress, hnext⟩ :=
        cacheToFile_of_writes name conf keys resetStream io s hwrites
      have hwrote :=
        FileSink.wroteChunk_putChunk_iff conf name.flag (name.header keys io s) io h
      have hcleared : (name.cacheToFile conf keys resetStream io s).cache = [] := by
        rw [hnext]
        rfl
      have hsame : FileSink.WroteChunk (name.header keys io s) s
          (name.cacheToFile conf keys resetStream io s) ↔
          FileSink.WroteChunk (name.header keys io s) s
            (s.putChunk conf name.flag (name.header keys io s) io) := by
        rw [hnext]
        exact Iff.rfl
      constructor
      · intro lossless
        rcases lossless hwrites hcache with hdone | ⟨hkept, -⟩
        · exact Or.inr (Or.inr (hwrote.mp (hsame.mp hdone)))
        · rw [hcleared] at hkept
          exact absurd hkept.symm hcache
      · rintro (hstop | hempty | haccepts)
        · exact absurd hwrites hstop
        · exact absurd hempty hcache
        · exact fun _ _ => Or.inl (hsame.mpr (hwrote.mpr haccepts))
  · exact iff_of_true (fun hw => absurd hw hwrites) (Or.inl hwrites)

theorem present_initial (name : SinkName) (dir : LogDir) (masterFile slaveFile : Bytes)
    (compress : σ) : (name.initial dir masterFile slaveFile compress).Present := by
  cases name <;>
  · intro file hmem
    cases hmem

theorem present_step {next : FileSink σ} {a : Action} (h : s.Present)
    (hstep : name.step conf keys resetStream s a = some next) : next.Present := by
  cases a with
  | writeToCache item =>
    obtain rfl := Option.some.inj hstep
    rw [writeToCache]
    split <;> exact h
  | swapCache =>
    rw [step] at hstep
    split at hstep
    · obtain rfl := Option.some.inj hstep
      rw [swapCache]
      split <;> exact h
    · cases hstep
  | cacheToFile io =>
    obtain rfl := Option.some.inj hstep
    by_cases hwrites : name.Writes s
    · obtain ⟨free, compress, hnext⟩ :=
        cacheToFile_of_writes name conf keys resetStream io s hwrites
      rw [hnext]
      exact FileSink.present_putChunk conf _ _ io h
    · obtain ⟨free, hnext⟩ := cacheToFile_of_not_writes name conf keys resetStream io s hwrites
      rw [hnext]
      exact h

end CacheToFile

/-- In every state that calls of `WriteToCache_`, `SwapCache_` and `CacheToFile_` lead to,
whatever their outcomes, a `CacheToFile_` loses nothing if and only if there is nothing to
write, or the stream is usable and takes the whole chunk. -/
theorem cacheToFile_lossless_iff (name : SinkName) (conf : Conf) (keys : Keys)
    (resetStream : σ → σ) (dir : LogDir) (masterFile slaveFile : Bytes) (compress : σ)
    (as : List Action) (s : FileSink σ)
    (hrun : run (name.step conf keys resetStream)
      (name.initial dir masterFile slaveFile compress) as = some s) (io : Io) :
    name.Lossless conf keys resetStream io s ↔ name.Accepts conf keys io s := by
  have preserved : ∀ (s : FileSink σ) (a : Action) (next : FileSink σ), s.Present →
      name.step conf keys resetStream s a = some next → next.Present :=
    fun _ _ _ h hstep => present_step h hstep
  have hpresent : s.Present :=
    run_preserves _ preserved (present_initial name dir masterFile slaveFile compress) hrun
  exact lossless_iff_accepts hpresent

/-- A vector of 32 characters and a public key of 65 bytes, as the sinks make them. -/
def realKeys : Keys := ⟨List.replicate 32 97, List.replicate 65 4⟩

/-- The arrays of a header on a stack of zeros. -/
def zeroStack : Keys := ⟨List.replicate 32 0, List.replicate 128 0⟩

def ioOfOpen (opens : Bool) : Io :=
  ⟨"20260311053351", opens, ⟨none, 0⟩, ⟨none, 0⟩, zeroStack⟩

def demoConf : Conf := ⟨"loggerdemo", 4194304⟩

def freshEffective : FileSink Unit := SinkName.effective.initial [] [] [] ()

def pendingEffective : FileSink Unit :=
  { freshEffective with cache := ItemHeader.bytes 2 ++ [104, 105], isSlaveFree := false }

theorem cacheToFile_lossless_iff_effective :
    Lossless .effective demoConf realKeys id (ioOfOpen true) pendingEffective := by
  refine (cacheToFile_lossless_iff .effective demoConf realKeys id [] [] [] ()
    [.writeToCache [104, 105], .swapCache] pendingEffective rfl (ioOfOpen true)).mpr ?_
  exact Or.inr (Or.inr ⟨rfl, Nat.le_refl _, Nat.le_refl _⟩)

/-- The open fails, and the item is neither in a buffer nor in a file any more. -/
theorem failedOpen_loses_item :
    run (SinkName.effective.step demoConf realKeys id) freshEffective
        [.writeToCache [104, 105], .swapCache] = some pendingEffective ∧
      SinkName.effective.cacheToFile demoConf realKeys id (ioOfOpen false) pendingEffective =
        { freshEffective with
          filePath := "loggerdemo_20260311053351.log", ofs := ⟨none, true⟩ } ∧
      ¬ Lossless .effective demoConf realKeys id (ioOfOpen false) pendingEffective := by
  refine ⟨rfl, rfl, ?_⟩
  have hpresent : pendingEffective.Present := by
    intro file hmem
    cases hmem
  have hcache : pendingEffective.cache ≠ [] := by decide
  rw [lossless_iff_accepts hpresent]
  rintro (hstop | hempty | haccepts)
  · exact hstop fun _ => ⟨rfl, hcache⟩
  · exact hcache hempty
  · exact Bool.false_ne_true haccepts.1

end SinkName

end FlashLog.Sinks
