import FlashLog.Sinks.LogFiles
import FlashLog.Sinks.EliminateFiles

/-!
`EffectiveSink` with its directory over time: `CacheToFile_` writes and rotates, and
`EliminateFiles_` removes files.
-/

set_option autoImplicit false
set_option relaxedAutoImplicit false

namespace FlashLog.Sinks

open FlashLog.Support

namespace LogDir

def remove (dir : LogDir) (names : List String) : LogDir :=
  dir.filter fun file => file.1 ∉ names

def logFiles (dir : LogDir) (writeTime : String → Int) : List DirectoryEntry :=
  dir.map fun file => ⟨file.1, UInt64.ofNat file.2.length, writeTime file.1⟩

theorem lookup_remove {dir : LogDir} {names : List String} {name : String} (h : name ∉ names) :
    (dir.remove names).lookup name = dir.lookup name := by
  induction dir with
  | nil => rfl
  | cons file dir ih =>
    by_cases gone : file.1 ∈ names
    · have hne : (name == file.1) = false := by
        rw [beq_eq_false_iff_ne]
        rintro rfl
        exact h gone
      rw [remove, List.filter_cons_of_neg (by simpa using gone), List.lookup_cons, hne]
      exact ih
    · rw [remove, List.filter_cons_of_pos (by simpa using gone), List.lookup_cons, List.lookup_cons]
      cases name == file.1 with
      | true => rfl
      | false => exact ih

theorem not_mem_of_lookup_remove {dir : LogDir} {names : List String} {name : String}
    (there : ((dir.remove names).lookup name).isSome) : name ∉ names := by
  obtain ⟨file, hfile, same⟩ := List.lookup_isSome_iff.mp there
  have kept := (List.mem_filter.mp hfile).2
  rw [← beq_iff_eq.mp same] at kept
  simpa using kept

end LogDir

namespace FileSink

variable {σ : Type}

def Named (s : FileSink σ) : Prop := ∀ file ∈ s.ofs.file, file.name = s.filePath

theorem named_openLog {s : FileSink σ} (io : Io) (filePath : String) (h : s.Named) :
    ∀ file ∈ (s.openLog io filePath).ofs.file, file.name = filePath := by
  by_cases keeps : s.ofs.file.isSome ∧ s.filePath = filePath
  · rw [openLog_keeps io keeps]
    intro file hfile
    exact (h file hfile).trans keeps.2
  · rw [openLog_opens io keeps]
    intro file hfile
    rw [file_openFile (file_close s.ofs s.dir) _ _ _ file hfile]

theorem named_writeOut {s : FileSink σ} (bs : Bytes) (outcome : WriteOutcome) {name : String}
    (h : ∀ file ∈ s.ofs.file, file.name = name) :
    ∀ file ∈ (s.writeOut bs outcome).ofs.file, file.name = name := by
  intro file hmem
  by_cases hfailed : s.ofs.failed = true
  · rw [writeOut_failed _ _ hfailed] at hmem
    exact h file hmem
  · cases hfile : s.ofs.file with
    | none => simp [writeOut, OfStream.write, hfailed, hfile] at hmem
    | some old =>
      have same : file.name = old.name := by
        simp only [writeOut, OfStream.write, hfailed, hfile] at hmem
        obtain rfl := Option.some.inj hmem
        rfl
      exact same.trans (h old hfile)

variable (conf : Conf) (flag : String) (header : ChunkHeader) (io : Io) {s : FileSink σ}

theorem filePath_putChunk : (s.putChunk conf flag header io).filePath =
    getFilePath conf flag io.time s.dir s.filePath := filePath_openLog io _

theorem named_putChunk (h : s.Named) : (s.putChunk conf flag header io).Named := by
  have opened := named_openLog io (getFilePath conf flag io.time s.dir s.filePath) h
  have written := named_writeOut s.cache io.payload (named_writeOut header.bytes io.header opened)
  intro file hfile
  rw [filePath_putChunk]
  exact written file hfile

theorem putChunk_lands (present : s.Present) (named : s.Named)
    (usable : s.Usable io (getFilePath conf flag io.time s.dir s.filePath))
    (hheader : io.header.Whole header.bytes.length) (hpayload : io.payload.Whole s.cache.length) :
    (s.putChunk conf flag header io).stored (s.putChunk conf flag header io).filePath =
      s.stored (s.putChunk conf flag header io).filePath ++ (header.bytes ++ s.cache) := by
  obtain ⟨file, hofs⟩ := openLog_usable io _ usable
  have hname := named_openLog io _ named file (by rw [hofs]; rfl)
  have gains := putChunk_headerWhole conf flag header io present rfl hofs hheader file.name
  rw [if_pos rfl, List.take_of_length_le hpayload] at gains
  rw [filePath_putChunk, ← hname]
  exact gains

end FileSink

namespace EffectiveSink

variable {σ : Type}

instance (dir files : List DirectoryEntry) : Decidable (NewestFirst dir files) :=
  decidable_of_iff (files.Perm (dir.filter fun file => extension file.name = kFileSuffix) ∧
      files.Pairwise fun file older => older.writeTime ≤ file.writeTime)
    ⟨fun h => ⟨h.1, h.2⟩, fun h => ⟨h.perm, h.sorted⟩⟩

/-- The members that touch the caches and the files. `EliminateFiles_` finds the write times and
the sorted files it is given. -/
inductive Call
  | sink (a : SinkName.Action)
  | eliminateFiles (writeTime : String → Int) (files : List DirectoryEntry)

variable (conf : Conf) (totalSize : UInt64) (keys : Keys) (resetStream : σ → σ)

def call (s : FileSink σ) : Call → Option (FileSink σ)
  | .sink a => SinkName.effective.step conf keys resetStream s a
  | .eliminateFiles writeTime files =>
    if NewestFirst (s.dir.logFiles writeTime) files then
      some { s with
        dir := s.dir.remove ((eliminateFiles totalSize files).2.map DirectoryEntry.name) }
    else none

variable {conf totalSize keys resetStream} {s next : FileSink σ}

theorem call_eliminateFiles {writeTime : String → Int} {files : List DirectoryEntry}
    (h : call conf totalSize keys resetStream s (.eliminateFiles writeTime files) = some next) :
    NewestFirst (s.dir.logFiles writeTime) files ∧
      next = { s with
        dir := s.dir.remove ((eliminateFiles totalSize files).2.map DirectoryEntry.name) } := by
  rw [call] at h
  split at h
  · rename_i order
    exact ⟨order, (Option.some.inj h).symm⟩
  · cases h

theorem swapCache_caches (s : FileSink σ) : ∃ cache master free,
    SinkName.swapCache s = { s with cache, master, isSlaveFree := free } := by
  rw [SinkName.swapCache]
  split
  · exact ⟨_, _, _, rfl⟩
  · exact ⟨s.cache, s.master, s.isSlaveFree, rfl⟩

/-- With a usable stream that holds `buffer`, a chunk goes behind it, and of both as many bytes
reach the file as are handed on with the payload. -/
theorem cacheToFile_working {io : Io} {name : String} {buffer : Bytes} {dir : LogDir}
    (busy : s.isSlaveFree = false) (filled : s.cache ≠ [])
    (opened : s.openLog io (getFilePath conf "" io.time s.dir s.filePath) =
      { s with filePath := name, ofs := ⟨some ⟨name, buffer⟩, false⟩, dir })
    (header : io.header = ⟨none, 0⟩) (payload : io.payload.taken = none) {bs : Bytes}
    (chunk : buffer ++ ((SinkName.effective.header keys io s).bytes ++ s.cache) = bs) :
    SinkName.effective.cacheToFile conf keys resetStream io s =
      { s with
        filePath := name, ofs := ⟨some ⟨name, bs.drop io.payload.handed⟩, false⟩
        dir := dir.append name (bs.take io.payload.handed), cache := [], isSlaveFree := true } := by
  have kept : io.header.taken = none := by rw [header]
  have none : dir.append name [] = dir := by simp [LogDir.append]
  rw [SinkName.cacheToFile, cacheToFile,
    FileSink.guarded_of_filled (by rw [busy]; exact Bool.false_ne_true) filled, FileSink.putChunk,
    opened, FileSink.writeOut_working rfl _ kept, FileSink.writeOut_working rfl _ payload, ← chunk]
  simp only [header, List.take_zero, List.drop_zero, none, List.append_assoc]
  rfl

theorem named_step {a : SinkName.Action} (h : s.Named)
    (hstep : SinkName.effective.step conf keys resetStream s a = some next) : next.Named := by
  cases a with
  | writeToCache item =>
    obtain rfl := Option.some.inj hstep
    exact h
  | swapCache =>
    obtain rfl := Option.some.inj hstep
    obtain ⟨cache, master, free, hswap⟩ := swapCache_caches s
    rw [hswap]
    exact h
  | cacheToFile io =>
    obtain rfl := Option.some.inj hstep
    by_cases hwrites : SinkName.effective.Writes s
    · obtain ⟨free, compress, hnext⟩ :=
        SinkName.cacheToFile_of_writes .effective conf keys resetStream io s hwrites
      rw [hnext]
      exact FileSink.named_putChunk conf _ _ io h
    · obtain ⟨free, hnext⟩ :=
        SinkName.cacheToFile_of_not_writes .effective conf keys resetStream io s hwrites
      rw [hnext]
      exact h

end EffectiveSink

end FlashLog.Sinks
