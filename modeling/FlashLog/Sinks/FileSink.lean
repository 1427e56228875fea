import Mathlib.Data.List.Infix
import FlashLog.Mmap.MemoryBuffer
import FlashLog.Sinks.Format

/-!
`CacheToFile_` of the seven file sinks: the path of the current log file, the output
stream, and the header and payload of a chunk.
-/

set_option autoImplicit false
set_option relaxedAutoImplicit false

namespace FlashLog.Sinks

open FlashLog.Support
open FlashLog.Mmap (MemoryBuffer StringImpl)

/-- The files in `conf_.file_dir` under their names, in the order the directory iterator
gives them. -/
abbrev LogDir := List (String × Bytes)

namespace LogDir

def contents (dir : LogDir) (name : String) : Bytes := (dir.lookup name).getD []

def create (dir : LogDir) (name : String) : LogDir :=
  if (dir.lookup name).isSome then dir else dir ++ [(name, [])]

def append (dir : LogDir) (name : String) (bs : Bytes) : LogDir :=
  dir.map fun file => if file.1 = name then (file.1, file.2 ++ bs) else file

end LogDir

/-- The members of `Conf` that choose a log file's name; names are relative to
`file_dir`, and `singleSize` counts bytes. -/
structure Conf where
  fileName : String
  singleSize : Nat

def kFileSuffix : String := ".log"

/-- `GetDataTimePath` at the formatted time. -/
def getDataTimePath (conf : Conf) (time : String) : String := conf.fileName ++ "_" ++ time

/-- `GetFilePath_` of a sink whose file names carry `flag`. -/
def getFilePath (conf : Conf) (flag time : String) (dir : LogDir) (filePath : String) : String :=
  let dataTimePath := getDataTimePath conf time
  if filePath = "" then dataTimePath ++ flag ++ kFileSuffix
  else if conf.singleSize < (dir.contents filePath).length then
    let newFilePath := dataTimePath ++ flag ++ kFileSuffix
    if (dir.lookup newFilePath).isSome then
      let index := dir.countP fun file => decide (dataTimePath.toList <:+: file.1.toList)
      dataTimePath ++ flag ++ "_" ++ toString index ++ kFileSuffix
    else newFilePath
  else filePath

/-- An open file of an `ofstream`, and the bytes written to it that the stream still holds. -/
structure OpenFile where
  name : String
  buffer : Bytes

/-- An `ofstream`; `failed` is its `failbit` or `badbit`. -/
structure OfStream where
  file : Option OpenFile
  failed : Bool

/-- How a `write` goes while the stream is good: how many bytes the stream takes (`none`
for all), and how many of the held bytes it hands on to the file. -/
structure WriteOutcome where
  taken : Option Nat
  handed : Nat

/-- The outcome takes all of `n` bytes. -/
def WriteOutcome.Whole (outcome : WriteOutcome) (n : Nat) : Prop := n ≤ outcome.taken.getD n

/-- The outcomes of one `CacheToFile_`, the clock's reading and the uninitialised bytes
of its chunk header. -/
structure Io where
  time : String
  opens : Bool
  header : WriteOutcome
  payload : WriteOutcome
  stack : Keys

namespace OfStream

/-- `open` in append mode, of a stream that is not open. Success clears the error state. -/
def openFile (ofs : OfStream) (dir : LogDir) (name : String) (opens : Bool) : OfStream × LogDir :=
  if opens then (⟨some ⟨name, []⟩, false⟩, dir.create name) else ({ ofs with failed := true }, dir)

/-- `close`: the held bytes reach the file; the error state stays. -/
def close (ofs : OfStream) (dir : LogDir) : OfStream × LogDir :=
  match ofs.file with
  | none => (ofs, dir)
  | some file => ({ ofs with file := none }, dir.append file.name file.buffer)

def write (ofs : OfStream) (dir : LogDir) (bs : Bytes) (outcome : WriteOutcome) :
    OfStream × LogDir :=
  if ofs.failed then (ofs, dir)
  else
    match ofs.file with
    | none => ({ ofs with failed := !bs.isEmpty }, dir)
    | some file =>
      let taken := bs.take (outcome.taken.getD bs.length)
      let buffer := file.buffer ++ taken
      (⟨some { file with buffer := buffer.drop outcome.handed }, decide (taken.length < bs.length)⟩,
        dir.append file.name (buffer.take outcome.handed))

end OfStream

/-- What a file sink writes from and to. The compressor is kept for `CompressSink`, whose
`CacheToFile_` resets its stream, and the free flag for `EffectiveSink` and `AsyncSink`. -/
structure FileSink (σ : Type) where
  filePath : String
  ofs : OfStream
  dir : LogDir
  /-- the buffer that `CacheToFile_` writes: the slave buffer, or the only one -/
  cache : Bytes
  /-- the buffer that `WriteToCache_` pushes to, where there are two -/
  master : Bytes
  isSlaveFree : Bool
  compress : σ

namespace FileSink

variable {σ : Type}

/-- Open the current log file if it is not open, or if the path has changed. -/
def openLog (io : Io) (filePath : String) (s : FileSink σ) : FileSink σ :=
  match s.ofs.file with
  | none =>
    let (ofs, dir) := s.ofs.openFile s.dir filePath io.opens
    { s with ofs, dir, filePath }
  | some _ =>
    if s.filePath ≠ filePath then
      let (ofs, dir) := s.ofs.close s.dir
      let (ofs, dir) := ofs.openFile dir filePath io.opens
      { s with ofs, dir, filePath }
    else { s with filePath }

def writeOut (bs : Bytes) (outcome : WriteOutcome) (s : FileSink σ) : FileSink σ :=
  let (ofs, dir) := s.ofs.write s.dir bs outcome
  { s with ofs, dir }

/-- The body that the seven `CacheToFile_` share: choose the path, open the stream, write
header and payload, clear the cache. -/
def putChunk (conf : Conf) (flag : String) (header : ChunkHeader) (io : Io) (s : FileSink σ) :
    FileSink σ :=
  let opened := s.openLog io (getFilePath conf flag io.time s.dir s.filePath)
  let written := (opened.writeOut header.bytes io.header).writeOut s.cache io.payload
  { written with cache := [] }

/-- The free flag's test, the test of the slave buffer, and the flag's release. -/
def guarded (body : FileSink σ → FileSink σ) (s : FileSink σ) : FileSink σ :=
  if s.isSlaveFree then s
  else if s.cache.isEmpty then { s with isSlaveFree := true }
  else { body s with isSlaveFree := true }

section Guarded

variable {body : FileSink σ → FileSink σ} {s : FileSink σ}

theorem guarded_of_free (free : s.isSlaveFree = true) : s.guarded body = s := if_pos free

theorem guarded_of_empty (busy : ¬ s.isSlaveFree = true) (empty : s.cache = []) :
    s.guarded body = { s with isSlaveFree := true } := by
  rw [guarded, if_neg busy, if_pos (List.isEmpty_iff.mpr empty)]

theorem guarded_of_filled (busy : ¬ s.isSlaveFree = true) (filled : s.cache ≠ []) :
    s.guarded body = { body s with isSlaveFree := true } := by
  have hcache : ¬ s.cache.isEmpty = true := fun htrue => filled (List.isEmpty_iff.mp htrue)
  rw [guarded, if_neg busy, if_neg hcache]

end Guarded

section OpenLog

theorem file_close (ofs : OfStream) (dir : LogDir) : (ofs.close dir).1.file = none := by
  rw [OfStream.close]
  split
  · assumption
  · rfl

theorem file_openFile {ofs : OfStream} (closed : ofs.file = none) (dir : LogDir) (name : String)
    (opens : Bool) : ∀ file ∈ (ofs.openFile dir name opens).1.file, file = ⟨name, []⟩ := by
  intro file hmem
  rw [OfStream.openFile] at hmem
  split at hmem
  · exact (Option.some.inj hmem).symm
  · rw [closed] at hmem
    cases hmem

variable {s : FileSink σ} (io : Io) {filePath : String}

theorem openLog_keeps (h : s.ofs.file.isSome ∧ s.filePath = filePath) :
    s.openLog io filePath = s := by
  obtain ⟨file, hfile⟩ := Option.isSome_iff_exists.mp h.1
  obtain rfl := h.2
  simp only [openLog, hfile, ne_eq, not_true_eq_false, if_false]

/-- Otherwise it is opened behind a `close`, which leaves a closed stream as it is. -/
theorem openLog_opens (h : ¬ (s.ofs.file.isSome ∧ s.filePath = filePath)) :
    s.openLog io filePath =
      { s with
        ofs := ((s.ofs.close s.dir).1.openFile (s.ofs.close s.dir).2 filePath io.opens).1
        dir := ((s.ofs.close s.dir).1.openFile (s.ofs.close s.dir).2 filePath io.opens).2
        filePath } := by
  cases hfile : s.ofs.file with
  | none => simp only [openLog, OfStream.close, hfile]
  | some file =>
    have other : s.filePath ≠ filePath := fun same => h ⟨by rw [hfile]; rfl, same⟩
    simp only [openLog, hfile, ne_eq, other, not_false_eq_true, if_true]

end OpenLog

end FileSink

section Sinks

variable {σ : Type} (conf : Conf) (keys : Keys) (resetStream : σ → σ) (io : Io) (s : FileSink σ)

def FileSink.plainHeader : ChunkHeader := .onStack io.stack s.cache.length

def FileSink.keyedHeader : ChunkHeader := (s.plainHeader io).copyKeys keys

def SimpleSink.cacheToFile : FileSink σ := s.putChunk conf "_simple" (s.plainHeader io) io

def ProtobufSink.cacheToFile : FileSink σ := s.putChunk conf "_protobuf" (s.plainHeader io) io

def MMapSink.cacheToFile : FileSink σ := s.putChunk conf "_mmap" (s.plainHeader io) io

def CryptoSink.cacheToFile : FileSink σ := s.putChunk conf "_crypto" (s.keyedHeader keys io) io

def CompressSink.cacheToFile : FileSink σ :=
  let s := s.putChunk conf "_compress" (s.plainHeader io) io
  { s with compress := resetStream s.compress }

def AsyncSink.cacheToFile : FileSink σ :=
  s.guarded fun s => s.putChunk conf "_async" (s.plainHeader io) io

def EffectiveSink.cacheToFile : FileSink σ :=
  s.guarded fun s => s.putChunk conf "" (s.keyedHeader keys io) io

end Sinks

inductive SinkName
  | effective | async | mmap | simple | protobuf | compress | crypto
  deriving DecidableEq

namespace SinkName

variable {σ : Type}

def doubleBuffered : SinkName → Bool
  | .effective | .async => true
  | _ => false

def cacheToFile (name : SinkName) (conf : Conf) (keys : Keys) (resetStream : σ → σ) (io : Io)
    (s : FileSink σ) : FileSink σ :=
  match name with
  | .effective => EffectiveSink.cacheToFile conf keys io s
  | .async => AsyncSink.cacheToFile conf io s
  | .mmap => MMapSink.cacheToFile conf io s
  | .simple => SimpleSink.cacheToFile conf io s
  | .protobuf => ProtobufSink.cacheToFile conf io s
  | .compress => CompressSink.cacheToFile conf resetStream io s
  | .crypto => CryptoSink.cacheToFile conf keys io s

/-- The sinks whose buffers are `MMapAux` objects; the others have `MemoryBuffer` objects. -/
def mapped : SinkName → Bool
  | .effective | .mmap => true
  | _ => false

/-- `Push` on a buffer of the sink. The `resize` at the end of `MemoryBuffer::Push` puts zeros over
the bytes it has copied. -/
def push (name : SinkName) (buffer bs : Bytes) : Bytes :=
  buffer ++ if name.mapped then bs else List.replicate bs.length 0

theorem push_memoryBuffer {name : SinkName} (h : name.mapped = false) (impl : StringImpl)
    (b : MemoryBuffer) (bs : Bytes) : name.push b.contents bs = (b.push impl bs).contents := by
  rw [push, h, MemoryBuffer.contents_push]
  rfl

/-- `WriteToCache_` of an item of size `item.length`. -/
def writeToCache (name : SinkName) (item : Bytes) (s : FileSink σ) : FileSink σ :=
  let pushed (buffer : Bytes) := name.push (name.push buffer (ItemHeader.bytes item.length)) item
  if name.doubleBuffered then { s with master := pushed s.master }
  else { s with cache := pushed s.cache }

theorem writeToCache_effective (item : Bytes) (s : FileSink σ) :
    SinkName.effective.writeToCache item s =
      { s with master := s.master ++ ItemHeader.framing.frame item } := by
  rw [Framing.frame, ← List.append_assoc]
  rfl

def swapCache (s : FileSink σ) : FileSink σ :=
  if s.isSlaveFree then { s with isSlaveFree := false, master := s.cache, cache := s.master } else s

/-- A new sink in a directory; `EffectiveSink` and `MMapSink` find what an earlier process
left in the mapped buffers. -/
def initial (name : SinkName) (dir : LogDir) (masterFile slaveFile : Bytes) (compress : σ) :
    FileSink σ :=
  match name with
  | .effective =>
    { filePath := "", ofs := ⟨none, false⟩, dir, cache := slaveFile, master := masterFile
      isSlaveFree := slaveFile.isEmpty, compress }
  | .mmap =>
    { filePath := "", ofs := ⟨none, false⟩, dir, cache := masterFile, master := []
      isSlaveFree := true, compress }
  | _ =>
    { filePath := "", ofs := ⟨none, false⟩, dir, cache := [], master := []
      isSlaveFree := true, compress }

inductive Action
  | writeToCache (item : Bytes)
  | swapCache
  | cacheToFile (io : Io)

def step (name : SinkName) (conf : Conf) (keys : Keys) (resetStream : σ → σ) (s : FileSink σ) :
    Action → Option (FileSink σ)
  | .writeToCache item => some (name.writeToCache item s)
  | .swapCache => if name.doubleBuffered then some (swapCache s) else none
  | .cacheToFile io => some (name.cacheToFile conf keys resetStream io s)

end SinkName

end FlashLog.Sinks
