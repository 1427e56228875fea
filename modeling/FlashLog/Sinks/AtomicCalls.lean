import FlashLog.Sinks.ItemStream
import FlashLog.Sinks.LogFiles
import FlashLog.Sinks.MMapCallers

/-!
`EffectiveSink` from the constructor to the destructor with each call taken as one step, down
to the bytes in its mapped files and its log files. `CacheToFile_` may run at any step: every
order of the posted tasks is one of these runs. The buffers are byte strings in mapped files, so
a run shows as one of the file sink.
-/

set_option autoImplicit false
set_option relaxedAutoImplicit false

namespace FlashLog.Sinks.AtomicCalls

open FlashLog.Support
open FlashLog.Mmap
open FlashLog.Mmap.MMapAux (Holds Continues construct_holds)
open FlashLog.Sinks.ItemStream (Env Encoder Item)

/-- What `Compress` returned to a `Log`, and whether that `Log` had called `ResetStream`. -/
structure Output where
  bytes : Bytes
  afterReset : Bool
  deriving DecidableEq

structure Sink (E : Env) where
  encoder : Encoder E.z
  masterMmap : MMapAux
  slaveMmap : MMapAux
  disk : Disk
  isSlaveFree : Bool
  filePath : String
  ofs : OfStream
  dir : LogDir
  /-- in the order of the calls -/
  outputs : List Output

variable {E : Env}

def Sink.fileSink (s : Sink E) (master cache : Bytes) : FileSink (Encoder E.z) where
  filePath := s.filePath
  ofs := s.ofs
  dir := s.dir
  cache := cache
  master := master
  isSlaveFree := s.isSlaveFree
  compress := s.encoder

def compressed (e : Encoder E.z) (text : Bytes) : List Bytes :=
  let buf := e.compressBuf.reserve E.impl (E.z.compressBound text.length)
  let output := (e.compress.compress text buf.capacity).2
  if output.isEmpty then [] else [output]

section Encode

variable {e e' : Encoder E.z} {text : Bytes}

theorem compressed_of_none (encrypts : E.Encrypts) (h : e.encode text = (e', none)) :
    compressed e text = [] := by
  have encodes := ItemStream.encode_cases e text
  rw [h] at encodes
  cases encodes with
  | nothing compress buf hcompress => rw [compressed, hcompress]; rfl
  | unencrypted compress buf output hcompress houtput hdata =>
    exact absurd hdata (encrypts output houtput)

theorem compressed_of_some {x : Item} (h : e.encode text = (e', some x)) :
    compressed e text = [x.compressed] ∧ x.data = E.crypto.encrypt E.lib x.compressed := by
  have encodes := ItemStream.encode_cases e text
  rw [h] at encodes
  cases encodes with
  | item compress buf output hcompress houtput =>
    refine ⟨?_, rfl⟩
    have hisEmpty : ¬ output.isEmpty = true := fun htrue => houtput (List.isEmpty_iff.mp htrue)
    rw [compressed, hcompress, if_neg hisEmpty]

end Encode

section Calls

variable (conf : Conf) (keys : Keys) (page : Nat) (s : Sink E)

def Sink.swapCache : Sink E :=
  if s.isSlaveFree then
    { s with isSlaveFree := false, masterMmap := s.slaveMmap, slaveMmap := s.masterMmap }
  else s

def Sink.cacheToFile (io : Io) : Except Fault (Sink E) := do
  if s.isSlaveFree then return s
  let size ← s.slaveMmap.size s.disk
  if size = 0 then return { s with isSlaveFree := true }
  let header := (ChunkHeader.onStack io.stack size).copyKeys keys
  let data ← s.slaveMmap.contents s.disk
  let file := (s.fileSink [] data).putChunk conf "" header io
  let (slaveMmap, disk) ← s.slaveMmap.clear s.disk
  return { s with
    slaveMmap, disk, filePath := file.filePath, ofs := file.ofs, dir := file.dir
    isSlaveFree := true }

def Sink.log (text : Bytes) (filled : Bool) : Except Fault (Sink E) := do
  let size ← s.masterMmap.size s.disk
  let encoder := if size = 0 then s.encoder.resetStream else s.encoder
  let outputs := s.outputs ++ (compressed encoder text).map (⟨·, decide (size = 0)⟩)
  match encoder.encode text with
  | (encoder, none) => return { s with encoder, outputs }
  | (encoder, some item) =>
    let (masterMmap, disk) ← MMapCallers.writeToCache page s.masterMmap s.disk item.data
    let s := { s with encoder, masterMmap, disk, outputs }
    return if filled then s.swapCache else s

def Sink.flush (io io' : Io) : Except Fault (Sink E) := do
  let s ← s.cacheToFile conf keys io
  s.swapCache.cacheToFile conf keys io'

/-- The constructor, behind the generation of the keys. Its first task may run later, or at the
wait. -/
def construct (disk : Disk) (dir : LogDir) (io : Io) : Except Fault (Sink E) := do
  let (masterMmap, disk) ← MMapAux.construct .working page "master_mmap" disk
  let (slaveMmap, disk) ← MMapAux.construct .working page "slave_mmap" disk
  let slaveSize ← slaveMmap.size disk
  let masterSize ← masterMmap.size disk
  let s : Sink E :=
    { encoder := Encoder.new E, masterMmap, slaveMmap, disk, isSlaveFree := decide (slaveSize = 0)
      filePath := "", ofs := ⟨none, false⟩, dir, outputs := [] }
  if masterSize = 0 then return s
  let s ← s.cacheToFile conf keys io
  return s.swapCache

def Sink.destroy : LogDir := (s.ofs.close s.dir).2

inductive Label
  | log (text : Bytes) (filled : Bool)
  | flush (io io' : Io)
  | cacheToFile (io : Io)

def step : Label → Option (Sink E)
  | .log text filled => (s.log page text filled).toOption
  | .flush io io' => (s.flush conf keys io io').toOption
  | .cacheToFile io => (s.cacheToFile conf keys io).toOption

/-- The log file opens, the stream takes everything, and the clock has a date. -/
structure Fine (io : Io) : Prop where
  working : io.Working
  dated : Dated io.time
  arrays : io.stack.iv.length = 32 ∧ io.stack.pubKey.length = 128

/-- What `Log` pushes keeps the buffer below 2^32 bytes, and input and output work. -/
def Allowed (s : Sink E) : Label → Prop
  | .log text _ => ∀ size, s.masterMmap.size s.disk = .ok size → ∀ item,
    ((if size = 0 then s.encoder.resetStream else s.encoder).encode text).2 = some item →
      size + ItemHeader.length + item.data.length < 2 ^ 32
  | .flush io io' => Fine io ∧ Fine io'
  | .cacheToFile io => Fine io

end Calls

/-- The encoder for the next message: `Log` resets it if the master buffer is empty. -/
def opened (f : FileSink (Encoder E.z)) : Encoder E.z :=
  if f.master.length = 0 then f.compress.resetStream else f.compress

def nextOutputs (f : FileSink (Encoder E.z)) (text : Bytes) : List Output :=
  (compressed (opened f) text).map (⟨·, decide (f.master.length = 0)⟩)

def logged (text : Bytes) (filled : Bool) (f : FileSink (Encoder E.z)) : FileSink (Encoder E.z) :=
  match (opened f).encode text with
  | (compress, none) => { f with compress }
  | (compress, some item) =>
    let f := SinkName.effective.writeToCache item.data { f with compress }
    if filled then SinkName.swapCache f else f

section Refinement

variable {conf : Conf} {keys : Keys} {page : Nat} {s : Sink E} {f : FileSink (Encoder E.z)}

/-- The file sink holds what the mapped buffers hold, and the rest is the same. -/
structure Shows (s : Sink E) (f : FileSink (Encoder E.z)) : Prop where
  same : f = s.fileSink f.master f.cache
  master : Holds s.masterMmap s.disk f.master
  slave : Holds s.slaveMmap s.disk f.cache
  apart : s.masterMmap.filePath ≠ s.slaveMmap.filePath

theorem holds_of_continues {a b a' : MMapAux} {disk disk' : Disk} {bs : Bytes}
    (h : Holds b disk bs) (cont : Continues a disk a' disk') (apart : b.filePath ≠ a.filePath) :
    Holds b disk' bs := by
  have contents : disk'.contents b.filePath = disk.contents b.filePath := by
    rw [Disk.contents, Disk.contents, cont.others _ apart]
  obtain ⟨⟨mapped, named, covered, whole, valid⟩, fits, payload⟩ := h
  rw [← contents] at covered valid fits payload
  rw [← cont.rests _ apart] at whole
  exact ⟨⟨mapped, named, covered, whole, valid⟩, fits, payload⟩

theorem outputs_swapCache (s : Sink E) : s.swapCache.outputs = s.outputs := by
  rw [Sink.swapCache]
  split <;> rfl

theorem Shows.swapCache (h : Shows s f) : Shows s.swapCache (SinkName.swapCache f) := by
  obtain ⟨same, master, slave, apart⟩ := h
  have flag : f.isSlaveFree = s.isSlaveFree := by rw [same]; rfl
  rw [Sink.swapCache, SinkName.swapCache, flag]
  split
  · refine ⟨?_, slave, master, apart.symm⟩
    rw [same]
    rfl
  · exact ⟨same, master, slave, apart⟩

/-- What the shared body does to stream and files depends on the cache alone. -/
theorem putChunk_master {σ : Type} (conf : Conf) (flag : String) (header : ChunkHeader) (io : Io)
    (f : FileSink σ) (master : Bytes) :
    ({ f with master }).putChunk conf flag header io =
      { f.putChunk conf flag header io with master } := by
  have opened : ∀ path,
      ({ f with master }).openLog io path = { f.openLog io path with master } := by
    intro path
    simp only [FileSink.openLog]
    split
    · rfl
    · split <;> rfl
  simp only [FileSink.putChunk, opened]
  rfl

theorem putChunk_rest {σ : Type} (conf : Conf) (flag : String) (header : ChunkHeader) (io : Io)
    (f : FileSink σ) :
    (f.putChunk conf flag header io).master = f.master ∧
      (f.putChunk conf flag header io).compress = f.compress := by
  have opened : ∀ path, (f.openLog io path).master = f.master ∧
      (f.openLog io path).compress = f.compress := by
    intro path
    simp only [FileSink.openLog]
    split
    · exact ⟨rfl, rfl⟩
    · split <;> exact ⟨rfl, rfl⟩
  exact opened _

private theorem cacheToFile_bytes (master : Bytes) {cache : Bytes}
    (slave : Holds s.slaveMmap s.disk cache) (busy : ¬ s.isSlaveFree = true) (filled : cache ≠ [])
    (io : Io) :
    ∃ next, s.cacheToFile conf keys io = .ok next ∧
      next.fileSink master [] = EffectiveSink.cacheToFile conf keys io (s.fileSink master cache) ∧
      next.masterMmap = s.masterMmap ∧ next.slaveMmap = s.slaveMmap ∧
      Holds s.slaveMmap next.disk [] ∧ Continues s.slaveMmap s.disk s.slaveMmap next.disk ∧
      next.outputs = s.outputs := by
  have hlength : ¬ cache.length = 0 := fun hzero => filled (List.length_eq_zero_iff.mp hzero)
  obtain ⟨disk, hclear, holds, cont⟩ := slave.clear
  -- what the shared body does without the bytes of the master buffer
  let bare := (s.fileSink [] cache).putChunk conf ""
    ((ChunkHeader.onStack io.stack cache.length).copyKeys keys) io
  have hbare : bare =
      { (s.fileSink master cache).putChunk conf ""
          ((s.fileSink master cache).keyedHeader keys io) io with master := [] } :=
    putChunk_master conf "" _ io (s.fileSink master cache) []
  obtain ⟨hmaster, hcompress⟩ := putChunk_rest conf ""
    ((s.fileSink master cache).keyedHeader keys io) io (s.fileSink master cache)
  refine ⟨{ s with
    disk, filePath := bare.filePath, ofs := bare.ofs, dir := bare.dir, isSlaveFree := true },
    ?_, ?_, rfl, rfl, holds, cont, rfl⟩
  · simp only [Sink.cacheToFile, if_neg busy, slave.size, slave.contents, hclear, bind,
      Except.bind, if_neg hlength]
    rfl
  · rw [EffectiveSink.cacheToFile, FileSink.guarded_of_filled busy filled, hbare]
    simp only [Sink.fileSink, FileSink.mk.injEq]
    exact ⟨trivial, trivial, trivial, rfl, hmaster.symm, trivial, hcompress.symm⟩

theorem Shows.cacheToFile (h : Shows s f) (io : Io) :
    ∃ next, s.cacheToFile conf keys io = .ok next ∧
      Shows next (EffectiveSink.cacheToFile conf keys io f) ∧ next.outputs = s.outputs := by
  obtain ⟨same, master, slave, apart⟩ := h
  have flag : f.isSlaveFree = s.isSlaveFree := by rw [same]; rfl
  by_cases hfree : s.isSlaveFree = true
  · rw [EffectiveSink.cacheToFile, FileSink.guarded_of_free (flag.trans hfree)]
    refine ⟨s, ?_, ⟨same, master, slave, apart⟩, rfl⟩
    rw [Sink.cacheToFile, if_pos hfree]
    rfl
  · have busy : ¬ f.isSlaveFree = true := by
      rw [flag]
      exact hfree
    by_cases hempty : f.cache = []
    · have hlength : f.cache.length = 0 := List.length_eq_zero_iff.mpr hempty
      rw [EffectiveSink.cacheToFile, FileSink.guarded_of_empty busy hempty]
      refine ⟨{ s with isSlaveFree := true }, ?_, ⟨?_, master, slave, apart⟩, rfl⟩
      · simp only [Sink.cacheToFile, if_neg hfree, slave.size, bind, Except.bind, if_pos hlength]
        rfl
      · rw [same]
        rfl
    · obtain ⟨next, hcache, hfile, hmaster, hslave, holds, cont, houtputs⟩ :=
        cacheToFile_bytes f.master slave hfree hempty io
      rw [← same] at hfile
      refine ⟨next, hcache, ?_, houtputs⟩
      rw [← hfile]
      refine ⟨rfl, ?_, ?_, ?_⟩
      · rw [hmaster]
        exact holds_of_continues master cont apart
      · rw [hslave]
        exact holds
      · rw [hmaster, hslave]
        exact apart

theorem Shows.writeToCache (hpage : 0 < page) (h : Shows s f) {data : Bytes}
    (small : f.master.length + ItemHeader.length + data.length < 2 ^ 32) :
    ∃ masterMmap disk,
      MMapCallers.writeToCache page s.masterMmap s.disk data = .ok (masterMmap, disk) ∧
        ∀ (encoder : Encoder E.z) (outputs : List Output),
          Shows { s with encoder, masterMmap, disk, outputs }
            (SinkName.effective.writeToCache data { f with compress := encoder }) := by
  obtain ⟨same, master, slave, apart⟩ := h
  obtain ⟨masterMmap, disk, hwrite, holds, cont⟩ :=
    MMapCallers.writeToCache_holds hpage master small
  refine ⟨masterMmap, disk, hwrite, fun encoder outputs => ?_⟩
  rw [SinkName.writeToCache_effective]
  refine ⟨?_, holds, ?_, ?_⟩
  · rw [same]
    rfl
  · exact holds_of_continues slave cont apart.symm
  · show masterMmap.filePath ≠ s.slaveMmap.filePath
    rw [cont.filePath]
    exact apart

theorem Shows.log (hpage : 0 < page) (h : Shows s f) (text : Bytes) (filled : Bool)
    (small : ∀ item, ((opened f).encode text).2 = some item →
      f.master.length + ItemHeader.length + item.data.length < 2 ^ 32) :
    ∃ next, s.log page text filled = .ok next ∧ Shows next (logged text filled f) ∧
      next.outputs = s.outputs ++ nextOutputs f text := by
  have hencoder : f.compress = s.encoder := by rw [h.same]; rfl
  have hopened : (if f.master.length = 0 then s.encoder.resetStream else s.encoder) = opened f := by
    rw [← hencoder]
    rfl
  cases hencode : (opened f).encode text with
  | mk encoder item =>
    cases item with
    | none =>
      refine ⟨{ s with
        encoder, outputs := s.outputs ++ nextOutputs f text }, ?_, ?_, rfl⟩
      · simp only [Sink.log, h.master.size, bind, Except.bind, hopened, hencode]
        rfl
      · simp only [logged, hencode]
        refine ⟨?_, h.master, h.slave, h.apart⟩
        rw [h.same]
        rfl
    | some item =>
      have room := small item (by rw [hencode])
      obtain ⟨masterMmap, disk, hwrite, shows⟩ := h.writeToCache hpage room
      let outputs := s.outputs ++ nextOutputs f text
      have hlog : s.log page text filled =
          .ok (if filled then Sink.swapCache { s with encoder, masterMmap, disk, outputs }
            else { s with encoder, masterMmap, disk, outputs }) := by
        simp only [Sink.log, h.master.size, bind, Except.bind, hopened, hencode, hwrite]
        rfl
      simp only [logged, hencode]
      cases filled with
      | true => exact ⟨_, hlog, (shows encoder outputs).swapCache, outputs_swapCache _⟩
      | false => exact ⟨_, hlog, shows encoder outputs, rfl⟩

theorem construct_shows (hpage : 0 < page) (io : Io) :
    ∃ s : Sink E, construct conf keys page Disk.blank [] io = .ok s ∧
      Shows s (SinkName.effective.initial [] [] [] (Encoder.new E)) ∧ s.outputs = [] := by
  obtain ⟨masterMmap, disk, hmaster, master, hmasterPath, cont⟩ :=
    construct_holds hpage (by decide : "master_mmap" ≠ "")
      (show Disk.blank.contents "master_mmap" = [] from rfl)
  have absent : disk.contents "slave_mmap" = [] := by
    have untouched := cont.others "slave_mmap" (by rw [hmasterPath]; decide)
    rw [Disk.contents, untouched]
    rfl
  obtain ⟨slaveMmap, disk', hslave, slave, hslavePath, cont'⟩ :=
    construct_holds hpage (by decide : "slave_mmap" ≠ "") absent
  have apart : masterMmap.filePath ≠ slaveMmap.filePath := by
    rw [hmasterPath, hslavePath]
    decide
  have master' := holds_of_continues master cont' apart
  refine ⟨{
    encoder := Encoder.new E, masterMmap, slaveMmap, disk := disk', isSlaveFree := true
    filePath := "", ofs := ⟨none, false⟩, dir := [], outputs := [] }, ?_,
    ⟨rfl, master', slave, apart⟩, rfl⟩
  simp only [construct, hmaster, hslave, bind, Except.bind, slave.size, master'.size]
  rfl

end Refinement

end FlashLog.Sinks.AtomicCalls
