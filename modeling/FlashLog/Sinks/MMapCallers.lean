import Mathlib.Logic.Function.Basic
import FlashLog.Mmap.MappedBytes
import FlashLog.Sinks.Format
import FlashLog.Support.Machine

/-!
`MMapSink` with any number of callers, down to the bytes of its mapped file. One label is one
`mtx_` section: `WriteToCache_`, `NeedWriteToFile_` or `CacheToFile_`. A message is the text its
formatter made of it, the outcome of `GetRatio() > 0.8` is left open, and which file a chunk
goes to is left out.
-/

set_option autoImplicit false
set_option relaxedAutoImplicit false

namespace FlashLog.Sinks.MMapCallers

open FlashLog.Support
open FlashLog.Support.Machine (run Meets run_invariant)
open FlashLog.Mmap
open FlashLog.Mmap.MMapAux (Holds Continues)

inductive Pc
  | idle
  | ctor
  | writeToCache (text : Bytes)
  | needWrite
  | cacheToFile
  deriving DecidableEq

/-- What `CacheToFile_` hands to the stream: `chunk_header.size` and the bytes behind it. -/
structure Chunk where
  size : Nat
  payload : Bytes
  deriving DecidableEq

structure Sink (T : Type) where
  aux : MMapAux
  disk : Disk
  pc : T → Pc
  constructed : Bool
  written : List Chunk
  /-- every text `WriteToCache_` has pushed, in the order of the lock -/
  logged : List Bytes
  fault : Option Fault

inductive Label (T : Type)
  | log (t : T) (text : Bytes)
  | flush (t : T)
  | thread (t : T) (filled : Bool)
  deriving DecidableEq

/-- `WriteToCache_`: the item's header and its bytes are two calls of `Push`. -/
def writeToCache (page : Nat) (aux : MMapAux) (disk : Disk) (text : Bytes) :
    Except Fault (MMapAux × Disk) := do
  let (aux, disk) ← aux.push .working page disk (ItemHeader.bytes text.length)
  aux.push .working page disk text

def cacheToFile (aux : MMapAux) (disk : Disk) : Except Fault (Chunk × MMapAux × Disk) := do
  let size ← aux.size disk
  let payload ← aux.contents disk
  let (aux, disk) ← aux.clear disk
  return (⟨size, payload⟩, aux, disk)

variable {T : Type} [DecidableEq T]

def initial (t : T) (aux : MMapAux) (disk : Disk) : Sink T :=
  { aux, disk, pc := Function.update (fun _ => .idle) t .ctor, constructed := false
    written := [], logged := [], fault := none }

def Sink.goto (s : Sink T) (t : T) (pc : Pc) : Sink T :=
  { s with pc := Function.update s.pc t pc }

def threadStep (page : Nat) (s : Sink T) (t : T) (filled : Bool) : Option (Sink T) :=
  match s.pc t with
  | .idle => none
  | .ctor =>
    match s.aux.size s.disk with
    | .error fault => some { s with fault := some fault }
    | .ok size =>
      some (if size = 0 then { s with constructed := true }.goto t .idle
        else s.goto t .cacheToFile)
  | .writeToCache text =>
    match writeToCache page s.aux s.disk text with
    | .error fault => some { s with fault := some fault }
    | .ok (aux, disk) =>
      some ({ s with aux, disk, logged := s.logged ++ [text] }.goto t .needWrite)
  | .needWrite => some (s.goto t (if filled then .cacheToFile else .idle))
  | .cacheToFile =>
    match cacheToFile s.aux s.disk with
    | .error fault => some { s with fault := some fault }
    | .ok (chunk, aux, disk) =>
      some ({ s with
        aux, disk, written := s.written ++ [chunk], constructed := true }.goto t .idle)

def enter (s : Sink T) (t : T) (pc : Pc) : Option (Sink T) :=
  match s.pc t with
  | .idle => if s.constructed then some (s.goto t pc) else none
  | _ => none

def step (page : Nat) (s : Sink T) (a : Label T) : Option (Sink T) :=
  match s.fault with
  | some _ => none
  | none =>
    match a with
    | .log t text => enter s t (.writeToCache text)
    | .flush t => enter s t .cacheToFile
    | .thread t filled => threadStep page s t filled

/-- What `WriteToCache_` is about to push keeps the buffer below 2^32 bytes. -/
def BufferSmall (s : Sink T) : Label T → Prop
  | .thread t _ => ∀ text size, s.pc t = .writeToCache text → s.aux.size s.disk = .ok size →
      size + ItemHeader.length + text.length < 2 ^ 32
  | _ => True

instance (s : Sink T) : ∀ a : Label T, Decidable (BufferSmall s a)
  | .log _ _ | .flush _ => inferInstanceAs (Decidable True)
  | .thread t _ =>
    match hpc : s.pc t, hsize : s.aux.size s.disk with
    | .writeToCache text, .ok size =>
      decidable_of_iff (size + ItemHeader.length + text.length < 2 ^ 32)
        (by simp [BufferSmall, hpc, hsize])
    | .idle, _ | .ctor, _ | .needWrite, _ | .cacheToFile, _ | .writeToCache _, .error _ =>
      .isTrue (by simp [BufferSmall, hpc, hsize])

section Sections

variable {page : Nat} {aux : MMapAux} {disk : Disk} {bs : Bytes}

theorem writeToCache_holds (hpage : 0 < page) (h : Holds aux disk bs) {text : Bytes}
    (small : bs.length + ItemHeader.length + text.length < 2 ^ 32) :
    ∃ aux' disk', writeToCache page aux disk text = .ok (aux', disk') ∧
      Holds aux' disk' (bs ++ ItemHeader.framing.frame text) ∧ Continues aux disk aux' disk' := by
  obtain ⟨aux₁, disk₁, hheader, holds₁, cont₁⟩ : ∃ aux₁ disk₁,
      aux.push .working page disk (ItemHeader.bytes text.length) = .ok (aux₁, disk₁) ∧
        Holds aux₁ disk₁ (bs ++ ItemHeader.bytes text.length) ∧
        Continues aux disk aux₁ disk₁ :=
    h.push hpage (by rw [ItemHeader.length_bytes]; omega)
  obtain ⟨aux₂, disk₂, hdata, holds₂, cont₂⟩ := holds₁.push hpage (x := text) (by
    rw [List.length_append, ItemHeader.length_bytes]
    exact small)
  refine ⟨aux₂, disk₂, ?_, ?_, cont₁.trans cont₂⟩
  · simp only [writeToCache, hheader, bind, Except.bind, hdata]
  · rw [List.append_assoc] at holds₂
    exact holds₂

theorem cacheToFile_holds (h : Holds aux disk bs) :
    ∃ disk', cacheToFile aux disk = .ok (⟨bs.length, bs⟩, aux, disk') ∧ Holds aux disk' [] := by
  obtain ⟨disk', hclear, holds, -⟩ := h.clear
  refine ⟨disk', ?_, holds⟩
  simp only [cacheToFile, h.size, h.contents, hclear, bind, Except.bind, pure, Except.pure]

end Sections

def chunkOf (items : List Bytes) : Chunk :=
  ⟨(ItemHeader.framing.frames items).length, ItemHeader.framing.frames items⟩

/-- Chunks and buffer hold whole items, those found at the start first and then the logged
ones in order. -/
structure Held (items : List Bytes) (s : Sink T) (groups : List (List Bytes))
    (last : List Bytes) : Prop where
  buffer : Holds s.aux s.disk (ItemHeader.framing.frames last)
  written : s.written = groups.map chunkOf
  small : ∀ g ∈ groups, (ItemHeader.framing.frames g).length < 2 ^ 32
  order : groups.flatten ++ last = items ++ s.logged

def Sink.Kept (items : List Bytes) (s : Sink T) : Prop :=
  s.fault = none ∧ ∃ groups last, Held items s groups last

theorem initial_kept {t : T} {aux : MMapAux} {disk : Disk} {items : List Bytes}
    (h : Holds aux disk (ItemHeader.framing.frames items)) : (initial t aux disk).Kept items :=
  ⟨rfl, [], items, h, rfl, nofun, (List.append_nil items).symm⟩

theorem Held.goto {items : List Bytes} {s : Sink T} {groups : List (List Bytes)}
    {last : List Bytes} (h : Held items s groups last) (t : T) (pc : Pc) :
    Held items (s.goto t pc) groups last :=
  ⟨h.buffer, h.written, h.small, h.order⟩

private theorem thread_kept {page : Nat} (hpage : 0 < page) {items : List Bytes} {s next : Sink T}
    {t : T} {filled : Bool} (inv : s.Kept items) (guard : BufferSmall s (.thread t filled))
    (h : threadStep page s t filled = some next) : next.Kept items := by
  obtain ⟨noFault, groups, last, held⟩ := inv
  cases hpc : s.pc t with
  | idle => simp [threadStep, hpc] at h
  | ctor =>
    simp only [threadStep, hpc, held.buffer.size] at h
    obtain rfl := Option.some.inj h
    split
    · exact ⟨noFault, groups, last, held.buffer, held.written, held.small, held.order⟩
    · exact ⟨noFault, groups, last, held.goto t _⟩
  | writeToCache text =>
    have room := guard text _ hpc held.buffer.size
    obtain ⟨aux, disk, hwrite, holds, -⟩ := writeToCache_holds hpage held.buffer room
    simp only [threadStep, hpc, hwrite] at h
    obtain rfl := Option.some.inj h
    refine ⟨noFault, groups, last ++ [text], ?_, held.written, held.small, ?_⟩
    · show Holds aux disk (ItemHeader.framing.frames (last ++ [text]))
      rw [Framing.frames_append, Framing.frames_singleton]
      exact holds
    · show groups.flatten ++ (last ++ [text]) = items ++ (s.logged ++ [text])
      rw [← List.append_assoc, held.order, List.append_assoc]
  | needWrite =>
    simp only [threadStep, hpc] at h
    obtain rfl := Option.some.inj h
    exact ⟨noFault, groups, last, held.goto t _⟩
  | cacheToFile =>
    obtain ⟨disk, hcache, holds⟩ := cacheToFile_holds held.buffer
    simp only [threadStep, hpc, hcache] at h
    obtain rfl := Option.some.inj h
    refine ⟨noFault, groups ++ [last], [], holds, ?_, ?_, ?_⟩
    · show s.written ++ [chunkOf last] = (groups ++ [last]).map chunkOf
      rw [held.written, List.map_append]
      rfl
    · intro g hg
      rcases List.mem_append.mp hg with hg | hg
      · exact held.small g hg
      · obtain rfl := List.mem_singleton.mp hg
        exact held.buffer.small
    · show (groups ++ [last]).flatten ++ [] = items ++ s.logged
      rw [List.flatten_append, List.append_nil, List.flatten_singleton]
      exact held.order

theorem enter_cases {s next : Sink T} {t : T} {pc : Pc} (h : enter s t pc = some next) :
    next = s.goto t pc := by
  unfold enter at h
  split at h
  · split at h
    · exact (Option.some.inj h).symm
    · cases h
  · cases h

theorem step_kept {page : Nat} (hpage : 0 < page) {items : List Bytes} {s next : Sink T}
    {a : Label T} (inv : s.Kept items) (guard : BufferSmall s a) (h : step page s a = some next) :
    next.Kept items := by
  obtain ⟨noFault, groups, last, held⟩ := inv
  simp only [step, noFault] at h
  cases a with
  | log t text =>
    obtain rfl := enter_cases h
    exact ⟨noFault, groups, last, held.goto t _⟩
  | flush t =>
    obtain rfl := enter_cases h
    exact ⟨noFault, groups, last, held.goto t _⟩
  | thread t filled => exact thread_kept hpage ⟨noFault, groups, last, held⟩ guard h

theorem run_kept {page : Nat} (hpage : 0 < page) {t : T} {aux : MMapAux} {disk : Disk}
    {items : List Bytes} (h : Holds aux disk (ItemHeader.framing.frames items))
    {as : List (Label T)} {s : Sink T}
    (meets : Meets (step page) BufferSmall (initial t aux disk) as)
    (hrun : run (step page) (initial t aux disk) as = some s) : s.Kept items :=
  run_invariant (fun _ _ _ inv guard hstep => step_kept hpage inv guard hstep) (initial_kept h)
    meets hrun

omit [DecidableEq T] in
theorem Held.payloads {items : List Bytes} {s : Sink T} {groups : List (List Bytes)}
    {last : List Bytes} (h : Held items s groups last) :
    s.written.flatMap Chunk.payload = ItemHeader.framing.frames groups.flatten := by
  rw [h.written, List.flatMap_map, Framing.frames_flatten]
  rfl

/-- In every reachable state, the chunks' payloads and then the mapped buffer hold what the
buffer held at the start and then every logged message behind its header, in the order of the
lock, and every chunk is a sequence of whole items. -/
theorem everyMessage_kept (page : Nat) (hpage : 0 < page) (t : T) (aux : MMapAux) (disk : Disk)
    (items : List Bytes) (hbuffer : Holds aux disk (ItemHeader.framing.frames items))
    (as : List (Label T)) (s : Sink T)
    (meets : Meets (step page) BufferSmall (initial t aux disk) as)
    (hrun : run (step page) (initial t aux disk) as = some s) :
    s.fault = none ∧
      (∃ buffer, s.aux.contents s.disk = .ok buffer ∧
        s.written.flatMap Chunk.payload ++ buffer =
          ItemHeader.framing.frames items ++
            s.logged.flatMap fun text => ItemHeader.bytes text.length ++ text) ∧
      ∀ c ∈ s.written, c.size = c.payload.length ∧
        ∃ whole, ItemHeader.framing.parse c.payload = some whole := by
  obtain ⟨noFault, groups, last, held⟩ := run_kept hpage hbuffer meets hrun
  refine ⟨noFault, ⟨_, held.buffer.contents, ?_⟩, ?_⟩
  · rw [held.payloads, ← Framing.frames_append, held.order, Framing.frames_append]
    rfl
  · intro c hc
    rw [held.written] at hc
    obtain ⟨g, hg, rfl⟩ := List.mem_map.mp hc
    exact ⟨rfl, g, ItemHeader.framing.parse_frames_of_lt (held.small g hg)⟩

def smallDisk : Disk :=
  Disk.blank.write "mmap" (Bytes.ofNatLE 4 kMagic ++ Bytes.ofNatLE 4 0 ++ List.replicate 8 0)

private theorem holds_smallDisk : Holds ⟨16, .mapped, "mmap"⟩ smallDisk [] := by
  have hcontents : smallDisk.contents "mmap" =
      Bytes.ofNatLE 4 kMagic ++ Bytes.ofNatLE 4 0 ++ List.replicate 8 0 :=
    Disk.contents_write _ _ (by decide)
  refine ⟨⟨rfl, by decide, ?_, Disk.rest_write _ _ (by decide), ?_⟩, ?_, ?_⟩
  · rw [hcontents]
    rfl
  · rw [hcontents]
    exact ⟨by decide, by decide⟩
  · rw [hcontents]
    decide
  · rw [hcontents]
    decide

/-- Two threads log while the first of them is about to write the buffer, which has grown under
its message of ten bytes; what the second logs after that stays in the buffer. -/
def logsOfTwo : List (Label Bool) :=
  [.thread false false, .log false (List.replicate 10 104), .log true [33], .thread true false,
    .thread false false, .thread true false, .log true [63, 63], .thread false true,
    .thread true false, .thread false false, .thread true false, .log true [46],
    .thread true false]

theorem everyMessage_kept_grown :
    ∃ s, run (step 16) (initial false ⟨16, .mapped, "mmap"⟩ smallDisk) logsOfTwo = some s ∧
      s.aux.capacity = 48 ∧ s.logged = [[33], List.replicate 10 104, [63, 63], [46]] ∧
      s.fault = none ∧
      (∃ buffer, s.aux.contents s.disk = .ok buffer ∧
        s.written.flatMap Chunk.payload ++ buffer =
          ItemHeader.framing.frames [] ++
            s.logged.flatMap fun text => ItemHeader.bytes text.length ++ text) ∧
      ∀ c ∈ s.written, c.size = c.payload.length ∧
        ∃ whole, ItemHeader.framing.parse c.payload = some whole := by
  obtain ⟨s, hs, hcapacity, hlogged⟩ : ∃ s,
      run (step 16) (initial false ⟨16, .mapped, "mmap"⟩ smallDisk) logsOfTwo = some s ∧
        s.aux.capacity = 48 ∧ s.logged = [[33], List.replicate 10 104, [63, 63], [46]] :=
    ⟨_, rfl, rfl, rfl⟩
  have meets : Meets (step 16) BufferSmall (initial false ⟨16, .mapped, "mmap"⟩ smallDisk)
      logsOfTwo := by decide +kernel
  exact ⟨s, hs, hcapacity, hlogged,
    everyMessage_kept 16 (by decide) false _ _ [] holds_smallDisk logsOfTwo s meets hs⟩

end FlashLog.Sinks.MMapCallers
