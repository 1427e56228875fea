import FlashLog.Sinks.DoubleBuffer
import FlashLog.Sinks.MMapCallers

/-!
`EffectiveSink` on its two mapped files, with the number of bytes pushed kept beside the 32 bits
of each header. The protocol is the one of `DoubleBuffer`, the tests of `Empty()` and the chunk
sizes come from the headers, and the outcome of `GetRatio() > 0.8` is left open.
-/

set_option autoImplicit false
set_option relaxedAutoImplicit false

namespace FlashLog.Sinks.BufferSizes

open FlashLog.Support
open FlashLog.Support.Machine (run Meets Passes run_passes_iff_meets)
open FlashLog.Mmap
open FlashLog.Mmap.Image
open FlashLog.Mmap.MMapAux (Ready)
open DoubleBuffer (Pipeline Pc afterPost afterWait)
open MMapCallers (writeToCache)

structure Buffer where
  aux : MMapAux
  /-- the bytes pushed since the last `Clear`, from those found at the start on -/
  pushed : Nat

/-- What one `WriteToCache_` pushed. -/
structure Item where
  header : Bytes
  payload : Bytes

structure Chunk (η : Type) where
  keys : η
  /-- `chunk_header.size` -/
  size : Nat
  /-- the bytes that had been pushed when the size was taken -/
  pushed : Nat
  payload : Bytes

inductive WorkerPc
  | idle
  | load
  | empty
  | size
  | write (size pushed : Nat)
  | clear
  | store

structure Sink (T σ μ η : Type) where
  stream : σ
  isSlaveFree : Bool
  master : Buffer
  slave : Buffer
  disk : Disk
  pc : T → Pc μ
  constructed : Bool
  queue : List (DoubleBuffer.Task T)
  notified : T → Bool
  worker : WorkerPc
  written : List (Chunk η)
  items : List Item
  fault : Option Fault

inductive Label (T μ : Type)
  | log (t : T) (m : μ)
  | flush (t : T)
  | thread (t : T) (filled : Bool)
  | worker

/-- `ofs_.write(slave_mmap_->Data(), size)`. -/
def readData (aux : MMapAux) (disk : Disk) (size : Nat) : Except Fault Bytes := do
  match ← aux.data disk with
  | none => throw .nullAccess
  | some off => aux.load disk off size

variable {T σ μ η : Type} [DecidableEq T]

def initial (t : T) (stream : σ) (master slave : Buffer) (disk : Disk) : Sink T σ μ η :=
  { stream, isSlaveFree := true, master, slave, disk
    pc := Function.update (fun _ => .idle) t .ctorSlave
    constructed := false, queue := [], notified := fun _ => false, worker := .idle
    written := [], items := [], fault := none }

/-- The two mappings of the constructor; what the headers say was pushed by an earlier process. -/
def construct (page : Nat) (t : T) (stream : σ) (masterFile slaveFile : Path) (disk : Disk) :
    Except Fault (Sink T σ μ η) := do
  let (master, disk) ← MMapAux.construct .working page masterFile disk
  let (slave, disk) ← MMapAux.construct .working page slaveFile disk
  return initial t stream ⟨master, ← master.size disk⟩ ⟨slave, ← slave.size disk⟩ disk

def Sink.goto (s : Sink T σ μ η) (t : T) (pc : Pc μ) : Sink T σ μ η :=
  { s with pc := Function.update s.pc t pc }

def Sink.postTask (s : Sink T σ μ η) (task : DoubleBuffer.Task T) : Sink T σ μ η :=
  { s with queue := s.queue ++ [task] }

def Sink.after {α : Type} (s : Sink T σ μ η) (result : Except Fault α)
    (next : α → Sink T σ μ η) : Option (Sink T σ μ η) :=
  match result with
  | .error fault => some { s with fault := some fault }
  | .ok value => some (next value)

def threadStep (page : Nat) (P : Pipeline σ μ Bytes η) (s : Sink T σ μ η) (t : T)
    (filled : Bool) : Option (Sink T σ μ η) :=
  match s.pc t with
  | .idle => none
  | .resetIfEmpty m =>
    s.after (s.master.aux.size s.disk) fun size =>
      { s with stream := if size = 0 then P.resetStream s.stream else s.stream }.goto t (.push m)
  | .push m =>
    match P.encode s.stream m with
    | (stream, none) => some ({ s with stream }.goto t .idle)
    | (stream, some x) =>
      s.after (writeToCache page s.master.aux s.disk x) fun result =>
        { s with
          stream, disk := result.2
          master := Buffer.mk result.1 (s.master.pushed + ItemHeader.length + x.length)
          items := s.items ++ [Item.mk (ItemHeader.bytes x.length) x] }.goto t .needWrite
  | .needWrite => some (s.goto t (if filled then .loadFree .log else .idle))
  | .loadFree k => some (s.goto t (if s.isSlaveFree then .storeBusy k else .post k))
  | .storeBusy k => some ({ s with isSlaveFree := false }.goto t (.swap k))
  | .swap k => some ({ s with master := s.slave, slave := s.master }.goto t (.post k))
  | .post k =>
    some (({ s with
      constructed := s.constructed || decide (k = DoubleBuffer.Caller.ctor) }.postTask
        .cacheToFile).goto t (afterPost k))
  | .flushPost => some ((s.postTask .cacheToFile).goto t (.mark .first))
  | .mark w =>
    some (({ s with notified := Function.update s.notified t false }.postTask (.notify t)).goto t
      (.wait w))
  | .wait w => if s.notified t then some (s.goto t (afterWait w)) else none
  | .ctorSlave =>
    s.after (s.slave.aux.size s.disk) fun size =>
      s.goto t (if size = 0 then .ctorMaster else .ctorBusy)
  | .ctorBusy => some ({ s with isSlaveFree := false }.goto t .ctorPost)
  | .ctorPost => some ((s.postTask .cacheToFile).goto t .ctorMaster)
  | .ctorMaster =>
    s.after (s.master.aux.size s.disk) fun size =>
      if size = 0 then { s with constructed := true }.goto t .idle else s.goto t (.mark .ctor)

def workerStep (P : Pipeline σ μ Bytes η) (s : Sink T σ μ η) : Option (Sink T σ μ η) :=
  match s.worker with
  | .idle =>
    match s.queue with
    | [] => none
    | .cacheToFile :: queue => some { s with queue, worker := .load }
    | .notify t :: queue => some { s with queue, notified := Function.update s.notified t true }
  | .load => some { s with worker := if s.isSlaveFree then .idle else .empty }
  | .empty =>
    s.after (s.slave.aux.size s.disk) fun size =>
      { s with worker := if size = 0 then .store else .size }
  | .size =>
    s.after (s.slave.aux.size s.disk) fun size =>
      { s with worker := .write size s.slave.pushed }
  | .write size pushed =>
    s.after (readData s.slave.aux s.disk size) fun payload =>
      { s with written := s.written ++ [⟨P.keys, size, pushed, payload⟩], worker := .clear }
  | .clear =>
    s.after (s.slave.aux.clear s.disk) fun result =>
      { s with slave := ⟨result.1, 0⟩, disk := result.2, worker := .store }
  | .store => some { s with isSlaveFree := true, worker := .idle }

def enter (s : Sink T σ μ η) (t : T) (pc : Pc μ) : Option (Sink T σ μ η) :=
  match s.pc t with
  | .idle => if s.constructed then some (s.goto t pc) else none
  | _ => none

def step (page : Nat) (P : Pipeline σ μ Bytes η) (s : Sink T σ μ η) (a : Label T μ) :
    Option (Sink T σ μ η) :=
  match s.fault with
  | some _ => none
  | none =>
    match a with
    | .log t m => enter s t (.resetIfEmpty m)
    | .flush t => enter s t .flushPost
    | .thread t filled => threadStep page P s t filled
    | .worker => workerStep P s

/-- A buffer's header holds the number of bytes pushed. -/
def Buffer.Real (b : Buffer) (disk : Disk) : Prop := b.aux.size disk = .ok b.pushed

def Item.Real (item : Item) : Prop := ItemHeader.read item.header = some item.payload.length

structure Real (s : Sink T σ μ η) : Prop where
  master : s.master.Real s.disk
  slave : s.slave.Real s.disk
  items : ∀ item ∈ s.items, item.Real
  measured : ∀ size pushed, s.worker = .write size pushed → size = pushed
  written : ∀ chunk ∈ s.written, chunk.size = chunk.pushed

/-- An item that is about to be pushed keeps the master buffer below 2^32 bytes. -/
def RoomFor (P : Pipeline σ μ Bytes η) (s : Sink T σ μ η) : Label T μ → Prop
  | .thread t _ => ∀ m stream x, s.pc t = .push m → P.encode s.stream m = (stream, some x) →
      s.master.pushed + ItemHeader.length + x.length < 2 ^ 32
  | _ => True

section Buffers

variable {page : Nat} {aux : MMapAux} {disk : Disk}

theorem ready_write_other (h : Ready aux disk) {path : Path} (hpath : aux.filePath ≠ path)
    (mem : Bytes) : Ready aux (disk.write path mem) := by
  have hcontents : (disk.write path mem).contents aux.filePath = disk.contents aux.filePath := by
    simp [Disk.contents, Disk.write, hpath]
  have hrest : (disk.write path mem).rest aux.filePath = disk.rest aux.filePath := by
    simp [Disk.write, hpath]
  exact ⟨h.mapped, h.named, by rw [hcontents]; exact h.covered, by rw [hrest]; exact h.whole,
    by rw [hcontents]; exact h.valid⟩

theorem size_write_other (h : Ready aux disk) {path : Path} (hpath : aux.filePath ≠ path)
    (mem : Bytes) : aux.size (disk.write path mem) = aux.size disk := by
  have hcontents : (disk.write path mem).contents aux.filePath = disk.contents aux.filePath := by
    simp [Disk.contents, Disk.write, hpath]
  rw [(ready_write_other h hpath mem).size, h.size, hcontents]

theorem writeToCache_ready (hpage : 0 < page) (h : Ready aux disk) (x : Bytes) :
    ∃ mem, writeToCache page aux disk x =
        .ok ({ aux with capacity := mem.length }, disk.write aux.filePath mem) ∧
      Ready { aux with capacity := mem.length } (disk.write aux.filePath mem) ∧
      MMapAux.size { aux with capacity := mem.length } (disk.write aux.filePath mem) =
        .ok ((storedSize (disk.contents aux.filePath) + ItemHeader.length + x.length) % 2 ^ 32)
    := by
  have hcontents : ∀ mem, (disk.write aux.filePath mem).contents aux.filePath = mem :=
    fun mem => disk.contents_write mem h.named
  have hheader := h.push hpage (ItemHeader.bytes x.length)
  have valid := MMapAux.valid_pushed hpage h.valid (ItemHeader.bytes x.length)
  have hsize := MMapAux.storedSize_pushed hpage h.valid (ItemHeader.bytes x.length)
  rw [ItemHeader.length_bytes] at hsize
  generalize MMapAux.pushed page (disk.contents aux.filePath) (ItemHeader.bytes x.length) = first
    at hheader valid hsize
  have ready := h.write valid
  have hdata := ready.push hpage x
  have valid' := MMapAux.valid_pushed hpage valid x
  have hsize' := MMapAux.storedSize_pushed hpage valid x
  simp only [hcontents, Disk.write_write] at hdata
  generalize MMapAux.pushed page first x = mem at hdata valid' hsize'
  have ready' := h.write valid'
  refine ⟨mem, ?_, ready', ?_⟩
  · simp only [writeToCache, hheader, bind, Except.bind, hdata]
  · rw [ready'.size]
    simp only [hcontents]
    rw [hsize', hsize, Nat.mod_add_mod]

theorem clear_ready (h : Ready aux disk) :
    ∃ mem, aux.clear disk = .ok (aux, disk.write aux.filePath mem) ∧
      Ready aux (disk.write aux.filePath mem) ∧
      aux.size (disk.write aux.filePath mem) = .ok 0 := by
  have hlength := length_withSize h.valid.header 0
  rw [h.covered] at hlength
  have ready := h.write_of_length (h.valid.withSize 0) hlength
  refine ⟨_, h.clear, ready, ?_⟩
  rw [ready.size, disk.contents_write _ h.named, storedSize_withSize h.valid.header, Nat.zero_mod]

end Buffers

/-- Two mappings of whole valid files, which are not the same. -/
structure Mapped (s : Sink T σ μ η) : Prop where
  master : Ready s.master.aux s.disk
  slave : Ready s.slave.aux s.disk
  apart : s.master.aux.filePath ≠ s.slave.aux.filePath

/-- The headers count the bytes pushed in 32 bits. -/
structure Counted (s : Sink T σ μ η) : Prop where
  master : s.master.aux.size s.disk = .ok (s.master.pushed % 2 ^ 32)
  slave : s.slave.aux.size s.disk = .ok (s.slave.pushed % 2 ^ 32)

/-- What a step does to the buffers and to what is recorded of them. -/
inductive Effect (page : Nat) (P : Pipeline σ μ Bytes η) (s : Sink T σ μ η) (a : Label T μ) :
    Sink T σ μ η → Prop
  | quiet (next : Sink T σ μ η) (free : RoomFor P s a) (master : next.master = s.master)
      (slave : next.slave = s.slave) (disk : next.disk = s.disk) (items : next.items = s.items)
      (written : next.written = s.written)
      (worker : ∀ size pushed, next.worker = .write size pushed →
        s.worker = .write size pushed) : Effect page P s a next
  | push (next : Sink T σ μ η) (t : T) (filled : Bool) (m : μ) (stream : σ) (x : Bytes)
      (aux : MMapAux) (disk : Disk) (label : a = .thread t filled) (pc : s.pc t = .push m)
      (encode : P.encode s.stream m = (stream, some x))
      (pushes : writeToCache page s.master.aux s.disk x = .ok (aux, disk))
      (master : next.master = ⟨aux, s.master.pushed + ItemHeader.length + x.length⟩)
      (slave : next.slave = s.slave) (disk' : next.disk = disk)
      (items : next.items = s.items ++ [⟨ItemHeader.bytes x.length, x⟩])
      (written : next.written = s.written) (worker : next.worker = s.worker) :
      Effect page P s a next
  | swap (next : Sink T σ μ η) (free : RoomFor P s a) (master : next.master = s.slave)
      (slave : next.slave = s.master) (disk : next.disk = s.disk) (items : next.items = s.items)
      (written : next.written = s.written) (worker : next.worker = s.worker) :
      Effect page P s a next
  | size (size : Nat) (free : RoomFor P s a) (measures : s.slave.aux.size s.disk = .ok size) :
      Effect page P s a { s with worker := .write size s.slave.pushed }
  | write (size pushed : Nat) (payload : Bytes) (free : RoomFor P s a)
      (worker : s.worker = .write size pushed) :
      Effect page P s a
        { s with written := s.written ++ [⟨P.keys, size, pushed, payload⟩], worker := .clear }
  | clear (aux : MMapAux) (disk : Disk) (free : RoomFor P s a)
      (clears : s.slave.aux.clear s.disk = .ok (aux, disk)) :
      Effect page P s a { s with slave := ⟨aux, 0⟩, disk, worker := .store }

section Steps

variable {page : Nat} {P : Pipeline σ μ Bytes η} {s next : Sink T σ μ η}

private theorem enter_effect {a : Label T μ} {t : T} {pc : Pc μ} (free : RoomFor P s a)
    (h : enter s t pc = some next) : Effect page P s a next := by
  unfold enter at h
  split at h
  · split at h
    · obtain rfl := Option.some.inj h
      exact .quiet _ free rfl rfl rfl rfl rfl (fun _ _ hworker => hworker)
    · cases h
  · cases h

omit [DecidableEq T] in
private theorem roomFor_of_pc {t : T} (filled : Bool) (hpc : ∀ m, s.pc t ≠ .push m) :
    RoomFor P s (.thread t filled) :=
  fun m _ _ hpush _ => absurd hpush (hpc m)

private theorem thread_effect (hpage : 0 < page) (mapped : Mapped s) {t : T} {filled : Bool}
    (h : threadStep page P s t filled = some next) :
    Effect page P s (.thread t filled) next := by
  have quiet (free : RoomFor P s (.thread t filled)) {s' : Sink T σ μ η}
      (master : s'.master = s.master) (slave : s'.slave = s.slave) (disk : s'.disk = s.disk)
      (items : s'.items = s.items) (written : s'.written = s.written)
      (worker : s'.worker = s.worker) : Effect page P s (.thread t filled) s' :=
    .quiet s' free master slave disk items written
      (fun size pushed hworker => worker ▸ hworker)
  cases hpc : s.pc t with
  | idle => simp [threadStep, hpc] at h
  | resetIfEmpty m =>
    simp only [threadStep, hpc, mapped.master.size, Sink.after] at h
    obtain rfl := Option.some.inj h
    exact quiet (roomFor_of_pc filled (by simp [hpc])) rfl rfl rfl rfl rfl rfl
  | push m =>
    simp only [threadStep, hpc] at h
    cases hencode : P.encode s.stream m with
    | mk stream item =>
      rw [hencode] at h
      cases item with
      | none =>
        obtain rfl := Option.some.inj h
        refine quiet (fun m' stream' x hpc' hencode' => ?_) rfl rfl rfl rfl rfl rfl
        obtain rfl := Pc.push.inj (hpc.symm.trans hpc')
        rw [hencode] at hencode'
        cases hencode'
      | some x =>
        obtain ⟨mem, hwrite, -⟩ := writeToCache_ready hpage mapped.master x
        simp only [hwrite, Sink.after] at h
        obtain rfl := Option.some.inj h
        exact .push _ t filled m stream x _ _ rfl hpc hencode hwrite rfl rfl rfl rfl rfl rfl
  | swap k =>
    simp only [threadStep, hpc] at h
    obtain rfl := Option.some.inj h
    exact .swap _ (roomFor_of_pc filled (by simp [hpc])) rfl rfl rfl rfl rfl rfl
  | wait w =>
    simp only [threadStep, hpc] at h
    split at h
    · obtain rfl := Option.some.inj h
      exact quiet (roomFor_of_pc filled (by simp [hpc])) rfl rfl rfl rfl rfl rfl
    · cases h
  | ctorSlave =>
    simp only [threadStep, hpc, mapped.slave.size, Sink.after] at h
    obtain rfl := Option.some.inj h
    exact quiet (roomFor_of_pc filled (by simp [hpc])) rfl rfl rfl rfl rfl rfl
  | ctorMaster =>
    simp only [threadStep, hpc, mapped.master.size, Sink.after] at h
    obtain rfl := Option.some.inj h
    split <;> exact quiet (roomFor_of_pc filled (by simp [hpc])) rfl rfl rfl rfl rfl rfl
  | _ =>
    simp only [threadStep, hpc] at h
    obtain rfl := Option.some.inj h
    exact quiet (roomFor_of_pc filled (by simp [hpc])) rfl rfl rfl rfl rfl rfl

private theorem worker_effect (mapped : Mapped s) (h : workerStep P s = some next) :
    Effect page P s .worker next := by
  have quiet {s' : Sink T σ μ η} (master : s'.master = s.master) (slave : s'.slave = s.slave)
      (disk : s'.disk = s.disk) (items : s'.items = s.items) (written : s'.written = s.written)
      (worker : ∀ size pushed, s'.worker ≠ .write size pushed) :
      Effect page P s .worker s' :=
    .quiet s' trivial master slave disk items written
      (fun size pushed hworker => absurd hworker (worker size pushed))
  cases hworker : s.worker with
  | idle =>
    simp only [workerStep, hworker] at h
    split at h
    · cases h
    · obtain rfl := Option.some.inj h
      exact quiet rfl rfl rfl rfl rfl (by simp)
    · obtain rfl := Option.some.inj h
      exact quiet rfl rfl rfl rfl rfl (by simp)
  | load =>
    simp only [workerStep, hworker] at h
    obtain rfl := Option.some.inj h
    exact quiet rfl rfl rfl rfl rfl (by intro size pushed; simp only; split <;> simp)
  | empty =>
    simp only [workerStep, hworker, mapped.slave.size, Sink.after] at h
    obtain rfl := Option.some.inj h
    exact quiet rfl rfl rfl rfl rfl (by intro size pushed; simp only; split <;> simp)
  | size =>
    simp only [workerStep, hworker, mapped.slave.size, Sink.after] at h
    obtain rfl := Option.some.inj h
    exact .size _ trivial mapped.slave.size
  | write size pushed =>
    simp only [workerStep, hworker, Sink.after] at h
    split at h
    · obtain rfl := Option.some.inj h
      exact .quiet _ trivial rfl rfl rfl rfl rfl (fun _ _ hsame => hworker ▸ hsame)
    · obtain rfl := Option.some.inj h
      exact .write size pushed _ trivial hworker
  | clear =>
    obtain ⟨mem, hclear, -⟩ := clear_ready mapped.slave
    simp only [workerStep, hworker, hclear, Sink.after] at h
    obtain rfl := Option.some.inj h
    exact .clear _ _ trivial hclear
  | store =>
    simp only [workerStep, hworker] at h
    obtain rfl := Option.some.inj h
    exact quiet rfl rfl rfl rfl rfl (by simp)

theorem step_effect (hpage : 0 < page) (mapped : Mapped s) {a : Label T μ}
    (h : step page P s a = some next) : Effect page P s a next := by
  unfold step at h
  split at h
  · cases h
  · cases a with
    | log t m => exact enter_effect trivial h
    | flush t => exact enter_effect trivial h
    | thread t filled => exact thread_effect hpage mapped h
    | worker => exact worker_effect mapped h

omit [DecidableEq T] in
theorem Effect.mapped_counted (hpage : 0 < page) {a : Label T μ} (mapped : Mapped s)
    (counted : Counted s) (h : Effect page P s a next) : Mapped next ∧ Counted next := by
  have hpaths := mapped.apart
  cases h with
  | quiet _ _ master slave disk =>
    refine ⟨⟨?_, ?_, ?_⟩, ⟨?_, ?_⟩⟩ <;> simp only [master, slave, disk]
    · exact mapped.master
    · exact mapped.slave
    · exact hpaths
    · exact counted.master
    · exact counted.slave
  | push _ t filled m stream x aux disk _ _ _ pushes master slave disk' =>
    obtain ⟨mem, hwrite, ready, size⟩ := writeToCache_ready hpage mapped.master x
    obtain ⟨rfl, rfl⟩ := Prod.mk.inj (Except.ok.inj (hwrite.symm.trans pushes))
    have hcount := Except.ok.inj (mapped.master.size.symm.trans counted.master)
    rw [hcount, Nat.add_assoc, Nat.mod_add_mod, ← Nat.add_assoc] at size
    refine ⟨⟨?_, ?_, ?_⟩, ⟨?_, ?_⟩⟩ <;> simp only [master, slave, disk']
    · exact ready
    · exact ready_write_other mapped.slave (Ne.symm hpaths) mem
    · exact hpaths
    · exact size
    · rw [size_write_other mapped.slave (Ne.symm hpaths)]
      exact counted.slave
  | swap _ _ master slave disk =>
    refine ⟨⟨?_, ?_, ?_⟩, ⟨?_, ?_⟩⟩ <;> simp only [master, slave, disk]
    · exact mapped.slave
    · exact mapped.master
    · exact Ne.symm hpaths
    · exact counted.slave
    · exact counted.master
  | size => exact ⟨⟨mapped.master, mapped.slave, hpaths⟩, ⟨counted.master, counted.slave⟩⟩
  | write => exact ⟨⟨mapped.master, mapped.slave, hpaths⟩, ⟨counted.master, counted.slave⟩⟩
  | clear aux disk _ clears =>
    obtain ⟨mem, hclear, ready, size⟩ := clear_ready mapped.slave
    obtain ⟨rfl, rfl⟩ := Prod.mk.inj (Except.ok.inj (hclear.symm.trans clears))
    refine ⟨⟨ready_write_other mapped.master hpaths mem, ready, hpaths⟩, ⟨?_, size⟩⟩
    rw [size_write_other mapped.master hpaths]
    exact counted.master

theorem real_iff_lt {b : Buffer} {disk : Disk} (h : b.aux.size disk = .ok (b.pushed % 2 ^ 32)) :
    b.Real disk ↔ b.pushed < 2 ^ 32 := by
  rw [Buffer.Real, h, Except.ok.injEq, Nat.mod_eq_iff_lt (by decide)]

theorem item_real {x : Bytes} (hx : x.length < 2 ^ 32) :
    (Item.mk (ItemHeader.bytes x.length) x).Real := by
  have hread := ItemHeader.read_bytes hx []
  rw [List.append_nil] at hread
  exact hread

omit [DecidableEq T] in
/-- The sizes stay real exactly where there is room for what is pushed. -/
theorem Effect.real_iff (hpage : 0 < page) {a : Label T μ} (mapped : Mapped s)
    (counted : Counted s) (real : Real s) (h : Effect page P s a next) :
    Real next ↔ RoomFor P s a := by
  obtain ⟨-, counted'⟩ := h.mapped_counted hpage mapped counted
  cases h with
  | quiet _ free master slave disk items written worker =>
    refine iff_of_true ⟨?_, ?_, ?_, ?_, ?_⟩ free
    · rw [master, disk]
      exact real.master
    · rw [slave, disk]
      exact real.slave
    · rw [items]
      exact real.items
    · exact fun size pushed hworker => real.measured size pushed (worker size pushed hworker)
    · rw [written]
      exact real.written
  | push _ t filled m stream x aux disk label pc encode pushes master slave disk' items written
      worker =>
    have room_iff : RoomFor P s a ↔
        s.master.pushed + ItemHeader.length + x.length < 2 ^ 32 := by
      subst label
      constructor
      · exact fun room => room m stream x pc encode
      · intro room m' stream' x' hpc hencode
        obtain rfl := Pc.push.inj (pc.symm.trans hpc)
        obtain ⟨-, hx⟩ := Prod.mk.inj (encode.symm.trans hencode)
        obtain rfl := Option.some.inj hx
        exact room
    have master_iff : next.master.Real next.disk ↔
        s.master.pushed + ItemHeader.length + x.length < 2 ^ 32 := by
      rw [real_iff_lt counted'.master, master]
    rw [room_iff, ← master_iff]
    constructor
    · exact fun real' => real'.master
    · intro real'
      refine ⟨real', ?_, ?_, ?_, ?_⟩
      · rw [real_iff_lt counted'.slave, slave]
        exact (real_iff_lt counted.slave).mp real.slave
      · intro item hitem
        rw [items] at hitem
        rcases List.mem_append.mp hitem with hitem | hitem
        · exact real.items item hitem
        · obtain rfl := List.mem_singleton.mp hitem
          have hroom := master_iff.mp real'
          exact item_real (by omega)
      · rw [worker]
        exact real.measured
      · rw [written]
        exact real.written
  | swap _ free master slave disk items written worker =>
    refine iff_of_true ⟨?_, ?_, ?_, ?_, ?_⟩ free
    · rw [master, disk]
      exact real.slave
    · rw [slave, disk]
      exact real.master
    · rw [items]
      exact real.items
    · rw [worker]
      exact real.measured
    · rw [written]
      exact real.written
  | size size free measures =>
    refine iff_of_true ⟨real.master, real.slave, real.items, ?_, real.written⟩ free
    intro size' pushed' hworker
    obtain ⟨rfl, rfl⟩ := WorkerPc.write.inj hworker
    exact Except.ok.inj (measures.symm.trans real.slave)
  | write size pushed payload free worker =>
    refine iff_of_true ⟨real.master, real.slave, real.items, ?_, ?_⟩ free
    · exact fun _ _ hworker => WorkerPc.noConfusion hworker
    · intro chunk hchunk
      rcases List.mem_append.mp hchunk with hchunk | hchunk
      · exact real.written chunk hchunk
      · obtain rfl := List.mem_singleton.mp hchunk
        exact real.measured size pushed worker
  | clear aux disk free clears =>
    have master : s.master.Real disk := by
      rw [real_iff_lt counted'.master]
      exact (real_iff_lt counted.master).mp real.master
    refine iff_of_true ⟨master, ?_, real.items, ?_, real.written⟩ free
    · rw [real_iff_lt counted'.slave]
      exact Nat.pow_pos (by decide)
    · exact fun _ _ hworker => WorkerPc.noConfusion hworker

end Steps

theorem run_mapped_counted {page : Nat} (hpage : 0 < page) {P : Pipeline σ μ Bytes η}
    {s s' : Sink T σ μ η} {as : List (Label T μ)} (mapped : Mapped s) (counted : Counted s)
    (h : run (step page P) s as = some s') : Mapped s' ∧ Counted s' :=
  Machine.run_preserves (fun s => Mapped s ∧ Counted s)
    (fun _ _ _ inv hstep =>
      (step_effect hpage inv.1 hstep).mapped_counted hpage inv.1 inv.2)
    ⟨mapped, counted⟩ h

section Construct

variable {page : Nat}

theorem initial_real {t : T} {stream : σ} {master slave : MMapAux} {disk : Disk} {m n : Nat}
    (masterReady : Ready master disk) (slaveReady : Ready slave disk)
    (apart : master.filePath ≠ slave.filePath) (hm : master.size disk = .ok m)
    (hn : slave.size disk = .ok n) :
    Mapped (initial t stream ⟨master, m⟩ ⟨slave, n⟩ disk : Sink T σ μ η) ∧
      Counted (initial t stream ⟨master, m⟩ ⟨slave, n⟩ disk : Sink T σ μ η) ∧
      Real (initial t stream ⟨master, m⟩ ⟨slave, n⟩ disk : Sink T σ μ η) := by
  have small {aux : MMapAux} {k : Nat} (ready : Ready aux disk) (hk : aux.size disk = .ok k) :
      aux.size disk = .ok (k % 2 ^ 32) := by
    obtain rfl := Except.ok.inj (ready.size.symm.trans hk)
    rw [Nat.mod_eq_of_lt (storedSize_lt _)]
    exact hk
  exact ⟨⟨masterReady, slaveReady, apart⟩, ⟨small masterReady hm, small slaveReady hn⟩,
    ⟨hm, hn, fun item hitem => absurd hitem List.not_mem_nil,
      fun _ _ hworker => WorkerPc.noConfusion hworker,
      fun chunk hchunk => absurd hchunk List.not_mem_nil⟩⟩

theorem construct_real (hpage : 0 < page) {masterFile slaveFile : Path} (hmaster : masterFile ≠ "")
    (hslave : slaveFile ≠ "") (hapart : masterFile ≠ slaveFile) (t : T) (stream : σ)
    (disk : Disk) :
    ∃ s : Sink T σ μ η, construct page t stream masterFile slaveFile disk = .ok s ∧ Mapped s ∧
      Counted s ∧ Real s ∧
      ∃ master slave disk', s = initial t stream master slave disk' ∧
        master.pushed = storedSize (MMapAux.opened page (disk.contents masterFile)) ∧
        slave.pushed = storedSize (MMapAux.opened page (disk.contents slaveFile)) := by
  have masterReady := MMapAux.ready_opened hpage hmaster disk
  have masterConstruct := MMapAux.construct_working hpage hmaster disk
  have masterSize := masterReady.size
  rw [disk.contents_write _ hmaster] at masterSize
  have hfound : (disk.write masterFile (MMapAux.opened page (disk.contents masterFile))).contents
      slaveFile = disk.contents slaveFile := by
    simp [Disk.contents, Disk.write, Ne.symm hapart]
  generalize disk.write masterFile (MMapAux.opened page (disk.contents masterFile)) = disk₁
    at masterReady masterConstruct masterSize hfound
  have slaveReady := MMapAux.ready_opened hpage hslave disk₁
  have slaveConstruct := MMapAux.construct_working hpage hslave disk₁
  have slaveSize := slaveReady.size
  rw [disk₁.contents_write _ hslave, hfound] at slaveSize
  have masterReady' := ready_write_other masterReady hapart
    (MMapAux.opened page (disk₁.contents slaveFile))
  have masterSize' := (size_write_other masterReady hapart
    (MMapAux.opened page (disk₁.contents slaveFile))).trans masterSize
  rw [hfound] at slaveReady slaveConstruct masterReady' masterSize'
  generalize disk₁.write slaveFile (MMapAux.opened page (disk.contents slaveFile)) = disk₂
    at slaveReady slaveConstruct slaveSize masterReady' masterSize'
  obtain ⟨mapped, counted, real⟩ := initial_real (t := t) (σ := σ) (μ := μ) (η := η)
    masterReady' slaveReady hapart masterSize' slaveSize
  refine ⟨_, ?_, mapped, counted, real, _, _, _, rfl, rfl, rfl⟩
  simp only [construct, masterConstruct, slaveConstruct, masterSize', slaveSize, bind,
    Except.bind, pure, Except.pure]

end Construct

/-- Over every run from the constructor on, the sizes in the headers are the real ones in every
state exactly when every item that is pushed finds room below 2^32 bytes. -/
theorem sizes_real_iff {page : Nat} (hpage : 0 < page) {masterFile slaveFile : Path}
    (hmaster : masterFile ≠ "") (hslave : slaveFile ≠ "") (hapart : masterFile ≠ slaveFile)
    (P : Pipeline σ μ Bytes η) (t : T) (stream : σ) (disk : Disk) :
    ∃ s₀ : Sink T σ μ η, construct page t stream masterFile slaveFile disk = .ok s₀ ∧ Real s₀ ∧
      ∀ as s, run (step page P) s₀ as = some s →
        (Passes (step page P) (fun _ _ next => Real next) s₀ as ↔
          Meets (step page P) (RoomFor P) s₀ as) := by
  obtain ⟨s₀, hconstruct, mapped, counted, real, -⟩ :=
    construct_real (σ := σ) (μ := μ) (η := η) hpage hmaster hslave hapart t stream disk
  refine ⟨s₀, hconstruct, real, fun as s hrun => ?_⟩
  refine run_passes_iff_meets (I := fun s => Mapped s ∧ Counted s ∧ Real s) ?_ ?_
    ⟨mapped, counted, real⟩ hrun
  · rintro s a next ⟨mapped, counted, -⟩ hstep real'
    obtain ⟨mapped', counted'⟩ :=
      (step_effect hpage mapped hstep).mapped_counted hpage mapped counted
    exact ⟨mapped', counted', real'⟩
  · rintro s a next ⟨mapped, counted, real⟩ hstep
    exact (step_effect hpage mapped hstep).real_iff hpage mapped counted real

/-- The bytes of a message go into the buffer as they are. -/
def plain : Pipeline Unit Bytes Bytes Unit where
  resetStream := id
  encode := fun stream m => (stream, some m)
  keys := ()

theorem sizes_real_iff_blank :
    ∃ s₀ : Sink Unit Unit Bytes Unit,
      construct 4096 () () "master_mmap" "slave_mmap" .blank = .ok s₀ ∧ Real s₀ ∧
        ∀ as s, run (step 4096 plain) s₀ as = some s →
          (Passes (step 4096 plain) (fun _ _ next => Real next) s₀ as ↔
            Meets (step 4096 plain) (RoomFor plain) s₀ as) :=
  sizes_real_iff (by decide) (by decide) (by decide) (by decide) plain () () .blank

section DelayedWorker

variable {page : Nat} {s : Sink T Unit Bytes Unit} {t : T}

/-- A thread between two calls, while the worker has not come to an earlier buffer yet. -/
structure Waiting (s : Sink T Unit Bytes Unit) (t : T) : Prop where
  noFault : s.fault = none
  constructed : s.constructed = true
  busy : s.isSlaveFree = false
  idle : s.pc t = .idle
  mapped : Mapped s
  counted : Counted s

/-- A call of `Log`; where the buffer is full enough, `SwapCache_` finds the slave busy. -/
def logLabels (t : T) (m : Bytes) (filled : Bool) : List (Label T Bytes) :=
  [.log t m, .thread t filled, .thread t filled, .thread t filled] ++
    if filled then [.thread t filled, .thread t filled] else []

theorem Waiting.log (hpage : 0 < page) (h : Waiting s t) (m : Bytes) (filled : Bool) :
    ∃ s', run (step page plain) s (logLabels t m filled) = some s' ∧ Waiting s' t ∧
      s'.master.pushed = s.master.pushed + (ItemHeader.length + m.length) := by
  obtain ⟨mem, hwrite, -⟩ := writeToCache_ready hpage h.mapped.master m
  obtain ⟨s', hrun, noFault, constructed, busy, idle, pushed⟩ :
      ∃ s', run (step page plain) s (logLabels t m filled) = some s' ∧ s'.fault = none ∧
        s'.constructed = true ∧ s'.isSlaveFree = false ∧ s'.pc t = .idle ∧
        s'.master.pushed = s.master.pushed + (ItemHeader.length + m.length) := by
    cases filled <;>
      simp [logLabels, Machine.run, step, enter, threadStep, h.noFault, h.constructed, h.busy,
        h.idle, h.mapped.master.size, hwrite, plain, Sink.after, Sink.goto, Sink.postTask,
        afterPost, Nat.add_assoc]
  obtain ⟨mapped, counted⟩ := run_mapped_counted hpage h.mapped h.counted hrun
  exact ⟨s', hrun, ⟨noFault, constructed, busy, idle, mapped, counted⟩, pushed⟩

theorem Waiting.logs (hpage : 0 < page) (h : Waiting s t) (m : Bytes) (outcomes : List Bool) :
    ∃ s', run (step page plain) s (outcomes.flatMap (logLabels t m)) = some s' ∧ Waiting s' t ∧
      s'.master.pushed =
        s.master.pushed + outcomes.length * (ItemHeader.length + m.length) := by
  induction outcomes generalizing s with
  | nil => exact ⟨s, rfl, h, by simp⟩
  | cons filled outcomes ih =>
    obtain ⟨s₁, hlog, waiting, pushed⟩ := h.log hpage m filled
    obtain ⟨s₂, hlogs, waiting', pushed'⟩ := ih waiting
    refine ⟨s₂, ?_, waiting', ?_⟩
    · rw [List.flatMap_cons, Machine.run_append, hlog, Option.bind_some, hlogs]
    · rw [pushed', pushed, List.length_cons, Nat.succ_mul]
      omega

/-- An earlier process left one byte in the file that becomes the slave buffer. -/
def leftover : Disk :=
  Disk.blank.write "slave_mmap" (Bytes.ofNatLE 4 kMagic ++ Bytes.ofNatLE 4 1 ++ [0])

def ctorLabels : List (Label Unit Bytes) := List.replicate 4 (.thread () false)

theorem waiting_leftover :
    ∃ s₀ s : Sink Unit Unit Bytes Unit,
      construct 4096 () () "master_mmap" "slave_mmap" leftover = .ok s₀ ∧
        run (step 4096 plain) s₀ ctorLabels = some s ∧ Waiting s () ∧ s.master.pushed = 0 := by
  have hpage : 0 < 4096 := by decide
  have masterNamed : "master_mmap" ≠ "" := by decide
  have slaveNamed : "slave_mmap" ≠ "" := by decide
  obtain ⟨s₀, hconstruct, mapped, counted, real, master, slave, disk, rfl, hmaster, hslave⟩ :=
    construct_real (σ := Unit) (μ := Bytes) (η := Unit) hpage masterNamed slaveNamed (by decide)
      () () leftover
  have masterFound : leftover.contents "master_mmap" = [] := by decide
  have slaveFound : leftover.contents "slave_mmap" =
      Bytes.ofNatLE 4 kMagic ++ Bytes.ofNatLE 4 1 ++ [0] :=
    Disk.blank.contents_write _ slaveNamed
  have masterPushed : master.pushed = 0 := by
    rw [hmaster, masterFound, MMapAux.storedSize_opened_blank hpage]
  have slavePushed : slave.pushed = 1 := by
    have hinitial : headerSize ≤ initialCapacity 4096 := by decide
    have valid : Valid (Bytes.ofNatLE 4 kMagic ++ Bytes.ofNatLE 4 1 ++ [0]) :=
      ⟨by decide, by decide⟩
    rw [hslave, slaveFound, MMapAux.opened_of_valid hpage valid,
      storedSize_setLength valid.header hinitial]
    decide
  have masterSize : master.aux.size disk = .ok 0 := masterPushed ▸ real.master
  have slaveSize : slave.aux.size disk = .ok 1 := slavePushed ▸ real.slave
  obtain ⟨s, hrun, noFault, constructed, busy, idle, pushed⟩ :
      ∃ s : Sink Unit Unit Bytes Unit, run (step 4096 plain) (initial () () master slave disk)
          ctorLabels = some s ∧ s.fault = none ∧ s.constructed = true ∧ s.isSlaveFree = false ∧
        s.pc () = .idle ∧ s.master.pushed = 0 := by
    simp [ctorLabels, Machine.run, step, threadStep, initial, masterSize, slaveSize, masterPushed,
      Sink.after, Sink.goto, Sink.postTask]
  obtain ⟨mapped', counted'⟩ := run_mapped_counted hpage mapped counted hrun
  exact ⟨_, s, hconstruct, hrun, ⟨noFault, constructed, busy, idle, mapped', counted'⟩, pushed⟩

/-- While the worker is delayed, 2^20 items of 4096 bytes go into the master buffer, whatever
the tests of its fill level say; its header then counts 8388608 bytes of 4303355904. -/
theorem delayedWorker_wraps :
    ∃ s₀ : Sink Unit Unit Bytes Unit,
      construct 4096 () () "master_mmap" "slave_mmap" leftover = .ok s₀ ∧
        ∀ outcomes : List Bool, outcomes.length = 2 ^ 20 →
          ∃ s, run (step 4096 plain) s₀
              (ctorLabels ++ outcomes.flatMap (logLabels () (List.replicate 4096 0))) = some s ∧
            s.master.pushed = 4303355904 ∧ s.master.aux.size s.disk = .ok 8388608 ∧
            ¬ Real s := by
  obtain ⟨s₀, s₁, hconstruct, hctor, waiting, empty⟩ := waiting_leftover
  refine ⟨s₀, hconstruct, fun outcomes many => ?_⟩
  have hpage : 0 < 4096 := by decide
  obtain ⟨s, hlogs, waiting', pushed⟩ := waiting.logs hpage (List.replicate 4096 0) outcomes
  rw [empty, many, List.length_replicate, ItemHeader.length] at pushed
  have size := waiting'.counted.master
  rw [pushed] at size
  refine ⟨s, ?_, pushed, size, fun real => ?_⟩
  · rw [Machine.run_append, hctor, Option.bind_some, hlogs]
  · have wrapped := Except.ok.inj (size.symm.trans real.master)
    rw [pushed] at wrapped
    exact absurd wrapped (by decide)

end DelayedWorker

end FlashLog.Sinks.BufferSizes
