import FlashLog.Sinks.BufferSizes

/-!
While the sizes fit their headers, the sink on its mapped files carries out the double-buffer
protocol: the bytes of a buffer are the frames of the protocol's items, and a chunk that no
exchange cut through holds the frames of its own.
-/

set_option autoImplicit false
set_option relaxedAutoImplicit false

namespace FlashLog.Sinks.BufferSizes

open FlashLog.Support
open FlashLog.Support.Machine (run Meets)
open FlashLog.Mmap
open FlashLog.Mmap.MMapAux (Holds Continues construct_holds)
open DoubleBuffer (Pipeline Pc)
open MMapCallers (writeToCache writeToCache_holds)

variable {T σ μ η : Type}

def Label.protocol : Label T μ → DoubleBuffer.Label T μ
  | .log t m => .log t m
  | .flush t => .flush t
  | .thread t filled => .thread t filled
  | .worker => .worker

/-- The buffer holds the frames of the items, and was pushed no more. -/
structure Buffer.HoldsItems (b : Buffer) (disk : Disk) (items : List Bytes) : Prop where
  bytes : Holds b.aux disk (ItemHeader.framing.frames items)
  pushed : b.pushed = (ItemHeader.framing.frames items).length

/-- The worker of the protocol is at the same step, with the items whose bytes were counted. -/
inductive WorkerPc.Shows : WorkerPc → DoubleBuffer.WorkerPc Bytes → Prop
  | idle : Shows .idle .idle
  | load : Shows .load .load
  | empty : Shows .empty .empty
  | size : Shows .size .size
  | write (sized : List Bytes) (pushed : Nat) :
      Shows (.write (ItemHeader.framing.frames sized).length pushed) (.write sized)
  | clear : Shows .clear .clear
  | store : Shows .store .store

/-- Header and items of a chunk; its bytes are those of the items if these were measured. -/
structure Chunk.Shows (c : Chunk η) (chunk : DoubleBuffer.Chunk Bytes η) : Prop where
  keys : c.keys = chunk.keys
  size : c.size = (ItemHeader.framing.frames chunk.sized).length
  payload : chunk.sized = chunk.payload → c.payload = ItemHeader.framing.frames chunk.payload

structure Shows (s : Sink T σ μ η) (d : DoubleBuffer.Sink T σ μ Bytes η) : Prop where
  stream : d.stream = s.stream
  isSlaveFree : d.isSlaveFree = s.isSlaveFree
  pc : d.pc = s.pc
  constructed : d.constructed = s.constructed
  queue : d.queue = s.queue
  notified : d.notified = s.notified
  master : s.master.HoldsItems s.disk d.master
  slave : s.slave.HoldsItems s.disk d.slave
  apart : s.master.aux.filePath ≠ s.slave.aux.filePath
  worker : s.worker.Shows d.worker
  written : List.Forall₂ Chunk.Shows s.written d.written

section Buffers

variable {page : Nat} {b : Buffer} {disk : Disk} {items : List Bytes}

theorem frames_length_eq_zero_iff :
    (ItemHeader.framing.frames items).length = 0 ↔ items.isEmpty = true := by
  cases items with
  | nil => simp
  | cons item items =>
    have hpos := ItemHeader.framing.headerLength_pos
    rw [Framing.length_frames_cons]
    simp only [List.isEmpty_cons, Bool.false_eq_true, iff_false]
    omega

theorem Buffer.HoldsItems.size (h : b.HoldsItems disk items) :
    b.aux.size disk = .ok (ItemHeader.framing.frames items).length :=
  h.bytes.size

theorem Buffer.HoldsItems.other (h : b.HoldsItems disk items) {aux aux' : MMapAux} {disk' : Disk}
    (continues : Continues aux disk aux' disk') (apart : b.aux.filePath ≠ aux.filePath) :
    b.HoldsItems disk' items := by
  have hfile : disk'.contents b.aux.filePath = disk.contents b.aux.filePath :=
    congrArg (Option.getD · []) (continues.others _ apart)
  have hrest : disk'.rest b.aux.filePath = disk.rest b.aux.filePath := continues.rests _ apart
  have ready := h.bytes.ready
  refine ⟨⟨⟨ready.mapped, ready.named, ?_, ?_, ?_⟩, ?_, ?_⟩, h.pushed⟩
  · rw [hfile]
    exact ready.covered
  · rw [hrest]
    exact ready.whole
  · rw [hfile]
    exact ready.valid
  · rw [hfile]
    exact h.bytes.fits
  · rw [hfile]
    exact h.bytes.payload

theorem Buffer.HoldsItems.readData (h : b.HoldsItems disk items) :
    readData b.aux disk (ItemHeader.framing.frames items).length =
      .ok (ItemHeader.framing.frames items) := by
  have ready := h.bytes.ready
  have hsize := h.bytes.storedSize_eq
  have hload := ready.load headerSize _ h.bytes.fits
  rw [hsize] at hload
  have hpayload := h.bytes.payload
  rw [Image.payload, hsize] at hpayload
  simp only [BufferSizes.readData, ready.data, bind, Except.bind, hload, hpayload]

end Buffers

section Moves

variable {s : Sink T σ μ η} {d : DoubleBuffer.Sink T σ μ Bytes η}

theorem Shows.goto [DecidableEq T] (h : Shows s d) (t : T) (pc : Pc μ) :
    Shows (s.goto t pc) (d.goto t pc) :=
  { h with
    pc := by
      show Function.update d.pc t pc = Function.update s.pc t pc
      rw [h.pc] }

theorem Shows.postTask (h : Shows s d) (task : DoubleBuffer.Task T) :
    Shows (s.postTask task) (d.postTask task) :=
  { h with queue := congrArg (· ++ [task]) h.queue }

theorem Shows.setStream (h : Shows s d) (stream : σ) :
    Shows { s with stream } { d with stream } :=
  { h with stream := rfl }

theorem Shows.setFree (h : Shows s d) (free : Bool) :
    Shows { s with isSlaveFree := free } { d with isSlaveFree := free } :=
  { h with isSlaveFree := rfl }

theorem Shows.setConstructed (h : Shows s d) (done : Bool) :
    Shows { s with constructed := done } { d with constructed := done } :=
  { h with constructed := rfl }

theorem Shows.setNotified [DecidableEq T] (h : Shows s d) (t : T) (woken : Bool) :
    Shows { s with notified := Function.update s.notified t woken }
      { d with notified := Function.update d.notified t woken } :=
  { h with
    notified := by
      show Function.update d.notified t woken = Function.update s.notified t woken
      rw [h.notified] }

theorem Shows.setQueue (h : Shows s d) (queue : List (DoubleBuffer.Task T)) :
    Shows { s with queue } { d with queue } :=
  { h with queue := rfl }

theorem Shows.setWorker (h : Shows s d) {worker : WorkerPc} {worker' : DoubleBuffer.WorkerPc Bytes}
    (same : worker.Shows worker') : Shows { s with worker } { d with worker := worker' } :=
  { h with worker := same }

theorem Shows.swapped (h : Shows s d) :
    Shows { s with master := s.slave, slave := s.master }
      { d with master := d.slave, slave := d.master, swapped := !d.swapped } :=
  { h with master := h.slave, slave := h.master, apart := Ne.symm h.apart }

theorem Shows.wrote (h : Shows s d) {c : Chunk η} {chunk : DoubleBuffer.Chunk Bytes η}
    (shown : c.Shows chunk) :
    Shows { s with written := s.written ++ [c], worker := .clear }
      { d with written := d.written ++ [chunk], worker := .clear } :=
  { h with
    worker := .clear
    written := List.rel_append h.written (.cons shown .nil) }

theorem Shows.cleared (h : Shows s d) {disk : Disk} (holds : Holds s.slave.aux disk [])
    (continues : Continues s.slave.aux s.disk s.slave.aux disk) :
    Shows { s with slave := ⟨s.slave.aux, 0⟩, disk, worker := .store }
      { d with slave := [], worker := .store } :=
  { h with
    master := h.master.other continues h.apart
    slave := ⟨holds, rfl⟩
    worker := .store }

theorem Shows.pushed (h : Shows s d) {stream : σ} {x : Bytes} {aux : MMapAux} {disk : Disk}
    (holds : Holds aux disk (ItemHeader.framing.frames d.master ++ ItemHeader.framing.frame x))
    (continues : Continues s.master.aux s.disk aux disk) :
    Shows { s with
        stream, disk, master := ⟨aux, s.master.pushed + ItemHeader.length + x.length⟩
        items := s.items ++ [⟨ItemHeader.bytes x.length, x⟩] }
      { d with stream, master := d.master ++ [x], pushed := d.pushed ++ [x] } where
  stream := rfl
  isSlaveFree := h.isSlaveFree
  pc := h.pc
  constructed := h.constructed
  queue := h.queue
  notified := h.notified
  master := by
    refine ⟨?_, ?_⟩
    · rw [Framing.frames_append, Framing.frames_singleton]
      exact holds
    · rw [Framing.frames_append, Framing.frames_singleton, List.length_append, List.length_append,
        ItemHeader.framing.length_header, ← h.master.pushed, ← Nat.add_assoc]
      rfl
  slave := h.slave.other continues (Ne.symm h.apart)
  apart := by
    show aux.filePath ≠ s.slave.aux.filePath
    rw [continues.filePath]
    exact h.apart
  worker := h.worker
  written := h.written

end Moves

section Steps

variable [DecidableEq T] {page : Nat} {P : Pipeline σ μ Bytes η} {s next : Sink T σ μ η}
variable {d : DoubleBuffer.Sink T σ μ Bytes η}

private theorem enter_shows (h : Shows s d) {t : T} {pc : Pc μ} (hstep : enter s t pc = some next) :
    ∃ d', DoubleBuffer.enter d t pc = some d' ∧ Shows next d' := by
  unfold enter at hstep
  split at hstep
  · rename_i hpc
    split at hstep
    · rename_i constructed
      obtain rfl := Option.some.inj hstep
      refine ⟨_, ?_, h.goto t pc⟩
      simp only [DoubleBuffer.enter, h.pc, hpc, h.constructed, constructed, if_true]
    · cases hstep
  · cases hstep

private theorem thread_shows (hpage : 0 < page) (h : Shows s d) {t : T} {filled : Bool}
    (room : RoomFor P s (.thread t filled)) (hstep : threadStep page P s t filled = some next) :
    ∃ d', DoubleBuffer.threadStep P d t filled = some d' ∧ Shows next d' := by
  have masterSize := h.master.size
  have slaveSize := h.slave.size
  have at_t : d.pc t = s.pc t := congrFun h.pc t
  cases hpc : s.pc t with
  | idle => simp [threadStep, hpc] at hstep
  | resetIfEmpty m =>
    simp only [threadStep, hpc, masterSize, Sink.after, frames_length_eq_zero_iff] at hstep
    obtain rfl := Option.some.inj hstep
    simp only [DoubleBuffer.threadStep, at_t, hpc, h.stream]
    exact ⟨_, rfl, (h.setStream _).goto t _⟩
  | push m =>
    simp only [threadStep, hpc] at hstep
    simp only [DoubleBuffer.threadStep, at_t, hpc, h.stream]
    cases hencode : P.encode s.stream m with
    | mk stream item =>
      rw [hencode] at hstep
      cases item with
      | none =>
        obtain rfl := Option.some.inj hstep
        exact ⟨_, rfl, (h.setStream stream).goto t _⟩
      | some x =>
        have small := room m stream x hpc hencode
        rw [h.master.pushed] at small
        obtain ⟨aux, disk, hwrite, holds, continues⟩ :=
          writeToCache_holds hpage h.master.bytes small
        simp only [hwrite, Sink.after] at hstep
        obtain rfl := Option.some.inj hstep
        exact ⟨_, rfl, (h.pushed holds continues).goto t _⟩
  | wait w =>
    simp only [threadStep, hpc] at hstep
    simp only [DoubleBuffer.threadStep, at_t, hpc, h.notified]
    split at hstep
    · rename_i woken
      obtain rfl := Option.some.inj hstep
      exact ⟨_, if_pos woken, h.goto t _⟩
    · cases hstep
  | loadFree k =>
    simp only [threadStep, hpc] at hstep
    obtain rfl := Option.some.inj hstep
    simp only [DoubleBuffer.threadStep, at_t, hpc, h.isSlaveFree]
    exact ⟨_, rfl, h.goto t _⟩
  | ctorSlave =>
    simp only [threadStep, hpc, slaveSize, Sink.after, frames_length_eq_zero_iff] at hstep
    obtain rfl := Option.some.inj hstep
    simp only [DoubleBuffer.threadStep, at_t, hpc]
    exact ⟨_, rfl, h.goto t _⟩
  | ctorMaster =>
    simp only [threadStep, hpc, masterSize, Sink.after, frames_length_eq_zero_iff] at hstep
    obtain rfl := Option.some.inj hstep
    simp only [DoubleBuffer.threadStep, at_t, hpc]
    refine ⟨_, rfl, ?_⟩
    split
    · exact (h.setConstructed true).goto t _
    · exact h.goto t _
  | swap k =>
    simp only [threadStep, hpc] at hstep
    obtain rfl := Option.some.inj hstep
    simp only [DoubleBuffer.threadStep, at_t, hpc]
    exact ⟨_, rfl, h.swapped.goto t _⟩
  | storeBusy k | ctorBusy =>
    simp only [threadStep, hpc] at hstep
    obtain rfl := Option.some.inj hstep
    simp only [DoubleBuffer.threadStep, at_t, hpc]
    exact ⟨_, rfl, (h.setFree false).goto t _⟩
  | flushPost | ctorPost =>
    simp only [threadStep, hpc] at hstep
    obtain rfl := Option.some.inj hstep
    simp only [DoubleBuffer.threadStep, at_t, hpc]
    exact ⟨_, rfl, (h.postTask _).goto t _⟩
  | post k =>
    simp only [threadStep, hpc] at hstep
    obtain rfl := Option.some.inj hstep
    simp only [DoubleBuffer.threadStep, at_t, hpc, h.constructed]
    exact ⟨_, rfl, ((h.setConstructed _).postTask _).goto t _⟩
  | mark w =>
    simp only [threadStep, hpc] at hstep
    obtain rfl := Option.some.inj hstep
    simp only [DoubleBuffer.threadStep, at_t, hpc]
    exact ⟨_, rfl, ((h.setNotified t false).postTask _).goto t _⟩
  | needWrite =>
    simp only [threadStep, hpc] at hstep
    obtain rfl := Option.some.inj hstep
    simp only [DoubleBuffer.threadStep, at_t, hpc]
    exact ⟨_, rfl, h.goto t _⟩

private theorem worker_shows (h : Shows s d) (hstep : workerStep P s = some next)
    (noFault : next.fault = none) :
    ∃ d', DoubleBuffer.workerStep P d = some d' ∧ Shows next d' := by
  have slaveSize := h.slave.size
  have same := h.worker
  generalize hworker : s.worker = worker, hworker' : d.worker = worker' at same
  cases same with
  | idle =>
    simp only [workerStep, hworker] at hstep
    split at hstep
    · cases hstep
    · rename_i queue hqueue
      obtain rfl := Option.some.inj hstep
      refine ⟨_, ?_, (h.setQueue queue).setWorker .load⟩
      simp only [DoubleBuffer.workerStep, hworker', h.queue, hqueue]
    · rename_i t queue hqueue
      obtain rfl := Option.some.inj hstep
      refine ⟨_, ?_, ((h.setQueue queue).setNotified t true).setWorker .idle⟩
      simp only [DoubleBuffer.workerStep, hworker', h.queue, hqueue]
  | load =>
    simp only [workerStep, hworker] at hstep
    obtain rfl := Option.some.inj hstep
    simp only [DoubleBuffer.workerStep, hworker']
    refine ⟨_, rfl, h.setWorker ?_⟩
    rw [h.isSlaveFree]
    split
    · exact .idle
    · exact .empty
  | empty =>
    simp only [workerStep, hworker, slaveSize, Sink.after, frames_length_eq_zero_iff] at hstep
    obtain rfl := Option.some.inj hstep
    simp only [DoubleBuffer.workerStep, hworker']
    refine ⟨_, rfl, h.setWorker ?_⟩
    split
    · exact .store
    · exact .size
  | size =>
    simp only [workerStep, hworker, slaveSize, Sink.after] at hstep
    obtain rfl := Option.some.inj hstep
    simp only [DoubleBuffer.workerStep, hworker']
    exact ⟨_, rfl, h.setWorker (.write d.slave _)⟩
  | write sized pushed =>
    simp only [workerStep, hworker, Sink.after] at hstep
    simp only [DoubleBuffer.workerStep, hworker']
    split at hstep
    · obtain rfl := Option.some.inj hstep
      cases noFault
    · rename_i payload hread
      obtain rfl := Option.some.inj hstep
      refine ⟨_, rfl, h.wrote ⟨rfl, rfl, fun measured => ?_⟩⟩
      -- no exchange came between, so the bytes counted are those of the slave buffer
      dsimp only at measured
      rw [measured, h.slave.readData] at hread
      exact (Except.ok.inj hread).symm
  | clear =>
    obtain ⟨disk, hclear, holds, continues⟩ := h.slave.bytes.clear
    simp only [workerStep, hworker, hclear, Sink.after] at hstep
    obtain rfl := Option.some.inj hstep
    simp only [DoubleBuffer.workerStep, hworker']
    exact ⟨_, rfl, h.cleared holds continues⟩
  | store =>
    simp only [workerStep, hworker] at hstep
    obtain rfl := Option.some.inj hstep
    simp only [DoubleBuffer.workerStep, hworker']
    exact ⟨_, rfl, (h.setFree true).setWorker .idle⟩

theorem step_shows (hpage : 0 < page) (h : Shows s d) {a : Label T μ} (room : RoomFor P s a)
    (hstep : step page P s a = some next) (noFault : next.fault = none) :
    ∃ d', DoubleBuffer.step .effective P d a.protocol = some d' ∧ Shows next d' := by
  unfold step at hstep
  split at hstep
  · cases hstep
  · cases a with
    | log t m => exact enter_shows h hstep
    | flush t => exact enter_shows h hstep
    | thread t filled => exact thread_shows hpage h room hstep
    | worker => exact worker_shows h hstep noFault

theorem run_shows (hpage : 0 < page) (h : Shows s d) {as : List (Label T μ)} {s' : Sink T σ μ η}
    (room : Meets (step page P) (RoomFor P) s as) (hrun : run (step page P) s as = some s')
    (noFault : s'.fault = none) :
    ∃ d', run (DoubleBuffer.step .effective P) d (as.map Label.protocol) = some d' ∧
      Shows s' d' := by
  induction as generalizing s d with
  | nil =>
    obtain rfl := Option.some.inj hrun
    exact ⟨d, rfl, h⟩
  | cons a as ih =>
    obtain ⟨next, hstep, hrest⟩ := Machine.run_cons_some hrun
    have noFault' : next.fault = none := by
      by_contra fault
      obtain ⟨e, he⟩ := Option.ne_none_iff_exists'.mp fault
      cases as with
      | nil =>
        obtain rfl := Option.some.inj hrest
        exact fault noFault
      | cons b bs => simp [step, he] at hrest
    obtain ⟨d₁, hd₁, shown⟩ := step_shows hpage h room.1 hstep noFault'
    obtain ⟨d', hd', shown'⟩ := ih shown (room.2 next hstep) hrest
    refine ⟨d', ?_, shown'⟩
    rw [List.map_cons, Machine.run_cons, hd₁]
    exact hd'

end Steps

section Construct

variable [DecidableEq T] {page : Nat} {disk : Disk}

theorem initial_shows (t : T) (stream : σ) {master slave : MMapAux}
    {masterItems slaveItems : List Bytes}
    (hmaster : Holds master disk (ItemHeader.framing.frames masterItems))
    (hslave : Holds slave disk (ItemHeader.framing.frames slaveItems))
    (apart : master.filePath ≠ slave.filePath) :
    Shows (μ := μ) (η := η)
      (initial t stream ⟨master, (ItemHeader.framing.frames masterItems).length⟩
        ⟨slave, (ItemHeader.framing.frames slaveItems).length⟩ disk)
      (DoubleBuffer.initial .effective t stream masterItems slaveItems) where
  stream := rfl
  isSlaveFree := rfl
  pc := rfl
  constructed := rfl
  queue := rfl
  notified := rfl
  master := ⟨hmaster, rfl⟩
  slave := ⟨hslave, rfl⟩
  apart := apart
  worker := .idle
  written := .nil

/-- There is no file, or the frames of the items are in it and fit the first mapping. -/
def Left (page : Nat) (disk : Disk) (path : Path) (items : List Bytes) : Prop :=
  (disk.contents path = [] ∧ items = []) ∨
    ∃ aux, aux.filePath = path ∧ Holds aux disk (ItemHeader.framing.frames items) ∧
      headerSize + (ItemHeader.framing.frames items).length ≤ initialCapacity page

theorem construct_left (hpage : 0 < page) {path : Path} (hpath : path ≠ "") {items : List Bytes}
    (left : Left page disk path items) :
    ∃ aux disk', MMapAux.construct .working page path disk = .ok (aux, disk') ∧
      Holds aux disk' (ItemHeader.framing.frames items) ∧ aux.filePath = path ∧
        Continues aux disk aux disk' := by
  rcases left with ⟨absent, rfl⟩ | ⟨found, rfl, holds, fits⟩
  · obtain ⟨aux, disk', hconstruct, empty, hpath', continues⟩ :=
      construct_holds hpage hpath absent
    exact ⟨aux, disk', hconstruct, empty, hpath', continues⟩
  · obtain ⟨aux, disk', hconstruct, kept, hpath', continues⟩ := holds.reopen hpage fits
    exact ⟨aux, disk', hconstruct, kept, hpath', continues⟩

theorem Left.continues {path : Path} {items : List Bytes} (left : Left page disk path items)
    {aux aux' : MMapAux} {disk' : Disk} (continues : Continues aux disk aux' disk')
    (apart : path ≠ aux.filePath) : Left page disk' path items := by
  rcases left with ⟨absent, rfl⟩ | ⟨found, rfl, holds, fits⟩
  · exact Or.inl ⟨(congrArg (Option.getD · []) (continues.others _ apart)).trans absent, rfl⟩
  · have buffer : Buffer.HoldsItems ⟨found, _⟩ disk items := ⟨holds, rfl⟩
    exact Or.inr ⟨found, rfl, (buffer.other continues apart).bytes, fits⟩

theorem construct_shows (hpage : 0 < page) {masterFile slaveFile : Path} (hmaster : masterFile ≠ "")
    (hslave : slaveFile ≠ "") (hapart : masterFile ≠ slaveFile) (t : T) (stream : σ)
    {masterItems slaveItems : List Bytes} (masterLeft : Left page disk masterFile masterItems)
    (slaveLeft : Left page disk slaveFile slaveItems) :
    ∃ s₀ : Sink T σ μ η, construct page t stream masterFile slaveFile disk = .ok s₀ ∧
      Shows s₀ (DoubleBuffer.initial .effective t stream masterItems slaveItems) := by
  obtain ⟨master, disk₁, hmaster', masterHolds, rfl, continues₁⟩ :=
    construct_left hpage hmaster masterLeft
  obtain ⟨slave, disk₂, hslave', slaveHolds, rfl, continues₂⟩ :=
    construct_left hpage hslave (slaveLeft.continues continues₁ (Ne.symm hapart))
  have masterBuffer : Buffer.HoldsItems ⟨master, _⟩ disk₁ masterItems := ⟨masterHolds, rfl⟩
  have masterHolds' := (masterBuffer.other continues₂ hapart).bytes
  refine ⟨_, ?_, initial_shows t stream masterHolds' slaveHolds hapart⟩
  simp only [construct, hmaster', hslave', masterHolds'.size, slaveHolds.size, bind, Except.bind,
    pure, Except.pure]

/-- From the constructor on, every run in which the items that are pushed find room below 2^32
bytes, and in which no access goes astray, is a run of the protocol on items with the same calls:
the buffers hold the frames of the protocol's items and the chunks are the protocol's. -/
theorem runs_protocol (hpage : 0 < page) {masterFile slaveFile : Path} (hmaster : masterFile ≠ "")
    (hslave : slaveFile ≠ "") (hapart : masterFile ≠ slaveFile) (P : Pipeline σ μ Bytes η) (t : T)
    (stream : σ) {masterItems slaveItems : List Bytes}
    (masterLeft : Left page disk masterFile masterItems)
    (slaveLeft : Left page disk slaveFile slaveItems) :
    ∃ s₀ : Sink T σ μ η, construct page t stream masterFile slaveFile disk = .ok s₀ ∧
      ∀ as s, run (step page P) s₀ as = some s → Meets (step page P) (RoomFor P) s₀ as →
        s.fault = none →
          ∃ d, run (DoubleBuffer.step .effective P)
              (DoubleBuffer.initial .effective t stream masterItems slaveItems)
              (as.map Label.protocol) = some d ∧ Shows s d := by
  obtain ⟨s₀, hconstruct, shown⟩ := construct_shows (σ := σ) (μ := μ) (η := η) hpage hmaster hslave
    hapart t stream masterLeft slaveLeft
  exact ⟨s₀, hconstruct, fun as s hrun room noFault => run_shows hpage shown room hrun noFault⟩

end Construct

end FlashLog.Sinks.BufferSizes
