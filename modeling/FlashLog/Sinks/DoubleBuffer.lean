import Mathlib.Logic.Function.Basic
import FlashLog.Support.Handoff

/-!
The double-buffer protocol of `EffectiveSink` and `AsyncSink`: callers push into
the master buffer, `SwapCache_` exchanges master and slave behind the atomic flag
`is_slave_free_`, and one strand worker runs the posted `CacheToFile_` tasks. One
label is one load or store of the flag, one `mtx_` section, one access of
`CacheToFile_` to the slave buffer, or one operation on the strand's queue.

Buffers are lists of items. The outcome of the floating-point test of
`NeedWriteToFile_` is left open: either outcome is a label.
-/

set_option autoImplicit false
set_option relaxedAutoImplicit false

namespace FlashLog.Sinks.DoubleBuffer

open FlashLog.Support
open FlashLog.Support.Machine (run Meets Shows Simulates)

/-- The two sinks that share the protocol. -/
inductive Kind
  | effective | async
  deriving DecidableEq

/-- What a `Log` call does with a formatted message before `WriteToCache_`, and the
`iv` and `pub_key` that `CacheToFile_` copies into each `ChunkHeader`. `encode` is
`none` when `Compress` returns 0 or `Encrypt` yields nothing. -/
structure Pipeline (σ μ ι η : Type) where
  resetStream : σ → σ
  encode : σ → μ → σ × Option ι
  keys : η

inductive Caller
  | ctor | log | flush
  deriving DecidableEq

/-- The three `WAIT_TASKS_COMPLETED`: one in the constructor, two in `Flush`. -/
inductive Wait
  | ctor | first | second
  deriving DecidableEq

/-- The next step of a calling thread. -/
inductive Pc (μ : Type)
  | idle
  | resetIfEmpty (m : μ)
  | push (m : μ)
  | needWrite
  | loadFree (k : Caller)
  | storeBusy (k : Caller)
  | swap (k : Caller)
  | post (k : Caller)
  | flushPost
  | mark (w : Wait)
  | wait (w : Wait)
  | ctorSlave
  | ctorBusy
  | ctorPost
  | ctorMaster

/-- A task in the strand's queue: `CacheToFile_`, or the empty task a thread waits for. -/
inductive Task (T : Type)
  | cacheToFile
  | notify (t : T)

inductive WorkerPc (ι : Type)
  | idle
  | load
  | empty
  | size
  | write (sized : List ι)
  | clear
  | store

/-- A written chunk: header keys, the contents whose `Size()` went into the header and
the contents whose `Data()` followed it. -/
structure Chunk (ι η : Type) where
  keys : η
  sized : List ι
  payload : List ι

structure Sink (T σ μ ι η : Type) where
  stream : σ
  isSlaveFree : Bool
  master : List ι
  slave : List ι
  /-- whether the master pointer names the buffer built on `slave_mmap` -/
  swapped : Bool
  pc : T → Pc μ
  constructed : Bool
  queue : List (Task T)
  notified : T → Bool
  worker : WorkerPc ι
  written : List (Chunk ι η)
  /-- every item `WriteToCache_` pushed, leftovers of an earlier process first -/
  pushed : List ι

inductive Label (T μ : Type)
  | log (t : T) (m : μ)
  | flush (t : T)
  | thread (t : T) (filled : Bool)
  | worker
  deriving DecidableEq

variable {T σ μ ι η : Type} [DecidableEq T]

/-- The state in which thread `t` has built the buffers. `EffectiveSink` maps the files
`master_mmap` and `slave_mmap` with what an earlier process left in them and recovers it
before the constructor returns; `AsyncSink` starts from two empty buffers. -/
def initial (kind : Kind) (t : T) (stream : σ) (masterFile slaveFile : List ι) :
    Sink T σ μ ι η :=
  match kind with
  | .effective =>
    { stream, isSlaveFree := true, master := masterFile, slave := slaveFile, swapped := false
      pc := Function.update (fun _ => .idle) t .ctorSlave
      constructed := false, queue := [], notified := fun _ => false, worker := .idle
      written := [], pushed := slaveFile ++ masterFile }
  | .async =>
    { stream, isSlaveFree := true, master := [], slave := [], swapped := false
      pc := fun _ => .idle, constructed := true, queue := [], notified := fun _ => false
      worker := .idle, written := [], pushed := [] }

/-- The first step of `Log`: only `EffectiveSink::Log` tests `Empty` and resets the stream. -/
def beginLog (kind : Kind) (m : μ) : Pc μ :=
  match kind with
  | .effective => .resetIfEmpty m
  | .async => .push m

def Sink.goto (s : Sink T σ μ ι η) (t : T) (pc : Pc μ) : Sink T σ μ ι η :=
  { s with pc := Function.update s.pc t pc }

def Sink.postTask (s : Sink T σ μ ι η) (task : Task T) : Sink T σ μ ι η :=
  { s with queue := s.queue ++ [task] }

/-- After the `AsyncCacheToFile_` that follows `SwapCache_`. -/
def afterPost : Caller → Pc μ
  | .ctor => .idle
  | .log => .idle
  | .flush => .mark .second

/-- After `WAIT_TASKS_COMPLETED`. -/
def afterWait : Wait → Pc μ
  | .ctor => .loadFree .ctor
  | .first => .loadFree .flush
  | .second => .idle

/-- The next step of thread `t`; `filled` is the outcome of `GetRatio() > 0.8`. -/
def threadStep (P : Pipeline σ μ ι η) (s : Sink T σ μ ι η) (t : T) (filled : Bool) :
    Option (Sink T σ μ ι η) :=
  match s.pc t with
  | .idle => none
  | .resetIfEmpty m =>
    some ({ s with
      stream := if s.master.isEmpty then P.resetStream s.stream else s.stream }.goto t (.push m))
  | .push m =>
    match P.encode s.stream m with
    | (stream, none) => some ({ s with stream }.goto t .idle)
    | (stream, some x) =>
      some ({ s with
        stream, master := s.master ++ [x], pushed := s.pushed ++ [x] }.goto t .needWrite)
  | .needWrite => some (s.goto t (if filled then .loadFree .log else .idle))
  | .loadFree k => some (s.goto t (if s.isSlaveFree then .storeBusy k else .post k))
  | .storeBusy k => some ({ s with isSlaveFree := false }.goto t (.swap k))
  | .swap k =>
    some ({ s with
      master := s.slave, slave := s.master, swapped := !s.swapped }.goto t (.post k))
  | .post k =>
    some (({ s with
      constructed := s.constructed || decide (k = Caller.ctor) }.postTask .cacheToFile).goto t
        (afterPost k))
  | .flushPost => some ((s.postTask .cacheToFile).goto t (.mark .first))
  | .mark w =>
    some (({ s with notified := Function.update s.notified t false }.postTask (.notify t)).goto t
      (.wait w))
  | .wait w => if s.notified t then some (s.goto t (afterWait w)) else none
  | .ctorSlave => some (s.goto t (if s.slave.isEmpty then .ctorMaster else .ctorBusy))
  | .ctorBusy => some ({ s with isSlaveFree := false }.goto t .ctorPost)
  | .ctorPost => some ((s.postTask .cacheToFile).goto t .ctorMaster)
  | .ctorMaster =>
    some (if s.master.isEmpty then { s with constructed := true }.goto t .idle
      else s.goto t (.mark .ctor))

/-- The next step of the strand worker: take a task, or go on with `CacheToFile_`. -/
def workerStep (P : Pipeline σ μ ι η) (s : Sink T σ μ ι η) : Option (Sink T σ μ ι η) :=
  match s.worker with
  | .idle =>
    match s.queue with
    | [] => none
    | .cacheToFile :: queue => some { s with queue, worker := .load }
    | .notify t :: queue => some { s with queue, notified := Function.update s.notified t true }
  | .load => some { s with worker := if s.isSlaveFree then .idle else .empty }
  | .empty => some { s with worker := if s.slave.isEmpty then .store else .size }
  | .size => some { s with worker := .write s.slave }
  | .write sized =>
    some { s with written := s.written ++ [⟨P.keys, sized, s.slave⟩], worker := .clear }
  | .clear => some { s with slave := [], worker := .store }
  | .store => some { s with isSlaveFree := true, worker := .idle }

/-- A thread enters `Log` or `Flush` once the sink is constructed and it is in no other call. -/
def enter (s : Sink T σ μ ι η) (t : T) (pc : Pc μ) : Option (Sink T σ μ ι η) :=
  match s.pc t with
  | .idle => if s.constructed then some (s.goto t pc) else none
  | _ => none

def step (kind : Kind) (P : Pipeline σ μ ι η) (s : Sink T σ μ ι η) :
    Label T μ → Option (Sink T σ μ ι η)
  | .log t m => enter s t (beginLog kind m)
  | .flush t => enter s t .flushPost
  | .thread t filled => threadStep P s t filled
  | .worker => workerStep P s

section Inversion

/-- What a step of thread `t` does, by the position it is taken from. -/
inductive ThreadStep (P : Pipeline σ μ ι η) (s : Sink T σ μ ι η) (t : T) (filled : Bool) :
    Sink T σ μ ι η → Prop
  | resetIfEmpty (m : μ) : s.pc t = .resetIfEmpty m →
      ThreadStep P s t filled ({ s with
        stream := if s.master.isEmpty then P.resetStream s.stream else s.stream }.goto t (.push m))
  | fail (m : μ) (stream : σ) : s.pc t = .push m → P.encode s.stream m = (stream, none) →
      ThreadStep P s t filled ({ s with stream }.goto t .idle)
  | push (m : μ) (stream : σ) (x : ι) : s.pc t = .push m →
      P.encode s.stream m = (stream, some x) →
      ThreadStep P s t filled ({ s with
        stream, master := s.master ++ [x], pushed := s.pushed ++ [x] }.goto t .needWrite)
  | needWrite : s.pc t = .needWrite →
      ThreadStep P s t filled (s.goto t (if filled then .loadFree .log else .idle))
  | loadFree (k : Caller) : s.pc t = .loadFree k →
      ThreadStep P s t filled (s.goto t (if s.isSlaveFree then .storeBusy k else .post k))
  | storeBusy (k : Caller) : s.pc t = .storeBusy k →
      ThreadStep P s t filled ({ s with isSlaveFree := false }.goto t (.swap k))
  | swap (k : Caller) : s.pc t = .swap k →
      ThreadStep P s t filled ({ s with
        master := s.slave, slave := s.master, swapped := !s.swapped }.goto t (.post k))
  | post (k : Caller) : s.pc t = .post k →
      ThreadStep P s t filled (({ s with
        constructed := s.constructed || decide (k = Caller.ctor) }.postTask .cacheToFile).goto t
          (afterPost k))
  | flushPost : s.pc t = .flushPost →
      ThreadStep P s t filled ((s.postTask .cacheToFile).goto t (.mark .first))
  | mark (w : Wait) : s.pc t = .mark w →
      ThreadStep P s t filled (({ s with
        notified := Function.update s.notified t false }.postTask (.notify t)).goto t (.wait w))
  | wait (w : Wait) : s.pc t = .wait w → s.notified t = true →
      ThreadStep P s t filled (s.goto t (afterWait w))
  | ctorSlave : s.pc t = .ctorSlave →
      ThreadStep P s t filled (s.goto t (if s.slave.isEmpty then .ctorMaster else .ctorBusy))
  | ctorBusy : s.pc t = .ctorBusy →
      ThreadStep P s t filled ({ s with isSlaveFree := false }.goto t .ctorPost)
  | ctorPost : s.pc t = .ctorPost →
      ThreadStep P s t filled ((s.postTask .cacheToFile).goto t .ctorMaster)
  | ctorMaster : s.pc t = .ctorMaster →
      ThreadStep P s t filled (if s.master.isEmpty then { s with constructed := true }.goto t .idle
        else s.goto t (.mark .ctor))

inductive WorkerStep (P : Pipeline σ μ ι η) (s : Sink T σ μ ι η) : Sink T σ μ ι η → Prop
  | take (queue : List (Task T)) : s.worker = .idle → s.queue = .cacheToFile :: queue →
      WorkerStep P s { s with queue, worker := .load }
  | wake (t : T) (queue : List (Task T)) : s.worker = .idle → s.queue = .notify t :: queue →
      WorkerStep P s { s with
        queue, notified := Function.update s.notified t true, worker := .idle }
  | load : s.worker = .load →
      WorkerStep P s { s with worker := if s.isSlaveFree then .idle else .empty }
  | empty : s.worker = .empty →
      WorkerStep P s { s with worker := if s.slave.isEmpty then .store else .size }
  | size : s.worker = .size → WorkerStep P s { s with worker := .write s.slave }
  | write (sized : List ι) : s.worker = .write sized →
      WorkerStep P s { s with
        written := s.written ++ [⟨P.keys, sized, s.slave⟩], worker := .clear }
  | clear : s.worker = .clear → WorkerStep P s { s with slave := [], worker := .store }
  | store : s.worker = .store → WorkerStep P s { s with isSlaveFree := true, worker := .idle }

theorem threadStep_cases {P : Pipeline σ μ ι η} {s next : Sink T σ μ ι η} {t : T} {filled : Bool}
    (h : threadStep P s t filled = some next) : ThreadStep P s t filled next := by
  cases hpc : s.pc t with
  | idle => simp [threadStep, hpc] at h
  | push m =>
    simp only [threadStep, hpc] at h
    cases hencode : P.encode s.stream m with
    | mk stream item =>
      rw [hencode] at h
      cases item with
      | none =>
        obtain rfl := Option.some.inj h
        exact .fail m stream hpc hencode
      | some x =>
        obtain rfl := Option.some.inj h
        exact .push m stream x hpc hencode
  | wait w =>
    simp only [threadStep, hpc] at h
    split at h
    · rename_i woken
      obtain rfl := Option.some.inj h
      exact .wait w hpc woken
    · cases h
  | _ =>
    simp only [threadStep, hpc] at h
    obtain rfl := Option.some.inj h
    constructor
    exact hpc

theorem workerStep_cases {P : Pipeline σ μ ι η} {s next : Sink T σ μ ι η}
    (h : workerStep P s = some next) : WorkerStep P s next := by
  cases hworker : s.worker with
  | idle =>
    simp only [workerStep, hworker] at h
    split at h
    · cases h
    · rename_i queue hqueue
      obtain rfl := Option.some.inj h
      exact .take queue hworker hqueue
    · rename_i t queue hqueue
      obtain rfl := Option.some.inj h
      exact .wake t queue hworker hqueue
  | _ =>
    simp only [workerStep, hworker] at h
    obtain rfl := Option.some.inj h
    constructor
    exact hworker

theorem enter_cases {s next : Sink T σ μ ι η} {t : T} {pc : Pc μ}
    (h : enter s t pc = some next) :
    s.pc t = .idle ∧ s.constructed = true ∧ next = s.goto t pc := by
  unfold enter at h
  split at h
  · rename_i hpc
    split at h
    · rename_i constructed
      exact ⟨hpc, constructed, (Option.some.inj h).symm⟩
    · cases h
  · cases h

end Inversion

section View

/-- Between `Size()` and `Clear()` the strand worker is inside an emission. -/
def WorkerPc.phase : WorkerPc ι → Handoff.Phase ι
  | .write sized => .measured sized
  | .clear => .emitted
  | _ => .rest

/-- The buffers as a two-buffer hand-over: `CacheToFile_` is the emission. -/
def Sink.view (s : Sink T σ μ ι η) : Handoff.State ι where
  front := s.master
  back := s.slave
  phase := s.worker.phase
  out := s.written.map fun c => ⟨c.sized, c.payload⟩
  pushed := s.pushed

def move (P : Pipeline σ μ ι η) (s : Sink T σ μ ι η) : Label T μ → Option (Handoff.Move ι)
  | .thread t _ =>
    match s.pc t with
    | .push m => (P.encode s.stream m).2.map .push
    | .swap _ => some .exchange
    | _ => none
  | .worker =>
    match s.worker with
    | .size => some .measure
    | .write _ => some .emit
    | .clear => some .discard
    | _ => none
  | _ => none

private theorem enter_view {s next : Sink T σ μ ι η} {t : T} {pc : Pc μ}
    (h : enter s t pc = some next) : next.view = s.view := by
  obtain ⟨-, -, rfl⟩ := enter_cases h
  rfl

private theorem thread_view {P : Pipeline σ μ ι η} {s next : Sink T σ μ ι η} {t : T}
    {filled : Bool} (h : threadStep P s t filled = some next) :
    Shows Handoff.step s.view next.view (move P s (.thread t filled)) := by
  cases threadStep_cases h with
  | fail m stream hpc hencode =>
    simp only [move, hpc, hencode]
    rfl
  | push m stream x hpc hencode =>
    simp only [move, hpc, hencode]
    rfl
  | ctorMaster hpc =>
    simp only [move, hpc]
    split <;> rfl
  | resetIfEmpty m hpc | needWrite hpc | loadFree k hpc | storeBusy k hpc | swap k hpc
  | post k hpc | flushPost hpc | mark w hpc | wait w hpc woken | ctorSlave hpc | ctorBusy hpc
  | ctorPost hpc =>
    simp only [move, hpc]
    rfl

private theorem worker_view {P : Pipeline σ μ ι η} {s next : Sink T σ μ ι η}
    (h : workerStep P s = some next) :
    Shows Handoff.step s.view next.view (move P s .worker) := by
  cases workerStep_cases h with
  | take queue hworker hqueue => simp [move, Shows, Sink.view, WorkerPc.phase, hworker]
  | wake t queue hworker hqueue => simp [move, Shows, Sink.view, WorkerPc.phase, hworker]
  | load hworker =>
    cases hfree : s.isSlaveFree <;> simp [move, Shows, Sink.view, WorkerPc.phase, hworker]
  | empty hworker =>
    cases hslave : s.slave.isEmpty <;> simp [move, Shows, Sink.view, WorkerPc.phase, hworker]
  | size hworker | write sized hworker | clear hworker | store hworker =>
    simp [move, Shows, Sink.view, WorkerPc.phase, Handoff.step, hworker]

/-- The protocol refines the two-buffer hand-over. -/
theorem simulates_handoff (kind : Kind) (P : Pipeline σ μ ι η) :
    Simulates (step (T := T) kind P) Handoff.step Sink.view (move P) := by
  intro s a next h
  cases a with
  | log t m => exact enter_view h
  | flush t => exact enter_view h
  | thread t filled => exact thread_view h
  | worker => exact worker_view h

end View

end FlashLog.Sinks.DoubleBuffer
