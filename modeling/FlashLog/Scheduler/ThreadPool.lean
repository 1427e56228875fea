import FlashLog.Support.Monitor

/-!
`ThreadPool`: callers put tasks in `task_queue_` under `mtx_` and notify `cv_`, workers wait on
`cv_` for a task or the end of `is_running_`, and one owner runs `Start` and `Stop`. One label is
one load or store of the flag, one operation on the mutex or the condition variable, one access
to the queue, or one end of a task.

A task is what its caller passed in; what it does inside is left open, and the calls it makes
itself are those of a caller.
-/

set_option autoImplicit false
set_option relaxedAutoImplicit false

namespace FlashLog.Scheduler.ThreadPool

open FlashLog.Support
open FlashLog.Support.Machine (run Meets Shows)

/-- `AddTask`, or `AddReturnTask` with or without a `wait` on the future it returns. -/
inductive Call (τ : Type)
  | addTask (task : τ)
  | addReturnTask (task : τ) (waits : Bool)
  deriving DecidableEq

def Call.task {τ : Type} : Call τ → τ
  | .addTask task => task
  | .addReturnTask task _ => task

/-- Whether the task is a `packaged_task`, whose future becomes ready when it ends. -/
def Call.packaged {τ : Type} : Call τ → Bool
  | .addTask _ => false
  | .addReturnTask _ _ => true

/-- An element of `task_queue_`; the ticket counts the elements put in before it. -/
structure Entry (τ : Type) where
  ticket : Nat
  packaged : Bool
  task : τ
  deriving DecidableEq

/-- The next step of a worker thread. -/
inductive WorkerPc (τ : Type)
  | unborn
  | lock
  | test
  | wait
  | asleep
  | check
  | dequeue
  | leave
  | unlock (e : Entry τ)
  | start (e : Entry τ)
  | running (e : Entry τ)
  | finish (e : Entry τ)
  | exited
  deriving DecidableEq

inductive CallerPc (τ : Type)
  | idle
  | lock (k : Call τ)
  | enqueue (k : Call τ)
  | unlock (k : Call τ) (ticket : Nat)
  | notify (k : Call τ) (ticket : Nat)
  | waiting (ticket : Nat)
  deriving DecidableEq

inductive OwnerPc
  | idle
  | storeRunning
  | addThread (i : Nat)
  | storeStopped
  | notify
  | join (i : Nat)
  deriving DecidableEq

inductive Agent (C : Type)
  | worker (i : Nat)
  | caller (c : C)
  | owner
  deriving DecidableEq

structure Pool (C τ : Type) where
  threadCount : Nat
  isRunning : Bool
  mtx : Option (Agent C)
  taskQueue : List (Entry τ)
  worker : Nat → WorkerPc τ
  caller : C → CallerPc τ
  owner : OwnerPc
  /-- the tickets of the packaged tasks that have ended -/
  ready : List Nat
  enqueued : List (Entry τ)
  dequeued : List (Nat × Entry τ)
  started : List (Entry τ)
  finished : List (Entry τ)

inductive Label (C τ : Type)
  | call (c : C) (k : Call τ)
  | caller (c : C)
  | worker (i : Nat)
  | spurious (i : Nat)
  | start
  | stop
  | owner
  deriving DecidableEq

variable {C τ : Type}

/-- `ThreadPool(count)`. -/
def initial (count : Nat) : Pool C τ :=
  { threadCount := count, isRunning := false, mtx := none, taskQueue := []
    worker := fun _ => .unborn, caller := fun _ => .idle, owner := .idle
    ready := [], enqueued := [], dequeued := [], started := [], finished := [] }

/-- `notify_all` on a thread that is asleep; it takes the mutex again before it tests. -/
def WorkerPc.notified : WorkerPc τ → WorkerPc τ
  | .asleep => .lock
  | pc => pc

def Pool.notifyAll (s : Pool C τ) : Pool C τ :=
  { s with worker := fun i => (s.worker i).notified }

def Pool.setWorker (s : Pool C τ) (i : Nat) (pc : WorkerPc τ) : Pool C τ :=
  { s with worker := Function.update s.worker i pc }

/-- What follows the call: a caller that waits blocks on the future. -/
def Call.after (k : Call τ) (ticket : Nat) : CallerPc τ :=
  match k with
  | .addTask _ => .idle
  | .addReturnTask _ false => .idle
  | .addReturnTask _ true => .waiting ticket

def Pool.entry (s : Pool C τ) (k : Call τ) : Entry τ := ⟨s.enqueued.length, k.packaged, k.task⟩

/-- The predicate of `cv_.wait`. -/
def Pool.wakes (s : Pool C τ) : Bool := !s.isRunning || !s.taskQueue.isEmpty

def workerStep (s : Pool C τ) (i : Nat) : Option (Pool C τ) :=
  match s.worker i with
  | .unborn => none
  | .lock => if s.mtx.isNone then some ({ s with mtx := some (.worker i) }.setWorker i .test)
      else none
  | .test => some (s.setWorker i (if s.wakes then .check else .wait))
  | .wait => some ({ s with mtx := none }.setWorker i .asleep)
  | .asleep => none
  | .check => some (s.setWorker i (if s.isRunning then .dequeue else .leave))
  | .dequeue =>
    match s.taskQueue with
    | [] => none
    | e :: rest =>
      some ({ s with taskQueue := rest, dequeued := s.dequeued ++ [(i, e)] }.setWorker i
        (.unlock e))
  | .leave => some ({ s with mtx := none }.setWorker i .exited)
  | .unlock e => some ({ s with mtx := none }.setWorker i (.start e))
  | .start e => some ({ s with started := s.started ++ [e] }.setWorker i (.running e))
  | .running e =>
    some ({ s with ready := if e.packaged then e.ticket :: s.ready else s.ready }.setWorker i
      (.finish e))
  | .finish e => some ({ s with finished := s.finished ++ [e] }.setWorker i .lock)
  | .exited => none

section Callers

variable [DecidableEq C]

def Pool.setCaller (s : Pool C τ) (c : C) (pc : CallerPc τ) : Pool C τ :=
  { s with caller := Function.update s.caller c pc }

def callerStep (s : Pool C τ) (c : C) : Option (Pool C τ) :=
  match s.caller c with
  | .idle => none
  | .lock k => if s.mtx.isNone then some ({ s with mtx := some (.caller c) }.setCaller c
      (.enqueue k)) else none
  | .enqueue k =>
    some ({ s with
      taskQueue := s.taskQueue ++ [s.entry k]
      enqueued := s.enqueued ++ [s.entry k] }.setCaller c (.unlock k s.enqueued.length))
  | .unlock k ticket => some ({ s with mtx := none }.setCaller c (.notify k ticket))
  | .notify k ticket => some (s.notifyAll.setCaller c (k.after ticket))
  | .waiting ticket => if ticket ∈ s.ready then some (s.setCaller c .idle) else none

def ownerStep (s : Pool C τ) : Option (Pool C τ) :=
  match s.owner with
  | .idle => none
  | .storeRunning => some { s with isRunning := true, owner := .addThread 0 }
  | .addThread i =>
    some (if i < s.threadCount then { s.setWorker i .lock with owner := .addThread (i + 1) }
      else { s with owner := .idle })
  | .storeStopped => some { s with isRunning := false, owner := .notify }
  | .notify => some { s.notifyAll with owner := .join 0 }
  | .join i =>
    if i < s.threadCount then
      match s.worker i with
      | .unborn | .exited => some { s.setWorker i .unborn with owner := .join (i + 1) }
      | _ => none
    else some { s with owner := .idle }

def step (s : Pool C τ) : Label C τ → Option (Pool C τ)
  | .call c k =>
    match s.caller c with
    | .idle => some (s.setCaller c (.lock k))
    | _ => none
  | .caller c => callerStep s c
  | .worker i => workerStep s i
  | .spurious i =>
    match s.worker i with
    | .asleep => some (s.setWorker i .lock)
    | _ => none
  | .start =>
    match s.owner with
    | .idle => some { s with owner := if s.isRunning then .idle else .storeRunning }
    | _ => none
  | .stop =>
    match s.owner with
    | .idle => some { s with owner := if s.isRunning then .storeStopped else .join 0 }
    | _ => none
  | .owner => ownerStep s

/-- What a step of worker `i` does, by the position it is taken from. -/
inductive WorkerStep (s : Pool C τ) (i : Nat) : Pool C τ → Prop
  | lock : s.worker i = .lock → s.mtx = none →
      WorkerStep s i ({ s with mtx := some (.worker i) }.setWorker i .test)
  | test : s.worker i = .test → s.wakes = true → WorkerStep s i (s.setWorker i .check)
  | fail : s.worker i = .test → s.wakes = false → WorkerStep s i (s.setWorker i .wait)
  | wait : s.worker i = .wait → WorkerStep s i ({ s with mtx := none }.setWorker i .asleep)
  | check : s.worker i = .check →
      WorkerStep s i (s.setWorker i (if s.isRunning then .dequeue else .leave))
  | dequeue (e : Entry τ) (rest : List (Entry τ)) : s.worker i = .dequeue →
      s.taskQueue = e :: rest →
      WorkerStep s i ({ s with
        taskQueue := rest, dequeued := s.dequeued ++ [(i, e)] }.setWorker i (.unlock e))
  | leave : s.worker i = .leave → WorkerStep s i ({ s with mtx := none }.setWorker i .exited)
  | unlock (e : Entry τ) : s.worker i = .unlock e →
      WorkerStep s i ({ s with mtx := none }.setWorker i (.start e))
  | start (e : Entry τ) : s.worker i = .start e →
      WorkerStep s i ({ s with started := s.started ++ [e] }.setWorker i (.running e))
  | running (e : Entry τ) : s.worker i = .running e →
      WorkerStep s i ({ s with
        ready := if e.packaged then e.ticket :: s.ready else s.ready }.setWorker i (.finish e))
  | finish (e : Entry τ) : s.worker i = .finish e →
      WorkerStep s i ({ s with finished := s.finished ++ [e] }.setWorker i .lock)

inductive CallerStep (s : Pool C τ) (c : C) : Pool C τ → Prop
  | lock (k : Call τ) : s.caller c = .lock k → s.mtx = none →
      CallerStep s c ({ s with mtx := some (.caller c) }.setCaller c (.enqueue k))
  | enqueue (k : Call τ) : s.caller c = .enqueue k →
      CallerStep s c ({ s with
        taskQueue := s.taskQueue ++ [s.entry k]
        enqueued := s.enqueued ++ [s.entry k] }.setCaller c (.unlock k s.enqueued.length))
  | unlock (k : Call τ) (ticket : Nat) : s.caller c = .unlock k ticket →
      CallerStep s c ({ s with mtx := none }.setCaller c (.notify k ticket))
  | notify (k : Call τ) (ticket : Nat) : s.caller c = .notify k ticket →
      CallerStep s c (s.notifyAll.setCaller c (k.after ticket))
  | waiting (ticket : Nat) : s.caller c = .waiting ticket → ticket ∈ s.ready →
      CallerStep s c (s.setCaller c .idle)

inductive OwnerStep (s : Pool C τ) : Pool C τ → Prop
  | storeRunning : s.owner = .storeRunning →
      OwnerStep s { s with isRunning := true, owner := .addThread 0 }
  | addThread (i : Nat) : s.owner = .addThread i → i < s.threadCount →
      OwnerStep s { s.setWorker i .lock with owner := .addThread (i + 1) }
  | added (i : Nat) : s.owner = .addThread i → s.threadCount ≤ i →
      OwnerStep s { s with owner := .idle }
  | storeStopped : s.owner = .storeStopped →
      OwnerStep s { s with isRunning := false, owner := .notify }
  | notify : s.owner = .notify → OwnerStep s { s.notifyAll with owner := .join 0 }
  | join (i : Nat) : s.owner = .join i → i < s.threadCount →
      s.worker i = .unborn ∨ s.worker i = .exited →
      OwnerStep s { s.setWorker i .unborn with owner := .join (i + 1) }
  | joined (i : Nat) : s.owner = .join i → s.threadCount ≤ i →
      OwnerStep s { s with owner := .idle }

omit [DecidableEq C] in
theorem workerStep_cases {s next : Pool C τ} {i : Nat} (h : workerStep s i = some next) :
    WorkerStep s i next := by
  cases hpc : s.worker i with
  | unborn | asleep | exited => simp [workerStep, hpc] at h
  | lock =>
    simp only [workerStep, hpc] at h
    obtain ⟨hfree, h⟩ := Option.ite_none_right_eq_some.mp h
    obtain rfl := Option.some.inj h
    exact .lock hpc (Option.isNone_iff_eq_none.mp hfree)
  | test =>
    simp only [workerStep, hpc] at h
    obtain rfl := Option.some.inj h
    cases hwakes : s.wakes with
    | true => exact .test hpc hwakes
    | false => exact .fail hpc hwakes
  | dequeue =>
    simp only [workerStep, hpc] at h
    split at h
    · cases h
    · rename_i e rest hqueue
      obtain rfl := Option.some.inj h
      exact .dequeue e rest hpc hqueue
  | _ =>
    simp only [workerStep, hpc] at h
    obtain rfl := Option.some.inj h
    constructor
    exact hpc

theorem callerStep_cases {s next : Pool C τ} {c : C} (h : callerStep s c = some next) :
    CallerStep s c next := by
  cases hpc : s.caller c with
  | idle => simp [callerStep, hpc] at h
  | lock k =>
    simp only [callerStep, hpc] at h
    obtain ⟨hfree, h⟩ := Option.ite_none_right_eq_some.mp h
    obtain rfl := Option.some.inj h
    exact .lock k hpc (Option.isNone_iff_eq_none.mp hfree)
  | waiting ticket =>
    simp only [callerStep, hpc] at h
    obtain ⟨hready, h⟩ := Option.ite_none_right_eq_some.mp h
    obtain rfl := Option.some.inj h
    exact .waiting ticket hpc hready
  | _ =>
    simp only [callerStep, hpc] at h
    obtain rfl := Option.some.inj h
    constructor
    exact hpc

omit [DecidableEq C] in
theorem ownerStep_cases {s next : Pool C τ} (h : ownerStep s = some next) :
    OwnerStep s next := by
  cases hpc : s.owner with
  | idle => simp [ownerStep, hpc] at h
  | addThread i =>
    simp only [ownerStep, hpc] at h
    obtain rfl := Option.some.inj h
    split
    · rename_i hi
      exact .addThread i hpc hi
    · rename_i hi
      exact .added i hpc (Nat.le_of_not_lt hi)
  | join i =>
    simp only [ownerStep, hpc] at h
    split at h
    · rename_i hi
      split at h
      · rename_i hworker
        obtain rfl := Option.some.inj h
        exact .join i hpc hi (Or.inl hworker)
      · rename_i hworker
        obtain rfl := Option.some.inj h
        exact .join i hpc hi (Or.inr hworker)
      · cases h
    · rename_i hi
      obtain rfl := Option.some.inj h
      exact .joined i hpc (Nat.le_of_not_lt hi)
  | _ =>
    simp only [ownerStep, hpc] at h
    obtain rfl := Option.some.inj h
    constructor
    exact hpc

inductive Stepped (s : Pool C τ) : Label C τ → Pool C τ → Prop
  | call (c : C) (k : Call τ) : s.caller c = .idle →
      Stepped s (.call c k) (s.setCaller c (.lock k))
  | caller (c : C) {next : Pool C τ} : CallerStep s c next → Stepped s (.caller c) next
  | worker (i : Nat) {next : Pool C τ} : WorkerStep s i next → Stepped s (.worker i) next
  | spurious (i : Nat) : s.worker i = .asleep → Stepped s (.spurious i) (s.setWorker i .lock)
  | start : s.owner = .idle →
      Stepped s .start { s with owner := if s.isRunning then .idle else .storeRunning }
  | stop : s.owner = .idle →
      Stepped s .stop { s with owner := if s.isRunning then .storeStopped else .join 0 }
  | owner {next : Pool C τ} : OwnerStep s next → Stepped s .owner next

theorem step_cases {s next : Pool C τ} {a : Label C τ} (h : step s a = some next) :
    Stepped s a next := by
  cases a with
  | call c k =>
    simp only [step] at h
    split at h
    · rename_i hpc
      obtain rfl := Option.some.inj h
      exact .call c k hpc
    · cases h
  | caller c => exact .caller c (callerStep_cases h)
  | worker i => exact .worker i (workerStep_cases h)
  | spurious i =>
    simp only [step] at h
    split at h
    · rename_i hpc
      obtain rfl := Option.some.inj h
      exact .spurious i hpc
    · cases h
  | start =>
    simp only [step] at h
    split at h
    · rename_i hpc
      obtain rfl := Option.some.inj h
      exact .start hpc
    · cases h
  | stop =>
    simp only [step] at h
    split at h
    · rename_i hpc
      obtain rfl := Option.some.inj h
      exact .stop hpc
    · cases h
  | owner => exact .owner (ownerStep_cases h)

end Callers

end FlashLog.Scheduler.ThreadPool
