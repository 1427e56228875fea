import FlashLog.Scheduler.PoolProgress

/-!
A pool whose tasks may throw. A `packaged_task` keeps the exception for its future; a task that
`AddTask` put in is called bare by `AddThread`'s loop, so that its exception leaves the thread's
function and the process ends.
-/

set_option autoImplicit false
set_option relaxedAutoImplicit false

namespace FlashLog.Scheduler.ThreadPool

open FlashLog.Support
open FlashLog.Support.Machine (run Meets Passes run_passes_iff_meets)

variable {C τ : Type} [DecidableEq C]

structure Process (C τ : Type) where
  pool : Pool C τ
  /-- whether `std::terminate` has ended it -/
  terminated : Bool

inductive Event (C τ : Type)
  | pool (a : Label C τ)
  | throws (i : Nat)
  deriving DecidableEq

def Process.initial (count : Nat) : Process C τ := ⟨ThreadPool.initial count, false⟩

def throwing (s : Process C τ) (i : Nat) : Option (Process C τ) :=
  match s.pool.worker i with
  | .running e =>
    if e.packaged then (step s.pool (.worker i)).map (⟨·, false⟩)
    else some { s with terminated := true }
  | _ => none

/-- Nothing happens in a process that has ended. -/
def Process.step (s : Process C τ) (event : Event C τ) : Option (Process C τ) :=
  if s.terminated then none
  else
    match event with
    | .pool a => (ThreadPool.step s.pool a).map (⟨·, false⟩)
    | .throws i => throwing s i

/-- The process goes on, its workers survive and its tasks are run. -/
structure Process.Survives (s : Process C τ) : Prop where
  alive : s.terminated = false
  served : s.pool.Served

/-- A task that throws was put in by `AddReturnTask`. -/
def ThrowsPackaged (s : Process C τ) : Event C τ → Prop
  | .throws i => ∀ e, s.pool.worker i = .running e → e.packaged = true
  | .pool _ => True

/-- What a step does: the pool goes on, or a bare task ends the process. -/
theorem process_cases {s next : Process C τ} {event : Event C τ}
    (h : s.step event = some next) :
    s.terminated = false ∧
      ((∃ a pool, ThreadPool.step s.pool a = some pool ∧ next = ⟨pool, false⟩ ∧
          ThrowsPackaged s event) ∨
        (next = { s with terminated := true } ∧ ¬ ThrowsPackaged s event)) := by
  unfold Process.step at h
  split at h
  · cases h
  · rename_i alive
    refine ⟨Bool.eq_false_of_not_eq_true alive, ?_⟩
    cases event with
    | pool a =>
      obtain ⟨pool, hstep, rfl⟩ := Option.map_eq_some_iff.mp h
      exact Or.inl ⟨a, pool, hstep, rfl, trivial⟩
    | throws i =>
      simp only [throwing] at h
      split at h
      · rename_i e hpc
        split at h
        · rename_i packaged
          obtain ⟨pool, hstep, rfl⟩ := Option.map_eq_some_iff.mp h
          refine Or.inl ⟨.worker i, pool, hstep, rfl, fun e' hpc' => ?_⟩
          obtain rfl := WorkerPc.running.inj (hpc.symm.trans hpc')
          exact packaged
        · rename_i bare
          exact Or.inr ⟨(Option.some.inj h).symm, fun packaged => bare (packaged e hpc)⟩
      · cases h

/-- The workers survive and every task is run in all states of a run exactly when no task throws
that was put in by `AddTask`. -/
theorem throwingTasks_survives_iff (count : Nat) (events : List (Event C τ)) (s : Process C τ)
    (hrun : run Process.step (Process.initial count) events = some s) :
    (Process.initial count : Process C τ).Survives ∧
      (Passes Process.step (fun _ _ next => next.Survives) (Process.initial count) events ↔
        Meets Process.step ThrowsPackaged (Process.initial count) events) := by
  have regular : (Process.initial count : Process C τ).pool.Regular := initial_regular count
  refine ⟨⟨rfl, regular.isServed⟩, ?_⟩
  refine run_passes_iff_meets (I := fun s => s.pool.Regular) ?_ ?_ regular hrun
  · intro s event next inv hstep survives
    obtain ⟨-, ⟨a, pool, hpool, rfl, -⟩ | ⟨rfl, -⟩⟩ := process_cases hstep
    · exact step_regular inv hpool
    · exact inv
  · intro s event next inv hstep
    obtain ⟨-, ⟨a, pool, hpool, rfl, packaged⟩ | ⟨rfl, bare⟩⟩ := process_cases hstep
    · exact iff_of_true ⟨rfl, (step_regular inv hpool).isServed⟩ packaged
    · exact iff_of_false (fun survives => Bool.noConfusion survives.alive) bare

/-- A task from `AddReturnTask` throws, and its worker goes back to the mutex. -/
def addReturnThenThrow : List (Event Unit Nat) :=
  ([.call () (.addReturnTask 7 false), .caller (), .caller (), .caller (), .caller (),
    .start, .owner, .owner, .owner, .worker 0, .worker 0, .worker 0, .worker 0, .worker 0,
    .worker 0] : List (Label Unit Nat)).map .pool ++ [.throws 0, .pool (.worker 0)]

theorem throwingTasks_survives_iff_packaged :
    ∃ s : Process Unit Nat, run Process.step (Process.initial 1) addReturnThenThrow = some s ∧
      s.pool.worker 0 = .lock ∧
      (Process.initial 1 : Process Unit Nat).Survives ∧
        (Passes Process.step (fun _ _ next => next.Survives) (Process.initial 1)
            addReturnThenThrow ↔
          Meets Process.step ThrowsPackaged (Process.initial 1) addReturnThenThrow) := by
  obtain ⟨s, hs, locks⟩ : ∃ s : Process Unit Nat,
      run Process.step (Process.initial 1) addReturnThenThrow = some s ∧
        s.pool.worker 0 = .lock := ⟨_, rfl, rfl⟩
  exact ⟨s, hs, locks, throwingTasks_survives_iff 1 addReturnThenThrow s hs⟩

def addTwoThenThrow : List (Event Unit Nat) :=
  ([.call () (.addTask 7), .caller (), .caller (), .caller (), .caller (),
    .call () (.addTask 8), .caller (), .caller (), .caller (), .caller (),
    .start, .owner, .owner, .owner, .worker 0, .worker 0, .worker 0, .worker 0, .worker 0,
    .worker 0] : List (Label Unit Nat)).map .pool ++ [.throws 0]

/-- The process ends with the second task still in the queue. -/
theorem bareTask_terminates :
    ∃ s : Process Unit Nat, run Process.step (Process.initial 1) addTwoThenThrow = some s ∧
      s.terminated = true ∧ s.pool.taskQueue = [⟨1, false, 8⟩] ∧
      (∀ event, s.step event = none) ∧ ¬ s.Survives := by
  obtain ⟨s, hs, ended, queue⟩ : ∃ s : Process Unit Nat,
      run Process.step (Process.initial 1) addTwoThenThrow = some s ∧ s.terminated = true ∧
        s.pool.taskQueue = [⟨1, false, 8⟩] := ⟨_, rfl, rfl, rfl⟩
  refine ⟨s, hs, ended, queue, fun event => ?_, fun survives => ?_⟩
  · unfold Process.step
    exact if_pos ended
  · rw [survives.alive] at ended
    cases ended

end FlashLog.Scheduler.ThreadPool
