import Mathlib.Data.UInt
import FlashLog.Scheduler.Strand

/-!
The `Scheduler`: executors are thread pools under tags. `NewTaskExecutor` holds `mtx_` while it
looks for a free tag, makes the pool and starts it; `PostTask` and `PostTaskAndGetResult` look
the tag up under `mtx_` and then call the pool. Every executor runs as a pool of its own, so one
made by `NEW_STRAND_EXECUTOR` is a strand.
-/

set_option autoImplicit false
set_option relaxedAutoImplicit false

namespace FlashLog.TaskExecutor

open FlashLog.Support.Machine (run run_preserves run_append)
open FlashLog.Scheduler
open FlashLog.Scheduler.ThreadPool (Pool Call initial)

abbrev ExecutorTag := UInt64

inductive Pc (τ : Type)
  | idle
  | newTaskExecutor (tag : ExecutorTag) (threadCount : Nat)
  | search (tag : ExecutorTag) (threadCount : Nat)
  | start (tag : ExecutorTag)
  | starting (tag : ExecutorTag)
  | getExecutorByTag (tag : ExecutorTag) (k : Call τ)
  | inPool (tag : ExecutorTag)

structure Scheduler (C τ : Type) where
  mtx : Option C
  executorDirc : ExecutorTag → Option (Pool C τ)
  pc : C → Pc τ

inductive Label (C τ : Type)
  | newTaskExecutor (c : C) (tag : ExecutorTag) (threadCount : Nat)
  | post (c : C) (tag : ExecutorTag) (k : Call τ)
  | thread (c : C)
  | worker (tag : ExecutorTag) (i : Nat)
  | spurious (tag : ExecutorTag) (i : Nat)

/-- `NEW_STRAND_EXECUTOR(tag)`: the default thread count is one. -/
def newStrandExecutor {C τ : Type} (c : C) (tag : ExecutorTag) : Label C τ :=
  .newTaskExecutor c tag 1

/-- `POST_TASK(tag, task)`. -/
def postTask {C τ : Type} (c : C) (tag : ExecutorTag) (task : τ) : Label C τ :=
  .post c tag (.addTask task)

/-- `WAIT_TASKS_COMPLETED(tag)` posts the empty task `skip` and waits for its future. -/
def waitTasksCompleted {C τ : Type} (skip : τ) (c : C) (tag : ExecutorTag) : Label C τ :=
  .post c tag (.addReturnTask skip true)

def empty {C τ : Type} : Scheduler C τ :=
  { mtx := none, executorDirc := fun _ => none, pc := fun _ => .idle }

def getNextExecutorTag (tag : ExecutorTag) : ExecutorTag := tag + 1

variable {C τ : Type} [DecidableEq C]

def Scheduler.goto (s : Scheduler C τ) (c : C) (pc : Pc τ) : Scheduler C τ :=
  { s with pc := Function.update s.pc c pc }

def Scheduler.setExecutor (s : Scheduler C τ) (tag : ExecutorTag) (p : Pool C τ) :
    Scheduler C τ :=
  { s with executorDirc := Function.update s.executorDirc tag (some p) }

def inExecutor (s : Scheduler C τ) (tag : ExecutorTag) (a : ThreadPool.Label C τ) :
    Option (Pool C τ × Scheduler C τ) :=
  (s.executorDirc tag).bind fun p =>
    (ThreadPool.step p a).map fun next => (next, s.setExecutor tag next)

def afterCall (p : Pool C τ) (c : C) (tag : ExecutorTag) : Pc τ :=
  match p.caller c with
  | .idle => .idle
  | _ => .inPool tag

def threadStep (s : Scheduler C τ) (c : C) : Option (Scheduler C τ) :=
  match s.pc c with
  | .idle => none
  | .newTaskExecutor tag threadCount =>
    match s.mtx with
    | none => some ({ s with mtx := some c }.goto c (.search tag threadCount))
    | some _ => none
  | .search tag threadCount =>
    match s.executorDirc tag with
    | some _ => some (s.goto c (.search (getNextExecutorTag tag) threadCount))
    | none => some ((s.setExecutor tag (initial threadCount)).goto c (.start tag))
  | .start tag => (inExecutor s tag .start).map fun r => r.2.goto c (.starting tag)
  | .starting tag =>
    (s.executorDirc tag).bind fun p =>
      match p.owner with
      | .idle => some ({ s with mtx := none }.goto c .idle)
      | _ => (inExecutor s tag .owner).map fun r => r.2
  | .getExecutorByTag tag k =>
    match s.mtx with
    | some _ => none
    | none =>
      match s.executorDirc tag with
      -- throws
      | none => some (s.goto c .idle)
      | some _ => (inExecutor s tag (.call c k)).map fun r => r.2.goto c (.inPool tag)
  | .inPool tag => (inExecutor s tag (.caller c)).map fun r => r.2.goto c (afterCall r.1 c tag)

def step (s : Scheduler C τ) : Label C τ → Option (Scheduler C τ)
  | .newTaskExecutor c tag threadCount =>
    match s.pc c with
    | .idle => some (s.goto c (.newTaskExecutor tag threadCount))
    | _ => none
  | .post c tag k =>
    match s.pc c with
    | .idle => some (s.goto c (.getExecutorByTag tag k))
    | _ => none
  | .thread c => threadStep s c
  | .worker tag i => (inExecutor s tag (.worker i)).map fun r => r.2
  | .spurious tag i => (inExecutor s tag (.spurious i)).map fun r => r.2

/-- What a step does to the directory: nothing, a new pool under a free tag, or one step of
one pool. -/
inductive Directed (before after : ExecutorTag → Option (Pool C τ)) : Prop
  | same : after = before → Directed before after
  | made (tag : ExecutorTag) (threadCount : Nat) : before tag = none →
      after = Function.update before tag (some (initial threadCount)) → Directed before after
  | ran (tag : ExecutorTag) (p next : Pool C τ) (a : ThreadPool.Label C τ) :
      before tag = some p → ThreadPool.step p a = some next →
      after = Function.update before tag (some next) → Directed before after

theorem inExecutor_cases {s : Scheduler C τ} {tag : ExecutorTag} {a : ThreadPool.Label C τ}
    {r : Pool C τ × Scheduler C τ} (h : inExecutor s tag a = some r) :
    Directed s.executorDirc r.2.executorDirc := by
  obtain ⟨p, hp, hr⟩ := Option.bind_eq_some_iff.mp h
  obtain ⟨next, hstep, rfl⟩ := Option.map_eq_some_iff.mp hr
  exact .ran tag p next a hp hstep rfl

theorem step_directed {s next : Scheduler C τ} {a : Label C τ} (h : step s a = some next) :
    Directed s.executorDirc next.executorDirc := by
  cases a with
  | newTaskExecutor c tag threadCount | post c tag k =>
    simp only [step] at h
    split at h
    · obtain rfl := Option.some.inj h
      exact .same rfl
    · cases h
  | worker tag i | spurious tag i =>
    obtain ⟨r, hr, rfl⟩ := Option.map_eq_some_iff.mp h
    exact inExecutor_cases hr
  | thread c =>
    simp only [step] at h
    cases hpc : s.pc c with
    | idle => simp [threadStep, hpc] at h
    | newTaskExecutor tag threadCount =>
      simp only [threadStep, hpc] at h
      split at h
      · obtain rfl := Option.some.inj h
        exact .same rfl
      · cases h
    | search tag threadCount =>
      simp only [threadStep, hpc] at h
      split at h
      · obtain rfl := Option.some.inj h
        exact .same rfl
      · rename_i free
        obtain rfl := Option.some.inj h
        exact .made tag threadCount free rfl
    | start tag | inPool tag =>
      simp only [threadStep, hpc] at h
      obtain ⟨r, hr, rfl⟩ := Option.map_eq_some_iff.mp h
      exact inExecutor_cases hr
    | starting tag =>
      simp only [threadStep, hpc] at h
      obtain ⟨p, hp, h⟩ := Option.bind_eq_some_iff.mp h
      split at h
      · obtain rfl := Option.some.inj h
        exact .same rfl
      · obtain ⟨r, hr, rfl⟩ := Option.map_eq_some_iff.mp h
        exact inExecutor_cases hr
    | getExecutorByTag tag k =>
      simp only [threadStep, hpc] at h
      split at h
      · cases h
      · split at h
        · obtain rfl := Option.some.inj h
          exact .same rfl
        · obtain ⟨r, hr, rfl⟩ := Option.map_eq_some_iff.mp h
          exact inExecutor_cases hr

/-- Every executor runs as a pool of its own, from the moment it was made. -/
def Scheduler.RunsPools (s : Scheduler C τ) : Prop :=
  ∀ tag p, s.executorDirc tag = some p →
    ∃ as, run ThreadPool.step (initial p.threadCount) as = some p

theorem step_runsPools {s next : Scheduler C τ} {a : Label C τ} (inv : s.RunsPools)
    (h : step s a = some next) : next.RunsPools := by
  intro tag p hp
  rcases step_directed h with same | ⟨made, threadCount, free, after⟩ |
    ⟨ran, q, q', b, before, hstep, after⟩
  · exact inv tag p (same ▸ hp)
  · rw [after, Function.update_apply] at hp
    split at hp
    · obtain rfl := Option.some.inj hp
      exact ⟨[], rfl⟩
    · exact inv tag p hp
  · rw [after, Function.update_apply] at hp
    split at hp
    · obtain rfl := Option.some.inj hp
      obtain ⟨as, has⟩ := inv ran q before
      refine ⟨as ++ [b], ?_⟩
      rw [ThreadPool.step_threadCount hstep, run_append, has]
      simp [hstep]
    · exact inv tag p hp

theorem run_runsPools {s : Scheduler C τ} {as : List (Label C τ)}
    (h : run step empty as = some s) : s.RunsPools :=
  run_preserves Scheduler.RunsPools (fun _ _ _ inv hstep => step_runsPools inv hstep)
    (fun _ _ h => (by cases h)) h

/-- An executor made by `NEW_STRAND_EXECUTOR` starts its tasks in the order of the queue, each
once and after the one before it has finished; when `WAIT_TASKS_COMPLETED` returns, every task
queued before its own has finished. -/
theorem strand_guarantee (as : List (Label C τ)) (s : Scheduler C τ)
    (hrun : run step empty as = some s) (tag : ExecutorTag) (p : Pool C τ)
    (hp : s.executorDirc tag = some p) (single : p.threadCount = 1) :
    p.started <+: p.enqueued ∧ p.started.Nodup ∧
      (p.started = p.finished ∨ ∃ e, p.started = p.finished ++ [e]) ∧
      ∀ c k next, s.pc c = .inPool tag → p.caller c = .waiting k →
        step s (.thread c) = some next → ∀ e ∈ p.enqueued, e.ticket < k → e ∈ p.finished := by
  obtain ⟨bs, hbs⟩ := run_runsPools hrun tag p hp
  rw [single] at hbs
  have stranded := ThreadPool.run_stranded hbs
  refine ⟨stranded.inOrder.started_prefix, ?_, ?_, ?_⟩
  · exact stranded.kept.nodup.sublist stranded.inOrder.started_prefix.sublist
  · have starts := stranded.inOrder.starts
    cases hcurrent : p.strand.current with
    | none =>
      rw [hcurrent] at starts
      exact Or.inl (starts.trans (List.append_nil _))
    | some e =>
      rw [hcurrent] at starts
      exact Or.inr ⟨e, starts⟩
  · intro c k next hpc waiting hstep e he earlier
    have enabled : k ∈ p.ready := by
      simp only [step, threadStep, hpc] at hstep
      obtain ⟨r, hr, -⟩ := Option.map_eq_some_iff.mp hstep
      obtain ⟨q, hq, hr⟩ := Option.bind_eq_some_iff.mp hr
      obtain rfl : q = p := Option.some.inj (hq.symm.trans hp)
      obtain ⟨q', hq', -⟩ := Option.map_eq_some_iff.mp hr
      simp only [ThreadPool.step, ThreadPool.callerStep, waiting] at hq'
      exact (Option.ite_none_right_eq_some.mp hq').1
    exact stranded.earlier_finished enabled he earlier

/-- A strand executor, a task, and a `WAIT_TASKS_COMPLETED` whose future has just become ready. -/
def postAndWait : List (Label Bool Nat) :=
  newStrandExecutor true 5 :: List.replicate 7 (.thread true) ++
    postTask false 5 7 :: List.replicate 5 (.thread false) ++
    waitTasksCompleted 0 true 5 :: List.replicate 5 (.thread true) ++
    List.replicate 15 (.worker 5 0)

theorem strand_guarantee_postAndWait :
    ∃ (s : Scheduler Bool Nat) (p : Pool Bool Nat), run step empty postAndWait = some s ∧
      s.executorDirc 5 = some p ∧ p.caller true = .waiting 1 ∧ p.ready = [1] ∧
      p.started <+: p.enqueued ∧ p.started.Nodup ∧
      (p.started = p.finished ∨ ∃ e, p.started = p.finished ++ [e]) ∧
      ∀ c k next, s.pc c = .inPool 5 → p.caller c = .waiting k →
        step s (.thread c) = some next → ∀ e ∈ p.enqueued, e.ticket < k → e ∈ p.finished := by
  obtain ⟨s, p, hs, hp, single, waiting, ready⟩ :
      ∃ (s : Scheduler Bool Nat) (p : Pool Bool Nat), run step empty postAndWait = some s ∧
        s.executorDirc 5 = some p ∧ p.threadCount = 1 ∧ p.caller true = .waiting 1 ∧
        p.ready = [1] := ⟨_, _, rfl, rfl, rfl, rfl, rfl⟩
  exact ⟨s, p, hs, hp, waiting, ready, strand_guarantee postAndWait s hs 5 p hp single⟩

end FlashLog.TaskExecutor
