import Mathlib.Algebra.BigOperators.Group.Finset.Basic
import Mathlib.Algebra.Order.BigOperators.Group.Finset
import FlashLog.Scheduler.NoLostTask

/-!
A running pool serves its queue. Its workers stay in their loops, every element taken out is run
once, and while no call is in progress the workers come to rest after a bounded number of steps,
in whatever order they are taken, with every element run to its end.
-/

set_option autoImplicit false
set_option relaxedAutoImplicit false

namespace FlashLog.Scheduler.ThreadPool

open FlashLog.Support
open FlashLog.Support.Machine (run run_preserves run_cons_some)

variable {C τ : Type}

section Loops

def WorkerPc.InLoop : WorkerPc τ → Prop
  | .unborn | .leave | .exited => False
  | _ => True

/-- While the pool runs, the threads that `Start` has made are in their loops. -/
def Pool.Staffed (s : Pool C τ) : Prop :=
  ∀ i < s.threadCount, s.isRunning = true →
    (s.owner = .idle ∨ s.owner = .storeStopped ∨ ∃ k, s.owner = .addThread k ∧ i < k) →
    (s.worker i).InLoop

theorem WorkerPc.notified_inLoop {pc : WorkerPc τ} (h : pc.InLoop) : pc.notified.InLoop := by
  cases pc with
  | unborn | leave | exited => exact h
  | _ => trivial

theorem WorkerStep.inLoop {s next : Pool C τ} {i : Nat} (running : s.isRunning = true)
    (h : WorkerStep s i next) (j : Nat) (hj : (s.worker j).InLoop) : (next.worker j).InLoop := by
  by_cases same : j = i
  · subst same
    cases h with
    | leave hpc =>
      rw [hpc] at hj
      exact absurd hj id
    | _ => simp [Pool.setWorker, WorkerPc.InLoop, running]
  · cases h <;> simpa [Pool.setWorker, same] using hj

theorem initial_staffed (count : Nat) : (initial count : Pool C τ).Staffed :=
  fun _ _ running _ => Bool.noConfusion running

private theorem owner_staffed {s next : Pool C τ} (mustered : s.Mustered) (inv : s.Staffed)
    (h : OwnerStep s next) : next.Staffed := by
  have flag := mustered.flag
  intro i hi running made
  cases h with
  | storeRunning hpc | notify hpc | join k hpc => simp at made
  | addThread k hpc hk =>
    by_cases same : i = k
    · subst same
      simp [Pool.setWorker, WorkerPc.InLoop]
    · have before : i < k := by
        rcases made with made | made | ⟨k', made, hlt⟩
        · cases made
        · cases made
        · obtain rfl := OwnerPc.addThread.inj made
          omega
      have inLoop := inv i hi running (Or.inr (Or.inr ⟨k, hpc, before⟩))
      simpa [Pool.setWorker, same] using inLoop
  | added k hpc hk => exact inv i hi running (Or.inr (Or.inr ⟨k, hpc, Nat.lt_of_lt_of_le hi hk⟩))
  | storeStopped hpc => cases running
  | joined k hpc hk =>
    simp only [hpc] at flag
    rw [show s.isRunning = true from running] at flag
    cases flag

variable [DecidableEq C]

theorem step_staffed {s next : Pool C τ} {a : Label C τ} (mustered : s.Mustered)
    (inv : s.Staffed) (h : step s a = some next) : next.Staffed := by
  cases step_cases h with
  | call c k hpc => exact inv
  | caller c h =>
    cases h with
    | notify k ticket hpc =>
      exact fun i hi running made => WorkerPc.notified_inLoop (inv i hi running made)
    | lock k hpc | enqueue k hpc | unlock k ticket hpc | waiting ticket hpc => exact inv
  | worker i h =>
    have same : next.threadCount = s.threadCount ∧ next.isRunning = s.isRunning ∧
        next.owner = s.owner := by cases h <;> exact ⟨rfl, rfl, rfl⟩
    intro j hj running made
    rw [same.1] at hj
    rw [same.2.1] at running
    rw [same.2.2] at made
    exact h.inLoop running j (inv j hj running made)
  | spurious i hpc =>
    intro j hj running made
    by_cases same : j = i
    · subst same
      simp [Pool.setWorker, WorkerPc.InLoop]
    · simpa [Pool.setWorker, same] using inv j hj running made
  | start hpc =>
    intro i hi running made
    exact inv i hi running (Or.inl hpc)
  | stop hpc =>
    intro i hi running made
    exact inv i hi running (Or.inl hpc)
  | owner h => exact owner_staffed mustered inv h

end Loops

section Hands

def WorkerPc.Holds (e : Entry τ) : WorkerPc τ → Prop
  | .unlock e' | .start e' => e' = e
  | _ => False

/-- The element whose task a worker runs. -/
def WorkerPc.Runs (e : Entry τ) : WorkerPc τ → Prop
  | .running e' | .finish e' => e' = e
  | _ => False

/-- Every element taken out is held by its taker or was started, once; and one that was started
is run by its taker or has ended. -/
structure Pool.Handled (s : Pool C τ) : Prop where
  taken : ∀ i e, (i, e) ∈ s.dequeued → e ∈ s.started ∨ (s.worker i).Holds e
  held : ∀ i e, (s.worker i).Holds e → (i, e) ∈ s.dequeued ∧ e ∉ s.started
  started : ∀ e ∈ s.started, ∃ i, (i, e) ∈ s.dequeued
  once : s.started.Nodup
  ended : ∀ i e, (i, e) ∈ s.dequeued → e ∈ s.started → e ∈ s.finished ∨ (s.worker i).Runs e

theorem initial_handled (count : Nat) : (initial count : Pool C τ).Handled where
  taken _ _ h := absurd h List.not_mem_nil
  held _ _ h := absurd h id
  started _ h := absurd h List.not_mem_nil
  once := List.nodup_nil
  ended _ _ h := absurd h List.not_mem_nil

private theorem Pool.Handled.frame {s next : Pool C τ} (inv : s.Handled)
    (dequeued : next.dequeued = s.dequeued) (started : next.started = s.started)
    (finished : next.finished = s.finished)
    (holds : ∀ i e, (next.worker i).Holds e ↔ (s.worker i).Holds e)
    (runs : ∀ i e, (next.worker i).Runs e ↔ (s.worker i).Runs e) : next.Handled := by
  constructor
  · simpa only [dequeued, started, holds] using inv.taken
  · simpa only [dequeued, started, holds] using inv.held
  · simpa only [dequeued, started] using inv.started
  · rw [started]
    exact inv.once
  · simpa only [dequeued, started, finished, runs] using inv.ended

theorem WorkerPc.notified_holds (pc : WorkerPc τ) (e : Entry τ) :
    pc.notified.Holds e ↔ pc.Holds e := by
  cases pc <;> exact Iff.rfl

theorem WorkerPc.notified_runs (pc : WorkerPc τ) (e : Entry τ) :
    pc.notified.Runs e ↔ pc.Runs e := by
  cases pc <;> exact Iff.rfl

private theorem Pool.Handled.setWorker_empty {s next : Pool C τ} (inv : s.Handled) {i : Nat}
    {pc : WorkerPc τ} (before : ∀ e, ¬ (s.worker i).Holds e ∧ ¬ (s.worker i).Runs e)
    (after : ∀ e, ¬ pc.Holds e ∧ ¬ pc.Runs e)
    (worker : next.worker = Function.update s.worker i pc)
    (dequeued : next.dequeued = s.dequeued) (started : next.started = s.started)
    (finished : next.finished = s.finished) : next.Handled := by
  refine inv.frame dequeued started finished (fun j e => ?_) (fun j e => ?_)
  · by_cases same : j = i
    · subst same
      rw [worker, Function.update_self]
      exact iff_of_false (after e).1 (before e).1
    · rw [worker, Function.update_of_ne same]
  · by_cases same : j = i
    · subst same
      rw [worker, Function.update_self]
      exact iff_of_false (after e).2 (before e).2
    · rw [worker, Function.update_of_ne same]

private theorem dequeue_handled {s : Pool C τ} {i : Nat} {e : Entry τ} {rest : List (Entry τ)}
    (kept : s.Kept) (inv : s.Handled) (hpc : s.worker i = .dequeue)
    (hqueue : s.taskQueue = e :: rest) :
    Pool.Handled ({ s with
      taskQueue := rest, dequeued := s.dequeued ++ [(i, e)] }.setWorker i (.unlock e)) := by
  have fresh : e ∉ s.dequeued.map Prod.snd := by
    have nodup := kept.nodup
    rw [kept.kept, hqueue] at nodup
    exact fun taken => List.disjoint_of_nodup_append nodup taken List.mem_cons_self
  have unstarted : e ∉ s.started := by
    intro hstarted
    obtain ⟨j, hj⟩ := inv.started e hstarted
    exact fresh (List.mem_map_of_mem hj)
  constructor
  · intro j e' htaken
    rcases List.mem_append.mp htaken with htaken | htaken
    · refine (inv.taken j e' htaken).imp_right fun holds => ?_
      have other : j ≠ i := fun same => by simp [same, hpc, WorkerPc.Holds] at holds
      simpa [setWorker_worker, other] using holds
    · obtain ⟨rfl, rfl⟩ := Prod.mk.inj (List.mem_singleton.mp htaken)
      exact Or.inr (by simp [setWorker_worker, WorkerPc.Holds])
  · intro j e' holds
    by_cases same : j = i
    · subst same
      obtain rfl : e = e' := by simpa [setWorker_worker, WorkerPc.Holds] using holds
      exact ⟨List.mem_append_right _ List.mem_cons_self, unstarted⟩
    · obtain ⟨taken, notStarted⟩ :=
        inv.held j e' (by simpa [setWorker_worker, same] using holds)
      exact ⟨List.mem_append_left _ taken, notStarted⟩
  · intro e' hstarted
    obtain ⟨j, hj⟩ := inv.started e' hstarted
    exact ⟨j, List.mem_append_left _ hj⟩
  · exact inv.once
  · intro j e' htaken hstarted
    rcases List.mem_append.mp htaken with htaken | htaken
    · refine (inv.ended j e' htaken hstarted).imp_right fun runs => ?_
      have other : j ≠ i := fun same => by simp [same, hpc, WorkerPc.Runs] at runs
      simpa [setWorker_worker, other] using runs
    · obtain ⟨rfl, rfl⟩ := Prod.mk.inj (List.mem_singleton.mp htaken)
      exact absurd hstarted unstarted

private theorem start_handled {s : Pool C τ} {i : Nat} {e : Entry τ} (kept : s.Kept)
    (inv : s.Handled) (hpc : s.worker i = .start e) :
    Pool.Handled ({ s with started := s.started ++ [e] }.setWorker i (.running e)) := by
  obtain ⟨htaker, unstarted⟩ := inv.held i e (by simp [hpc, WorkerPc.Holds])
  constructor
  · intro j e' htaken
    rcases inv.taken j e' htaken with hstarted | holds
    · exact Or.inl (List.mem_append_left _ hstarted)
    · by_cases same : j = i
      · subst same
        obtain rfl : e = e' := by simpa [hpc, WorkerPc.Holds] using holds
        exact Or.inl (List.mem_append_right _ List.mem_cons_self)
      · exact Or.inr (by simpa [setWorker_worker, same] using holds)
  · intro j e' holds
    have other : j ≠ i := fun same => by
      simp [same, setWorker_worker, WorkerPc.Holds] at holds
    obtain ⟨taken, notStarted⟩ :=
      inv.held j e' (by simpa [setWorker_worker, other] using holds)
    refine ⟨taken, fun hstarted => ?_⟩
    rcases List.mem_append.mp hstarted with hstarted | hstarted
    · exact notStarted hstarted
    · -- another worker cannot hold the element as well
      obtain rfl := List.mem_singleton.mp hstarted
      exact other (kept.taker_unique taken htaker)
  · intro e' hstarted
    rcases List.mem_append.mp hstarted with hstarted | hstarted
    · exact inv.started e' hstarted
    · obtain rfl := List.mem_singleton.mp hstarted
      exact ⟨i, htaker⟩
  · refine inv.once.append (List.nodup_singleton e) ?_
    intro e' hstarted same
    obtain rfl := List.mem_singleton.mp same
    exact unstarted hstarted
  · intro j e' htaken hstarted
    rcases List.mem_append.mp hstarted with hstarted | hstarted
    · refine (inv.ended j e' htaken hstarted).imp_right fun runs => ?_
      have other : j ≠ i := fun same => by simp [same, hpc, WorkerPc.Runs] at runs
      simpa [setWorker_worker, other] using runs
    · obtain rfl := List.mem_singleton.mp hstarted
      obtain rfl : j = i := kept.taker_unique htaken htaker
      exact Or.inr (by simp [setWorker_worker, WorkerPc.Runs])

private theorem finish_handled {s : Pool C τ} {i : Nat} {e : Entry τ} (inv : s.Handled)
    (hpc : s.worker i = .finish e) :
    Pool.Handled ({ s with finished := s.finished ++ [e] }.setWorker i .lock) := by
  constructor
  · intro j e' htaken
    refine (inv.taken j e' htaken).imp_right fun holds => ?_
    have other : j ≠ i := fun same => by simp [same, hpc, WorkerPc.Holds] at holds
    simpa [setWorker_worker, other] using holds
  · intro j e' holds
    have other : j ≠ i := fun same => by
      simp [same, setWorker_worker, WorkerPc.Holds] at holds
    exact inv.held j e' (by simpa [setWorker_worker, other] using holds)
  · exact inv.started
  · exact inv.once
  · intro j e' htaken hstarted
    rcases inv.ended j e' htaken hstarted with hfinished | runs
    · exact Or.inl (List.mem_append_left _ hfinished)
    · by_cases same : j = i
      · subst same
        obtain rfl : e = e' := by simpa [hpc, WorkerPc.Runs] using runs
        exact Or.inl (List.mem_append_right _ List.mem_cons_self)
      · exact Or.inr (by simpa [setWorker_worker, same] using runs)

private theorem worker_handled {s next : Pool C τ} {i : Nat} (kept : s.Kept) (inv : s.Handled)
    (h : WorkerStep s i next) : next.Handled := by
  cases h with
  | lock hpc | test hpc | fail hpc | wait hpc | leave hpc =>
    exact inv.setWorker_empty (i := i) (fun e => by simp [hpc, WorkerPc.Holds, WorkerPc.Runs])
      (fun e => by simp [WorkerPc.Holds, WorkerPc.Runs]) rfl rfl rfl rfl
  | check hpc =>
    refine inv.setWorker_empty (i := i) (fun e => by simp [hpc, WorkerPc.Holds, WorkerPc.Runs])
      (fun e => ?_) rfl rfl rfl rfl
    split <;> simp [WorkerPc.Holds, WorkerPc.Runs]
  | unlock e hpc | running e hpc =>
    refine inv.frame rfl rfl rfl (fun j e' => ?_) (fun j e' => ?_) <;> rw [setWorker_worker] <;>
      split
    · rename_i same
      rw [same, hpc]
      exact Iff.rfl
    · exact Iff.rfl
    · rename_i same
      rw [same, hpc]
      exact Iff.rfl
    · exact Iff.rfl
  | dequeue e rest hpc hqueue => exact dequeue_handled kept inv hpc hqueue
  | start e hpc => exact start_handled kept inv hpc
  | finish e hpc => exact finish_handled inv hpc

variable [DecidableEq C]

theorem step_handled {s next : Pool C τ} {a : Label C τ} (mustered : s.Mustered) (kept : s.Kept)
    (inv : s.Handled) (h : step s a = some next) : next.Handled := by
  cases step_cases h with
  | call c k hpc | start hpc | stop hpc =>
    exact inv.frame rfl rfl rfl (fun _ _ => Iff.rfl) (fun _ _ => Iff.rfl)
  | caller c h =>
    cases h with
    | notify k ticket hpc =>
      exact inv.frame rfl rfl rfl (fun i e => WorkerPc.notified_holds _ e)
        (fun i e => WorkerPc.notified_runs _ e)
    | lock k hpc | enqueue k hpc | unlock k ticket hpc | waiting ticket hpc =>
      exact inv.frame rfl rfl rfl (fun _ _ => Iff.rfl) (fun _ _ => Iff.rfl)
  | worker i h => exact worker_handled kept inv h
  | spurious i hpc =>
    exact inv.setWorker_empty (i := i) (fun e => by simp [hpc, WorkerPc.Holds, WorkerPc.Runs])
      (fun e => by simp [WorkerPc.Holds, WorkerPc.Runs]) rfl rfl rfl rfl
  | owner h =>
    cases h with
    | storeRunning hpc | added i hpc hi | storeStopped hpc | joined i hpc hi =>
      exact inv.frame rfl rfl rfl (fun _ _ => Iff.rfl) (fun _ _ => Iff.rfl)
    | notify hpc =>
      exact inv.frame rfl rfl rfl (fun i e => WorkerPc.notified_holds _ e)
        (fun i e => WorkerPc.notified_runs _ e)
    | addThread i hpc hi =>
      have unborn : s.worker i = .unborn :=
        mustered.absent i (Or.inr (by rw [hpc]))
      exact inv.setWorker_empty (i := i)
        (fun e => by simp [unborn, WorkerPc.Holds, WorkerPc.Runs])
        (fun e => by simp [WorkerPc.Holds, WorkerPc.Runs]) rfl rfl rfl rfl
    | join i hpc hi hended =>
      refine inv.setWorker_empty (i := i) (fun e => ?_)
        (fun e => by simp [WorkerPc.Holds, WorkerPc.Runs]) rfl rfl rfl rfl
      rcases hended with hended | hended <;> simp [hended, WorkerPc.Holds, WorkerPc.Runs]

end Hands

section Work

def WorkerPc.work : WorkerPc τ → Nat
  | .unborn | .asleep | .exited => 0
  | .wait | .leave | .dequeue => 1
  | .check => 2
  | .test => 3
  | .lock => 4
  | .finish _ => 5
  | .running _ => 6
  | .start _ => 7
  | .unlock _ => 8

/-- A bound on the steps that are left; an element in the queue brings a worker a new round. -/
def Pool.work (s : Pool C τ) : Nat :=
  ∑ i ∈ Finset.range s.threadCount, (s.worker i).work + 10 * s.taskQueue.length

private theorem sum_work_update (worker : Nat → WorkerPc τ) {i n : Nat} (hi : i < n)
    (pc : WorkerPc τ) :
    ∑ j ∈ Finset.range n, (Function.update worker i pc j).work + (worker i).work =
      ∑ j ∈ Finset.range n, (worker j).work + pc.work := by
  have mem : i ∈ Finset.range n := Finset.mem_range.mpr hi
  have others : ∑ j ∈ (Finset.range n).erase i, (Function.update worker i pc j).work =
      ∑ j ∈ (Finset.range n).erase i, (worker j).work := by
    refine Finset.sum_congr rfl fun j hj => ?_
    rw [Function.update_of_ne (Finset.ne_of_mem_erase hj)]
  rw [← Finset.add_sum_erase _ (fun j => (Function.update worker i pc j).work) mem,
    ← Finset.add_sum_erase _ (fun j => (worker j).work) mem, others, Function.update_self]
  omega

private theorem work_lt_of_move {s next : Pool C τ} {i : Nat} {pc : WorkerPc τ}
    (hi : i < s.threadCount) (count : next.threadCount = s.threadCount)
    (worker : next.worker = Function.update s.worker i pc)
    (less : pc.work + 10 * next.taskQueue.length < (s.worker i).work + 10 * s.taskQueue.length) :
    next.work < s.work := by
  have sum := sum_work_update s.worker hi pc
  rw [Pool.work, Pool.work, count, worker]
  omega

theorem WorkerStep.work_lt {s next : Pool C τ} {i : Nat} (hi : i < s.threadCount)
    (h : WorkerStep s i next) : next.work < s.work := by
  cases h with
  | dequeue e rest hpc hqueue =>
    refine work_lt_of_move hi rfl rfl ?_
    simp only [hpc, WorkerPc.work, Pool.setWorker, hqueue, List.length_cons]
    omega
  | check hpc =>
    refine work_lt_of_move hi rfl rfl ?_
    split <;> simp [hpc, WorkerPc.work, Pool.setWorker]
  | lock hpc | test hpc | fail hpc | wait hpc | leave hpc | unlock e hpc | start e hpc
  | running e hpc | finish e hpc =>
    refine work_lt_of_move hi rfl rfl ?_
    simp [hpc, WorkerPc.work, Pool.setWorker]

end Work

section Rest

/-- No call is inside the mutex or has a notification to send. -/
def Pool.Quiet (s : Pool C τ) : Prop :=
  ∀ c, (s.caller c).phase = .away ∧ (s.caller c).owes = false

/-- `Start` has returned and `Stop` has not been called. -/
def Pool.Running (s : Pool C τ) : Prop := s.isRunning = true ∧ s.owner = .idle

structure Pool.Regular (s : Pool C τ) : Prop where
  orderly : s.Orderly
  occupied : s.view.Occupied
  supplied : s.Supplied
  staffed : s.Staffed
  kept : s.Kept
  handled : s.Handled

theorem initial_regular (count : Nat) : (initial count : Pool C τ).Regular where
  orderly := initial_orderly count
  occupied _ h := by cases h
  supplied := ⟨fun _ h => (by cases h), fun _ h => (by cases h)⟩
  staffed := initial_staffed count
  kept := initial_kept count
  handled := initial_handled count

private theorem workerStep_of_held {s : Pool C τ} {i : Nat} (supplied : s.Supplied)
    (held : (s.worker i).phase = .inside ∨ (s.worker i).phase = .committed) :
    (workerStep s i).isSome := by
  cases hpc : s.worker i with
  | dequeue =>
    cases hqueue : s.taskQueue with
    | nil => exact absurd hqueue (supplied.atDequeue i hpc)
    | cons e rest => simp [workerStep, hpc, hqueue]
  | test | wait | check | leave | unlock e => simp [workerStep, hpc]
  | unborn | lock | asleep | start e | running e | finish e | exited =>
    simp [hpc, WorkerPc.phase] at held

theorem Pool.Regular.asleep {s : Pool C τ} (inv : s.Regular) (running : s.Running)
    (quiet : s.Quiet) (stuck : ∀ i, workerStep s i = none) {i : Nat} (hi : i < s.threadCount) :
    s.worker i = .asleep := by
  have inLoop := inv.staffed i hi running.1 (Or.inl running.2)
  have free : s.mtx = none := by
    cases hmtx : s.mtx with
    | none => rfl
    | some a =>
      have held := inv.occupied a hmtx
      cases a with
      | worker j =>
        have moves := workerStep_of_held inv.supplied held
        rw [stuck j] at moves
        cases moves
      | caller c =>
        have away : s.view.phase (.caller c) = .away := (quiet c).1
        rw [away] at held
        simp at held
      | owner =>
        have away : s.view.phase .owner = .away := rfl
        rw [away] at held
        simp at held
  have rest := stuck i
  cases hpc : s.worker i with
  | unborn | leave | exited =>
    rw [hpc] at inLoop
    exact absurd inLoop id
  | asleep => rfl
  | lock => simp [workerStep, hpc, free] at rest
  | dequeue =>
    have moves := workerStep_of_held (i := i) inv.supplied (by simp [hpc, WorkerPc.phase])
    rw [rest] at moves
    cases moves
  | _ => simp [workerStep, hpc] at rest

theorem Pool.Regular.served {s : Pool C τ} (inv : s.Regular) (running : s.Running)
    (workers : 0 < s.threadCount) (quiet : s.Quiet) (stuck : ∀ i, workerStep s i = none) :
    s.taskQueue = [] ∧ ∀ e ∈ s.enqueued, e ∈ s.finished := by
  have resting (i : Nat) : s.worker i = .asleep ∨ s.worker i = .unborn := by
    by_cases hi : i < s.threadCount
    · exact Or.inl (inv.asleep running quiet stuck hi)
    · exact Or.inr (inv.orderly.mustered.absent i (Or.inl (Nat.le_of_not_lt hi)))
  have empty : s.taskQueue = [] := by
    by_contra hqueue
    obtain ⟨c, hc⟩ := inv.orderly.awake hqueue (inv.asleep running quiet stuck workers)
    rw [(quiet c).2] at hc
    cases hc
  refine ⟨empty, fun e he => ?_⟩
  rw [inv.kept.kept, empty, List.append_nil] at he
  obtain ⟨⟨i, e'⟩, htaken, rfl⟩ := List.mem_map.mp he
  have hstarted : e' ∈ s.started := by
    refine (inv.handled.taken i e' htaken).resolve_right fun holds => ?_
    rcases resting i with hpc | hpc <;> simp [hpc, WorkerPc.Holds] at holds
  refine (inv.handled.ended i e' htaken hstarted).resolve_right fun runs => ?_
  rcases resting i with hpc | hpc <;> simp [hpc, WorkerPc.Runs] at runs

variable [DecidableEq C]

theorem step_regular {s next : Pool C τ} {a : Label C τ} (inv : s.Regular)
    (h : step s a = some next) : next.Regular := by
  have mustered := inv.orderly.mustered
  refine ⟨step_orderly inv.orderly h, ?_, step_supplied inv.orderly inv.supplied h,
    step_staffed mustered inv.staffed h, step_kept inv.kept h,
    step_handled mustered inv.kept inv.handled h⟩
  have shown := step_shows mustered h
  cases hmove : move s a with
  | none =>
    rw [hmove] at shown
    have same : next.view = s.view := shown
    rw [same]
    exact inv.occupied
  | some m =>
    rw [hmove] at shown
    exact Monitor.step_occupied inv.occupied shown

theorem workers_run {s s' : Pool C τ} {is : List Nat} (inv : s.Regular) (running : s.Running)
    (quiet : s.Quiet) (h : run step s (is.map Label.worker) = some s') :
    s'.Regular ∧ s'.Running ∧ s'.Quiet ∧ s'.threadCount = s.threadCount ∧
      is.length + s'.work ≤ s.work := by
  induction is generalizing s with
  | nil =>
    obtain rfl := Option.some.inj h
    exact ⟨inv, running, quiet, rfl, by simp⟩
  | cons i is ih =>
    obtain ⟨next, hstep, hrun⟩ := run_cons_some h
    have inv' := step_regular inv hstep
    have moved := workerStep_cases hstep
    have hi : i < s.threadCount := by
      by_contra beyond
      exact moved.born (inv.orderly.mustered.absent i (Or.inl (Nat.le_of_not_lt beyond)))
    have less := moved.work_lt hi
    have same : next.isRunning = s.isRunning ∧ next.owner = s.owner ∧ next.caller = s.caller ∧
        next.threadCount = s.threadCount := by
      cases moved <;> exact ⟨rfl, rfl, rfl, rfl⟩
    obtain ⟨hrunning, howner, hcaller, hcount⟩ := same
    have running' : next.Running := by rw [Pool.Running, hrunning, howner]; exact running
    have quiet' : next.Quiet := by rw [Pool.Quiet, hcaller]; exact quiet
    obtain ⟨inv'', running'', quiet'', hcount', bound⟩ := ih inv' running' quiet' hrun
    refine ⟨inv'', running'', quiet'', hcount'.trans hcount, ?_⟩
    rw [List.length_cons]
    omega

/-- Workers survive and tasks are run: those of a running pool are in their loops, what was put
in is in the queue or was taken by one worker, each element taken is run once, and from a state
without a call in progress the workers come to rest, in whatever order they take their steps,
with every element run to its end. -/
structure Pool.Served (s : Pool C τ) : Prop where
  loops : s.Running → ∀ i < s.threadCount, (s.worker i).InLoop
  kept : s.Kept
  handled : s.Handled
  comesToRest : s.Running → 0 < s.threadCount → s.Quiet → ∀ (is : List Nat) (s' : Pool C τ),
    run step s (is.map Label.worker) = some s' →
      is.length ≤ s.work ∧
        ((∀ i, workerStep s' i = none) → s'.taskQueue = [] ∧ ∀ e ∈ s'.enqueued, e ∈ s'.finished)

theorem Pool.Regular.isServed {s : Pool C τ} (inv : s.Regular) : s.Served where
  loops running i hi := inv.staffed i hi running.1 (Or.inl running.2)
  kept := inv.kept
  handled := inv.handled
  comesToRest running workers quiet is s' h := by
    obtain ⟨inv', running', quiet', hcount, bound⟩ := workers_run inv running quiet h
    exact ⟨by omega, inv'.served running' (hcount ▸ workers) quiet'⟩

end Rest

end FlashLog.Scheduler.ThreadPool
