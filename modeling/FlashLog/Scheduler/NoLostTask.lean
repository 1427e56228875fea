import Mathlib.Data.List.Nodup
import FlashLog.Scheduler.Workers

/-!
A pool with at least one worker loses no task and no wake-up: every element put in the queue
is still there or was taken by exactly one worker, in the order of the queue, and the workers
are not all asleep over a task unless a caller still has to notify them.
-/

set_option autoImplicit false
set_option relaxedAutoImplicit false

namespace FlashLog.Scheduler.ThreadPool

open FlashLog.Support
open FlashLog.Support.Machine (run run_preserves)

variable {C τ : Type}

/-- What was put in was taken out or is in the queue, and tickets number the elements. -/
structure Pool.Kept (s : Pool C τ) : Prop where
  kept : s.enqueued = s.dequeued.map Prod.snd ++ s.taskQueue
  numbered : s.enqueued.map Entry.ticket = List.range s.enqueued.length

theorem Pool.Kept.nodup {s : Pool C τ} (inv : s.Kept) : s.enqueued.Nodup := by
  apply List.Nodup.of_map Entry.ticket
  rw [inv.numbered]
  exact List.nodup_range

theorem Pool.Kept.ticket_getElem {s : Pool C τ} (inv : s.Kept) {n : Nat}
    (hn : n < s.enqueued.length) : s.enqueued[n].ticket = n := by
  have numbered := congrArg (fun l => l[n]?) inv.numbered
  simpa [hn] using numbered

theorem Pool.Kept.taker_unique {s : Pool C τ} (inv : s.Kept) {i j : Nat} {e : Entry τ}
    (hi : (i, e) ∈ s.dequeued) (hj : (j, e) ∈ s.dequeued) : i = j := by
  have taken : (s.dequeued.map Prod.snd).Nodup := by
    have all := inv.nodup
    rw [inv.kept] at all
    exact all.of_append_left
  exact congrArg Prod.fst (List.inj_on_of_nodup_map taken hi hj rfl)

theorem Pool.Kept.queued_or_taken {s : Pool C τ} (inv : s.Kept) {e : Entry τ}
    (he : e ∈ s.enqueued) : e ∈ s.taskQueue ∨ ∃! i, (i, e) ∈ s.dequeued := by
  rw [inv.kept] at he
  rcases List.mem_append.mp he with taken | queued
  · obtain ⟨⟨i, _⟩, hi, rfl⟩ := List.mem_map.mp taken
    exact Or.inr ⟨i, hi, fun j hj => inv.taker_unique hj hi⟩
  · exact Or.inl queued

theorem initial_kept (count : Nat) : (initial count : Pool C τ).Kept := ⟨rfl, rfl⟩

structure Pool.Supplied (s : Pool C τ) : Prop where
  atCheck : ∀ i, s.worker i = .check → s.isRunning = true → s.taskQueue ≠ []
  atDequeue : ∀ i, s.worker i = .dequeue → s.taskQueue ≠ []

theorem setWorker_worker (s : Pool C τ) (i j : Nat) (pc : WorkerPc τ) :
    (s.setWorker i pc).worker j = if j = i then pc else s.worker j := by
  simp [Pool.setWorker, Function.update_apply]

theorem worker_of_setWorker {s : Pool C τ} {i j : Nat} {pc pc' : WorkerPc τ}
    (h : (s.setWorker i pc).worker j = pc') (other : pc ≠ pc') : j ≠ i ∧ s.worker j = pc' := by
  rw [setWorker_worker] at h
  split at h
  · exact absurd h other
  · rename_i hj
    exact ⟨hj, h⟩

private theorem Pool.Supplied.frame {s next : Pool C τ} (inv : s.Supplied)
    (queue : next.taskQueue = s.taskQueue) (running : next.isRunning = s.isRunning)
    (atCheck : ∀ j, next.worker j = .check → s.worker j = .check)
    (atDequeue : ∀ j, next.worker j = .dequeue → s.worker j = .dequeue) : next.Supplied := by
  constructor
  · intro j hj hrun
    rw [queue]
    exact inv.atCheck j (atCheck j hj) (running ▸ hrun)
  · intro j hj
    rw [queue]
    exact inv.atDequeue j (atDequeue j hj)

theorem WorkerPc.of_notified {pc pc' : WorkerPc τ} (h : pc.notified = pc')
    (other : pc' ≠ .lock) : pc = pc' := by
  cases pc with
  | asleep => exact absurd h.symm other
  | _ => exact h

private theorem worker_supplied {s next : Pool C τ} {i : Nat} (orderly : s.Orderly)
    (inv : s.Supplied) (h : WorkerStep s i next) : next.Supplied := by
  cases h with
  | test hpc hwakes =>
    constructor
    · intro j hj hrun
      have awoken : s.wakes = true := hwakes
      have running : s.isRunning = true := hrun
      have hasTask : s.taskQueue ≠ [] := by simpa [Pool.wakes, running] using awoken
      exact hasTask
    · intro j hj
      exact inv.atDequeue j (worker_of_setWorker hj (by simp)).2
  | check hpc =>
    cases hrun : s.isRunning with
    | true =>
      constructor
      · intro j hj _
        exact inv.atCheck j (worker_of_setWorker hj (by simp)).2 hrun
      · intro j hj
        exact inv.atCheck i hpc hrun
    | false =>
      exact inv.frame rfl rfl (fun j hj => (worker_of_setWorker hj (by simp)).2)
        (fun j hj => (worker_of_setWorker hj (by simp)).2)
  | dequeue e rest hpc hqueue =>
    -- nobody else is inside the lock to miss what is taken
    have alone : ∀ j, (s.worker j).phase = .inside → j = i := by
      intro j hj
      have taker : s.view.phase (.worker i) = .inside := by
        simp [Pool.view, hpc, WorkerPc.phase]
      exact Agent.worker.inj (orderly.sound.eq_of_held (Or.inl taker) (Or.inl hj))
    constructor
    · intro j hj hrun
      obtain ⟨other, hj⟩ := worker_of_setWorker hj (by simp)
      have inside : (s.worker j).phase = .inside := by
        rw [show s.worker j = .check from hj]
        rfl
      exact absurd (alone j inside) other
    · intro j hj
      obtain ⟨other, hj⟩ := worker_of_setWorker hj (by simp)
      have inside : (s.worker j).phase = .inside := by
        rw [show s.worker j = .dequeue from hj]
        rfl
      exact absurd (alone j inside) other
  | lock hpc | fail hpc | wait hpc | leave hpc | unlock e hpc | start e hpc | running e hpc
  | finish e hpc =>
    exact inv.frame rfl rfl (fun j hj => (worker_of_setWorker hj (by simp)).2)
      (fun j hj => (worker_of_setWorker hj (by simp)).2)

private theorem owner_supplied {s next : Pool C τ} (orderly : s.Orderly) (inv : s.Supplied)
    (h : OwnerStep s next) : next.Supplied := by
  cases h with
  | storeRunning hpc =>
    -- the flag rises before there are any workers
    have unborn : ∀ j, s.worker j = .unborn := fun j =>
      orderly.mustered.absent j (by simp [Pool.Absent, hpc])
    constructor
    · intro j hj
      cases (unborn j).symm.trans hj
    · intro j hj
      cases (unborn j).symm.trans hj
  | storeStopped hpc => exact ⟨fun j hj hrun => (by cases hrun), inv.atDequeue⟩
  | notify hpc =>
    exact inv.frame rfl rfl (fun j hj => WorkerPc.of_notified hj (by simp))
      (fun j hj => WorkerPc.of_notified hj (by simp))
  | added i hpc hi | joined i hpc hi => exact inv.frame rfl rfl (fun j hj => hj) (fun j hj => hj)
  | addThread i hpc hi | join i hpc hi =>
    exact inv.frame rfl rfl
      (fun j hj => (worker_of_setWorker (s := s) hj (by simp)).2)
      (fun j hj => (worker_of_setWorker (s := s) hj (by simp)).2)

/-- The workers are not all asleep over a task unless a caller still has to notify them. -/
theorem Pool.Orderly.awake {s : Pool C τ} (orderly : s.Orderly) (hqueue : s.taskQueue ≠ [])
    {i : Nat} (hi : s.worker i = .asleep) : ∃ c, (s.caller c).owes = true := by
  rcases orderly.sound.awake hqueue with awake | ⟨a, ha⟩
  · refine absurd ?_ (awake (.worker i))
    simp [Pool.view, hi, WorkerPc.phase]
  · cases a with
    | caller c => exact ⟨c, ha⟩
    | worker j | owner => cases ha

variable [DecidableEq C]

theorem step_kept {s next : Pool C τ} {a : Label C τ} (inv : s.Kept)
    (h : step s a = some next) : next.Kept := by
  obtain ⟨kept, numbered⟩ := inv
  cases step_cases h with
  | call c k hpc | spurious i hpc | start hpc | stop hpc => exact ⟨kept, numbered⟩
  | caller c h =>
    cases h with
    | enqueue k hpc =>
      constructor
      · show s.enqueued ++ [s.entry k] = s.dequeued.map Prod.snd ++ (s.taskQueue ++ [s.entry k])
        rw [kept, List.append_assoc]
      · show (s.enqueued ++ [s.entry k]).map Entry.ticket = _
        rw [List.map_append, numbered]
        simp [Pool.setCaller, Pool.entry, List.range_succ]
    | lock k hpc | unlock k ticket hpc | notify k ticket hpc | waiting ticket hpc =>
      exact ⟨kept, numbered⟩
  | worker i h =>
    cases h with
    | dequeue e rest hpc hqueue =>
      refine ⟨?_, numbered⟩
      show s.enqueued = (s.dequeued ++ [(i, e)]).map Prod.snd ++ rest
      rw [kept, hqueue, List.map_append, List.append_assoc]
      rfl
    | lock hpc | test hpc | fail hpc | wait hpc | check hpc | leave hpc | unlock e hpc
    | start e hpc | running e hpc | finish e hpc => exact ⟨kept, numbered⟩
  | owner h =>
    cases h with
    | storeRunning hpc | addThread i hpc | added i hpc | storeStopped hpc | notify hpc
    | join i hpc | joined i hpc => exact ⟨kept, numbered⟩

theorem run_kept {count : Nat} {s : Pool C τ} {as : List (Label C τ)}
    (h : run step (initial count) as = some s) : s.Kept :=
  run_preserves Pool.Kept (fun _ _ _ inv hstep => step_kept inv hstep) (initial_kept count) h

private theorem caller_supplied {s next : Pool C τ} {c : C} (inv : s.Supplied)
    (h : CallerStep s c next) : next.Supplied := by
  cases h with
  | enqueue k hpc =>
    have supplied : s.taskQueue ++ [s.entry k] ≠ [] := by simp
    exact ⟨fun _ _ _ => supplied, fun _ _ => supplied⟩
  | notify k ticket hpc =>
    exact inv.frame rfl rfl (fun j hj => WorkerPc.of_notified hj (by simp))
      (fun j hj => WorkerPc.of_notified hj (by simp))
  | lock k hpc | unlock k ticket hpc | waiting ticket hpc =>
    exact inv.frame rfl rfl (fun j hj => hj) (fun j hj => hj)

theorem step_supplied {s next : Pool C τ} {a : Label C τ} (orderly : s.Orderly)
    (inv : s.Supplied) (h : step s a = some next) : next.Supplied := by
  cases step_cases h with
  | call c k hpc | start hpc | stop hpc =>
    exact inv.frame rfl rfl (fun j hj => hj) (fun j hj => hj)
  | spurious i hpc =>
    exact inv.frame rfl rfl (fun j hj => (worker_of_setWorker hj (by simp)).2)
      (fun j hj => (worker_of_setWorker hj (by simp)).2)
  | caller c h => exact caller_supplied inv h
  | worker i h => exact worker_supplied orderly inv h
  | owner h => exact owner_supplied orderly inv h

/-- In every reachable state of a pool with `n ≥ 1` workers the elements put in the queue are
those taken out followed by those in it, each taken by one worker, and the workers are not all
asleep over a task with no notification still to come. -/
theorem noTask_lost (n : Nat) (hn : 1 ≤ n) (as : List (Label C τ)) (s : Pool C τ)
    (hrun : run step (initial n) as = some s) :
    s.enqueued = s.dequeued.map Prod.snd ++ s.taskQueue ∧ s.enqueued.Nodup ∧
      (∀ e ∈ s.enqueued, e ∈ s.taskQueue ∨ ∃! i, (i, e) ∈ s.dequeued) ∧
      ¬ (s.taskQueue ≠ [] ∧ (∀ i < n, s.worker i = .asleep) ∧
        ∀ c, (s.caller c).owes = false) := by
  have inv := run_kept hrun
  refine ⟨inv.kept, inv.nodup, fun e he => inv.queued_or_taken he, ?_⟩
  rintro ⟨hqueue, asleep, silent⟩
  obtain ⟨c, hc⟩ := (run_orderly hrun).awake hqueue (asleep 0 hn)
  rw [silent c] at hc
  cases hc

/-- A task added before `Start`, found by the only worker. -/
def addThenStart : List (Label Unit Nat) :=
  [.call () (.addTask 7), .caller (), .caller (), .caller (), .caller (),
    .start, .owner, .owner, .owner, .worker 0, .worker 0, .worker 0, .worker 0]

theorem noTask_lost_added_before_start :
    ∃ s : Pool Unit Nat, run step (initial 1) addThenStart = some s ∧
      s.dequeued = [(0, ⟨0, false, 7⟩)] ∧
      s.enqueued = s.dequeued.map Prod.snd ++ s.taskQueue ∧ s.enqueued.Nodup ∧
      (∀ e ∈ s.enqueued, e ∈ s.taskQueue ∨ ∃! i, (i, e) ∈ s.dequeued) ∧
      ¬ (s.taskQueue ≠ [] ∧ (∀ i < 1, s.worker i = .asleep) ∧
        ∀ c, (s.caller c).owes = false) := by
  obtain ⟨s, hs, taken⟩ : ∃ s : Pool Unit Nat, run step (initial 1) addThenStart = some s ∧
      s.dequeued = [(0, ⟨0, false, 7⟩)] := ⟨_, rfl, rfl⟩
  exact ⟨s, hs, taken, noTask_lost 1 (Nat.le_refl 1) addThenStart s hs⟩

/-- However callers, workers and `Stop` interleave, `front` and `pop` never meet an empty queue. -/
theorem dequeue_hasTask {count : Nat} {s : Pool C τ} {as : List (Label C τ)} {i : Nat}
    (h : run step (initial count) as = some s) (hi : s.worker i = .dequeue) :
    s.taskQueue ≠ [] := by
  have start : (initial count : Pool C τ).Orderly ∧ (initial count : Pool C τ).Supplied :=
    ⟨initial_orderly count, ⟨fun _ h => (by cases h), fun _ h => (by cases h)⟩⟩
  have inv : s.Orderly ∧ s.Supplied :=
    run_preserves (fun s : Pool C τ => s.Orderly ∧ s.Supplied)
      (fun _ _ _ inv hstep => ⟨step_orderly inv.1 hstep, step_supplied inv.1 inv.2 hstep⟩)
      start h
  exact inv.2.atDequeue i hi

theorem dequeue_hasTask_added_before_start :
    ∃ s : Pool Unit Nat, run step (initial 1) addThenStart.dropLast = some s ∧
      s.worker 0 = .dequeue ∧ s.taskQueue ≠ [] := by
  obtain ⟨s, hs, hworker⟩ : ∃ s : Pool Unit Nat,
      run step (initial 1) addThenStart.dropLast = some s ∧ s.worker 0 = .dequeue := ⟨_, rfl, rfl⟩
  exact ⟨s, hs, hworker, dequeue_hasTask hs hworker⟩

end FlashLog.Scheduler.ThreadPool
