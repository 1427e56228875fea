import FlashLog.Scheduler.Strand

/-!
The futures of a pool of one thread: an element is pending from its `emplace` to the end of its
task, pending elements are the last ones that were put in, and the future of a packaged task is
ready exactly when the element is no longer pending.
-/

set_option autoImplicit false
set_option relaxedAutoImplicit false

namespace FlashLog.Scheduler.ThreadPool

open FlashLog.Support
open FlashLog.Support.Machine (run run_preserves)

variable {C τ : Type}

def WorkerPc.hand : WorkerPc τ → List (Entry τ)
  | .unlock e | .start e | .running e => [e]
  | _ => []

def Pool.pending (s : Pool C τ) : List (Entry τ) := (s.worker 0).hand ++ s.taskQueue

/-- A future is ready when its task has ended. -/
def Pool.Futures (s : Pool C τ) : Prop :=
  ∀ e ∈ s.enqueued, e.ticket ∈ s.ready ↔ e.packaged = true ∧ e ∉ s.pending

theorem Pool.Stranded.pending_suffix {s : Pool C τ} (inv : s.Stranded) :
    s.pending <:+ s.enqueued := by
  have posts : s.enqueued = s.started ++ ((s.worker 0).taken ++ s.taskQueue) := inv.inOrder.posts
  have starts : s.started = s.finished ++ (s.worker 0).current.toList := inv.inOrder.starts
  rw [Pool.pending, posts]
  cases hpc : s.worker 0 with
  | running e =>
    rw [hpc] at starts
    refine ⟨s.finished, ?_⟩
    rw [starts]
    simp [WorkerPc.hand, WorkerPc.taken, WorkerPc.current]
  | unlock e | start e => exact ⟨s.started, rfl⟩
  | _ => exact ⟨s.started, rfl⟩

theorem Pool.Kept.eq_of_ticket {s : Pool C τ} (inv : s.Kept) {e e' : Entry τ}
    (he : e ∈ s.enqueued) (he' : e' ∈ s.enqueued) (same : e.ticket = e'.ticket) : e = e' := by
  obtain ⟨n, hn, rfl⟩ := List.getElem_of_mem he
  obtain ⟨n', hn', rfl⟩ := List.getElem_of_mem he'
  rw [inv.ticket_getElem, inv.ticket_getElem] at same
  subst same
  rfl

theorem Pool.Kept.ticket_lt {s : Pool C τ} (inv : s.Kept) {e : Entry τ} (he : e ∈ s.enqueued) :
    e.ticket < s.enqueued.length := by
  obtain ⟨n, hn, rfl⟩ := List.getElem_of_mem he
  rw [inv.ticket_getElem]
  exact hn

theorem WorkerPc.notified_hand (pc : WorkerPc τ) : pc.notified.hand = pc.hand := by
  cases pc <;> rfl

def WorkerPc.inTask : WorkerPc τ → Option (Entry τ)
  | .running e => some e
  | _ => none

theorem WorkerPc.notified_inTask (pc : WorkerPc τ) : pc.notified.inTask = pc.inTask := by
  cases pc <;> rfl

inductive Pended (s : Pool C τ) : Label C τ → Pool C τ → Prop
  | same {a : Label C τ} {next : Pool C τ} : next.pending = s.pending →
      next.enqueued = s.enqueued → next.ready = s.ready →
      (next.worker 0).inTask = (s.worker 0).inTask → Pended s a next
  | posted {next : Pool C τ} (c : C) (k : Call τ) : s.caller c = .enqueue k →
      next.pending = s.pending ++ [s.entry k] → next.enqueued = s.enqueued ++ [s.entry k] →
      next.ready = s.ready → (next.worker 0).inTask = (s.worker 0).inTask →
      Pended s (.caller c) next
  | started {next : Pool C τ} (e : Entry τ) : s.worker 0 = .start e → next.worker 0 = .running e →
      next.pending = s.pending → next.enqueued = s.enqueued → next.ready = s.ready →
      Pended s (.worker 0) next
  | ended {next : Pool C τ} (e : Entry τ) : s.worker 0 = .running e →
      s.pending = e :: next.pending → next.enqueued = s.enqueued →
      next.ready = (if e.packaged then e.ticket :: s.ready else s.ready) →
      (next.worker 0).inTask = none → Pended s (.worker 0) next

private theorem worker_pended {s next : Pool C τ} (h : WorkerStep s 0 next) :
    Pended s (.worker 0) next := by
  cases h with
  | running e hpc =>
    refine .ended e hpc ?_ rfl rfl ?_
    · simp [Pool.pending, Pool.setWorker, hpc, WorkerPc.hand]
    · simp [Pool.setWorker, WorkerPc.inTask]
  | check hpc =>
    cases hrun : s.isRunning <;>
      refine .same ?_ rfl rfl ?_ <;>
      simp [Pool.pending, Pool.setWorker, hpc, WorkerPc.hand, WorkerPc.inTask]
  | dequeue e rest hpc hqueue =>
    refine .same ?_ rfl rfl ?_
    · simp [Pool.pending, Pool.setWorker, hpc, hqueue, WorkerPc.hand]
    · simp [Pool.setWorker, hpc, WorkerPc.inTask]
  | start e hpc =>
    refine .started e hpc ?_ ?_ rfl rfl
    · simp [Pool.setWorker]
    · simp [Pool.pending, Pool.setWorker, hpc, WorkerPc.hand]
  | lock hpc | test hpc | fail hpc | wait hpc | leave hpc | unlock e hpc | finish e hpc =>
    refine .same ?_ rfl rfl ?_
    · simp [Pool.pending, Pool.setWorker, hpc, WorkerPc.hand]
    · simp [Pool.setWorker, hpc, WorkerPc.inTask]

private theorem owner_pended {s next : Pool C τ} (inv : s.Mustered) (h : OwnerStep s next) :
    Pended s .owner next := by
  cases h with
  | storeRunning hpc | added i hpc hi | storeStopped hpc | joined i hpc hi =>
    exact .same rfl rfl rfl rfl
  | notify hpc =>
    refine .same ?_ rfl rfl (WorkerPc.notified_inTask _)
    simp only [Pool.pending, Pool.notifyAll, WorkerPc.notified_hand]
  | addThread i hpc hi =>
    have unborn : s.worker i = .unborn := inv.absent i (by simp [Pool.Absent, hpc])
    by_cases same : 0 = i
    · subst same
      refine .same ?_ rfl rfl ?_ <;>
        simp [Pool.pending, Pool.setWorker, unborn, WorkerPc.hand, WorkerPc.inTask]
    · refine .same ?_ rfl rfl ?_ <;> simp [Pool.pending, Pool.setWorker, same]
  | join i hpc hi ended =>
    by_cases same : 0 = i
    · subst same
      rcases ended with ended | ended <;>
        refine .same ?_ rfl rfl ?_ <;>
        simp [Pool.pending, Pool.setWorker, ended, WorkerPc.hand, WorkerPc.inTask]
    · refine .same ?_ rfl rfl ?_ <;> simp [Pool.pending, Pool.setWorker, same]

variable [DecidableEq C]

theorem step_pended {s next : Pool C τ} {a : Label C τ} (inv : s.Mustered)
    (single : s.threadCount = 1) (h : step s a = some next) : Pended s a next := by
  cases step_cases h with
  | call c k hpc => exact .same rfl rfl rfl rfl
  | caller c h =>
    cases h with
    | enqueue k hpc =>
      exact .posted c k hpc (List.append_assoc _ _ _).symm rfl rfl rfl
    | notify k ticket hpc =>
      refine .same ?_ rfl rfl (WorkerPc.notified_inTask _)
      simp only [Pool.pending, Pool.notifyAll, Pool.setCaller, WorkerPc.notified_hand]
    | lock k hpc | unlock k ticket hpc | waiting ticket hpc => exact .same rfl rfl rfl rfl
  | worker i h =>
    obtain rfl := inv.only single h.born
    exact worker_pended h
  | spurious i hpc =>
    obtain rfl := inv.only single (by simp [hpc] : s.worker i ≠ .unborn)
    refine .same ?_ rfl rfl ?_
    · simp [Pool.pending, Pool.setWorker, hpc, WorkerPc.hand]
    · simp [Pool.setWorker, hpc, WorkerPc.inTask]
  | start hpc | stop hpc => exact .same rfl rfl rfl rfl
  | owner h => exact owner_pended inv h

omit [DecidableEq C] in
theorem initial_futures (count : Nat) : (initial count : Pool C τ).Futures := nofun

theorem step_futures {s next : Pool C τ} {a : Label C τ} (stranded : s.Stranded)
    (inv : s.Futures) (h : step s a = some next) : next.Futures := by
  have all := stranded.pending_suffix.subset
  intro e he
  cases step_pended stranded.mustered stranded.single h with
  | same hpending henqueued hready | started x hpc hpc' hpending henqueued hready =>
    rw [henqueued] at he
    rw [hpending, hready]
    exact inv e he
  | posted c k hpc hpending henqueued hready =>
    rw [henqueued] at he
    rw [hpending, hready, List.mem_append, List.mem_singleton]
    rcases List.mem_append.mp he with old | new
    · have older : e ≠ s.entry k := by
        rintro rfl
        exact absurd (stranded.kept.ticket_lt old) (Nat.lt_irrefl _)
      rw [inv e old]
      simp [older]
    · obtain rfl := List.mem_singleton.mp new
      refine iff_of_false (fun hmem => ?_) (fun h => h.2 (Or.inr rfl))
      obtain ⟨x, hx, hticket⟩ := stranded.delivered _ hmem
      have hlt := stranded.kept.ticket_lt (stranded.inOrder.started_prefix.subset hx)
      rw [hticket] at hlt
      exact absurd hlt (Nat.lt_irrefl _)
  | ended x hpc hpending henqueued hready =>
    rw [henqueued] at he
    have hx : x ∈ s.enqueued := all (by rw [hpending]; exact List.mem_cons_self)
    have nodup : (x :: next.pending).Nodup := by
      rw [← hpending]
      exact stranded.kept.nodup.sublist stranded.pending_suffix.sublist
    have old := inv e he
    rw [hpending, List.mem_cons] at old
    rw [hready]
    by_cases same : e = x
    · subst same
      have gone : e ∉ next.pending := (List.nodup_cons.mp nodup).1
      cases hpackaged : e.packaged with
      | true => simp [gone]
      | false => simpa [hpackaged] using old
    · have other : e.ticket ≠ x.ticket := fun h => same (stranded.kept.eq_of_ticket he hx h)
      split
      · rw [List.mem_cons, old]
        simp [same, other]
      · rw [old]
        simp [same]

end FlashLog.Scheduler.ThreadPool
