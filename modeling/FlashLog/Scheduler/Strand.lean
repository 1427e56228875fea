import FlashLog.Support.Strand
import FlashLog.Scheduler.NoLostTask

/-!
A pool of one thread is a strand: tasks start in the order of the queue, each after the one
before it has finished, and a caller whose future is ready finds every earlier task finished.
-/

set_option autoImplicit false
set_option relaxedAutoImplicit false

namespace FlashLog.Scheduler.ThreadPool

open FlashLog.Support
open FlashLog.Support.Machine (run run_preserves)

variable {C τ : Type}

def WorkerPc.taken : WorkerPc τ → List (Entry τ)
  | .unlock e | .start e => [e]
  | _ => []

def WorkerPc.current : WorkerPc τ → Option (Entry τ)
  | .running e | .finish e => some e
  | _ => none

def Pool.strand (s : Pool C τ) : Strand.State (Entry τ) where
  posted := s.enqueued
  queue := (s.worker 0).taken ++ s.taskQueue
  current := (s.worker 0).current
  started := s.started
  finished := s.finished

/-- A future is ready when its task has finished, or has only to return. -/
def Pool.Delivered (s : Pool C τ) : Prop :=
  ∀ k ∈ s.ready, ∃ e ∈ s.started, e.ticket = k

theorem Pool.Mustered.only {s : Pool C τ} (inv : s.Mustered) (single : s.threadCount = 1) {i : Nat}
    (born : s.worker i ≠ .unborn) : i = 0 := by
  by_contra other
  have beyond : s.threadCount ≤ i := by omega
  exact born (inv.absent i (Or.inl beyond))

theorem WorkerPc.notified_taken (pc : WorkerPc τ) : pc.notified.taken = pc.taken := by
  cases pc <;> rfl

theorem WorkerPc.notified_current (pc : WorkerPc τ) : pc.notified.current = pc.current := by
  cases pc <;> rfl

def Pool.StrandMoves (s next : Pool C τ) : Prop :=
  next.strand = s.strand ∨ ∃ m, Strand.Moved s.strand m next.strand

private theorem worker_strand {s next : Pool C τ} (h : WorkerStep s 0 next) :
    s.StrandMoves next := by
  cases h with
  | lock hpc | test hpc | fail hpc | wait hpc | leave hpc =>
    left
    simp [Pool.strand, Pool.setWorker, hpc, WorkerPc.taken, WorkerPc.current]
  | check hpc =>
    left
    cases hrun : s.isRunning <;>
      simp [Pool.strand, Pool.setWorker, hpc, hrun, WorkerPc.taken, WorkerPc.current]
  | dequeue e rest hpc hqueue =>
    left
    simp [Pool.strand, Pool.setWorker, hpc, hqueue, WorkerPc.taken, WorkerPc.current]
  | unlock e hpc | running e hpc =>
    left
    simp [Pool.strand, Pool.setWorker, hpc, WorkerPc.taken, WorkerPc.current]
  | start e hpc =>
    have idle : s.strand.current = none := by simp [Pool.strand, hpc, WorkerPc.current]
    have front : s.strand.queue = e :: s.taskQueue := by simp [Pool.strand, hpc, WorkerPc.taken]
    exact Or.inr ⟨.start e, .start e s.taskQueue idle front⟩
  | finish e hpc =>
    have runs : s.strand.current = some e := by simp [Pool.strand, hpc, WorkerPc.current]
    have queue : s.strand.queue = s.taskQueue := by simp [Pool.strand, hpc, WorkerPc.taken]
    have finished := Strand.Moved.finish e runs
    rw [queue] at finished
    exact Or.inr ⟨.finish e, finished⟩

private theorem owner_strand {s next : Pool C τ} (inv : s.Mustered) (h : OwnerStep s next) :
    next.strand = s.strand := by
  cases h with
  | storeRunning hpc | added i hpc hi | storeStopped hpc | joined i hpc hi => rfl
  | notify hpc =>
    simp only [Pool.strand, Pool.notifyAll, WorkerPc.notified_taken, WorkerPc.notified_current]
  | addThread i hpc hi =>
    have unborn : s.worker i = .unborn := inv.absent i (by simp [Pool.Absent, hpc])
    by_cases same : 0 = i
    · subst same
      simp [Pool.strand, Pool.setWorker, unborn, WorkerPc.taken, WorkerPc.current]
    · simp [Pool.strand, Pool.setWorker, same]
  | join i hpc hi ended =>
    by_cases same : 0 = i
    · subst same
      rcases ended with ended | ended
      · simp [Pool.strand, Pool.setWorker, ended, WorkerPc.taken, WorkerPc.current]
      · simp [Pool.strand, Pool.setWorker, ended, WorkerPc.taken, WorkerPc.current]
    · simp [Pool.strand, Pool.setWorker, same]

variable [DecidableEq C]

private theorem caller_strand {s next : Pool C τ} {c : C} (h : CallerStep s c next) :
    s.StrandMoves next := by
  cases h with
  | enqueue k hpc =>
    have posted := Strand.Moved.post (s := s.strand) (s.entry k)
    rw [show s.strand.queue ++ [s.entry k] =
      (s.worker 0).taken ++ (s.taskQueue ++ [s.entry k]) from List.append_assoc _ _ _] at posted
    exact Or.inr ⟨.post (s.entry k), posted⟩
  | notify k ticket hpc =>
    left
    simp only [Pool.strand, Pool.notifyAll, Pool.setCaller, WorkerPc.notified_taken,
      WorkerPc.notified_current]
  | lock k hpc | unlock k ticket hpc | waiting ticket hpc => exact Or.inl rfl

/-- A pool of one thread refines the strand. -/
theorem step_strand {s next : Pool C τ} {a : Label C τ} (inv : s.Mustered)
    (single : s.threadCount = 1) (h : step s a = some next) : s.StrandMoves next := by
  cases step_cases h with
  | call c k hpc => exact Or.inl rfl
  | caller c h => exact caller_strand h
  | worker i h =>
    obtain rfl := inv.only single h.born
    exact worker_strand h
  | spurious i hpc =>
    have born : s.worker i ≠ .unborn := by simp [hpc]
    obtain rfl := inv.only single born
    left
    simp [Pool.strand, Pool.setWorker, hpc, WorkerPc.taken, WorkerPc.current]
  | start hpc | stop hpc => exact Or.inl rfl
  | owner h => exact Or.inl (owner_strand inv h)

theorem step_ready {s next : Pool C τ} {a : Label C τ} (h : step s a = some next) {k : Nat}
    (hk : k ∈ next.ready) :
    k ∈ s.ready ∨ ∃ i e, a = .worker i ∧ s.worker i = .running e ∧ e.ticket = k := by
  cases step_cases h with
  | call c k hpc | spurious i hpc | start hpc | stop hpc => exact Or.inl hk
  | caller c h => cases h <;> exact Or.inl hk
  | owner h => cases h <;> exact Or.inl hk
  | worker i h =>
    cases h with
    | running e hpc =>
      have made : k ∈ if e.packaged then e.ticket :: s.ready else s.ready := hk
      split at made
      · rcases List.mem_cons.mp made with rfl | old
        · exact Or.inr ⟨i, e, rfl, hpc, rfl⟩
        · exact Or.inl old
      · exact Or.inl made
    | lock hpc | test hpc | fail hpc | wait hpc | check hpc | dequeue e rest hpc | leave hpc
    | unlock e hpc | start e hpc | finish e hpc => exact Or.inl hk

structure Pool.Stranded (s : Pool C τ) : Prop where
  mustered : s.Mustered
  single : s.threadCount = 1
  kept : s.Kept
  inOrder : s.strand.InOrder
  delivered : s.Delivered

omit [DecidableEq C] in
theorem initial_stranded : (initial 1 : Pool C τ).Stranded :=
  ⟨initial_mustered 1, rfl, initial_kept 1, Strand.empty_inOrder, nofun⟩

theorem step_stranded {s next : Pool C τ} {a : Label C τ} (inv : s.Stranded)
    (h : step s a = some next) : next.Stranded := by
  have moves := step_strand inv.mustered inv.single h
  have started : s.strand.started <+: next.strand.started := by
    rcases moves with same | ⟨m, moved⟩
    · exact ⟨[], by rw [same, List.append_nil]⟩
    · exact Strand.moved_started moved
  refine ⟨step_mustered inv.mustered h, (step_threadCount h).trans inv.single,
    step_kept inv.kept h, ?_, ?_⟩
  · rcases moves with same | ⟨m, moved⟩
    · rw [same]
      exact inv.inOrder
    · exact Strand.moved_inOrder inv.inOrder moved
  · intro k hk
    rcases step_ready h hk with old | ⟨i, e, rfl, hpc, rfl⟩
    · obtain ⟨e, he, hticket⟩ := inv.delivered k old
      exact ⟨e, started.subset he, hticket⟩
    · obtain rfl := inv.mustered.only inv.single (by simp [hpc] : s.worker i ≠ .unborn)
      have runs : s.strand.current = some e := by simp [Pool.strand, hpc, WorkerPc.current]
      refine ⟨e, started.subset ?_, rfl⟩
      rw [inv.inOrder.starts, runs]
      exact List.mem_append_right _ List.mem_cons_self

theorem run_stranded {s : Pool C τ} {as : List (Label C τ)}
    (h : run step (initial 1) as = some s) : s.Stranded :=
  run_preserves Pool.Stranded (fun _ _ _ inv hstep => step_stranded inv hstep)
    initial_stranded h

omit [DecidableEq C] in
theorem Pool.Stranded.earlier_finished {s : Pool C τ} (inv : s.Stranded) {k : Nat}
    (hk : k ∈ s.ready) {e : Entry τ} (he : e ∈ s.enqueued) (earlier : e.ticket < k) :
    e ∈ s.finished := by
  obtain ⟨mark, hmark, rfl⟩ := inv.delivered k hk
  obtain ⟨n, hn, rfl⟩ := List.getElem_of_mem hmark
  obtain ⟨i, hi, rfl⟩ := List.getElem_of_mem he
  -- a started task has the ticket of its place among all tasks
  have place : s.started[n].ticket = n := by
    have hlength : s.started.length ≤ s.enqueued.length :=
      inv.inOrder.started_prefix.length_le
    have same : s.started[n] = s.enqueued[n] := inv.inOrder.started_prefix.getElem hn
    rw [same, inv.kept.ticket_getElem]
  rw [inv.kept.ticket_getElem, place] at earlier
  exact inv.inOrder.before_finished earlier (List.getElem?_eq_getElem hi) hn

end FlashLog.Scheduler.ThreadPool
