import FlashLog.Scheduler.ThreadPool

/-!
The thread pool as a monitor: `mtx_` is the lock, `cv_` its condition variable, the task
queue the guarded data and the end of `is_running_` the flag that is raised without the lock.
-/

set_option autoImplicit false
set_option relaxedAutoImplicit false

namespace FlashLog.Scheduler.ThreadPool

open FlashLog.Support
open FlashLog.Support.Machine (run Shows run_preserves)

variable {C τ : Type}

section Muster

/-- No thread of this index exists: `AddThread` has not made it, or `Stop` has joined it. -/
def Pool.Absent (s : Pool C τ) (i : Nat) : Prop :=
  s.threadCount ≤ i ∨
    match s.owner with
    | .idle => s.isRunning = false
    | .storeRunning => True
    | .addThread k => k ≤ i
    | .join k => i < k
    | _ => False

/-- `Start` and `Stop` know which threads there are, and what the flag says. -/
structure Pool.Mustered (s : Pool C τ) : Prop where
  absent : ∀ i, s.Absent i → s.worker i = .unborn
  flag : match s.owner with
    | .idle => True
    | .addThread _ | .storeStopped => s.isRunning = true
    | _ => s.isRunning = false

theorem initial_mustered (count : Nat) : (initial count : Pool C τ).Mustered :=
  ⟨fun _ _ => rfl, trivial⟩

theorem WorkerPc.notified_unborn {pc : WorkerPc τ} (h : pc = .unborn) :
    pc.notified = .unborn := by
  rw [h]
  rfl

private theorem Pool.Mustered.frame {s next : Pool C τ} (inv : s.Mustered)
    (count : next.threadCount = s.threadCount) (owner : next.owner = s.owner)
    (running : next.isRunning = s.isRunning)
    (unborn : ∀ i, s.worker i = .unborn → next.worker i = .unborn) : next.Mustered := by
  obtain ⟨absent, flag⟩ := inv
  refine ⟨fun i hi => unborn i (absent i ?_), ?_⟩
  · simpa only [Pool.Absent, count, owner, running] using hi
  · simpa only [owner, running] using flag

private theorem setWorker_unborn {s : Pool C τ} {i : Nat} {pc : WorkerPc τ}
    (born : s.worker i ≠ .unborn) (j : Nat) (hj : s.worker j = .unborn) :
    (s.setWorker i pc).worker j = .unborn := by
  have other : j ≠ i := fun same => born (same ▸ hj)
  simpa [Pool.setWorker, other] using hj

theorem WorkerStep.born {s next : Pool C τ} {i : Nat} (h : WorkerStep s i next) :
    s.worker i ≠ .unborn := by
  cases h with
  | lock hpc | test hpc | fail hpc | wait hpc | check hpc | dequeue e rest hpc | leave hpc
  | unlock e hpc | start e hpc | running e hpc | finish e hpc => simp [hpc]

private theorem worker_mustered {s next : Pool C τ} {i : Nat} (inv : s.Mustered)
    (h : WorkerStep s i next) : next.Mustered := by
  have born := h.born
  cases h with
  | lock hpc | test hpc | fail hpc | wait hpc | check hpc | dequeue e rest hpc | leave hpc
  | unlock e hpc | start e hpc | running e hpc | finish e hpc =>
    exact inv.frame rfl rfl rfl fun j hj => setWorker_unborn (s := s) born j hj

private theorem owner_mustered {s next : Pool C τ} (inv : s.Mustered) (h : OwnerStep s next) :
    next.Mustered := by
  obtain ⟨absent, flag⟩ := inv
  cases h with
  | storeRunning hpc =>
    refine ⟨fun i hi => absent i ?_, rfl⟩
    simp [Pool.Absent, hpc]
  | addThread k hpc hk =>
    simp only [hpc] at flag
    refine ⟨fun i hi => ?_, flag⟩
    have later : k + 1 ≤ i := hi.elim (fun h => Nat.le_trans hk h) id
    have other : i ≠ k := by omega
    have before : s.worker i = .unborn := absent i (by simp only [Pool.Absent, hpc]; omega)
    simpa [Pool.setWorker, other] using before
  | added k hpc hk =>
    simp only [hpc] at flag
    refine ⟨fun i hi => absent i (Or.inl ?_), trivial⟩
    rcases hi with hi | hi
    · exact hi
    · rw [flag] at hi
      cases hi
  | storeStopped hpc =>
    exact ⟨fun i hi => absent i (Or.inl (hi.resolve_right id)), rfl⟩
  | notify hpc =>
    simp only [hpc] at flag
    refine ⟨fun i hi => ?_, flag⟩
    have beyond : s.threadCount ≤ i := hi.resolve_right (Nat.not_lt_zero i)
    exact WorkerPc.notified_unborn (absent i (Or.inl beyond))
  | join k hpc hk ended =>
    simp only [hpc] at flag
    refine ⟨fun i hi => ?_, flag⟩
    by_cases same : i = k
    · simp [Pool.setWorker, same]
    · have before : s.worker i = .unborn := by
        refine absent i ?_
        simp only [Pool.Absent, hpc]
        exact hi.imp_right fun h : i < k + 1 => by omega
      simpa [Pool.setWorker, same] using before
  | joined k hpc hk =>
    refine ⟨fun i hi => absent i ?_, trivial⟩
    simp only [Pool.Absent, hpc]
    omega

variable [DecidableEq C]

private theorem caller_mustered {s next : Pool C τ} {c : C} (inv : s.Mustered)
    (h : CallerStep s c next) : next.Mustered := by
  cases h with
  | notify k ticket hpc =>
    exact inv.frame rfl rfl rfl fun i hi => WorkerPc.notified_unborn hi
  | lock k hpc | enqueue k hpc | unlock k ticket hpc | waiting ticket hpc =>
    exact inv.frame rfl rfl rfl fun i hi => hi

theorem step_mustered {s next : Pool C τ} {a : Label C τ} (inv : s.Mustered)
    (h : step s a = some next) : next.Mustered := by
  cases step_cases h with
  | call c k hpc => exact inv.frame rfl rfl rfl fun i hi => hi
  | caller c h => exact caller_mustered inv h
  | worker i h => exact worker_mustered inv h
  | spurious i hpc =>
    exact inv.frame rfl rfl rfl fun j hj => setWorker_unborn (by simp [hpc]) j hj
  | start hpc =>
    obtain ⟨absent, flag⟩ := inv
    cases hrun : s.isRunning with
    | true =>
      exact ⟨fun i hi => absent i (by simpa [Pool.Absent, hpc, hrun] using hi), trivial⟩
    | false => exact ⟨fun i hi => absent i (by simp [Pool.Absent, hpc, hrun]), rfl⟩
  | stop hpc =>
    obtain ⟨absent, flag⟩ := inv
    cases hrun : s.isRunning with
    | true => exact ⟨fun i hi => absent i (Or.inl (hi.resolve_right id)), rfl⟩
    | false =>
      refine ⟨fun i hi => absent i ?_, rfl⟩
      simp [Pool.Absent, hpc, hrun]
  | owner h => exact owner_mustered inv h

end Muster

section View

def WorkerPc.phase : WorkerPc τ → Monitor.Phase
  | .test | .check | .dequeue | .leave | .unlock _ => .inside
  | .wait => .committed
  | .asleep => .asleep
  | _ => .away

def CallerPc.phase : CallerPc τ → Monitor.Phase
  | .enqueue _ | .unlock _ _ => .inside
  | _ => .away

/-- Between its `emplace` and its `notify_all` a caller owes a notification. -/
def CallerPc.owes : CallerPc τ → Bool
  | .unlock _ _ | .notify _ _ => true
  | _ => false

def Pool.view (s : Pool C τ) : Monitor.State (Agent C) (List (Entry τ)) where
  holder := s.mtx
  phase
    | .worker i => (s.worker i).phase
    | .caller c => (s.caller c).phase
    | .owner => .away
  data := s.taskQueue
  raised := !s.isRunning
  owes
    | .caller c => (s.caller c).owes
    | _ => false
  signals
    | .owner => decide (s.owner = .notify)
    | _ => false

/-- The guarded data is ready while there is a task. -/
abbrev HasTask (queue : List (Entry τ)) : Prop := queue ≠ []

theorem WorkerPc.notified_phase (pc : WorkerPc τ) : pc.notified.phase = pc.phase.notified := by
  cases pc <;> rfl

theorem CallerPc.phase_notified (pc : CallerPc τ) : pc.phase.notified = pc.phase := by
  cases pc <;> rfl

theorem Call.after_phase (k : Call τ) (ticket : Nat) : (k.after ticket).phase = .away := by
  cases k with
  | addTask task => rfl
  | addReturnTask task waits => cases waits <;> rfl

theorem Call.after_owes (k : Call τ) (ticket : Nat) : (k.after ticket).owes = false := by
  cases k with
  | addTask task => rfl
  | addReturnTask task waits => cases waits <;> rfl

theorem Pool.wakes_eq_false {s : Pool C τ} :
    s.wakes = false ↔ s.isRunning = true ∧ s.taskQueue = [] := by
  simp [Pool.wakes]

variable [DecidableEq C]

def move (s : Pool C τ) : Label C τ → Option (Monitor.Move (Agent C) (List (Entry τ)))
  | .worker i =>
    match s.worker i with
    | .lock => some (.acquire (.worker i))
    | .test => if s.wakes then none else some (.commit (.worker i))
    | .wait => some (.sleep (.worker i))
    | .dequeue => some (.consume (.worker i) s.taskQueue.tail)
    | .leave | .unlock _ => some (.release (.worker i))
    | _ => none
  | .caller c =>
    match s.caller c with
    | .lock _ => some (.acquire (.caller c))
    | .enqueue k => some (.change (.caller c) (s.taskQueue ++ [s.entry k]))
    | .unlock _ _ => some (.release (.caller c))
    | .notify _ _ => some (.notify (.caller c))
    | _ => none
  | .spurious i => some (.wake (.worker i))
  | .owner =>
    match s.owner with
    | .storeRunning => some .lower
    | .storeStopped => some (.raise .owner)
    | .notify => some (.notify .owner)
    | _ => none
  | _ => none

theorem view_setWorker (s : Pool C τ) (i : Nat) (pc : WorkerPc τ) :
    (s.setWorker i pc).view = s.view.goto (.worker i) pc.phase := by
  have phase : (s.setWorker i pc).view.phase =
      Function.update s.view.phase (.worker i) pc.phase := by
    funext a
    cases a with
    | worker j =>
      by_cases same : j = i
      · simp [same, Pool.view, Pool.setWorker]
      · simp [same, Pool.view, Pool.setWorker]
    | caller c | owner => rfl
  rw [Monitor.State.goto, ← phase]
  rfl

theorem view_setCaller (s : Pool C τ) (c : C) (pc : CallerPc τ) :
    (s.setCaller c pc).view =
      { s.view.goto (.caller c) pc.phase with
        owes := Function.update s.view.owes (.caller c) pc.owes } := by
  have phase : (s.setCaller c pc).view.phase =
      Function.update s.view.phase (.caller c) pc.phase := by
    funext a
    cases a with
    | caller d =>
      by_cases same : d = c
      · simp [same, Pool.view, Pool.setCaller]
      · simp [same, Pool.view, Pool.setCaller]
    | worker i | owner => rfl
  have owes : (s.setCaller c pc).view.owes =
      Function.update s.view.owes (.caller c) pc.owes := by
    funext a
    cases a with
    | caller d =>
      by_cases same : d = c
      · simp [same, Pool.view, Pool.setCaller]
      · simp [same, Pool.view, Pool.setCaller]
    | worker i | owner => rfl
  rw [Monitor.State.goto, ← phase, ← owes]
  rfl

theorem view_setWorker_same {s : Pool C τ} {i : Nat} {pc : WorkerPc τ}
    (same : (s.worker i).phase = pc.phase) : (s.setWorker i pc).view = s.view := by
  rw [view_setWorker, Monitor.State.goto, ← same]
  exact congrArg (fun phase => { s.view with phase })
    (Function.update_eq_self (Agent.worker i) s.view.phase)

theorem view_setCaller_same {s : Pool C τ} {c : C} {pc : CallerPc τ}
    (phase : (s.caller c).phase = pc.phase) (owes : (s.caller c).owes = pc.owes) :
    (s.setCaller c pc).view = s.view := by
  have hphase : Function.update s.view.phase (.caller c) (s.caller c).phase = s.view.phase :=
    Function.update_eq_self (Agent.caller c) s.view.phase
  have howes : Function.update s.view.owes (.caller c) (s.caller c).owes = s.view.owes :=
    Function.update_eq_self (Agent.caller c) s.view.owes
  rw [view_setCaller, Monitor.State.goto, ← phase, ← owes, hphase, howes]

private theorem worker_shows {s next : Pool C τ} {i : Nat} (h : WorkerStep s i next) :
    Shows (Monitor.step HasTask) s.view next.view (move s (.worker i)) := by
  cases h with
  | lock hpc hfree =>
    have away : s.view.phase (.worker i) = .away := by simp [Pool.view, hpc, WorkerPc.phase]
    have free : s.view.holder = none := hfree
    simp only [move, hpc, Shows, Monitor.step, away, free, and_self, if_true, view_setWorker]
    rfl
  | test hpc hwakes =>
    simp only [move, hpc, hwakes, if_true, Shows]
    exact view_setWorker_same (by rw [hpc]; rfl)
  | fail hpc hwakes =>
    obtain ⟨running, empty⟩ := Pool.wakes_eq_false.mp hwakes
    have inside : s.view.phase (.worker i) = .inside := by simp [Pool.view, hpc, WorkerPc.phase]
    have quiet : ¬ HasTask s.view.data := fun h => h empty
    have low : s.view.raised = false := by simp [Pool.view, running]
    simp only [move, hpc, hwakes, Bool.false_eq_true, if_false, Shows, Monitor.step, inside,
      quiet, low, not_false_eq_true, and_self, if_true, view_setWorker]
    rfl
  | wait hpc =>
    have committed : s.view.phase (.worker i) = .committed := by
      simp [Pool.view, hpc, WorkerPc.phase]
    simp only [move, hpc, Shows, Monitor.step, committed, if_true, view_setWorker]
    rfl
  | dequeue e rest hpc hqueue =>
    have inside : s.view.phase (.worker i) = .inside := by simp [Pool.view, hpc, WorkerPc.phase]
    have ready : HasTask s.view.data := by simp [Pool.view, hqueue]
    simp only [move, hpc, Shows, Monitor.step, hqueue, List.tail_cons]
    rw [if_pos ⟨inside, fun _ => ready⟩, view_setWorker_same]
    · rfl
    · show (s.worker i).phase = (WorkerPc.unlock e).phase
      rw [hpc]
      rfl
  | leave hpc | unlock e hpc =>
    have inside : s.view.phase (.worker i) = .inside := by simp [Pool.view, hpc, WorkerPc.phase]
    simp only [move, hpc, Shows, Monitor.step, inside, if_true, view_setWorker]
    rfl
  | check hpc =>
    simp only [move, hpc, Shows]
    refine view_setWorker_same ?_
    rw [hpc]
    cases s.isRunning <;> rfl
  | start e hpc | running e hpc | finish e hpc =>
    simp only [move, hpc, Shows]
    exact view_setWorker_same (by rw [hpc]; rfl)

omit [DecidableEq C] in
theorem view_notifyAll_phase (s : Pool C τ) :
    s.notifyAll.view.phase = fun a => (s.view.phase a).notified := by
  funext a
  cases a with
  | worker i => exact WorkerPc.notified_phase (s.worker i)
  | caller c => exact (CallerPc.phase_notified (s.caller c)).symm
  | owner => rfl

private theorem caller_shows {s next : Pool C τ} {c : C} (h : CallerStep s c next) :
    Shows (Monitor.step HasTask) s.view next.view (move s (.caller c)) := by
  cases h with
  | lock k hpc hfree =>
    have away : s.view.phase (.caller c) = .away := by simp [Pool.view, hpc, CallerPc.phase]
    have free : s.view.holder = none := hfree
    have owes : Function.update s.view.owes (.caller c) false = s.view.owes := by
      simp [Pool.view, hpc, CallerPc.owes]
    simp only [move, hpc, Shows, Monitor.step]
    rw [if_pos ⟨away, free⟩, view_setCaller]
    exact congrArg (fun o => some { s.view.goto (.caller c) .inside with
      holder := some (Agent.caller c), owes := o }) owes.symm
  | enqueue k hpc =>
    have inside : s.view.phase (.caller c) = .inside := by simp [Pool.view, hpc, CallerPc.phase]
    have phase : Function.update s.view.phase (.caller c) .inside = s.view.phase := by
      rw [← inside, Function.update_eq_self]
    simp only [move, hpc, Shows, Monitor.step]
    rw [if_pos inside, view_setCaller]
    exact congrArg (fun p => some { s.view with
      phase := p, data := s.taskQueue ++ [s.entry k]
      owes := Function.update s.view.owes (.caller c) true }) phase.symm
  | unlock k ticket hpc =>
    have inside : s.view.phase (.caller c) = .inside := by simp [Pool.view, hpc, CallerPc.phase]
    have owes : Function.update s.view.owes (.caller c) true = s.view.owes := by
      simp [Pool.view, hpc, CallerPc.owes]
    simp only [move, hpc, Shows, Monitor.step]
    rw [if_pos inside, view_setCaller]
    exact congrArg (fun o => some { s.view.goto (.caller c) .away with
      holder := none, owes := o }) owes.symm
  | notify k ticket hpc =>
    have away : s.notifyAll.view.phase (.caller c) = .away := by
      simp [Pool.view, Pool.notifyAll, hpc, CallerPc.phase]
    have phase : Function.update s.notifyAll.view.phase (.caller c) .away =
        s.notifyAll.view.phase := by
      rw [← away, Function.update_eq_self]
    have signals : Function.update s.view.signals (.caller c) false = s.view.signals := by
      simp [Pool.view]
    simp only [move, hpc, Shows, Monitor.step]
    rw [view_setCaller, Monitor.State.goto, Call.after_phase, Call.after_owes, phase,
      view_notifyAll_phase, signals]
    rfl
  | waiting ticket hpc hready =>
    simp only [move, hpc, Shows]
    refine view_setCaller_same ?_ ?_
    · rw [hpc]
      rfl
    · rw [hpc]
      rfl

omit [DecidableEq C] in
theorem view_setOwner_same {s : Pool C τ} {o : OwnerPc} (same : s.owner = .notify ↔ o = .notify) :
    ({ s with owner := o } : Pool C τ).view = s.view := by
  have signals : ({ s with owner := o } : Pool C τ).view.signals = s.view.signals := by
    funext a
    cases a with
    | owner => exact decide_eq_decide.mpr same.symm
    | worker i | caller c => rfl
  exact congrArg (fun g => { s.view with signals := g }) signals

private theorem owner_shows {s next : Pool C τ} (inv : s.Mustered) (h : OwnerStep s next) :
    Shows (Monitor.step HasTask) s.view next.view (move s .owner) := by
  cases h with
  | storeRunning hpc =>
    have signals : s.view.signals =
        ({ s with isRunning := true, owner := .addThread 0 } : Pool C τ).view.signals := by
      funext a
      cases a with
      | owner => simp [Pool.view, hpc]
      | worker i | caller c => rfl
    simp only [move, hpc, Shows, Monitor.step, signals]
    rfl
  | addThread i hpc hi =>
    have unborn : s.worker i = .unborn := inv.absent i (by simp [Pool.Absent, hpc])
    simp only [move, hpc, Shows]
    rw [view_setOwner_same, view_setWorker_same]
    · rw [unborn]
      rfl
    · simp [Pool.setWorker, hpc]
  | added i hpc hi | joined i hpc hi =>
    simp only [move, hpc, Shows]
    exact view_setOwner_same (by simp [hpc])
  | storeStopped hpc =>
    have signals : Function.update s.view.signals .owner true =
        ({ s with isRunning := false, owner := .notify } : Pool C τ).view.signals := by
      funext a
      cases a with
      | owner => rfl
      | worker i | caller c => rfl
    simp only [move, hpc, Shows, Monitor.step, signals]
    rfl
  | notify hpc =>
    have owes : Function.update s.view.owes .owner false = s.view.owes :=
      Function.update_eq_self (Agent.owner : Agent C) s.view.owes
    have signals : Function.update s.view.signals .owner false =
        ({ s.notifyAll with owner := .join 0 } : Pool C τ).view.signals := by
      funext a
      cases a with
      | owner => rfl
      | worker i | caller c => rfl
    have phase : (fun a => (s.view.phase a).notified) =
        ({ s.notifyAll with owner := .join 0 } : Pool C τ).view.phase :=
      (view_notifyAll_phase s).symm
    simp only [move, hpc, Shows, Monitor.step, owes, signals, phase]
    rfl
  | join i hpc hi ended =>
    simp only [move, hpc, Shows]
    rw [view_setOwner_same, view_setWorker_same]
    · rcases ended with ended | ended
      · rw [ended]
      · rw [ended]
        rfl
    · simp [Pool.setWorker, hpc]

theorem step_shows {s next : Pool C τ} {a : Label C τ} (inv : s.Mustered)
    (h : step s a = some next) : Shows (Monitor.step HasTask) s.view next.view (move s a) := by
  cases step_cases h with
  | call c k hpc =>
    refine view_setCaller_same ?_ ?_
    · rw [hpc]
      rfl
    · rw [hpc]
      rfl
  | caller c h => exact caller_shows h
  | worker i h => exact worker_shows h
  | spurious i hpc =>
    have asleep : s.view.phase (.worker i) = .asleep := by simp [Pool.view, hpc, WorkerPc.phase]
    simp only [move, Shows, Monitor.step]
    rw [if_pos asleep, view_setWorker]
    rfl
  | start hpc =>
    refine view_setOwner_same ?_
    cases s.isRunning <;> simp [hpc]
  | stop hpc =>
    refine view_setOwner_same ?_
    cases s.isRunning <;> simp [hpc]
  | owner h => exact owner_shows inv h

omit [DecidableEq C] in
theorem initial_sound (count : Nat) : (initial count : Pool C τ).view.Sound HasTask where
  exclusive a h := by
    cases a with
    | worker i | caller c | owner => rcases h with h | h <;> cases h
  quiet a h := by
    cases a with
    | worker i | caller c | owner => cases h
  awake h := absurd rfl h

structure Pool.Orderly (s : Pool C τ) : Prop where
  mustered : s.Mustered
  sound : s.view.Sound HasTask

omit [DecidableEq C] in
theorem initial_orderly (count : Nat) : (initial count : Pool C τ).Orderly :=
  ⟨initial_mustered count, initial_sound count⟩

theorem step_orderly {s next : Pool C τ} {a : Label C τ} (inv : s.Orderly)
    (h : step s a = some next) : next.Orderly := by
  refine ⟨step_mustered inv.mustered h, ?_⟩
  have shown := step_shows inv.mustered h
  cases hmove : move s a with
  | none =>
    rw [hmove] at shown
    have same : next.view = s.view := shown
    rw [same]
    exact inv.sound
  | some m =>
    rw [hmove] at shown
    exact Monitor.step_sound inv.sound shown

theorem run_orderly {count : Nat} {s : Pool C τ} {as : List (Label C τ)}
    (h : run step (initial count) as = some s) : s.Orderly :=
  run_preserves Pool.Orderly (fun _ _ _ inv hstep => step_orderly inv hstep)
    (initial_orderly count) h

theorem step_threadCount {s next : Pool C τ} {a : Label C τ} (h : step s a = some next) :
    next.threadCount = s.threadCount := by
  cases step_cases h with
  | call c k hpc | spurious i hpc | start hpc | stop hpc => rfl
  | caller c h => cases h <;> rfl
  | worker i h => cases h <;> rfl
  | owner h => cases h <;> rfl

end View

end FlashLog.Scheduler.ThreadPool
