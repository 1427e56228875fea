import FlashLog.Scheduler.Workers

/-!
`Stop` stores false to `is_running_` and notifies without `mtx_`. A worker that has tested the
flag before the store and falls asleep after the notification sleeps on while `Stop` joins it;
if `Stop` never notifies between a test and its sleep, it never joins a sleeping worker.
-/

set_option autoImplicit false
set_option relaxedAutoImplicit false

namespace FlashLog.Scheduler.ThreadPool

open FlashLog.Support
open FlashLog.Support.Machine (run Meets run_invariant)

variable {C τ : Type}

def CallerPc.willNotify : CallerPc τ → Bool
  | .lock _ | .enqueue _ | .unlock _ _ | .notify _ _ => true
  | _ => false

/-- `Stop` waits to join a worker that sleeps, and nobody is about to notify it. -/
def Pool.Deadlocked (s : Pool C τ) : Prop :=
  ∃ i, s.owner = .join i ∧ s.worker i = .asleep ∧ ∀ c, (s.caller c).willNotify = false

/-- `Stop` does not notify between a worker's failed test and its sleep. -/
def NotifiesSleepers (s : Pool C τ) : Label C τ → Prop
  | .owner => s.owner = .notify → ∀ i, s.worker i ≠ .wait
  | _ => True

/-- The end of the flag reaches every worker that tested before it. -/
structure Pool.Told (s : Pool C τ) : Prop where
  orderly : s.Orderly
  heard : s.view.Heard

theorem initial_told (count : Nat) : (initial count : Pool C τ).Told := by
  refine ⟨initial_orderly count, fun _ => Or.inl fun a => ?_⟩
  cases a with
  | worker i | caller c | owner => exact ⟨nofun, nofun⟩

theorem WorkerPc.phase_eq_committed {pc : WorkerPc τ} : pc.phase = .committed ↔ pc = .wait := by
  cases pc <;> simp [WorkerPc.phase]

theorem Pool.Told.awake {s : Pool C τ} (inv : s.Told) {i : Nat} (joining : s.owner = .join i)
    (j : Nat) : s.worker j ≠ .asleep := by
  have flag := inv.orderly.mustered.flag
  simp only [joining] at flag
  intro asleep
  rcases inv.heard (by simp [Pool.view, flag]) with away | ⟨a, ha⟩
  · apply (away (.worker j)).2
    simp [Pool.view, asleep, WorkerPc.phase]
  · cases a with
    | owner => simp [Pool.view, joining] at ha
    | worker k | caller c => cases ha

theorem move_eq_notify {s : Pool C τ} {a : Label C τ} {b : Agent C}
    (h : move s a = some (.notify b)) :
    (∃ c, b = .caller c) ∨ (a = .owner ∧ s.owner = .notify) := by
  cases a with
  | worker i =>
    cases hpc : s.worker i with
    | test => cases hwakes : s.wakes <;> simp [move, hpc, hwakes] at h
    | _ => simp [move, hpc] at h
  | caller c =>
    cases hpc : s.caller c with
    | notify k ticket =>
      simp only [move, hpc, Option.some.injEq, Monitor.Move.notify.injEq] at h
      exact Or.inl ⟨c, h.symm⟩
    | _ => simp [move, hpc] at h
  | owner =>
    cases hpc : s.owner with
    | notify => exact Or.inr ⟨rfl, rfl⟩
    | _ => simp [move, hpc] at h
  | call c k | spurious i | start | stop => simp [move] at h

private theorem notBetween {s : Pool C τ} {a : Label C τ}
    {m : Monitor.Move (Agent C) (List (Entry τ))} (guard : NotifiesSleepers s a)
    (hmove : move s a = some m) : Monitor.NotBetween s.view m := by
  cases m with
  | notify b =>
    intro signals x hx
    rcases move_eq_notify hmove with ⟨c, rfl⟩ | ⟨rfl, stopping⟩
    · cases signals
    · cases x with
      | worker i => exact guard stopping i (WorkerPc.phase_eq_committed.mp hx)
      | caller c =>
        have inCall : (s.caller c).phase = .committed := hx
        cases hpc : s.caller c <;> simp [hpc, CallerPc.phase] at inCall
      | owner => cases hx
  | _ => trivial

variable [DecidableEq C]

theorem step_told {s next : Pool C τ} {a : Label C τ} (inv : s.Told)
    (guard : NotifiesSleepers s a) (h : step s a = some next) : next.Told := by
  refine ⟨step_orderly inv.orderly h, ?_⟩
  have shown := step_shows inv.orderly.mustered h
  cases hmove : move s a with
  | none =>
    rw [hmove] at shown
    have same : next.view = s.view := shown
    rw [same]
    exact inv.heard
  | some m =>
    rw [hmove] at shown
    exact Monitor.step_heard inv.heard (notBetween guard hmove) shown

/-- While `Stop` does not notify between a worker's test and its sleep, it never waits for a
sleeping worker. -/
theorem stop_joins (n : Nat) (as : List (Label C τ)) (s : Pool C τ)
    (meets : Meets step NotifiesSleepers (initial n) as)
    (hrun : run step (initial n) as = some s) : ¬ s.Deadlocked := by
  have told : s.Told :=
    run_invariant (fun _ _ _ inv guard hstep => step_told inv guard hstep) (initial_told n) meets
      hrun
  rintro ⟨i, joining, asleep, -⟩
  exact told.awake joining i asleep

/-- One worker falls asleep before `Stop` is called, and `Stop` joins it. -/
def sleepThenStop : List (Label Unit Nat) :=
  [.start, .owner, .owner, .owner, .worker 0, .worker 0, .worker 0, .stop, .owner, .owner]

theorem stop_joins_sleeper :
    ∃ s : Pool Unit Nat, run step (initial 1) sleepThenStop = some s ∧ s.owner = .join 0 ∧
      ¬ s.Deadlocked := by
  obtain ⟨s, hs, joining⟩ : ∃ s : Pool Unit Nat, run step (initial 1) sleepThenStop = some s ∧
      s.owner = .join 0 := ⟨_, rfl, rfl⟩
  have meets : Meets step NotifiesSleepers (initial 1 : Pool Unit Nat) sleepThenStop := by
    have nobody : ∀ i : Nat,
        Function.update (fun _ => WorkerPc.unborn) 0 WorkerPc.asleep i ≠
          (.wait : WorkerPc Nat) := by
      intro i
      cases i with
      | zero => simp
      | succ i => simp
    simpa [sleepThenStop, Meets, NotifiesSleepers, step, ownerStep, workerStep, initial,
      Pool.setWorker, Pool.wakes] using nobody
  exact ⟨s, hs, joining, stop_joins 1 sleepThenStop s meets hs⟩

/-- The worker tests the flag, then `Stop` stores and notifies, then the worker sleeps. -/
def stopThenSleep : List (Label Unit Nat) :=
  [.start, .owner, .owner, .owner, .worker 0, .worker 0, .stop, .owner, .owner, .worker 0]

theorem stop_deadlocks :
    ¬ ∀ (n : Nat) (as : List (Label Unit Nat)) (s : Pool Unit Nat),
      run step (initial n) as = some s → ¬ s.Deadlocked := by
  intro always
  obtain ⟨s, hs, deadlocked⟩ : ∃ s : Pool Unit Nat,
      run step (initial 1) stopThenSleep = some s ∧ s.Deadlocked :=
    ⟨_, rfl, 0, rfl, rfl, fun _ => rfl⟩
  exact always 1 stopThenSleep s hs deadlocked

end FlashLog.Scheduler.ThreadPool
