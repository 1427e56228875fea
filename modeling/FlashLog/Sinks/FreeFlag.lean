import FlashLog.Sinks.Conservation

/-!
Whoever takes the free flag releases it again: while `is_slave_free_` is false, a
`CacheToFile_` that will store true to it is queued, or running, or still to be posted by
a thread that has stored false.
-/

set_option autoImplicit false
set_option relaxedAutoImplicit false

namespace FlashLog.Sinks.DoubleBuffer

open FlashLog.Support.Machine (run run_cons_some run_preserves)

variable {T σ μ ι η : Type}

structure Tracked (T σ μ ι η : Type) where
  sink : Sink T σ μ ι η
  owes : T → Bool

/-- A task is queued, or is running and has not released the flag, or a thread owes its post. -/
def Tracked.Releases (s : Tracked T σ μ ι η) : Prop :=
  Task.cacheToFile ∈ s.sink.queue ∨ s.sink.worker ≠ .idle ∨ ∃ t, s.owes t = true

variable [DecidableEq T]

/-- Who owes a post after a step that is taken in `s`. -/
def owesAfter (s : Sink T σ μ ι η) (owes : T → Bool) : Label T μ → T → Bool
  | .thread t _ =>
    match s.pc t with
    | .storeBusy _ | .ctorBusy => Function.update owes t true
    | .post _ | .ctorPost => Function.update owes t false
    | _ => owes
  | _ => owes

def trackedStep (kind : Kind) (P : Pipeline σ μ ι η) (s : Tracked T σ μ ι η) (a : Label T μ) :
    Option (Tracked T σ μ ι η) :=
  (step kind P s.sink a).map fun sink => ⟨sink, owesAfter s.sink s.owes a⟩

/-- Every run of the protocol is tracked. -/
theorem exists_tracked_run {kind : Kind} {P : Pipeline σ μ ι η} {s next : Sink T σ μ ι η}
    {as : List (Label T μ)} (h : run (step kind P) s as = some next) (owes : T → Bool) :
    ∃ owes', run (trackedStep kind P) ⟨s, owes⟩ as = some ⟨next, owes'⟩ := by
  induction as generalizing s owes with
  | nil =>
    obtain rfl : s = next := by simpa using h
    exact ⟨owes, rfl⟩
  | cons a as ih =>
    obtain ⟨mid, hstep, hrun⟩ := run_cons_some h
    obtain ⟨owes', hrest⟩ := ih hrun (owesAfter s owes a)
    refine ⟨owes', ?_⟩
    simp [trackedStep, hstep, hrest]

/-- A held flag will be released. -/
def Tracked.Released (s : Tracked T σ μ ι η) : Prop :=
  s.sink.isSlaveFree = false → s.Releases

private theorem thread_released {P : Pipeline σ μ ι η} {s : Tracked T σ μ ι η}
    {next : Sink T σ μ ι η} {t : T} {filled : Bool} (inv : s.Released)
    (h : threadStep P s.sink t filled = some next) :
    Tracked.Released ⟨next, owesAfter s.sink s.owes (.thread t filled)⟩ := by
  intro busy
  cases threadStep_cases h with
  | storeBusy k hpc | ctorBusy hpc =>
    refine Or.inr (Or.inr ⟨t, ?_⟩)
    simp [owesAfter, hpc]
  | post k hpc | ctorPost hpc =>
    -- the thread pays its debt, and the task is in the queue
    exact Or.inl (List.mem_append_right _ List.mem_cons_self)
  | flushPost hpc => exact Or.inl (List.mem_append_right _ List.mem_cons_self)
  | mark w hpc =>
    have owes : owesAfter s.sink s.owes (.thread t filled) = s.owes := by
      simp only [owesAfter, hpc]
    rcases inv busy with queued | running | ⟨u, hu⟩
    · exact Or.inl (List.mem_append_left _ queued)
    · exact Or.inr (Or.inl running)
    · exact Or.inr (Or.inr ⟨u, by rw [owes]; exact hu⟩)
  | ctorMaster hpc =>
    have owes : owesAfter s.sink s.owes (.thread t filled) = s.owes := by
      simp only [owesAfter, hpc]
    rw [Tracked.Releases, owes]
    cases hmaster : s.sink.master.isEmpty with
    | true =>
      rw [hmaster] at busy
      exact inv busy
    | false =>
      rw [hmaster] at busy
      exact inv busy
  | resetIfEmpty m hpc | fail m stream hpc hencode | push m stream x hpc hencode
  | needWrite hpc | loadFree k hpc | swap k hpc | wait w hpc woken | ctorSlave hpc =>
    have owes : owesAfter s.sink s.owes (.thread t filled) = s.owes := by
      simp only [owesAfter, hpc]
    rw [Tracked.Releases, owes]
    exact inv busy

private theorem worker_released {P : Pipeline σ μ ι η} {s : Tracked T σ μ ι η}
    {next : Sink T σ μ ι η} (inv : s.Released) (h : workerStep P s.sink = some next) :
    Tracked.Released ⟨next, s.owes⟩ := by
  intro busy
  cases workerStep_cases h with
  | take queue hworker hqueue | size hworker | write sized hworker | clear hworker =>
    exact Or.inr (Or.inl (by simp))
  | wake u queue hworker hqueue =>
    rcases inv busy with queued | running | owed
    · rw [hqueue] at queued
      rcases List.mem_cons.mp queued with hhead | hrest
      · cases hhead
      · exact Or.inl hrest
    · exact absurd hworker running
    · exact Or.inr (Or.inr owed)
  | load hworker =>
    -- a task that reads the flag as true ends, but then the flag is true
    have held : s.sink.isSlaveFree = false := busy
    exact Or.inr (Or.inl (by simp [held]))
  | empty hworker =>
    refine Or.inr (Or.inl ?_)
    cases s.sink.slave.isEmpty <;> simp
  | store hworker => cases busy

theorem released_step {kind : Kind} {P : Pipeline σ μ ι η} {s next : Tracked T σ μ ι η}
    {a : Label T μ} (inv : s.Released) (h : trackedStep kind P s a = some next) :
    next.Released := by
  obtain ⟨sink, hstep, rfl⟩ := Option.map_eq_some_iff.mp h
  cases a with
  | log t m =>
    obtain ⟨-, -, rfl⟩ := enter_cases hstep
    exact inv
  | flush t =>
    obtain ⟨-, -, rfl⟩ := enter_cases hstep
    exact inv
  | thread t filled => exact thread_released inv hstep
  | worker => exact worker_released inv hstep

theorem initial_released (kind : Kind) (t : T) (stream : σ) (masterFile slaveFile : List ι)
    (owes : T → Bool) :
    Tracked.Released (⟨initial kind t stream masterFile slaveFile, owes⟩ :
      Tracked T σ μ ι η) := by
  intro busy
  cases kind <;> cases busy

/-- In every reachable state a held flag is released by a task that is queued or running, or
that a thread owes since its store. -/
theorem busyFlag_released (kind : Kind) (P : Pipeline σ μ ι η) (t : T) (stream : σ)
    (masterFile slaveFile : List ι) (as : List (Label T μ)) (s : Sink T σ μ ι η)
    (hrun : run (step kind P) (initial kind t stream masterFile slaveFile) as = some s) :
    ∃ owes, run (trackedStep kind P)
        ⟨initial kind t stream masterFile slaveFile, fun _ => false⟩ as = some ⟨s, owes⟩ ∧
      (s.isSlaveFree = false →
        Task.cacheToFile ∈ s.queue ∨ s.worker ≠ .idle ∨ ∃ u, owes u = true) := by
  obtain ⟨owes, htracked⟩ := exists_tracked_run hrun fun _ => false
  refine ⟨owes, htracked, ?_⟩
  exact run_preserves Tracked.Released (fun _ _ _ inv hstep => released_step inv hstep)
    (initial_released kind t stream masterFile slaveFile _) htracked

/-- A `Log` over the ratio, up to the store of false. -/
def logUpToStore (m : Nat) : List (Label Unit Nat) :=
  let caller := Label.thread () true
  [caller, caller, .log () m, caller, caller, caller, caller, caller]

theorem busyFlag_released_storing :
    ∃ s owes, run (trackedStep .effective (plain Nat))
        ⟨initial .effective () () [] [], fun _ => false⟩ (logUpToStore 7) = some ⟨s, owes⟩ ∧
      s.isSlaveFree = false ∧
        (Task.cacheToFile ∈ s.queue ∨ s.worker ≠ .idle ∨ ∃ u, owes u = true) := by
  obtain ⟨s, hs, busy⟩ : ∃ s, run (step .effective (plain Nat)) (initial .effective () () [] [])
      (logUpToStore 7) = some s ∧ s.isSlaveFree = false := ⟨_, rfl, rfl⟩
  obtain ⟨owes, htracked, released⟩ :=
    busyFlag_released .effective (plain Nat) () () [] [] (logUpToStore 7) s hs
  exact ⟨s, owes, htracked, busy, released busy⟩

end FlashLog.Sinks.DoubleBuffer
