import FlashLog.Scheduler.TimerTasks

/-!
How a step of the timer moves its threads: one thread goes on, the others stay where they are but
for a notification, and there are few ways to come to a position in a posting function.
-/

set_option autoImplicit false
set_option relaxedAutoImplicit false

namespace FlashLog.Scheduler.Timer

variable {A τ : Type}

def Label.actor : Label A τ → Option A
  | .outside (.enter a) | .call a _ | .thread a | .top a _ | .clock a _ | .throws a
  | .spurious a | .timeout a => some a
  | .outside _ => none

theorem Pc.notified_eq {pc : Pc τ} {x : τ} (h : pc.user = some x) : pc.notified = pc := by
  cases pc with
  | run pc =>
    cases pc with
    | asleep | timed e => cases h
    | _ => rfl
  | idle | post inRun pc => rfl

theorem Pc.notified_eq_post {pc : Pc τ} {inRun : Bool} {q : PostPc τ}
    (h : pc.notified = .post inRun q) : pc = .post inRun q := by
  cases pc with
  | run pc => cases pc <;> cases h
  | idle | post inRun' pc => exact h

theorem returned_ne_post (inRun inRun' : Bool) (q : PostPc τ) :
    (returned inRun : Pc τ) ≠ .post inRun' q := by
  cases inRun <;> simp [returned]

variable [DecidableEq A] [DecidableEq τ]

theorem step_pc_other {s next : State A τ} {l : Label A τ} (h : step s l = some next) {b : A}
    (other : l.actor ≠ some b) : next.pc b = s.pc b ∨ next.pc b = (s.pc b).notified := by
  cases step_cases h with
  | store running => exact Or.inl rfl
  | notifyAll => exact Or.inr rfl
  | run a pc hpc h =>
    have hba : b ≠ a := fun same => other (congrArg some same.symm)
    left
    cases h <;> simp [State.unlocked, State.goto_pc, hba]
  | post a inRun pc hpc h =>
    have hba : b ≠ a := fun same => other (congrArg some same.symm)
    cases h with
    | notify =>
      right
      simp [State.goto_pc, hba, State.notifyAll]
    | _ =>
      left
      simp [State.unlocked, State.goto_pc, hba]
  | enter a hpc | call a k hpc | top a e hpc top | early a e now hpc early | due a e now hpc due
  | date a inRun task delta now hpc | throws a inRun r hpc | spuriousWait a hpc
  | spuriousWaitFor a e hpc | timeout a e hpc =>
    have hba : b ≠ a := fun same => other (congrArg some same.symm)
    left
    simp [State.goto_pc, hba]

theorem step_pc_kept {s next : State A τ} {l : Label A τ} (h : step s l = some next) {b : A}
    {pc : Pc τ} (hpc : s.pc b = pc) (still : pc.notified = pc) (other : l.actor ≠ some b) :
    next.pc b = pc := by
  rcases step_pc_other h other with same | notified
  · rw [same, hpc]
  · rw [notified, hpc, still]

theorem step_post {s next : State A τ} {l : Label A τ} (h : step s l = some next) {a : A}
    {inRun : Bool} {pc : PostPc τ} (hpc : s.pc a = .post inRun pc) (acts : l.actor = some a) :
    PostStep s a inRun pc next ∨ (∃ task delta, pc = .now task delta) ∨ ∃ r, pc = .call r := by
  cases step_cases h with
  | store running | notifyAll => cases acts
  | post b inRun' pc' hpc' h =>
    obtain rfl := Option.some.inj acts
    obtain ⟨rfl, rfl⟩ := Pc.post.inj (hpc.symm.trans hpc')
    exact Or.inl h
  | date b inRun' task delta now hpc' =>
    obtain rfl := Option.some.inj acts
    obtain ⟨-, rfl⟩ := Pc.post.inj (hpc.symm.trans hpc')
    exact Or.inr (Or.inl ⟨task, delta, rfl⟩)
  | throws b inRun' r hpc' =>
    obtain rfl := Option.some.inj acts
    obtain ⟨-, rfl⟩ := Pc.post.inj (hpc.symm.trans hpc')
    exact Or.inr (Or.inr ⟨r, rfl⟩)
  | enter b hpc' | call b k hpc' | run b pc' hpc' h | top b e hpc' top | early b e now hpc' early
  | due b e now hpc' due | spuriousWait b hpc' | spuriousWaitFor b e hpc' | timeout b e hpc' =>
    obtain rfl := Option.some.inj acts
    rw [hpc] at hpc'
    cases hpc'

theorem step_to_post {s next : State A τ} {l : Label A τ} (h : step s l = some next) {b : A}
    {inRun : Bool} {q : PostPc τ} (hb : next.pc b = .post inRun q) :
    s.pc b = .post inRun q ∨
      (∃ inRun' pc, s.pc b = .post inRun' pc ∧ PostStep s b inRun' pc next) ∨
      (∃ k : Call τ, q = k.entry) ∨ (∃ r, q = .repost r) ∨
      ∃ task timePoint, q = .lock task timePoint := by
  by_cases acts : l.actor = some b
  · right
    cases step_cases h with
    | store running | notifyAll => cases acts
    | call a k hpc =>
      obtain rfl := Option.some.inj acts
      have entered : Pc.post false k.entry = .post inRun q := by simpa [State.goto_pc] using hb
      exact Or.inr (Or.inl ⟨k, (Pc.post.inj entered).2.symm⟩)
    | run a pc hpc h =>
      obtain rfl := Option.some.inj acts
      cases h with
      | callForward e r htask =>
        have reposts : Pc.post true (.repost r) = .post inRun q := by
          simpa [State.goto_pc] using hb
        exact Or.inr (Or.inr (Or.inl ⟨r, (Pc.post.inj reposts).2.symm⟩))
      | _ => simp [State.unlocked, State.goto_pc] at hb
    | post a inRun' pc hpc h =>
      obtain rfl := Option.some.inj acts
      exact Or.inl ⟨inRun', pc, hpc, h⟩
    | date a inRun' task delta now hpc =>
      obtain rfl := Option.some.inj acts
      have dated : Pc.post inRun' (.lock task (now + 1000 * delta)) = .post inRun q := by
        simpa [State.goto_pc] using hb
      exact Or.inr (Or.inr (Or.inr ⟨_, _, (Pc.post.inj dated).2.symm⟩))
    | throws a inRun' r hpc =>
      obtain rfl := Option.some.inj acts
      simp [State.goto_pc, returned_ne_post] at hb
    | _ =>
      obtain rfl := Option.some.inj acts
      simp [State.goto_pc] at hb
  · left
    rcases step_pc_other h acts with same | notified
    · rw [← same, hb]
    · exact Pc.notified_eq_post (notified.symm.trans hb)

end FlashLog.Scheduler.Timer
