import Mathlib.Logic.Function.Basic
import FlashLog.Support.Machine

/-!
A lock and a condition variable. Waiters test, with the lock held, whether the guarded data
is ready or a flag is raised; if not they release the lock and fall asleep in one move, but
the test and that move are two. The data changes with the lock held, the flag without it, and
each change is followed by a notification sent without the lock. Notifications of changed data
are never lost; the one for the flag is lost exactly when it falls between a test and its sleep.
-/

set_option autoImplicit false
set_option relaxedAutoImplicit false

namespace FlashLog.Support.Monitor

open FlashLog.Support.Machine

universe u v

/-- Where an agent stands: elsewhere, inside the lock, inside after a failed test and about
to sleep, or asleep. -/
inductive Phase
  | away | inside | committed | asleep
  deriving DecidableEq

structure State (A : Type u) (δ : Type v) where
  holder : Option A
  phase : A → Phase
  data : δ
  raised : Bool
  /-- who has changed the data and not yet notified -/
  owes : A → Bool
  /-- who has raised the flag and not yet notified -/
  signals : A → Bool

inductive Move (A : Type u) (δ : Type v)
  | acquire (a : A)
  | release (a : A)
  | change (a : A) (d : δ)
  | consume (a : A) (d : δ)
  | raise (a : A)
  | lower
  | commit (a : A)
  | sleep (a : A)
  | notify (a : A)
  | wake (a : A)

/-- A notification reaches whoever is asleep, and nobody else. -/
def Phase.notified : Phase → Phase
  | .asleep => .away
  | p => p

variable {A : Type u} {δ : Type v}

/-- The lock excludes, nobody falls asleep over ready data, and whoever sleeps while the data
is ready will be notified. -/
structure State.Sound (ready : δ → Prop) (s : State A δ) : Prop where
  exclusive : ∀ a, s.phase a = .inside ∨ s.phase a = .committed → s.holder = some a
  quiet : ∀ a, s.phase a = .committed → ¬ ready s.data
  awake : ready s.data → (∀ a, s.phase a ≠ .asleep) ∨ ∃ b, s.owes b = true

/-- Whoever has the lock is inside it or about to sleep. -/
def State.Occupied (s : State A δ) : Prop :=
  ∀ a, s.holder = some a → s.phase a = .inside ∨ s.phase a = .committed

/-- A raised flag has been seen by everybody, or its notification is still to come. -/
def State.Heard (s : State A δ) : Prop :=
  s.raised = true →
    (∀ a, s.phase a ≠ .committed ∧ s.phase a ≠ .asleep) ∨ ∃ b, s.signals b = true

/-- The notification for the flag does not fall between a test and its sleep. -/
def NotBetween (s : State A δ) : Move A δ → Prop
  | .notify a => s.signals a = true → ∀ b, s.phase b ≠ .committed
  | _ => True

theorem State.Sound.eq_of_held {ready : δ → Prop} {s : State A δ} (sound : s.Sound ready) {a b : A}
    (ha : s.phase a = .inside ∨ s.phase a = .committed)
    (hb : s.phase b = .inside ∨ s.phase b = .committed) : b = a :=
  Option.some.inj ((sound.exclusive b hb).symm.trans (sound.exclusive a ha))

variable [DecidableEq A]

def State.goto (s : State A δ) (a : A) (p : Phase) : State A δ :=
  { s with phase := Function.update s.phase a p }

def step (ready : δ → Prop) [DecidablePred ready] (s : State A δ) : Move A δ → Option (State A δ)
  | .acquire a =>
    if s.phase a = .away ∧ s.holder = none then some { s.goto a .inside with holder := some a }
    else none
  | .release a =>
    if s.phase a = .inside then some { s.goto a .away with holder := none } else none
  | .change a d =>
    if s.phase a = .inside then
      some { s with data := d, owes := Function.update s.owes a true }
    else none
  | .consume a d =>
    if s.phase a = .inside ∧ (ready d → ready s.data) then some { s with data := d } else none
  | .raise a => some { s with raised := true, signals := Function.update s.signals a true }
  | .lower => some { s with raised := false }
  | .commit a =>
    if s.phase a = .inside ∧ ¬ ready s.data ∧ s.raised = false then some (s.goto a .committed)
    else none
  | .sleep a =>
    if s.phase a = .committed then some { s.goto a .asleep with holder := none } else none
  | .notify a =>
    some { s with
      phase := fun b => (s.phase b).notified
      owes := Function.update s.owes a false
      signals := Function.update s.signals a false }
  | .wake a => if s.phase a = .asleep then some (s.goto a .away) else none

theorem Phase.notified_ne_asleep (p : Phase) : p.notified ≠ .asleep := by cases p <;> decide

theorem Phase.notified_eq_inside {p : Phase} : p.notified = .inside ↔ p = .inside := by
  cases p <;> decide

theorem Phase.notified_eq_committed {p : Phase} : p.notified = .committed ↔ p = .committed := by
  cases p <;> decide

variable {ready : δ → Prop} [DecidablePred ready]

inductive Moved (ready : δ → Prop) (s : State A δ) : Move A δ → State A δ → Prop
  | acquire (a : A) : s.phase a = .away → s.holder = none →
      Moved ready s (.acquire a) { s.goto a .inside with holder := some a }
  | release (a : A) : s.phase a = .inside →
      Moved ready s (.release a) { s.goto a .away with holder := none }
  | change (a : A) (d : δ) : s.phase a = .inside →
      Moved ready s (.change a d) { s with data := d, owes := Function.update s.owes a true }
  | consume (a : A) (d : δ) : s.phase a = .inside → (ready d → ready s.data) →
      Moved ready s (.consume a d) { s with data := d }
  | raise (a : A) :
      Moved ready s (.raise a)
        { s with raised := true, signals := Function.update s.signals a true }
  | lower : Moved ready s .lower { s with raised := false }
  | commit (a : A) : s.phase a = .inside → ¬ ready s.data → s.raised = false →
      Moved ready s (.commit a) (s.goto a .committed)
  | sleep (a : A) : s.phase a = .committed →
      Moved ready s (.sleep a) { s.goto a .asleep with holder := none }
  | notify (a : A) :
      Moved ready s (.notify a)
        { s with
          phase := fun b => (s.phase b).notified
          owes := Function.update s.owes a false
          signals := Function.update s.signals a false }
  | wake (a : A) : s.phase a = .asleep → Moved ready s (.wake a) (s.goto a .away)

theorem moved_of_step {s next : State A δ} {m : Move A δ} (h : step ready s m = some next) :
    Moved ready s m next := by
  cases m with
  | acquire a =>
    obtain ⟨⟨haway, hfree⟩, h⟩ := Option.ite_none_right_eq_some.mp h
    obtain rfl := Option.some.inj h
    exact .acquire a haway hfree
  | release a =>
    obtain ⟨hinside, h⟩ := Option.ite_none_right_eq_some.mp h
    obtain rfl := Option.some.inj h
    exact .release a hinside
  | change a d =>
    obtain ⟨hinside, h⟩ := Option.ite_none_right_eq_some.mp h
    obtain rfl := Option.some.inj h
    exact .change a d hinside
  | consume a d =>
    obtain ⟨⟨hinside, hready⟩, h⟩ := Option.ite_none_right_eq_some.mp h
    obtain rfl := Option.some.inj h
    exact .consume a d hinside hready
  | raise a =>
    obtain rfl := Option.some.inj h
    exact .raise a
  | lower =>
    obtain rfl := Option.some.inj h
    exact .lower
  | commit a =>
    obtain ⟨⟨hinside, hready, hraised⟩, h⟩ := Option.ite_none_right_eq_some.mp h
    obtain rfl := Option.some.inj h
    exact .commit a hinside hready hraised
  | sleep a =>
    obtain ⟨hcommitted, h⟩ := Option.ite_none_right_eq_some.mp h
    obtain rfl := Option.some.inj h
    exact .sleep a hcommitted
  | notify a =>
    obtain rfl := Option.some.inj h
    exact .notify a
  | wake a =>
    obtain ⟨hasleep, h⟩ := Option.ite_none_right_eq_some.mp h
    obtain rfl := Option.some.inj h
    exact .wake a hasleep

theorem State.goto_phase (s : State A δ) (a b : A) (p : Phase) :
    (s.goto a p).phase b = if b = a then p else s.phase b := by
  simp [State.goto, Function.update_apply]

private theorem exclusive_step {s next : State A δ} {m : Move A δ} (sound : s.Sound ready)
    (h : step ready s m = some next) (b : A)
    (hb : next.phase b = .inside ∨ next.phase b = .committed) : next.holder = some b := by
  cases moved_of_step h with
  | acquire a haway hfree =>
    by_cases hba : b = a
    · rw [hba]
    · have before : s.phase b = .inside ∨ s.phase b = .committed := by
        simpa [State.goto_phase, hba] using hb
      rw [sound.exclusive b before] at hfree
      cases hfree
  | release a hheld | sleep a hheld =>
    by_cases hba : b = a
    · simp [State.goto_phase, hba] at hb
    · have before : s.phase b = .inside ∨ s.phase b = .committed := by
        simpa [State.goto_phase, hba] using hb
      exact absurd (sound.eq_of_held (by simp [hheld]) before) hba
  | commit a hinside =>
    by_cases hba : b = a
    · rw [hba]
      exact sound.exclusive a (Or.inl hinside)
    · exact sound.exclusive b (by simpa [State.goto_phase, hba] using hb)
  | wake a hasleep =>
    by_cases hba : b = a
    · simp [State.goto_phase, hba] at hb
    · exact sound.exclusive b (by simpa [State.goto_phase, hba] using hb)
  | notify a =>
    refine sound.exclusive b ?_
    simpa only [Phase.notified_eq_inside, Phase.notified_eq_committed] using hb
  | change a d | consume a d | raise a | lower => exact sound.exclusive b hb

private theorem quiet_step {s next : State A δ} {m : Move A δ} (sound : s.Sound ready)
    (h : step ready s m = some next) (b : A) (hb : next.phase b = .committed) :
    ¬ ready next.data := by
  cases moved_of_step h with
  | acquire a | release a | sleep a | wake a =>
    have before : s.phase b = .committed := by
      by_cases hba : b = a
      · simp [State.goto_phase, hba] at hb
      · simpa [State.goto_phase, hba] using hb
    exact sound.quiet b before
  | commit a hinside hready hraised => exact hready
  | notify a => exact sound.quiet b (Phase.notified_eq_committed.mp hb)
  | change a d hinside | consume a d hinside =>
    -- who is about to sleep has the lock, so nobody else changes the data
    have same : b = a := sound.eq_of_held (Or.inl hinside) (Or.inr hb)
    rw [same, hinside] at hb
    cases hb
  | raise a | lower => exact sound.quiet b hb

private theorem awake_step {s next : State A δ} {m : Move A δ} (sound : s.Sound ready)
    (h : step ready s m = some next) (hready : ready next.data) :
    (∀ a, next.phase a ≠ .asleep) ∨ ∃ b, next.owes b = true := by
  cases moved_of_step h with
  | acquire a | release a | wake a | commit a =>
    refine (sound.awake hready).imp_left fun awake b => ?_
    by_cases hba : b = a
    · simp [State.goto_phase, hba]
    · simpa [State.goto_phase, hba] using awake b
  | sleep a hcommitted => exact absurd hready (sound.quiet a hcommitted)
  | notify a => exact Or.inl fun b => Phase.notified_ne_asleep _
  | change a d => exact Or.inr ⟨a, by simp⟩
  | consume a d hinside before => exact sound.awake (before hready)
  | raise a | lower => exact sound.awake hready

theorem step_sound {s next : State A δ} {m : Move A δ} (sound : s.Sound ready)
    (h : step ready s m = some next) : next.Sound ready :=
  ⟨exclusive_step sound h, quiet_step sound h, awake_step sound h⟩

theorem step_occupied {s next : State A δ} {m : Move A δ} (occupied : s.Occupied)
    (h : step ready s m = some next) : next.Occupied := by
  intro b hb
  cases moved_of_step h with
  | acquire a =>
    obtain rfl := Option.some.inj hb
    exact Or.inl (by simp [State.goto_phase])
  | release a | sleep a => cases hb
  | commit a hinside =>
    by_cases hba : b = a
    · exact Or.inr (by simp [State.goto_phase, hba])
    · simpa [State.goto_phase, hba] using occupied b hb
  | wake a hasleep =>
    have hba : b ≠ a := by
      intro same
      have held := occupied b hb
      rw [same, hasleep] at held
      simp at held
    simpa [State.goto_phase, hba] using occupied b hb
  | notify a =>
    simpa only [Phase.notified_eq_inside, Phase.notified_eq_committed] using occupied b hb
  | change a d | consume a d | raise a | lower => exact occupied b hb

/-- A raised flag stays heard while no notification for it falls between a test and its
sleep. -/
theorem step_heard {s next : State A δ} {m : Move A δ} (heard : s.Heard)
    (guard : NotBetween s m) (h : step ready s m = some next) : next.Heard := by
  intro hraised
  cases moved_of_step h with
  | acquire a | release a | wake a =>
    refine (heard hraised).imp_left fun away b => ?_
    by_cases hba : b = a
    · simp [State.goto_phase, hba]
    · simpa [State.goto_phase, hba] using away b
  | commit a hinside hready hlow =>
    have raised : s.raised = true := hraised
    rw [hlow] at raised
    cases raised
  | sleep a hcommitted =>
    -- the sleeper tested before the flag was raised, so its notification is still to come
    rcases heard hraised with away | signal
    · exact absurd hcommitted (away a).1
    · exact Or.inr signal
  | notify a =>
    have awake : ∀ b, (s.phase b).notified ≠ .asleep := fun b => Phase.notified_ne_asleep _
    rcases heard hraised with away | ⟨b, hb⟩
    · exact Or.inl fun b => ⟨fun hc => (away b).1 (Phase.notified_eq_committed.mp hc), awake b⟩
    · by_cases hba : b = a
      · rw [hba] at hb
        exact Or.inl fun c => ⟨fun hc => guard hb c (Phase.notified_eq_committed.mp hc), awake c⟩
      · exact Or.inr ⟨b, by simpa [hba] using hb⟩
  | raise a => exact Or.inr ⟨a, by simp⟩
  | lower => cases hraised
  | change a d | consume a d => exact heard hraised

end FlashLog.Support.Monitor
