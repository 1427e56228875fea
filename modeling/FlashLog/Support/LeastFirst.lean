import Mathlib.Logic.Function.Basic
import Mathlib.Order.Defs.LinearOrder
import Mathlib.Data.List.Perm.Basic

/-!
A lock and a bag of elements with keys, of which the least is taken first. Agents add elements
and announce them before they leave the lock; an agent that has chosen a least element either
takes it or dozes until an announcement. Elements with equal keys are chosen in any order, and
dozing agents may wake at any time.
-/

set_option autoImplicit false
set_option relaxedAutoImplicit false

namespace FlashLog.Support.LeastFirst

universe u v w

/-- Where an agent stands: elsewhere, inside the lock, inside with an addition it has not
announced, inside with a chosen element, or dozing over one outside the lock. -/
inductive Phase (ε : Type v)
  | away
  | inside
  | owing
  | aiming (x : ε)
  | dozing (x : ε)
  deriving DecidableEq

structure State (A : Type u) (ε : Type v) where
  holder : Option A
  phase : A → Phase ε
  queue : List ε
  added : List ε
  /-- what was taken, each with the bag it was taken from -/
  taken : List (ε × List ε)

variable {A : Type u} {ε : Type v} {κ : Type w}

def Phase.Holds : Phase ε → Prop
  | .inside | .owing | .aiming _ => True
  | .away | .dozing _ => False

/-- An announcement reaches whoever dozes, and nobody else. -/
def Phase.notified : Phase ε → Phase ε
  | .dozing _ => .away
  | p => p

/-- An element that no other one in the bag comes before. -/
def Least [LE κ] (key : ε → κ) (queue : List ε) (x : ε) : Prop :=
  x ∈ queue ∧ ∀ y ∈ queue, key x ≤ key y

def empty : State A ε := ⟨none, fun _ => .away, [], [], []⟩

def State.goto [DecidableEq A] (s : State A ε) (a : A) (p : Phase ε) : State A ε :=
  { s with phase := Function.update s.phase a p }

def State.announce (s : State A ε) : State A ε :=
  { s with phase := fun b => (s.phase b).notified }

inductive Moved [DecidableEq A] [LE κ] (key : ε → κ) (s : State A ε) : State A ε → Prop
  | acquire (a : A) : s.phase a = .away → s.holder = none →
      Moved key s { s.goto a .inside with holder := some a }
  | release (a : A) : s.phase a = .inside → Moved key s { s.goto a .away with holder := none }
  | add (a : A) (x : ε) : s.phase a = .inside →
      Moved key s { s.goto a .owing with queue := s.queue ++ [x], added := s.added ++ [x] }
  | announce (a : A) : s.phase a = .owing → Moved key s (s.announce.goto a .inside)
  | notify : Moved key s s.announce
  | aim (a : A) (x : ε) : s.phase a = .inside → Least key s.queue x →
      Moved key s (s.goto a (.aiming x))
  | doze (a : A) (x : ε) : s.phase a = .aiming x →
      Moved key s { s.goto a (.dozing x) with holder := none }
  | take (a : A) (x : ε) (before after : List ε) : s.phase a = .aiming x →
      s.queue = before ++ x :: after →
      Moved key s { s.goto a .inside with
        queue := before ++ after, taken := s.taken ++ [(x, s.queue)] }
  | wake (a : A) (x : ε) : s.phase a = .dozing x → Moved key s (s.goto a .away)

/-- The lock excludes; who has chosen holds a least element; who dozes dozes over one, unless an
announcement is still to come; and nothing is lost, taken twice or out of turn. -/
structure State.Sound [LE κ] (key : ε → κ) (s : State A ε) : Prop where
  exclusive : ∀ a, (s.phase a).Holds → s.holder = some a
  aimed : ∀ a x, s.phase a = .aiming x → Least key s.queue x
  dozed : ∀ a x, s.phase a = .dozing x →
    (∃ b, s.phase b = .owing) ∨ ∀ y ∈ s.queue, key x ≤ key y
  conserved : s.added.Perm (s.taken.map Prod.fst ++ s.queue)
  least : ∀ r ∈ s.taken, Least key r.2 r.1

theorem empty_sound [LE κ] (key : ε → κ) : (empty : State A ε).Sound key := by
  refine ⟨fun _ h => h.elim, ?_, ?_, List.Perm.refl _, ?_⟩
  · intro a x h
    cases h
  · intro a x h
    cases h
  · intro r hr
    cases hr

theorem Phase.notified_holds {p : Phase ε} (h : p.notified.Holds) : p.Holds := by
  cases p with
  | dozing x => exact h.elim
  | _ => exact h

theorem Phase.notified_eq_aiming {p : Phase ε} {x : ε} (h : p.notified = .aiming x) :
    p = .aiming x := by
  cases p with
  | dozing y => cases h
  | _ => exact h

theorem Phase.notified_ne_dozing (p : Phase ε) (x : ε) : p.notified ≠ .dozing x := by
  cases p <;> exact fun h => by cases h

theorem State.Sound.eq_of_holds [LE κ] {key : ε → κ} {s : State A ε} (sound : s.Sound key)
    {a b : A} (ha : (s.phase a).Holds) (hb : (s.phase b).Holds) : b = a :=
  Option.some.inj ((sound.exclusive b hb).symm.trans (sound.exclusive a ha))

variable [DecidableEq A]

theorem State.goto_phase (s : State A ε) (a b : A) (p : Phase ε) :
    (s.goto a p).phase b = if b = a then p else s.phase b := by
  simp [State.goto, Function.update_apply]

theorem State.goto_other {s : State A ε} {a b : A} {p q : Phase ε} (other : q ≠ p)
    (h : (s.goto a p).phase b = q) : s.phase b = q ∧ b ≠ a := by
  rw [State.goto_phase] at h
  split at h
  · exact absurd h.symm other
  · rename_i hba
    exact ⟨h, hba⟩

variable [LE κ] {key : ε → κ}

private theorem exclusive_moved {s next : State A ε} (sound : s.Sound key)
    (h : Moved key s next) (b : A) (hb : (next.phase b).Holds) : next.holder = some b := by
  cases h with
  | acquire a away free =>
    by_cases hba : b = a
    · rw [hba]
    · have before : (s.phase b).Holds := by simpa [State.goto_phase, hba] using hb
      rw [sound.exclusive b before] at free
      cases free
  | release a inside | doze a x inside =>
    by_cases hba : b = a
    · simp [State.goto_phase, hba, Phase.Holds] at hb
    · have before : (s.phase b).Holds := by simpa [State.goto_phase, hba] using hb
      have held : (s.phase a).Holds := by simp [inside, Phase.Holds]
      exact absurd (sound.eq_of_holds held before) hba
  | add a x inside | aim a x inside least | take a x before after inside split =>
    by_cases hba : b = a
    · rw [hba]
      exact sound.exclusive a (by simp [inside, Phase.Holds])
    · exact sound.exclusive b (by simpa [State.goto_phase, hba] using hb)
  | announce a owing =>
    by_cases hba : b = a
    · rw [hba]
      exact sound.exclusive a (by simp [owing, Phase.Holds])
    · have notified : (s.phase b).notified.Holds := by
        simpa [State.goto_phase, hba, State.announce] using hb
      exact sound.exclusive b (Phase.notified_holds notified)
  | notify => exact sound.exclusive b (Phase.notified_holds hb)
  | wake a x dozing =>
    by_cases hba : b = a
    · simp [State.goto_phase, hba, Phase.Holds] at hb
    · exact sound.exclusive b (by simpa [State.goto_phase, hba] using hb)

private theorem aimed_moved {s next : State A ε} (sound : s.Sound key) (h : Moved key s next)
    (b : A) (x : ε) (hb : next.phase b = .aiming x) : Least key next.queue x := by
  cases h with
  | acquire a | release a | wake a y =>
    exact sound.aimed b x (State.goto_other (by simp) hb).1
  | doze a y => exact sound.aimed b x (State.goto_other (by simp) hb).1
  | add a y inside | take a y before after inside =>
    -- who aims holds the lock, so nobody else changes the bag
    obtain ⟨aiming, hba⟩ := State.goto_other (by simp) hb
    have held : (s.phase a).Holds := by simp [inside, Phase.Holds]
    exact absurd (sound.eq_of_holds held (by simp [aiming, Phase.Holds])) hba
  | announce a owing =>
    have aiming := (State.goto_other (by simp) hb).1
    exact sound.aimed b x (Phase.notified_eq_aiming aiming)
  | notify => exact sound.aimed b x (Phase.notified_eq_aiming hb)
  | aim a y inside least =>
    by_cases hba : b = a
    · have same : Phase.aiming y = .aiming x := by simpa [State.goto_phase, hba] using hb
      obtain rfl := Phase.aiming.inj same
      exact least
    · exact sound.aimed b x (by simpa [State.goto_phase, hba] using hb)

private theorem dozed_moved {s next : State A ε} (sound : s.Sound key) (h : Moved key s next)
    (b : A) (x : ε) (hb : next.phase b = .dozing x) :
    (∃ c, next.phase c = .owing) ∨ ∀ y ∈ next.queue, key x ≤ key y := by
  -- an announcement owed by another agent than the one that moves is still owed
  have still : ∀ {a : A} {p q : Phase ε}, s.phase a = p → p ≠ .owing →
      (∃ c, s.phase c = .owing) → ∃ c, (s.goto a q).phase c = .owing := by
    rintro a p q hp notOwing ⟨c, hc⟩
    have hca : c ≠ a := by
      rintro rfl
      exact notOwing (hp.symm.trans hc)
    exact ⟨c, by simp [State.goto_phase, hca, hc]⟩
  cases h with
  | acquire a at_a | release a at_a | aim a y at_a | wake a y at_a =>
    have dozing := (State.goto_other (by simp) hb).1
    exact (sound.dozed b x dozing).imp_left (still at_a (by simp))
  | doze a y aiming =>
    by_cases hba : b = a
    · have same : Phase.dozing y = .dozing x := by simpa [State.goto_phase, hba] using hb
      obtain rfl := Phase.dozing.inj same
      exact Or.inr (sound.aimed a y aiming).2
    · have dozing : s.phase b = .dozing x := by simpa [State.goto_phase, hba] using hb
      exact (sound.dozed b x dozing).imp_left (still aiming (by simp))
  | add a y inside => exact Or.inl ⟨a, by simp [State.goto_phase]⟩
  | announce a owing =>
    exact absurd (State.goto_other (by simp) hb).1 (Phase.notified_ne_dozing _ x)
  | notify => exact absurd hb (Phase.notified_ne_dozing _ x)
  | take a y before after aiming split =>
    have dozing := (State.goto_other (by simp) hb).1
    rcases sound.dozed b x dozing with owed | least
    · exact Or.inl (still aiming (by simp) owed)
    · refine Or.inr fun z hz => least z ?_
      have kept : z ∈ before ∨ z ∈ after := List.mem_append.mp hz
      rw [split, List.mem_append, List.mem_cons]
      exact kept.imp_right Or.inr

private theorem conserved_moved {s next : State A ε} (sound : s.Sound key)
    (h : Moved key s next) : next.added.Perm (next.taken.map Prod.fst ++ next.queue) := by
  cases h with
  | add a x inside =>
    show (s.added ++ [x]).Perm (s.taken.map Prod.fst ++ (s.queue ++ [x]))
    rw [← List.append_assoc]
    exact sound.conserved.append_right [x]
  | take a x before after aiming split =>
    show s.added.Perm ((s.taken ++ [(x, s.queue)]).map Prod.fst ++ (before ++ after))
    have moved : (s.taken.map Prod.fst ++ s.queue).Perm
        (s.taken.map Prod.fst ++ ([x] ++ (before ++ after))) := by
      rw [split]
      exact List.Perm.append_left _ List.perm_middle
    rw [List.map_append, List.append_assoc]
    exact sound.conserved.trans moved
  | _ => exact sound.conserved

private theorem least_moved {s next : State A ε} (sound : s.Sound key) (h : Moved key s next)
    (r : ε × List ε) (hr : r ∈ next.taken) : Least key r.2 r.1 := by
  cases h with
  | take a x before after aiming split =>
    rcases List.mem_append.mp hr with old | new
    · exact sound.least r old
    · obtain rfl := List.mem_singleton.mp new
      exact sound.aimed a x aiming
  | _ => exact sound.least r hr

/-- Every move keeps the order, whichever least element is chosen and whoever wakes. -/
theorem moved_sound {s next : State A ε} (sound : s.Sound key) (h : Moved key s next) :
    next.Sound key :=
  ⟨exclusive_moved sound h, aimed_moved sound h, dozed_moved sound h, conserved_moved sound h,
    least_moved sound h⟩

end FlashLog.Support.LeastFirst
