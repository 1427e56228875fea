import Mathlib.Order.WellFounded

/-!
Loops as bodies that go on from a next state or leave with a result. A loop may run forever, so
it is run with fuel, and that it ends is a proposition of its own.
-/

set_option autoImplicit false
set_option relaxedAutoImplicit false

namespace FlashLog.Support.Loop

universe u v w

variable {σ : Type u} {ρ : Type v} (body : σ → σ ⊕ ρ)

def loop : Nat → σ → Option ρ
  | 0, _ => none
  | fuel + 1, s =>
    match body s with
    | .inl next => loop fuel next
    | .inr result => some result

def Returns (s : σ) (result : ρ) : Prop := ∃ fuel, loop body fuel s = some result

def Ends (s : σ) : Prop := ∃ result, Returns body s result

variable {body}

theorem loop_of_next {s next : σ} (h : body s = .inl next) (fuel : Nat) :
    loop body (fuel + 1) s = loop body fuel next := by
  simp only [loop, h]

theorem loop_of_result {s : σ} {result : ρ} (h : body s = .inr result) (fuel : Nat) :
    loop body (fuel + 1) s = some result := by
  simp only [loop, h]

theorem loop_of_le {fuel fuel' : Nat} {s : σ} {result : ρ} (h : loop body fuel s = some result)
    (le : fuel ≤ fuel') : loop body fuel' s = some result := by
  induction fuel generalizing fuel' s with
  | zero => cases h
  | succ fuel ih =>
    obtain ⟨more, rfl⟩ : ∃ more, fuel' = more + 1 := ⟨fuel' - 1, by omega⟩
    cases hbody : body s with
    | inl next =>
      rw [loop_of_next hbody] at h ⊢
      exact ih h (Nat.le_of_succ_le_succ le)
    | inr last =>
      rw [loop_of_result hbody] at h ⊢
      exact h

theorem Returns.now {s : σ} {result : ρ} (h : body s = .inr result) : Returns body s result :=
  ⟨1, loop_of_result h 0⟩

theorem Returns.next {s next : σ} {result : ρ} (h : body s = .inl next)
    (rest : Returns body next result) : Returns body s result := by
  obtain ⟨fuel, hfuel⟩ := rest
  exact ⟨fuel + 1, (loop_of_next h fuel).trans hfuel⟩

theorem ends_iff_isSome {s : σ} : Ends body s ↔ ∃ fuel, (loop body fuel s).isSome := by
  constructor
  · rintro ⟨result, fuel, hfuel⟩
    exact ⟨fuel, by rw [hfuel]; rfl⟩
  · rintro ⟨fuel, hfuel⟩
    obtain ⟨result, hresult⟩ := Option.isSome_iff_exists.mp hfuel
    exact ⟨result, fuel, hresult⟩

theorem ends_of_next {s next : σ} (h : body s = .inl next) : Ends body s ↔ Ends body next := by
  constructor
  · rintro ⟨result, fuel, hfuel⟩
    cases fuel with
    | zero => cases hfuel
    | succ fuel => exact ⟨result, fuel, (loop_of_next h fuel).symm.trans hfuel⟩
  · rintro ⟨result, rest⟩
    exact ⟨result, rest.next h⟩

theorem ends_of_result {s : σ} {result : ρ} (h : body s = .inr result) : Ends body s :=
  ⟨result, .now h⟩

/-- A loop ends when every round keeps an invariant and lowers a well-founded measure. -/
theorem ends_of_measure {β : Type w} {r : β → β → Prop} (wf : WellFounded r) {I : σ → Prop}
    (measure : σ → β)
    (lowered : ∀ s next, I s → body s = .inl next → I next ∧ r (measure next) (measure s))
    {s : σ} (start : I s) : Ends body s := by
  induction hm : measure s using wf.induction generalizing s with
  | _ m ih =>
    cases hbody : body s with
    | inl next =>
      obtain ⟨kept, lower⟩ := lowered s next start hbody
      exact (ends_of_next hbody).mpr (ih (measure next) (hm ▸ lower) kept rfl)
    | inr result => exact ends_of_result hbody

/-- A loop never ends from a set of states that every round stays in. -/
theorem not_ends_of_trap {I : σ → Prop} (stays : ∀ s, I s → ∃ next, body s = .inl next ∧ I next)
    {s : σ} (start : I s) : ¬ Ends body s := by
  rintro ⟨result, fuel, hfuel⟩
  induction fuel generalizing s with
  | zero => cases hfuel
  | succ fuel ih =>
    obtain ⟨next, hbody, kept⟩ := stays s start
    rw [loop_of_next hbody] at hfuel
    exact ih kept hfuel

section Calls

variable {α : Type w} (call : Nat → σ → α → Option σ)

/-- Every call of a sequence returns with some fuel, each from the state the one before left. -/
def AllReturn : σ → List α → Prop
  | _, [] => True
  | s, a :: as =>
    (∃ fuel, (call fuel s a).isSome) ∧ ∀ fuel, ∀ next ∈ call fuel s a, AllReturn next as

def AllMeet (ok : σ → α → Prop) : σ → List α → Prop
  | _, [] => True
  | s, a :: as => ok s a ∧ ∀ fuel, ∀ next ∈ call fuel s a, AllMeet ok next as

variable {call}

theorem allReturn_iff_allMeet {ok : σ → α → Prop}
    (returns_iff : ∀ s a, (∃ fuel, (call fuel s a).isSome) ↔ ok s a) (s : σ) (as : List α) :
    AllReturn call s as ↔ AllMeet call ok s as := by
  induction as generalizing s with
  | nil => exact Iff.rfl
  | cons a as ih =>
    rw [AllReturn, AllMeet, returns_iff]
    exact and_congr_right fun _ => forall_congr' fun _ => forall₂_congr fun next _ => ih next

end Calls

end FlashLog.Support.Loop
