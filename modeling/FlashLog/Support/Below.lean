import Mathlib.Data.Option.Basic

/-!
Computations that agree as far as one of them gets: the flat order on `Except`, with one error at
the bottom. A computation on less of the input is below the same computation on more of it.
-/

set_option autoImplicit false
set_option relaxedAutoImplicit false

namespace FlashLog.Support

universe u

/-- Either `x` has stopped with `bottom`, or `x` and `y` are the same. -/
def Below {ε α : Type u} (bottom : ε) (x y : Except ε α) : Prop := x = .error bottom ∨ x = y

namespace Below

variable {ε α β : Type u} {bottom : ε} {x y : Except ε α}

theorem refl (x : Except ε α) : Below bottom x x := Or.inr rfl

theorem bind {f g : α → Except ε β} (h : Below bottom x y) (rest : ∀ a, Below bottom (f a) (g a)) :
    Below bottom (x >>= f) (y >>= g) := by
  rcases h with rfl | rfl
  · exact Or.inl rfl
  · cases x with
    | error e => exact Or.inr rfl
    | ok a => exact rest a

theorem map (f : α → β) (h : Below bottom x y) : Below bottom (x.map f) (y.map f) := by
  rcases h with rfl | rfl
  · exact Or.inl rfl
  · exact Or.inr rfl

theorem ok {a : α} (h : Below bottom x y) (hx : x = .ok a) : y = .ok a := by
  rcases h with rfl | rfl
  · cases hx
  · exact hx

theorem error {e : ε} (h : Below bottom x y) (hx : x = .error e) (other : e ≠ bottom) :
    y = .error e := by
  rcases h with rfl | rfl
  · exact absurd (Except.error.inj hx).symm other
  · exact hx

end Below

end FlashLog.Support
