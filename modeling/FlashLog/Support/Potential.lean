import Mathlib.Algebra.BigOperators.Group.Finset.Basic
import FlashLog.Support.Machine

/-!
Runs of a bounded length: every step costs one unit of a potential, which is a sum over the
parties of a machine, and some labels bring new units in.
-/

set_option autoImplicit false
set_option relaxedAutoImplicit false

namespace FlashLog.Support.Potential

open FlashLog.Support.Machine

universe u v w

theorem sum_move {T : Type w} [Fintype T] [DecidableEq T] {f g : T → Nat} {t : T}
    (others : ∀ u, u ≠ t → g u = f u) : ∑ u, g u + f t = ∑ u, f u + g t := by
  have mem : t ∈ Finset.univ := Finset.mem_univ t
  have rest : ∑ u ∈ Finset.univ.erase t, g u = ∑ u ∈ Finset.univ.erase t, f u :=
    Finset.sum_congr rfl fun u hu => others u (Finset.ne_of_mem_erase hu)
  rw [← Finset.add_sum_erase _ f mem, ← Finset.add_sum_erase _ g mem, rest]
  omega

variable {σ : Type u} {α : Type v} {step : σ → α → Option σ}

/-- What a label brings in, when every label of a kind brings in the same. -/
def gain (cost : Nat) (p : α → Bool) (a : α) : Nat := if p a then cost else 0

theorem sum_gain (cost : Nat) (p : α → Bool) (as : List α) :
    (as.map (gain cost p)).sum = cost * as.countP p := by
  induction as with
  | nil => rfl
  | cons a as ih =>
    rw [List.map_cons, List.sum_cons, ih, List.countP_cons, gain]
    split
    · rw [Nat.mul_add, Nat.mul_one, Nat.add_comm]
    · rw [Nat.zero_add, Nat.add_zero]

theorem run_length_le_countP {ok : σ → α → Prop} {I : σ → Prop} (potential : σ → Nat) (cost : Nat)
    (p : α → Bool) (preserved : ∀ s a next, I s → ok s a → step s a = some next → I next)
    (descends : ∀ s a next, I s → ok s a → step s a = some next →
      potential next + 1 ≤ potential s + gain cost p a)
    {s t : σ} {as : List α} (start : I s) (meets : Meets step ok s as)
    (h : run step s as = some t) : as.length ≤ potential s + cost * as.countP p := by
  have bound := run_length_le potential (gain cost p) preserved descends start meets h
  rw [sum_gain] at bound
  omega

end FlashLog.Support.Potential
