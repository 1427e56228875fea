import Mathlib.Data.List.Perm.Basic
import Mathlib.Data.List.Count
import Mathlib.Data.List.Infix
import Mathlib.Logic.Function.Basic

/-!
Streams of several producers that a consumer has settled in an order of its own. Each producer
has at most one element that the consumer has still to settle, and the order keeps the elements
of each producer in the order in which they were accepted.
-/

set_option autoImplicit false
set_option relaxedAutoImplicit false

namespace FlashLog.Support.Shuffle

universe u v

variable {T : Type u} {μ : Type v} [DecidableEq T]

def own (t : T) (xs : List (T × μ)) : List μ :=
  xs.filterMap fun p => if p.1 = t then some p.2 else none

@[simp] theorem own_nil (t : T) : own t ([] : List (T × μ)) = [] := rfl

@[simp] theorem own_append (t : T) (xs ys : List (T × μ)) :
    own t (xs ++ ys) = own t xs ++ own t ys :=
  List.filterMap_append

@[simp] theorem own_same (t : T) (x : μ) : own t [(t, x)] = [x] := by
  simp [own]

theorem own_other {t u : T} (h : u ≠ t) (x : μ) : own t [(u, x)] = [] := by
  simp [own, h]

theorem mem_own {t : T} {x : μ} {xs : List (T × μ)} : x ∈ own t xs ↔ (t, x) ∈ xs := by
  constructor
  · intro hx
    obtain ⟨⟨u, y⟩, hmem, hy⟩ := List.mem_filterMap.mp hx
    obtain ⟨rfl, rfl⟩ : u = t ∧ y = x := by simpa using hy
    exact hmem
  · intro hmem
    exact List.mem_filterMap.mpr ⟨(t, x), hmem, by simp⟩

theorem count_own [DecidableEq μ] (t : T) (x : μ) (xs : List (T × μ)) :
    (own t xs).count x = xs.count (t, x) := by
  induction xs with
  | nil => rfl
  | cons p xs ih =>
    obtain ⟨u, y⟩ := p
    have hsplit : own t ((u, y) :: xs) = own t [(u, y)] ++ own t xs := own_append t [(u, y)] xs
    rw [hsplit, List.count_append, ih, List.count_cons, Nat.add_comm]
    congr 1
    by_cases same : u = t
    · subst same
      rw [own_same, List.count_singleton]
      simp
    · rw [own_other same]
      simp [same]

/-- For every producer, the settled elements and then the waiting one are the accepted ones. -/
def Settled (accepted order : List (T × μ)) (waiting : T → Option μ) : Prop :=
  ∀ t, own t order ++ (waiting t).toList = own t accepted

namespace Settled

variable {accepted order : List (T × μ)} {waiting waiting' : T → Option μ} {t : T} {x : μ}

theorem accept (h : Settled accepted order waiting) (before : waiting t = none)
    (after : waiting' t = some x) (others : ∀ u, u ≠ t → waiting' u = waiting u) :
    Settled (accepted ++ [(t, x)]) order waiting' := by
  intro u
  by_cases same : u = t
  · subst same
    have settled := h u
    rw [before, Option.toList_none, List.append_nil] at settled
    rw [after, settled, own_append, own_same, Option.toList_some]
  · rw [others u same, h u, own_append, own_other (Ne.symm same), List.append_nil]

theorem settle (h : Settled accepted order waiting) (before : waiting t = some x)
    (after : waiting' t = none) (others : ∀ u, u ≠ t → waiting' u = waiting u) :
    Settled accepted (order ++ [(t, x)]) waiting' := by
  intro u
  by_cases same : u = t
  · subst same
    have settled := h u
    rw [before, Option.toList_some] at settled
    rw [after, own_append, own_same, Option.toList_none, List.append_nil, settled]
  · rw [others u same, own_append, own_other (Ne.symm same), List.append_nil, h u]

theorem own_eq (h : Settled accepted order waiting) (idle : waiting t = none) :
    own t order = own t accepted := by
  simpa [idle] using h t

theorem perm (h : Settled accepted order waiting) (idle : ∀ t, waiting t = none) :
    order.Perm accepted := by
  classical
  rw [List.perm_iff_count]
  rintro ⟨t, x⟩
  rw [← count_own, ← count_own, h.own_eq (idle t)]

end Settled

end FlashLog.Support.Shuffle
