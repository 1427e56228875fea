import Mathlib.Data.List.Infix

/-!
Keeping elements from the front of a list while a running total is below a limit, and dropping
all that come after. Which element is kept depends only on the totals of the elements before it,
whatever the totals are made of.
-/

set_option autoImplicit false
set_option relaxedAutoImplicit false

namespace FlashLog.Support.Budget

universe u v

variable {α : Type u} {κ : Type v} [LT κ] [DecidableLT κ] (add : κ → α → κ) (limit : κ)

/-- The kept elements and the dropped ones. -/
def split : κ → List α → List α × List α
  | _, [] => ([], [])
  | cur, x :: xs =>
    if cur < limit then
      let rest := split (add cur x) xs
      (x :: rest.1, rest.2)
    else
      let rest := split cur xs
      (rest.1, x :: rest.2)

theorem split_of_reached {cur : κ} (h : ¬ cur < limit) (xs : List α) :
    split add limit cur xs = ([], xs) := by
  induction xs with
  | nil => rfl
  | cons x xs ih => rw [split, if_neg h, ih]

theorem split_append (cur : κ) (xs : List α) :
    (split add limit cur xs).1 ++ (split add limit cur xs).2 = xs := by
  induction xs generalizing cur with
  | nil => rfl
  | cons x xs ih =>
    by_cases below : cur < limit
    · rw [split, if_pos below]
      exact congrArg (x :: ·) (ih (add cur x))
    · rw [split_of_reached add limit below]
      rfl

variable {add limit}

/-- An element is kept exactly if all totals up to it are below the limit. -/
theorem kept_iff (cur : κ) (before : List α) (x : α) (after : List α) :
    before.length < (split add limit cur (before ++ x :: after)).1.length ↔
      ∀ front, front <+: before → front.foldl add cur < limit := by
  induction before generalizing cur with
  | nil =>
    by_cases below : cur < limit
    · simp [split, below]
    · simp [split_of_reached add limit below, below]
  | cons y before ih =>
    by_cases below : cur < limit
    · rw [List.cons_append, split, if_pos below, List.length_cons, List.length_cons,
        Nat.add_lt_add_iff_right, ih]
      constructor
      · intro totals front hfront
        cases front with
        | nil => exact below
        | cons z front =>
          obtain ⟨rfl, htail⟩ := List.cons_prefix_cons.mp hfront
          exact totals front htail
      · intro totals front hfront
        exact totals (y :: front) (List.cons_prefix_cons.mpr ⟨rfl, hfront⟩)
    · rw [split_of_reached add limit below]
      simp only [List.length_nil, Nat.not_lt_zero, false_iff]
      intro totals
      exact below (totals [] List.nil_prefix)

theorem below_of_kept {cur : κ} {xs before after : List α} {x : α}
    (h : (split add limit cur xs).1 = before ++ x :: after) : before.foldl add cur < limit := by
  have whole := split_append add limit cur xs
  rw [h, List.append_assoc, List.cons_append] at whole
  refine (kept_iff cur before x (after ++ (split add limit cur xs).2)).mp ?_ before
    (List.prefix_refl before)
  rw [whole, h]
  simp

theorem reached_of_dropped {cur : κ} {xs : List α} (h : (split add limit cur xs).2 ≠ []) :
    ¬ (split add limit cur xs).1.foldl add cur < limit := by
  obtain ⟨x, after, hdropped⟩ := List.exists_cons_of_ne_nil h
  have whole := split_append add limit cur xs
  rw [hdropped] at whole
  intro below
  -- then the first dropped element would be kept
  have kept : (split add limit cur xs).1.length < (split add limit cur xs).1.length := by
    conv_rhs => rw [← whole]
    refine (kept_iff cur _ x after).mpr ?_
    intro front hfront
    obtain ⟨tail, htail⟩ := hfront
    cases tail with
    | nil =>
      rw [List.append_nil] at htail
      rw [htail]
      exact below
    | cons y tail => exact below_of_kept htail.symm
  exact Nat.lt_irrefl _ kept

theorem mem_dropped_iff {cur : κ} {xs : List α} {x : α} : x ∈ (split add limit cur xs).2 ↔
    ∃ before after, xs = before ++ x :: after ∧
      ¬ ∀ front, front <+: before → front.foldl add cur < limit := by
  have whole := split_append add limit cur xs
  constructor
  · intro dropped
    obtain ⟨between, after, hdropped⟩ := List.append_of_mem dropped
    rw [hdropped, ← List.append_assoc] at whole
    refine ⟨_, after, whole.symm, ?_⟩
    rw [← kept_iff cur _ x after, whole, List.length_append]
    omega
  · rintro ⟨before, after, rfl, beyond⟩
    rw [← kept_iff cur before x after] at beyond
    have place : (before ++ x :: after)[before.length]? = some x := by simp
    rw [← whole, List.getElem?_append_right (Nat.le_of_not_lt beyond)] at place
    exact List.mem_of_getElem? place

theorem mem_kept_iff {xs : List α} (nodup : xs.Nodup) {cur : κ} {before after : List α} {x : α}
    (h : xs = before ++ x :: after) : x ∈ (split add limit cur xs).1 ↔
      ∀ front, front <+: before → front.foldl add cur < limit := by
  have whole := split_append add limit cur xs
  have place : xs[before.length]? = some x := by simp [h]
  rw [← kept_iff cur before x after, ← h]
  constructor
  · intro kept
    by_contra beyond
    rw [← whole, List.getElem?_append_right (Nat.le_of_not_lt beyond)] at place
    rw [← whole] at nodup
    exact (List.nodup_append.mp nodup).2.2 x kept x (List.mem_of_getElem? place) rfl
  · intro front
    rw [← whole, List.getElem?_append_left front] at place
    exact List.mem_of_getElem? place

end FlashLog.Support.Budget
