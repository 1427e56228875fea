import FlashLog.Mmap.MemoryBuffer
import FlashLog.Support.Loop

/-!
The growth of a `MemoryBuffer` as the loop the code runs: every round reads the capacity again
and asks the string for one and a half times as much, which the string refuses beyond its
maximum size. Every state has a capacity of at least two (`two_le_capacity`), so every round
makes progress.
-/

set_option autoImplicit false
set_option relaxedAutoImplicit false

namespace FlashLog.Mmap

open FlashLog.Support
open FlashLog.Support.Loop (loop Returns loop_of_next loop_of_result)

inductive LengthError
  | lengthError
  deriving DecidableEq

/-- A string that gives exactly what is asked for. -/
def StringImpl.exact : StringImpl where
  initialCapacity := 2
  two_le_initialCapacity := by decide
  grow := fun _ requested => requested
  le_grow := fun _ _ => Nat.le_refl _
  uninitialised := fun _ => 0

theorem StdString.capacity_le_capacity_reserve (impl : StringImpl) (s : StdString) (n : Nat) :
    s.capacity ≤ (s.reserve impl n).capacity := by
  rw [reserve]
  split
  · exact Nat.le_refl _
  · rename_i more
    rw [capacity_reallocate]
    exact Nat.le_trans (Nat.le_of_not_le more) (impl.le_grow _ _)

namespace MemoryBuffer

variable (impl : StringImpl) (maxSize : Nat)

/-- `data_.reserve(capacity)`, which throws beyond `max_size()`. -/
def reserveData (b : MemoryBuffer) (capacity : Nat) : Except LengthError MemoryBuffer :=
  if capacity ≤ maxSize then .ok (b.reserve impl capacity) else .error .lengthError

def reserveRound (size : Nat) (b : MemoryBuffer) :
    MemoryBuffer ⊕ Except LengthError MemoryBuffer :=
  if b.capacity ≤ size then
    match reserveData impl maxSize b (b.capacity * 3 / 2) with
    | .ok grown => .inl grown
    | .error e => .inr (.error e)
  else
    .inr (.ok b)

/-- `EnsureCapacity_`, with fuel for the rounds of `Reserve_`. -/
def ensureCapacityLoop (fuel : Nat) (b : MemoryBuffer) (newSize : Nat) :
    Option (Except LengthError MemoryBuffer) :=
  if newSize ≤ b.capacity then some (.ok b) else loop (reserveRound impl maxSize newSize) fuel b

/-- The arguments of the string's `reserve` in the first `rounds` rounds for `size`. -/
def requests (size : Nat) : Nat → MemoryBuffer → List Nat
  | 0, _ => []
  | rounds + 1, b =>
    if b.capacity ≤ size then
      b.capacity * 3 / 2 :: requests size rounds (b.reserve impl (b.capacity * 3 / 2))
    else
      []

/-- The growth for `size` stays within the string's maximum size. -/
def GrowthBelow (size : Nat) (b : MemoryBuffer) : Prop :=
  ∀ rounds, ∀ request ∈ requests impl size rounds b, request ≤ maxSize

variable {impl maxSize}

theorem requests_cons {size : Nat} {b : MemoryBuffer} (h : b.capacity ≤ size) (rounds : Nat) :
    requests impl size (rounds + 1) b =
      b.capacity * 3 / 2 :: requests impl size rounds (b.reserve impl (b.capacity * 3 / 2)) := by
  rw [requests, if_pos h]

theorem GrowthBelow.first {size : Nat} {b : MemoryBuffer} (below : GrowthBelow impl maxSize size b)
    (h : b.capacity ≤ size) : b.capacity * 3 / 2 ≤ maxSize := by
  apply below 1
  rw [requests_cons h]
  exact List.mem_cons_self

theorem GrowthBelow.rest {size : Nat} {b : MemoryBuffer} (below : GrowthBelow impl maxSize size b)
    (h : b.capacity ≤ size) :
    GrowthBelow impl maxSize size (b.reserve impl (b.capacity * 3 / 2)) := by
  intro rounds request hrequest
  apply below (rounds + 1)
  rw [requests_cons h]
  exact List.mem_cons_of_mem _ hrequest

theorem growthBelow_of_le {size : Nat} (h : size * 3 / 2 ≤ maxSize) (b : MemoryBuffer) :
    GrowthBelow impl maxSize size b := by
  intro rounds
  induction rounds generalizing b with
  | zero => exact fun _ hrequest => absurd hrequest List.not_mem_nil
  | succ rounds ih =>
    intro request hrequest
    rw [requests] at hrequest
    split at hrequest
    · rename_i small
      rcases List.mem_cons.mp hrequest with rfl | later
      · exact Nat.le_trans (Nat.div_le_div_right (Nat.mul_le_mul_right 3 small)) h
      · exact ih _ request later
    · cases hrequest

theorem reserveRound_next {size : Nat} {b : MemoryBuffer} (h : b.capacity ≤ size)
    (fits : b.capacity * 3 / 2 ≤ maxSize) :
    reserveRound impl maxSize size b = .inl (b.reserve impl (b.capacity * 3 / 2)) := by
  simp only [reserveRound, reserveData, if_pos h, if_pos fits]

theorem reserveRound_result {size : Nat} {b : MemoryBuffer} (h : ¬ b.capacity ≤ size) :
    reserveRound impl maxSize size b = .inr (.ok b) := by
  rw [reserveRound, if_neg h]

theorem returns_reserve_ {size : Nat} {b : MemoryBuffer} (below : GrowthBelow impl maxSize size b) :
    Returns (reserveRound impl maxSize size) b (.ok (reserve_ impl b size)) := by
  fun_induction reserve_ impl b size with
  | case1 b small ih =>
    exact .next (reserveRound_next small (below.first small)) (ih (below.rest small))
  | case2 b large => exact .now (reserveRound_result large)

theorem capacity_le_capacity_reserve_ (b : MemoryBuffer) (size : Nat) :
    b.capacity ≤ (reserve_ impl b size).capacity := by
  fun_induction reserve_ impl b size with
  | case1 b small ih =>
    exact Nat.le_trans (StdString.capacity_le_capacity_reserve impl b.data _) ih
  | case2 b large => exact Nat.le_refl _

/-- `Reserve_` ends above the requested size without lowering the capacity or touching what is
stored, so `Push` has room behind the stored bytes. -/
theorem reserve_ends (impl : StringImpl) (maxSize : Nat) (b : MemoryBuffer) :
    (∀ size, GrowthBelow impl maxSize size b →
      ∃ fuel grown, loop (reserveRound impl maxSize size) fuel b = some (.ok grown) ∧
        size < grown.capacity ∧ b.capacity ≤ grown.capacity ∧
        grown.size = b.size ∧ grown.contents = b.contents) ∧
    ∀ bs : Bytes,
      (b.capacity < b.size + bs.length → GrowthBelow impl maxSize (b.size + bs.length) b) →
      ∃ fuel grown, ensureCapacityLoop impl maxSize fuel b (b.size + bs.length) = some (.ok grown) ∧
        grown.size + bs.length ≤ grown.capacity ∧ b.capacity ≤ grown.capacity ∧
        grown.size = b.size ∧ grown.contents = b.contents := by
  have reserves : ∀ size, GrowthBelow impl maxSize size b →
      ∃ fuel grown, loop (reserveRound impl maxSize size) fuel b = some (.ok grown) ∧
        size < grown.capacity ∧ b.capacity ≤ grown.capacity ∧
        grown.size = b.size ∧ grown.contents = b.contents := by
    intro size below
    obtain ⟨fuel, hfuel⟩ := returns_reserve_ below
    obtain ⟨hcontents, hsize⟩ := contents_reserve_ impl b size
    exact ⟨fuel, reserve_ impl b size, hfuel, lt_capacity_reserve_ impl b size,
      capacity_le_capacity_reserve_ b size, hsize, hcontents⟩
  refine ⟨reserves, ?_⟩
  intro bs below
  by_cases fits : b.size + bs.length ≤ b.capacity
  · exact ⟨0, b, if_pos fits, fits, Nat.le_refl _, rfl, rfl⟩
  · obtain ⟨fuel, grown, hfuel, room, larger, hsize, hcontents⟩ :=
      reserves (b.size + bs.length) (below (Nat.lt_of_not_le fits))
    refine ⟨fuel, grown, ?_, ?_, larger, hsize, hcontents⟩
    · rw [ensureCapacityLoop, if_neg fits, hfuel]
    · rw [hsize]
      exact Nat.le_of_lt room

/-- Three rounds from a capacity of two to one above five. -/
example : requests StringImpl.exact 5 9 (new StringImpl.exact) = [3, 4, 6] := by decide

theorem reserve_ends_exact :
    GrowthBelow StringImpl.exact 7 5 (new StringImpl.exact) ∧
      (∃ fuel grown,
        loop (reserveRound StringImpl.exact 7 5) fuel (new StringImpl.exact) = some (.ok grown) ∧
        5 < grown.capacity ∧ 2 ≤ grown.capacity ∧ grown.size = 0 ∧ grown.contents = []) ∧
      ∃ fuel grown,
        ensureCapacityLoop StringImpl.exact 7 fuel (new StringImpl.exact) 5 = some (.ok grown) ∧
        grown.size + 5 ≤ grown.capacity ∧ 2 ≤ grown.capacity ∧ grown.size = 0 ∧
        grown.contents = [] := by
  have below : GrowthBelow StringImpl.exact 7 5 (new StringImpl.exact) :=
    growthBelow_of_le (by decide) _
  exact ⟨below, (reserve_ends StringImpl.exact 7 (new StringImpl.exact)).1 5 below,
    (reserve_ends StringImpl.exact 7 (new StringImpl.exact)).2 [1, 2, 3, 4, 5] fun _ => below⟩

end MemoryBuffer

end FlashLog.Mmap
