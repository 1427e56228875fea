import Mathlib.Data.List.Infix
import FlashLog.Support.Bytes

/-!
Texts with separators: the part up to the first or from behind the last separator, and decimal
numbers.
-/

set_option autoImplicit false
set_option relaxedAutoImplicit false

namespace FlashLog.Support

universe u

section Split

variable {α : Type u} [DecidableEq α]

/-- What is in front of the first `c`, and what is behind it. -/
def upTo (c : α) : List α → Option (List α × List α)
  | [] => none
  | x :: xs => if x = c then some ([], xs) else (upTo c xs).map fun (front, rest) => (x :: front, rest)

/-- What is in front of the last `c`, and what is behind it. -/
def upToLast (c : α) (xs : List α) : Option (List α × List α) :=
  (upTo c xs.reverse).map fun (back, front) => (front.reverse, back.reverse)

variable {c : α} {front : List α}

theorem upTo_append (h : c ∉ front) (rest : List α) :
    upTo c (front ++ c :: rest) = some (front, rest) := by
  induction front with
  | nil => simp [upTo]
  | cons x front ih =>
    have other : x ≠ c := fun same => h (same ▸ List.mem_cons_self)
    have later : c ∉ front := fun hmem => h (List.mem_cons_of_mem _ hmem)
    rw [List.cons_append, upTo, if_neg other, ih later]
    rfl

theorem upToLast_append (front : List α) {back : List α} (h : c ∉ back) :
    upToLast c (front ++ c :: back) = some (front, back) := by
  have hreverse : (front ++ c :: back).reverse = back.reverse ++ c :: front.reverse := by simp
  rw [upToLast, hreverse, upTo_append (by simpa using h)]
  simp

theorem dropPrefix?_append (front rest : List α) : (front ++ rest).dropPrefix? front = some rest :=
  List.dropPrefix?_eq_some_iff.mpr ⟨front, rfl, by simp⟩

end Split

section Decimal

def decimalDigits (n : Nat) : Bytes := (Nat.toDigits 10 n).map Char.toUInt8

def isDecimalDigit (b : UInt8) : Bool := decide (48 ≤ b.toNat ∧ b.toNat ≤ 57)

def readDecimal (bs : Bytes) : Option Nat :=
  if bs ≠ [] ∧ bs.all isDecimalDigit then
    some (bs.foldl (fun n b => 10 * n + (b.toNat - 48)) 0)
  else none

theorem toNat_toUInt8_of_isDigit {c : Char} (h : c.isDigit = true) :
    c.toUInt8.toNat = c.toNat ∧ 48 ≤ c.toNat ∧ c.toNat ≤ 57 := by
  simp only [Char.isDigit, Bool.and_eq_true, decide_eq_true_eq, ge_iff_le] at h
  obtain ⟨low, high⟩ := h
  have low' : 48 ≤ c.toNat := low
  have high' : c.toNat ≤ 57 := high
  refine ⟨?_, low', high'⟩
  show c.val.toNat % 256 = c.val.toNat
  exact Nat.mod_eq_of_lt (Nat.lt_of_le_of_lt high' (by decide))

theorem isDigit_of_mem_toDigits {c : Char} {n : Nat} (h : c ∈ Nat.toDigits 10 n) :
    c.isDigit = true := Nat.isDigit_of_mem_toDigits (by decide) (by decide) h

theorem isDecimalDigit_of_mem {b : UInt8} {n : Nat} (h : b ∈ decimalDigits n) :
    isDecimalDigit b = true := by
  obtain ⟨c, hc, rfl⟩ := List.mem_map.mp h
  obtain ⟨same, low, high⟩ := toNat_toUInt8_of_isDigit (isDigit_of_mem_toDigits hc)
  simp [isDecimalDigit, same, low, high]

theorem not_mem_decimalDigits {b : UInt8} (h : isDecimalDigit b = false) (n : Nat) :
    b ∉ decimalDigits n := by
  intro hmem
  rw [isDecimalDigit_of_mem hmem] at h
  cases h

private theorem foldl_digits {cs : List Char} (h : ∀ c ∈ cs, c.isDigit = true) (n : Nat) :
    (cs.map Char.toUInt8).foldl (fun n b => 10 * n + (b.toNat - 48)) n =
      Nat.ofDigitChars 10 cs n := by
  induction cs generalizing n with
  | nil => rfl
  | cons c cs ih =>
    obtain ⟨same, -, -⟩ := toNat_toUInt8_of_isDigit (h c List.mem_cons_self)
    rw [List.map_cons, List.foldl_cons, ih fun c hc => h c (List.mem_cons_of_mem _ hc),
      Nat.ofDigitChars_cons, same]
    rfl

theorem readDecimal_decimalDigits (n : Nat) : readDecimal (decimalDigits n) = some n := by
  have filled : decimalDigits n ≠ [] := by simp [decimalDigits, Nat.toDigits_ne_nil]
  have digits : (decimalDigits n).all isDecimalDigit = true :=
    List.all_eq_true.mpr fun b hb => isDecimalDigit_of_mem hb
  rw [readDecimal, if_pos ⟨filled, digits⟩, decimalDigits,
    foldl_digits fun c hc => isDigit_of_mem_toDigits hc, Nat.ofDigitChars_ten_toDigits]

end Decimal

end FlashLog.Support
