import Mathlib.Algebra.Ring.Nat
import Mathlib.Data.List.Basic

/-!
Flat memories as byte lists: slices, stores that keep the length, truncation and
extension to a length, and little-endian fields.
-/

set_option autoImplicit false
set_option relaxedAutoImplicit false

namespace FlashLog.Support

abbrev Bytes := List UInt8

namespace Bytes

/-- The `len` bytes at `off`. -/
def slice (mem : Bytes) (off len : Nat) : Bytes := (mem.drop off).take len

/-- Overwrite the bytes at `off`; meant for ranges inside the memory. -/
def store (mem : Bytes) (off : Nat) (bs : Bytes) : Bytes :=
  mem.take off ++ bs ++ mem.drop (off + bs.length)

/-- Cut to `n` bytes, or extend to `n` bytes with zeros. -/
def setLength (mem : Bytes) (n : Nat) : Bytes := mem.take n ++ List.replicate (n - mem.length) 0

/-- The `k` low bytes of a number, least significant first. -/
def ofNatLE : Nat → Nat → Bytes
  | 0, _ => []
  | k + 1, v => UInt8.ofNat v :: ofNatLE k (v / 256)

def toNatLE : Bytes → Nat
  | [] => 0
  | b :: bs => b.toNat + 256 * toNatLE bs

@[simp] theorem length_ofNatLE (k v : Nat) : (ofNatLE k v).length = k := by
  induction k generalizing v with
  | zero => rfl
  | succ k ih => simp [ofNatLE, ih]

theorem toNatLE_ofNatLE (k v : Nat) : toNatLE (ofNatLE k v) = v % 256 ^ k := by
  induction k generalizing v with
  | zero => simp [ofNatLE, toNatLE, Nat.mod_one]
  | succ k ih =>
    have low : (UInt8.ofNat v).toNat = v % 256 := UInt8.toNat_ofNat'
    rw [ofNatLE, toNatLE, ih, low, Nat.pow_succ, Nat.mul_comm (256 ^ k) 256, Nat.mod_mul]

theorem toNatLE_ofNatLE_four (v : Nat) : toNatLE (ofNatLE 4 v) = v % 2 ^ 32 := by
  have hpow : 256 ^ 4 = 2 ^ 32 := by decide
  rw [toNatLE_ofNatLE, hpow]

theorem toNatLE_ofNatLE_eight (v : Nat) : toNatLE (ofNatLE 8 v) = v % 2 ^ 64 := by
  have hpow : 256 ^ 8 = 2 ^ 64 := by decide
  rw [toNatLE_ofNatLE, hpow]

theorem ofNatLE_mod (k v : Nat) : ofNatLE k (v % 256 ^ k) = ofNatLE k v := by
  induction k generalizing v with
  | zero => rfl
  | succ k ih =>
    have low : UInt8.ofNat (v % 256 ^ (k + 1)) = UInt8.ofNat v := by
      apply UInt8.toNat_inj.mp
      rw [UInt8.toNat_ofNat', UInt8.toNat_ofNat']
      exact Nat.mod_mod_of_dvd v ⟨256 ^ k, by rw [Nat.pow_succ, Nat.mul_comm]⟩
    have high : v % 256 ^ (k + 1) / 256 = v / 256 % 256 ^ k := by
      rw [Nat.pow_succ, Nat.mul_comm, Nat.mod_mul_right_div_self]
    rw [ofNatLE, ofNatLE, low, high, ih]

theorem ofNatLE_inj {k m n : Nat} (hm : m < 256 ^ k) (hn : n < 256 ^ k)
    (h : ofNatLE k m = ofNatLE k n) : m = n := by
  have hvalue := congrArg toNatLE h
  rwa [toNatLE_ofNatLE, toNatLE_ofNatLE, Nat.mod_eq_of_lt hm, Nat.mod_eq_of_lt hn] at hvalue

theorem ofNatLE_toNatLE (bs : Bytes) : ofNatLE bs.length (toNatLE bs) = bs := by
  induction bs with
  | nil => rfl
  | cons b bs ih =>
    have hb : b.toNat < 256 := b.toNat_lt
    have low : UInt8.ofNat (b.toNat + 256 * toNatLE bs) = b := by
      apply UInt8.toNat_inj.mp
      rw [UInt8.toNat_ofNat']
      omega
    have high : (b.toNat + 256 * toNatLE bs) / 256 = toNatLE bs := by omega
    rw [List.length_cons, toNatLE, ofNatLE, low, high, ih]

theorem toNatLE_lt (bs : Bytes) : toNatLE bs < 256 ^ bs.length := by
  induction bs with
  | nil => simp [toNatLE]
  | cons b bs ih =>
    have hb : b.toNat < 256 := b.toNat_lt
    simp only [toNatLE, List.length_cons, Nat.pow_succ]
    omega

theorem length_slice (mem : Bytes) (off len : Nat) :
    (slice mem off len).length = min len (mem.length - off) := by
  simp [slice]

theorem length_slice_of_le {mem : Bytes} {off len : Nat} (h : off + len ≤ mem.length) :
    (slice mem off len).length = len := by
  rw [length_slice]
  omega

@[simp] theorem slice_zero (mem : Bytes) (off : Nat) : slice mem off 0 = [] := by
  simp [slice]

theorem slice_add (mem : Bytes) (off a b : Nat) :
    slice mem off (a + b) = slice mem off a ++ slice mem (off + a) b := by
  simp only [slice, List.take_add, List.drop_drop]

theorem take_slice (mem : Bytes) (off len k : Nat) :
    (slice mem off len).take k = slice mem off (min k len) := by
  rw [slice, slice, List.take_take]

theorem slice_append_right (a b : Bytes) (off len : Nat) :
    slice (a ++ b) (a.length + off) len = slice b off len := by
  rw [slice, slice, ← List.drop_drop, List.drop_left]

theorem slice_append_left {a : Bytes} {off len : Nat} (h : off + len ≤ a.length) (b : Bytes) :
    slice (a ++ b) off len = slice a off len := by
  rw [slice, slice, List.drop_append_of_le_length (by omega), List.take_append_of_le_length]
  rw [List.length_drop]
  omega

theorem slice_whole {mem : Bytes} {n : Nat} (h : mem.length = n) : slice mem 0 n = mem := by
  rw [slice, List.drop_zero, ← h, List.take_length]

theorem length_store {mem : Bytes} {off : Nat} {bs : Bytes} (h : off + bs.length ≤ mem.length) :
    (store mem off bs).length = mem.length := by
  simp only [store, List.length_append, List.length_take, List.length_drop]
  omega

theorem slice_store_same {mem : Bytes} {off : Nat} {bs : Bytes}
    (h : off + bs.length ≤ mem.length) : slice (store mem off bs) off bs.length = bs := by
  have htake : (mem.take off).length = off := by
    rw [List.length_take]
    omega
  simp only [slice, store, List.append_assoc]
  rw [List.drop_append_of_le_length (by omega), List.drop_eq_nil_of_le (by omega),
    List.nil_append, List.take_left']
  rfl

theorem store_whole {mem bs : Bytes} (h : mem.length = bs.length) : store mem 0 bs = bs := by
  rw [store, List.take_zero, List.nil_append, Nat.zero_add, ← h, List.drop_length, List.append_nil]

theorem slice_store_before {mem : Bytes} {off off' len : Nat} {bs : Bytes}
    (h : off' + len ≤ off) (hoff : off ≤ mem.length) :
    slice (store mem off bs) off' len = slice mem off' len := by
  have htake : (mem.take off).length = off := by
    rw [List.length_take]
    omega
  simp only [slice, store, List.append_assoc]
  rw [List.drop_append_of_le_length (by omega), List.take_append_of_le_length (by
    rw [List.length_drop, htake]
    omega), List.drop_take, List.take_take]
  congr 1
  omega

theorem slice_store_after {mem : Bytes} {off off' len : Nat} {bs : Bytes}
    (h : off + bs.length ≤ off') (hoff : off + bs.length ≤ mem.length) :
    slice (store mem off bs) off' len = slice mem off' len := by
  have hprefix : (mem.take off ++ bs).length = off + bs.length := by
    rw [List.length_append, List.length_take]
    omega
  simp only [slice, store]
  rw [List.drop_append, hprefix, List.drop_eq_nil_of_le (by omega), List.nil_append,
    List.drop_drop]
  congr 2
  omega

@[simp] theorem length_setLength (mem : Bytes) (n : Nat) : (setLength mem n).length = n := by
  simp only [setLength, List.length_append, List.length_take, List.length_replicate]
  omega

theorem setLength_self (mem : Bytes) : setLength mem mem.length = mem := by
  simp [setLength]

theorem slice_setLength {mem : Bytes} {n off len : Nat} (hn : off + len ≤ n)
    (hmem : off + len ≤ mem.length) : slice (setLength mem n) off len = slice mem off len := by
  have htake : (mem.take n).length = min n mem.length := List.length_take
  simp only [slice, setLength]
  rw [List.drop_append_of_le_length (by omega), List.take_append_of_le_length (by
    rw [List.length_drop]
    omega), List.drop_take, List.take_take]
  congr 1
  omega

end Bytes

end FlashLog.Support
