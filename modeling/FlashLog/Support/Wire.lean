import FlashLog.Support.Bytes

/-!
The wire format of protocol buffers: base-128 numbers, and records as fields one behind the
other, each behind a tag with its number and its kind. Groups, which the third version of the
language does not have, are refused.
-/

set_option autoImplicit false
set_option relaxedAutoImplicit false

namespace FlashLog.Support.Wire

/-- At most `k + 1` groups of seven bits, the least significant first. All but the last have the
high bit. -/
def groups : Nat → Nat → Bytes
  | 0, n => [UInt8.ofNat (n % 128)]
  | k + 1, n =>
    if n < 128 then [UInt8.ofNat n] else UInt8.ofNat (n % 128 + 128) :: groups k (n / 128)

/-- A number of 64 bits takes ten groups at most. -/
def varint (n : Nat) : Bytes := groups 9 n

def readGroups : Nat → Bytes → Option (Nat × Bytes)
  | _, [] => none
  | 0, b :: bs => if b.toNat < 128 then some (b.toNat, bs) else none
  | k + 1, b :: bs =>
    if b.toNat < 128 then some (b.toNat, bs)
    else (readGroups k bs).map fun (n, bs) => (b.toNat - 128 + 128 * n, bs)

/-- The bits behind the 64th are lost. -/
def readVarint (bs : Bytes) : Option (Nat × Bytes) :=
  (readGroups 9 bs).map fun (n, bs) => (n % 2 ^ 64, bs)

/-- The payload of a field, by its kind. -/
inductive Value
  | varint (n : Nat)
  | fixed64 (n : Nat)
  | bytes (bs : Bytes)
  | fixed32 (n : Nat)
  deriving DecidableEq

structure Field where
  number : Nat
  value : Value
  deriving DecidableEq

def Value.kind : Value → Nat
  | .varint _ => 0
  | .fixed64 _ => 1
  | .bytes _ => 2
  | .fixed32 _ => 5

def Value.write : Value → Bytes
  | .varint n => Wire.varint n
  | .fixed64 n => Bytes.ofNatLE 8 n
  | .bytes bs => Wire.varint bs.length ++ bs
  | .fixed32 n => Bytes.ofNatLE 4 n

def split (n : Nat) (bs : Bytes) : Option (Bytes × Bytes) :=
  if n ≤ bs.length then some (bs.take n, bs.drop n) else none

def readValue (kind : Nat) (bs : Bytes) : Option (Value × Bytes) :=
  match kind with
  | 0 => (readVarint bs).map fun (n, bs) => (.varint n, bs)
  | 1 => (split 8 bs).map fun (field, bs) => (.fixed64 (Bytes.toNatLE field), bs)
  | 2 => (readVarint bs).bind fun (n, bs) => (split n bs).map fun (field, bs) => (.bytes field, bs)
  | 5 => (split 4 bs).map fun (field, bs) => (.fixed32 (Bytes.toNatLE field), bs)
  | _ => none

def Field.write (field : Field) : Bytes :=
  varint (field.number * 8 + field.value.kind) ++ field.value.write

def readField (bs : Bytes) : Option (Field × Bytes) :=
  (readVarint bs).bind fun (tag, bs) =>
    if tag / 8 = 0 then none
    else (readValue (tag % 8) bs).map fun (value, bs) => (⟨tag / 8, value⟩, bs)

/-- The fields up to the end, or up to what is no field; `fuel` bounds their number. -/
def readFields : Nat → Bytes → List Field × Bool
  | 0, bs => ([], bs.isEmpty)
  | fuel + 1, bs =>
    if bs.isEmpty then ([], true)
    else
      match readField bs with
      | none => ([], false)
      | some (field, bs) =>
        let (fields, complete) := readFields fuel bs
        (field :: fields, complete)

def read (bs : Bytes) : List Field × Bool := readFields bs.length bs

def write (fields : List Field) : Bytes := fields.flatMap Field.write

def Value.Fits : Value → Prop
  | .varint n => n < 2 ^ 64
  | .fixed64 n => n < 2 ^ 64
  | .bytes bs => bs.length < 2 ^ 64
  | .fixed32 n => n < 2 ^ 32

structure Field.Fits (field : Field) : Prop where
  named : 0 < field.number
  small : field.number < 2 ^ 29
  value : field.value.Fits

section Varint

theorem readGroups_groups (k n : Nat) (rest : Bytes) (h : n < 128 ^ (k + 1)) :
    readGroups k (groups k n ++ rest) = some (n, rest) := by
  induction k generalizing n with
  | zero =>
    have hsmall : n < 128 := by omega
    have hbyte : (UInt8.ofNat (n % 128)).toNat = n := by
      rw [UInt8.toNat_ofNat']
      omega
    simp only [groups, List.singleton_append, readGroups, hbyte, if_pos hsmall]
  | succ k ih =>
    rw [groups]
    split
    · rename_i hsmall
      have hbyte : (UInt8.ofNat n).toNat = n := by
        rw [UInt8.toNat_ofNat']
        omega
      simp only [List.singleton_append, readGroups, hbyte, if_pos hsmall]
    · have hbyte : (UInt8.ofNat (n % 128 + 128)).toNat = n % 128 + 128 := by
        rw [UInt8.toNat_ofNat']
        omega
      have hmore : ¬ n % 128 + 128 < 128 := by omega
      have hdiv : n / 128 < 128 ^ (k + 1) := by
        apply Nat.div_lt_of_lt_mul
        rw [← Nat.pow_succ']
        exact h
      rw [List.cons_append, readGroups, hbyte, if_neg hmore, ih _ hdiv]
      simp only [Option.map_some, Nat.add_sub_cancel, Nat.mod_add_div]

theorem readVarint_varint {n : Nat} (h : n < 2 ^ 64) (rest : Bytes) :
    readVarint (varint n ++ rest) = some (n, rest) := by
  have hgroups : n < 128 ^ (9 + 1) := Nat.lt_trans h (by decide)
  rw [readVarint, varint, readGroups_groups 9 n rest hgroups]
  simp only [Option.map_some, Nat.mod_eq_of_lt h]

theorem length_varint_pos (n : Nat) : 0 < (varint n).length := by
  rw [varint, groups]
  split
  · exact Nat.zero_lt_one
  · exact Nat.succ_pos _

end Varint

section Fields

theorem split_append (front rest : Bytes) : split front.length (front ++ rest) =
    some (front, rest) := by
  have room : front.length ≤ (front ++ rest).length := by
    rw [List.length_append]
    exact Nat.le_add_right _ _
  rw [split, if_pos room, List.take_left, List.drop_left]

theorem readValue_write {value : Value} (fits : value.Fits) (rest : Bytes) :
    readValue value.kind (value.write ++ rest) = some (value, rest) := by
  cases value with
  | varint n =>
    have hread : readVarint (varint n ++ rest) = some (n, rest) := readVarint_varint fits rest
    simp only [Value.kind, Value.write, readValue, hread, Option.map_some]
  | fixed64 n =>
    have hsplit := split_append (Bytes.ofNatLE 8 n) rest
    rw [Bytes.length_ofNatLE] at hsplit
    have hsmall : n % 2 ^ 64 = n := Nat.mod_eq_of_lt fits
    simp only [Value.kind, Value.write, readValue, hsplit, Option.map_some,
      Bytes.toNatLE_ofNatLE_eight, hsmall]
  | bytes bs =>
    have hread : readVarint (varint bs.length ++ (bs ++ rest)) = some (bs.length, bs ++ rest) :=
      readVarint_varint fits (bs ++ rest)
    simp only [Value.kind, Value.write, readValue, List.append_assoc, hread, Option.bind_some,
      split_append, Option.map_some]
  | fixed32 n =>
    have hsplit := split_append (Bytes.ofNatLE 4 n) rest
    rw [Bytes.length_ofNatLE] at hsplit
    have hsmall : n % 2 ^ 32 = n := Nat.mod_eq_of_lt fits
    simp only [Value.kind, Value.write, readValue, hsplit, Option.map_some,
      Bytes.toNatLE_ofNatLE_four, hsmall]

theorem kind_lt (value : Value) : value.kind < 8 := by
  cases value with
  | varint n => exact Nat.succ_pos 7
  | fixed64 n => exact (by decide : 1 < 8)
  | bytes bs => exact (by decide : 2 < 8)
  | fixed32 n => exact (by decide : 5 < 8)

theorem readField_write {field : Field} (fits : field.Fits) (rest : Bytes) :
    readField (field.write ++ rest) = some (field, rest) := by
  obtain ⟨named, small, value⟩ := fits
  have hkind := kind_lt field.value
  have htag : field.number * 8 + field.value.kind < 2 ^ 64 := by omega
  have hnumber : (field.number * 8 + field.value.kind) / 8 = field.number := by omega
  have hmod : (field.number * 8 + field.value.kind) % 8 = field.value.kind := by omega
  rw [readField, Field.write, List.append_assoc, readVarint_varint htag]
  simp only [Option.bind_some, hnumber, hmod, if_neg (Nat.ne_of_gt named), readValue_write value,
    Option.map_some]

theorem length_write_pos (field : Field) : 0 < field.write.length := by
  rw [Field.write, List.length_append]
  exact Nat.add_pos_left (length_varint_pos _) _

theorem readFields_write (fields : List Field) (fuel : Nat) (fits : ∀ field ∈ fields, field.Fits)
    (enough : fields.length ≤ fuel) : readFields fuel (write fields) = (fields, true) := by
  induction fields generalizing fuel with
  | nil => cases fuel <;> rfl
  | cons field fields ih =>
    cases fuel with
    | zero => cases enough
    | succ fuel =>
      have hcons : write (field :: fields) = field.write ++ write fields := List.flatMap_cons
      have hfilled : ¬ (field.write ++ write fields).isEmpty = true := by
        intro hempty
        have hnil := (List.append_eq_nil_iff.mp (List.isEmpty_iff.mp hempty)).1
        have hpos := length_write_pos field
        rw [hnil] at hpos
        cases hpos
      have hrest := ih fuel (fun f hf => fits f (List.mem_cons_of_mem _ hf))
        (Nat.le_of_succ_le_succ enough)
      rw [hcons, readFields, if_neg hfilled, readField_write (fits field List.mem_cons_self)]
      simp only [hrest]

theorem length_le_write (fields : List Field) : fields.length ≤ (write fields).length := by
  induction fields with
  | nil => exact Nat.le_refl 0
  | cons field fields ih =>
    have hpos := length_write_pos field
    rw [write, List.flatMap_cons, List.length_append, ← write, List.length_cons]
    omega

theorem length_le_of_mem {fields : List Field} {number : Nat} {bs : Bytes}
    (h : ⟨number, .bytes bs⟩ ∈ fields) : bs.length ≤ (write fields).length := by
  obtain ⟨front, back, rfl⟩ := List.append_of_mem h
  simp only [write, List.flatMap_append, List.flatMap_cons, Field.write, Value.write,
    List.length_append]
  omega

theorem read_write {fields : List Field} (fits : ∀ field ∈ fields, field.Fits) :
    read (write fields) = (fields, true) :=
  readFields_write fields _ fits (length_le_write fields)

theorem write_eq_nil {fields : List Field} : write fields = [] ↔ fields = [] := by
  constructor
  · intro h
    have hle := length_le_write fields
    rw [h] at hle
    exact List.length_eq_zero_iff.mp (Nat.le_zero.mp hle)
  · rintro rfl
    rfl

end Fields

end FlashLog.Support.Wire
