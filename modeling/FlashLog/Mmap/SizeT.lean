import FlashLog.Support.Machine
import FlashLog.Mmap.MappedFile

/-!
`MMapAux` with sizes as they are in memory, unsigned numbers of 64 bits, and with system calls
that may fail. The rounding to whole pages wraps for sizes close to 2^64; elsewhere the functions
are the ones on numbers without a bound.
-/

set_option autoImplicit false
set_option relaxedAutoImplicit false

namespace FlashLog.Mmap.SizeT

open FlashLog.Support
open FlashLog.Mmap.MMapAux

/-- What `getpagesize()` returns: a positive `int`. -/
structure PageSize where
  bytes : Nat
  pos : 0 < bytes
  isInt : bytes < 2 ^ 31

def PageSize.usual : PageSize := ⟨4096, by decide, by decide⟩

/-- Data that a `Push` is given; no object takes 2^63 bytes or more. -/
structure Object where
  bytes : Bytes
  length_lt : bytes.length < 2 ^ 63

def getValidCapacity (page : PageSize) (size : Nat) : Nat :=
  (size + page.bytes - 1) % 2 ^ 64 / page.bytes * page.bytes

def reserve (os : SysCalls) (page : PageSize) (a : MMapAux) (disk : Disk) (newCapacity : Nat) :
    MMapAux × Disk :=
  let realCapacity := getValidCapacity page newCapacity
  if realCapacity ≤ a.capacity then (a, disk)
  else
    let (a, disk) := tryMap os page.bytes a.unmap disk realCapacity
    ({ a with capacity := realCapacity }, disk)

def ensureCapacity (os : SysCalls) (page : PageSize) (a : MMapAux) (disk : Disk) (newSize : Nat) :
    MMapAux × Disk :=
  let newCapacity := (newSize + headerSize) % 2 ^ 64
  let realCapacity := getValidCapacity page newCapacity
  if realCapacity ≤ a.capacity then (a, disk)
  else reserve os page a disk realCapacity

def construct (os : SysCalls) (page : PageSize) (filePath : Path) (disk : Disk) :
    Except Fault (MMapAux × Disk) := do
  let fileSize := getFileSize disk movedFrom
  let (a, disk) := reserve os page ⟨0, .null, filePath⟩ disk (max fileSize kDafaultCapacity)
  return (a, ← a.init disk)

def copyIn (a : MMapAux) (disk : Disk) (bs : Bytes) : Except Fault Disk := do
  let off ← a.data disk
  let size ← a.size disk
  if bs = [] then return disk
  match off with
  | none => throw .nullAccess
  | some off => a.store disk (off + size) bs

def push (os : SysCalls) (page : PageSize) (a : MMapAux) (disk : Disk) (object : Object) :
    Except Fault (MMapAux × Disk) := do
  if ← a.isValid disk then
    let newSize := (← a.size disk) + object.bytes.length
    let (a, disk) := ensureCapacity os page a disk newSize
    let disk ← copyIn a disk object.bytes
    return (a, ← a.storeSize disk newSize)
  else
    return (a, disk)

def resize (os : SysCalls) (page : PageSize) (a : MMapAux) (disk : Disk) (newSize : UInt64) :
    Except Fault (MMapAux × Disk) := do
  if ← a.isValid disk then
    let (a, disk) := ensureCapacity os page a disk newSize.toNat
    return (a, ← a.storeSize disk newSize.toNat)
  else
    return (a, disk)

inductive Op
  | push (object : Object)
  | resize (newSize : UInt64)
  | clear

/-- One operation, with the outcomes of the system calls it may make. -/
def apply (page : PageSize) (s : MMapAux × Disk) (os : SysCalls) :
    Op → Except Fault (MMapAux × Disk)
  | .push object => push os page s.1 s.2 object
  | .resize newSize => resize os page s.1 s.2 newSize
  | .clear => s.1.clear s.2

def Op.newSize (size : Nat) : Op → Nat
  | .push object => size + object.bytes.length
  | .resize newSize => newSize.toNat
  | .clear => 0

section Arithmetic

variable {page : PageSize} {size newSize : Nat}

/-- The new size, its header and one more page, rounded to whole pages, stay below 2^64. -/
def Roomy (page : PageSize) (newSize : Nat) : Prop :=
  Mmap.getValidCapacity page.bytes (newSize + headerSize) + page.bytes ≤ 2 ^ 64

instance (page : PageSize) (newSize : Nat) : Decidable (Roomy page newSize) :=
  inferInstanceAs (Decidable (_ ≤ _))

theorem getValidCapacity_lt (page : PageSize) (size : Nat) :
    Mmap.getValidCapacity page.bytes size < size + page.bytes := by
  have hpos := page.pos
  have hle := Nat.div_mul_le_self (size + page.bytes - 1) page.bytes
  rw [Mmap.getValidCapacity]
  omega

theorem getValidCapacity_eq (h : size + page.bytes ≤ 2 ^ 64) :
    getValidCapacity page size = Mmap.getValidCapacity page.bytes size := by
  have hpos := page.pos
  rw [getValidCapacity, Mmap.getValidCapacity, Nat.mod_eq_of_lt (by omega)]

/-- A sum that wraps is rounded to nothing. -/
theorem getValidCapacity_wrapped (h : 2 ^ 64 < size + page.bytes) (hsize : size < 2 ^ 64) :
    getValidCapacity page size = 0 := by
  have hpos := page.pos
  have hpage := page.isInt
  have hmod : (size + page.bytes - 1) % 2 ^ 64 = size + page.bytes - 1 - 2 ^ 64 := by
    rw [Nat.mod_eq_sub_mod (by omega), Nat.mod_eq_of_lt (by omega)]
  rw [getValidCapacity, hmod, Nat.div_eq_of_lt (by omega), Nat.zero_mul]

theorem getValidCapacity_mono (page : PageSize) {m n : Nat} (h : m ≤ n) :
    Mmap.getValidCapacity page.bytes m ≤ Mmap.getValidCapacity page.bytes n := by
  apply Nat.mul_le_mul_right
  apply Nat.div_le_div_right
  omega

theorem Roomy.capacity_le (h : Roomy page newSize) :
    newSize + headerSize + page.bytes ≤ 2 ^ 64 := by
  have hle := le_getValidCapacity page.pos (newSize + headerSize)
  rw [Roomy] at h
  omega

theorem roomy_push (page : PageSize) (hsize : size < 2 ^ 32) (object : Object) :
    Roomy page (size + object.bytes.length) := by
  have hlength := object.length_lt
  have hpage := page.isInt
  have hheader : headerSize = 8 := rfl
  have hlt := getValidCapacity_lt page (size + object.bytes.length + headerSize)
  rw [Roomy]
  omega

variable {os : SysCalls} {a : MMapAux} {disk : Disk}

theorem ensureCapacity_eq (h : Roomy page newSize) :
    ensureCapacity os page a disk newSize =
      MMapAux.ensureCapacity os page.bytes a disk newSize := by
  have hle := h.capacity_le
  have hpos := page.pos
  have hmod : (newSize + headerSize) % 2 ^ 64 = newSize + headerSize :=
    Nat.mod_eq_of_lt (by omega)
  simp only [ensureCapacity, MMapAux.ensureCapacity, reserve, MMapAux.reserve, hmod,
    getValidCapacity_eq hle, getValidCapacity_eq h]

theorem ensureCapacity_wrapped (h : ¬ Roomy page newSize) (hnew : newSize < 2 ^ 64)
    (initial : initialCapacity page.bytes ≤ a.capacity) :
    ensureCapacity os page a disk newSize = (a, disk) := by
  have hpos := page.pos
  have hpage := page.isInt
  have hheader : headerSize = 8 := rfl
  rw [Roomy] at h
  simp only [ensureCapacity]
  by_cases wraps : newSize + headerSize < 2 ^ 64
  · rw [Nat.mod_eq_of_lt wraps]
    by_cases rounds : newSize + headerSize + page.bytes ≤ 2 ^ 64
    · -- the first rounding fits, the one in `Reserve_` does not
      have hlt := getValidCapacity_lt page (newSize + headerSize)
      have hagain : getValidCapacity page
          (Mmap.getValidCapacity page.bytes (newSize + headerSize)) = 0 :=
        getValidCapacity_wrapped (by omega) (by omega)
      rw [getValidCapacity_eq rounds]
      split
      · rfl
      · simp only [reserve, hagain, Nat.zero_le, if_true]
    · rw [getValidCapacity_wrapped (by omega) wraps, if_pos (Nat.zero_le _)]
  · have hmod : (newSize + headerSize) % 2 ^ 64 = newSize + headerSize - 2 ^ 64 := by
      rw [Nat.mod_eq_sub_mod (by omega), Nat.mod_eq_of_lt (by omega)]
    have hsmall : newSize + headerSize - 2 ^ 64 ≤ kDafaultCapacity := by
      rw [kDafaultCapacity]
      omega
    rw [hmod, getValidCapacity_eq (by omega),
      if_pos (Nat.le_trans (getValidCapacity_mono page hsmall) initial)]

theorem construct_eq (path : Path) :
    construct os page path disk = MMapAux.construct os page.bytes path disk := by
  have hpage := page.isInt
  have hsize : max (getFileSize disk movedFrom) kDafaultCapacity + page.bytes ≤ 2 ^ 64 := by
    rw [getFileSize_movedFrom, Nat.zero_max, kDafaultCapacity]
    omega
  simp only [construct, MMapAux.construct, reserve, MMapAux.reserve, getValidCapacity_eq hsize]

end Arithmetic

end FlashLog.Mmap.SizeT
