import FlashLog.Support.Bytes

/-!
`MMapAux`: a byte buffer in a memory-mapped file. The mapping is shared, so the
mapped memory is the file's contents: a store through the handle changes the disk,
and abandoning the object leaves the file as it is. Pages are mapped whole: behind the end of
the file, the rest of its last page can be accessed too, but is not part of the file.
-/

set_option autoImplicit false
set_option relaxedAutoImplicit false

namespace FlashLog.Mmap

open FlashLog.Support

/-- A `std::filesystem::path`; the empty one names no file. -/
abbrev Path := String

/-- What moving from a path leaves in it. -/
def movedFrom : Path := ""

/-- The files, and what the rest of the last page shows where a file is mapped. -/
structure Disk where
  file : Path → Option Bytes
  rest : Path → Bytes
  noEmptyPath : file "" = none

namespace Disk

def blank : Disk where
  file := fun _ => none
  rest := fun _ => []
  noEmptyPath := rfl

def contents (disk : Disk) (path : Path) : Bytes := (disk.file path).getD []

def image (disk : Disk) (path : Path) : Bytes := disk.contents path ++ disk.rest path

/-- Replace a file's contents, with nothing shown behind them; there is no file to replace at the
empty path. -/
def write (disk : Disk) (path : Path) (bs : Bytes) : Disk where
  file := fun p => if p = path ∧ path ≠ "" then some bs else disk.file p
  rest := fun p => if p = path ∧ path ≠ "" then [] else disk.rest p
  noEmptyPath := by
    rw [if_neg (fun h => h.2 h.1.symm)]
    exact disk.noEmptyPath

def setRest (disk : Disk) (path : Path) (bs : Bytes) : Disk :=
  { disk with rest := fun p => if p = path then bs else disk.rest p }

/-- Replace the bytes that a mapping shows: those of the file, and those behind it. -/
def writeImage (disk : Disk) (path : Path) (mem : Bytes) : Disk :=
  (disk.write path (mem.take (disk.contents path).length)).setRest path
    (mem.drop (disk.contents path).length)

@[simp] theorem contents_write (disk : Disk) {path : Path} (bs : Bytes) (h : path ≠ "") :
    (disk.write path bs).contents path = bs := by
  simp [contents, write, h]

@[simp] theorem rest_write (disk : Disk) {path : Path} (bs : Bytes) (h : path ≠ "") :
    (disk.write path bs).rest path = [] := by
  simp [write, h]

@[simp] theorem write_write (disk : Disk) (path : Path) (bs bs' : Bytes) :
    (disk.write path bs).write path bs' = disk.write path bs' := by
  simp only [write, Disk.mk.injEq]
  constructor
  · funext p
    by_cases h : p = path ∧ path ≠ ""
    · rw [if_pos h, if_pos h]
    · rw [if_neg h, if_neg h, if_neg h]
  · funext p
    by_cases h : p = path ∧ path ≠ ""
    · rw [if_pos h, if_pos h]
    · rw [if_neg h, if_neg h]

theorem write_contents (disk : Disk) {path : Path} (h : disk.contents path ≠ [])
    (hrest : disk.rest path = []) : disk.write path (disk.contents path) = disk := by
  obtain ⟨file, rest, noEmptyPath⟩ := disk
  simp only [write, Disk.mk.injEq]
  constructor <;> funext p <;> split
  · rename_i hp
    rw [hp.1]
    cases hfile : file path with
    | none => exact absurd (by simp [contents, hfile]) h
    | some bs => simp [contents, hfile]
  · rfl
  · rename_i hp
    rw [hp.1]
    exact hrest.symm
  · rfl

@[simp] theorem contents_setRest (disk : Disk) (path path' : Path) (bs : Bytes) :
    (disk.setRest path bs).contents path' = disk.contents path' := rfl

@[simp] theorem rest_setRest (disk : Disk) (path : Path) (bs : Bytes) :
    (disk.setRest path bs).rest path = bs := if_pos rfl

theorem setRest_rest (disk : Disk) (path : Path) : disk.setRest path (disk.rest path) = disk := by
  obtain ⟨file, rest, noEmptyPath⟩ := disk
  simp only [setRest, Disk.mk.injEq, true_and]
  funext p
  split
  · rename_i hp
    rw [hp]
  · rfl

theorem image_of_rest (disk : Disk) {path : Path} (hrest : disk.rest path = []) :
    disk.image path = disk.contents path := by
  rw [image, hrest, List.append_nil]

theorem length_contents_writeImage (disk : Disk) {path : Path} (hpath : path ≠ "") {mem : Bytes}
    (hlength : mem.length = (disk.image path).length) :
    ((disk.writeImage path mem).contents path).length = (disk.contents path).length := by
  rw [image, List.length_append] at hlength
  rw [writeImage, contents_setRest, contents_write _ _ hpath, List.length_take]
  omega

theorem image_writeImage (disk : Disk) {path : Path} (hpath : path ≠ "") (mem : Bytes) :
    (disk.writeImage path mem).image path = mem := by
  rw [writeImage, image, contents_setRest, contents_write _ _ hpath, rest_setRest,
    List.take_append_drop]

theorem writeImage_eq_write (disk : Disk) {path : Path} (hpath : path ≠ "") {mem : Bytes}
    (hlength : mem.length = (disk.contents path).length) :
    disk.writeImage path mem = disk.write path mem := by
  have hrest := disk.rest_write mem hpath
  rw [writeImage, ← hlength, List.take_length, List.drop_length, ← hrest, setRest_rest]

end Disk

/-- `fs::GetFileSize`. -/
def getFileSize (disk : Disk) (path : Path) : Nat :=
  match disk.file path with
  | some bs => bs.length
  | none => 0

/-- The outcomes of `open`, `ftruncate` and `mmap`, and what the new mapping shows in the last
page behind the file's end: zeros, or what an earlier mapping has left there. -/
structure SysCalls where
  opens : Bool
  truncates : Bool
  maps : Bool
  shown : Bytes

def SysCalls.working : SysCalls := ⟨true, true, true, []⟩

/-- `handle_`: not mapped, `MAP_FAILED`, or the mapping of the whole file. -/
inductive Handle
  | null | failed | mapped
  deriving DecidableEq

inductive Fault
  | nullAccess | failedMapping | outOfRange
  deriving DecidableEq

/-- The deprecated member `size_` is left out. -/
structure MMapAux where
  capacity : Nat
  handle : Handle
  filePath : Path

def kDafaultCapacity : Nat := 512 * 1024

/-- `sizeof(MMapHeader)`: the magic number and the content size, 32 bits each. -/
def headerSize : Nat := 8

def kMagic : Nat := 0xdeadbeef

/-- `GetValidCapacity`: round up to a multiple of the page size. -/
def getValidCapacity (page size : Nat) : Nat := (size + page - 1) / page * page

namespace MMapAux

/-- Read `len` bytes at `off` of the mapping; the pages behind the file's last one are not
there. -/
def load (a : MMapAux) (disk : Disk) (off len : Nat) : Except Fault Bytes :=
  match a.handle with
  | .null => .error .nullAccess
  | .failed => .error .failedMapping
  | .mapped =>
    if off + len ≤ min a.capacity (disk.image a.filePath).length then
      .ok (Bytes.slice (disk.image a.filePath) off len)
    else .error .outOfRange

def store (a : MMapAux) (disk : Disk) (off : Nat) (bs : Bytes) : Except Fault Disk :=
  match a.handle with
  | .null => .error .nullAccess
  | .failed => .error .failedMapping
  | .mapped =>
    if off + bs.length ≤ min a.capacity (disk.image a.filePath).length then
      .ok (disk.writeImage a.filePath (Bytes.store (disk.image a.filePath) off bs))
    else .error .outOfRange

def storeMagic (a : MMapAux) (disk : Disk) : Except Fault Disk :=
  a.store disk 0 (Bytes.ofNatLE 4 kMagic)

/-- `Header_()->size = n`; the field has 32 bits. -/
def storeSize (a : MMapAux) (disk : Disk) (n : Nat) : Except Fault Disk :=
  a.store disk 4 (Bytes.ofNatLE 4 n)

def isValid (a : MMapAux) (disk : Disk) : Except Fault Bool :=
  match a.handle with
  | .null => .ok false
  | _ => do
    let magic ← a.load disk 0 4
    return Bytes.toNatLE magic == kMagic

def size (a : MMapAux) (disk : Disk) : Except Fault Nat := do
  if ← a.isValid disk then
    return Bytes.toNatLE (← a.load disk 4 4)
  else
    return 0

/-- The offset `Data()` points to, `none` for the null pointer. -/
def data (a : MMapAux) (disk : Disk) : Except Fault (Option Nat) := do
  if ← a.isValid disk then
    return some headerSize
  else
    return none

def contents (a : MMapAux) (disk : Disk) : Except Fault Bytes := do
  match ← a.data disk with
  | none => return []
  | some off => a.load disk off (← a.size disk)

def unmap (a : MMapAux) : MMapAux := { a with handle := .null }

/-- `TryMap_`: open or create the file, set its length to `capacity`, map it. -/
def tryMap (os : SysCalls) (page : Nat) (a : MMapAux) (disk : Disk) (capacity : Nat) :
    MMapAux × Disk :=
  if a.filePath = "" ∨ os.opens = false then (a, disk)
  else
    let found := disk.contents a.filePath
    let contents := if os.truncates then Bytes.setLength found capacity else found
    let behind := getValidCapacity page contents.length - contents.length
    ({ a with handle := if os.maps then .mapped else .failed },
      (disk.write a.filePath contents).setRest a.filePath (Bytes.setLength os.shown behind))

def reserve (os : SysCalls) (page : Nat) (a : MMapAux) (disk : Disk) (newCapacity : Nat) :
    MMapAux × Disk :=
  let realCapacity := getValidCapacity page newCapacity
  if realCapacity ≤ a.capacity then (a, disk)
  else
    let (a, disk) := tryMap os page a.unmap disk realCapacity
    ({ a with capacity := realCapacity }, disk)

def ensureCapacity (os : SysCalls) (page : Nat) (a : MMapAux) (disk : Disk) (newSize : Nat) :
    MMapAux × Disk :=
  let realCapacity := getValidCapacity page (newSize + headerSize)
  if realCapacity ≤ a.capacity then (a, disk)
  else reserve os page a disk realCapacity

def init (a : MMapAux) (disk : Disk) : Except Fault Disk :=
  match a.handle with
  | .null => .ok disk
  | _ => do
    let magic ← a.load disk 0 4
    if Bytes.toNatLE magic ≠ kMagic then
      a.storeSize (← a.storeMagic disk) 0
    else
      return disk

/-- The constructor. The path parameter is moved into the member before its size is asked for. -/
def construct (os : SysCalls) (page : Nat) (filePath : Path) (disk : Disk) :
    Except Fault (MMapAux × Disk) := do
  let fileSize := getFileSize disk movedFrom
  let (a, disk) := reserve os page ⟨0, .null, filePath⟩ disk (max fileSize kDafaultCapacity)
  return (a, ← a.init disk)

/-- `memcpy(Data() + Size(), data, size)`, which accesses nothing if `size` is 0. -/
def copyIn (a : MMapAux) (disk : Disk) (bs : Bytes) : Except Fault Disk := do
  match ← a.data disk with
  | none => if bs.isEmpty then return disk else throw .nullAccess
  | some off => a.store disk (off + (← a.size disk)) bs

def push (os : SysCalls) (page : Nat) (a : MMapAux) (disk : Disk) (bs : Bytes) :
    Except Fault (MMapAux × Disk) := do
  if ← a.isValid disk then
    let newSize := (← a.size disk) + bs.length
    let (a, disk) := ensureCapacity os page a disk newSize
    let disk ← a.copyIn disk bs
    return (a, ← a.storeSize disk newSize)
  else
    return (a, disk)

def resize (os : SysCalls) (page : Nat) (a : MMapAux) (disk : Disk) (newSize : Nat) :
    Except Fault (MMapAux × Disk) := do
  if ← a.isValid disk then
    let (a, disk) := ensureCapacity os page a disk newSize
    return (a, ← a.storeSize disk newSize)
  else
    return (a, disk)

def clear (a : MMapAux) (disk : Disk) : Except Fault (MMapAux × Disk) := do
  if ← a.isValid disk then
    return (a, ← a.storeSize disk 0)
  else
    return (a, disk)

end MMapAux

end FlashLog.Mmap
