import Mathlib.Algebra.Order.Field.Basic
import Mathlib.Algebra.Order.Field.Rat
import FlashLog.Mmap.MappedBytes
import FlashLog.Mmap.Persistence

/-!
A mapped buffer over its whole history is a byte list: `Push` appends, `Clear` empties, `Resize`
keeps what fits and leaves the bytes behind it open. The capacity grows in whole pages with the
file and always has room for the header and the list.
-/

set_option autoImplicit false
set_option relaxedAutoImplicit false

namespace FlashLog.Mmap.MMapAux

open FlashLog.Support
open FlashLog.Mmap.Image

/-- What `double` does to numbers and quotients: order is kept, and small integers are exact. -/
structure Rounding where
  round : ℚ → ℚ
  monotone : Monotone round
  exact : ∀ n : Nat, n ≤ 2 ^ 53 → round n = n

/-- `GetRatio`, in the arithmetic of `double`. -/
def getRatio (fp : Rounding) (a : MMapAux) (disk : Disk) : Except Fault ℚ := do
  if ← a.isValid disk then
    let size ← a.size disk
    return fp.round (fp.round size / fp.round ((a.capacity - headerSize : Nat) : ℚ))
  else
    return 0

inductive ContentStep (content : Bytes) : Op → Bytes → Prop
  | push (bs : Bytes) : ContentStep content (.push bs) (content ++ bs)
  | resize (newSize : Nat) (content' : Bytes) (length : content'.length = newSize)
      (kept : content'.take (min newSize content.length) =
        content.take (min newSize content.length)) :
      ContentStep content (.resize newSize) content'
  | clear : ContentStep content .clear []

def Op.newSize (size : Nat) : Op → Nat
  | .push bs => size + bs.length
  | .resize newSize => newSize
  | .clear => 0

/-- Every new size leaves room for the header below 2^32. -/
def SizesFit : Nat → List Op → Prop
  | _, [] => True
  | size, op :: ops => op.newSize size + headerSize < 2 ^ 32 ∧ SizesFit (op.newSize size) ops

instance SizesFit.decidable : ∀ size ops, Decidable (SizesFit size ops)
  | _, [] => inferInstanceAs (Decidable True)
  | size, op :: ops =>
    haveI := decidable (op.newSize size) ops
    inferInstanceAs (Decidable (_ ∧ SizesFit (op.newSize size) ops))

/-- `Data()[0, Size())` is the list, and the mapping is the whole file, in whole pages, with room
for header and list. -/
structure Reflects (page : Nat) (s : MMapAux × Disk) (content : Bytes) : Prop where
  size : s.1.size s.2 = .ok content.length
  contents : s.1.contents s.2 = .ok content
  mapped : s.1.handle = .mapped
  pages : page ∣ s.1.capacity
  file : (s.2.contents s.1.filePath).length = s.1.capacity
  fits : headerSize + content.length ≤ s.1.capacity
  divisor : 0 < s.1.capacity - headerSize
  ratio : ∀ fp : Rounding, ∃ r, getRatio fp s.1 s.2 = .ok r ∧ 0 ≤ r ∧ r ≤ 1

/-- The object shows a list now and, behind every operation, what the operation makes of it; no
operation lowers the capacity. -/
def Refines (page : Nat) (s : MMapAux × Disk) (content : Bytes) : List Op → Prop
  | [] => Reflects page s content
  | op :: ops => Reflects page s content ∧ ∃ next content', apply page op s = .ok next ∧
      ContentStep content op content' ∧ s.1.capacity ≤ next.1.capacity ∧
      Refines page next content' ops

section Capacity

variable {page : Nat}

theorem dvd_getValidCapacity (page size : Nat) : page ∣ getValidCapacity page size :=
  Nat.dvd_mul_left _ _

theorem dvd_grown {capacity : Nat} (h : page ∣ capacity) (newSize : Nat) :
    page ∣ grown page capacity newSize := by
  rw [grown]
  rcases Nat.le_total capacity (getValidCapacity page (newSize + headerSize)) with hle | hle
  · rw [Nat.max_eq_right hle]
    exact dvd_getValidCapacity _ _
  · rw [Nat.max_eq_left hle]
    exact h

end Capacity

section Ratio

variable {fp : Rounding} {size room : Nat}

theorem Rounding.round_nonneg (fp : Rounding) {q : ℚ} (h : 0 ≤ q) : 0 ≤ fp.round q := by
  have hzero := fp.exact 0 (by decide)
  rw [Nat.cast_zero] at hzero
  rw [← hzero]
  exact fp.monotone h

theorem Rounding.round_le_one (fp : Rounding) {q : ℚ} (h : q ≤ 1) : fp.round q ≤ 1 := by
  have hone := fp.exact 1 (by decide)
  rw [Nat.cast_one] at hone
  rw [← hone]
  exact fp.monotone h

theorem ratio_bounds (fp : Rounding) (hle : size ≤ room) (hroom : 0 < room) :
    0 ≤ fp.round (fp.round size / fp.round room) ∧
      fp.round (fp.round size / fp.round room) ≤ 1 := by
  have hsize : 0 ≤ fp.round size := fp.round_nonneg (Nat.cast_nonneg size)
  have hpos : 0 < fp.round room := by
    have hone := fp.exact 1 (by decide)
    have hmono : fp.round ((1 : Nat) : ℚ) ≤ fp.round room := fp.monotone (by exact_mod_cast hroom)
    rw [hone, Nat.cast_one] at hmono
    exact lt_of_lt_of_le one_pos hmono
  have horder : fp.round size ≤ fp.round room := fp.monotone (by exact_mod_cast hle)
  exact ⟨fp.round_nonneg (div_nonneg hsize hpos.le), fp.round_le_one ((div_le_one hpos).mpr horder)⟩

end Ratio

section Steps

variable {page : Nat} {a : MMapAux} {disk : Disk} {bs : Bytes}

theorem Holds.resize (hpage : 0 < page) (h : Holds a disk bs) (newSize : Nat)
    (small : newSize < 2 ^ 32) :
    ∃ a' disk' bs', resize .working page a disk newSize = .ok (a', disk') ∧ Holds a' disk' bs' ∧
      a'.capacity = grown page a.capacity newSize ∧ ContentStep bs (.resize newSize) bs' := by
  have valid := h.ready.valid
  have hcontents : ∀ mem, (disk.write a.filePath mem).contents a.filePath = mem :=
    fun mem => disk.contents_write mem h.ready.named
  have grownValid : Valid (grownImage page (disk.contents a.filePath) newSize) :=
    valid_grownImage valid newSize
  have hlength : (withSize (grownImage page (disk.contents a.filePath) newSize) newSize).length =
      grown page a.capacity newSize := by
    rw [length_withSize grownValid.header, length_grownImage, h.ready.covered]
  have hsize : storedSize (withSize (grownImage page (disk.contents a.filePath) newSize) newSize) =
      newSize := by
    rw [storedSize_withSize grownValid.header, Nat.mod_eq_of_lt small]
  have hroom := le_grown_size hpage a.capacity newSize
  have hready := h.ready.write (grownValid.withSize newSize)
  rw [hlength] at hready
  refine ⟨_, _, _, h.ready.resize hpage newSize, ⟨hready, ?_, rfl⟩, rfl, ?_⟩
  · simp only [hcontents, hsize]
    exact hroom
  · simp only [hcontents]
    have fits : headerSize + bs.length ≤ (disk.contents a.filePath).length := by
      rw [h.ready.covered, ← h.storedSize_eq]
      exact h.fits
    have hpayload : Image.payload
        (withSize (grownImage page (disk.contents a.filePath) newSize) newSize) =
        Bytes.slice (grownImage page (disk.contents a.filePath) newSize) headerSize newSize := by
      rw [Image.payload, hsize, slice_withSize grownValid.header]
    refine ContentStep.resize newSize _ ?_ ?_
    · rw [hpayload, Bytes.length_slice_of_le]
      rw [length_grownImage, h.ready.covered]
      exact hroom
    · -- the kept bytes lie inside the old file and inside the new one
      have hmin : min newSize bs.length ≤ bs.length := Nat.min_le_right _ _
      have hbs : Bytes.slice (disk.contents a.filePath) headerSize bs.length = bs := by
        rw [← h.storedSize_eq]
        exact h.payload
      have hkept := Bytes.take_slice (disk.contents a.filePath) headerSize bs.length
        (min newSize bs.length)
      rw [hbs, Nat.min_eq_left hmin] at hkept
      rw [hpayload, Bytes.take_slice, Nat.min_eq_left (Nat.min_le_left _ _), grownImage,
        Bytes.slice_setLength]
      · exact hkept.symm
      · have hmore := le_grown_capacity page (disk.contents a.filePath).length newSize
        omega
      · omega

/-- An object that holds the list, in whole pages and from its initial capacity on. -/
structure Represents (page : Nat) (s : MMapAux × Disk) (content : Bytes) : Prop where
  holds : Holds s.1 s.2 content
  pages : page ∣ s.1.capacity
  initial : initialCapacity page ≤ s.1.capacity

theorem Represents.shows (hpage : 0 < page) {s : MMapAux × Disk} {content : Bytes}
    (h : Represents page s content) : Reflects page s content := by
  have fits : headerSize + content.length ≤ s.1.capacity := by
    rw [← h.holds.storedSize_eq]
    exact h.holds.fits
  have divisor : 0 < s.1.capacity - headerSize := by
    have hlarge := Nat.le_trans (le_getValidCapacity hpage kDafaultCapacity) h.initial
    have hheader : headerSize = 8 := rfl
    have hdefault : kDafaultCapacity = 524288 := rfl
    omega
  refine ⟨h.holds.size, h.holds.contents, h.holds.ready.mapped, h.pages, h.holds.ready.covered,
    fits, divisor, fun fp => ⟨_, ?_, ratio_bounds fp (Nat.le_sub_of_add_le' fits) divisor⟩⟩
  simp only [getRatio, h.holds.ready.isValid, h.holds.size, bind, Except.bind, pure, Except.pure,
    if_true]

theorem Represents.apply (hpage : 0 < page) {s : MMapAux × Disk} {content : Bytes}
    (h : Represents page s content) {op : Op}
    (fits : op.newSize content.length + headerSize < 2 ^ 32) :
    ∃ next content', MMapAux.apply page op s = .ok next ∧ ContentStep content op content' ∧
      s.1.capacity ≤ next.1.capacity ∧ Represents page next content' := by
  obtain ⟨a, disk⟩ := s
  obtain ⟨holds, pages, initial⟩ := h
  have small : op.newSize content.length < 2 ^ 32 := Nat.lt_of_le_of_lt (Nat.le_add_right _ _) fits
  cases op with
  | push bs =>
    have hcapacity : a.capacity ≤ grown page a.capacity
        (storedSize (disk.contents a.filePath) + bs.length) := le_grown_capacity _ _ _
    obtain ⟨a', disk', hpush, holds', -⟩ := holds.push hpage small
    have hgrown : a'.capacity = grown page a.capacity
        (storedSize (disk.contents a.filePath) + bs.length) := by
      have hready := holds.ready.push hpage bs
      rw [hpush] at hready
      obtain ⟨rfl, -⟩ := Prod.mk.inj (Except.ok.inj hready)
      simp only [length_pushed hpage holds.ready.valid, holds.ready.covered]
    rw [← hgrown] at hcapacity
    exact ⟨(a', disk'), _, hpush, ContentStep.push bs, hcapacity, holds',
      hgrown ▸ dvd_grown pages _, Nat.le_trans initial hcapacity⟩
  | resize newSize =>
    have hcapacity := le_grown_capacity page a.capacity newSize
    obtain ⟨a', disk', content', hresize, holds', hgrown, hstep⟩ :=
      holds.resize hpage newSize small
    rw [← hgrown] at hcapacity
    exact ⟨(a', disk'), content', hresize, hstep, hcapacity, holds', hgrown ▸ dvd_grown pages _,
      Nat.le_trans initial hcapacity⟩
  | clear =>
    obtain ⟨disk', hclear, holds', -⟩ := holds.clear
    exact ⟨(a, disk'), [], hclear, ContentStep.clear, Nat.le_refl _, holds', pages, initial⟩

theorem ContentStep.length {content content' : Bytes} {op : Op}
    (h : ContentStep content op content') : content'.length = op.newSize content.length := by
  cases h with
  | push bs => exact List.length_append
  | resize newSize _ length => exact length
  | clear => rfl

theorem Represents.refines (hpage : 0 < page) {s : MMapAux × Disk} {content : Bytes}
    (h : Represents page s content) {ops : List Op} (fits : SizesFit content.length ops) :
    Refines page s content ops := by
  induction ops generalizing s content with
  | nil => exact h.shows hpage
  | cons op ops ih =>
    obtain ⟨next, content', happly, hstep, hcapacity, hnext⟩ := h.apply hpage fits.1
    refine ⟨h.shows hpage, next, content', happly, hstep, hcapacity, ih hnext ?_⟩
    rw [hstep.length]
    exact fits.2

end Steps

/-- Every history of an object on a new file is that of a byte list, from the empty one on. -/
theorem history_refines_bytes {page : Nat} (hpage : 0 < page) {path : Path} (hpath : path ≠ "")
    (disk : Disk) (fresh : disk.file path = none) (ops : List Op) (fits : SizesFit 0 ops) :
    ∃ s, construct .working page path disk = .ok s ∧ s.1.filePath = path ∧
      Refines page s [] ops := by
  have absent : disk.contents path = [] := by rw [Disk.contents, fresh]; rfl
  obtain ⟨a, disk', hconstruct, holds, onPath, -⟩ := construct_holds hpage hpath absent
  have hcapacity : a.capacity = initialCapacity page := by
    have hworking := construct_working hpage hpath disk
    rw [hconstruct] at hworking
    obtain ⟨rfl, -⟩ := Prod.mk.inj (Except.ok.inj hworking)
    rfl
  have represents : Represents page (a, disk') [] :=
    ⟨holds, hcapacity ▸ dvd_getValidCapacity _ _, Nat.le_of_eq hcapacity.symm⟩
  exact ⟨(a, disk'), hconstruct, onPath, represents.refines hpage fits⟩

theorem history_refines_bytes_three :
    ∃ s, construct .working 4096 "master_mmap" .blank = .ok s ∧ s.1.filePath = "master_mmap" ∧
      Refines 4096 s [] [.push [104, 105], .resize 1, .clear] :=
  history_refines_bytes (by decide) (by decide) .blank rfl _ (by decide)

end FlashLog.Mmap.MMapAux
