import FlashLog.Mmap.MappedFile

/-!
A mapped buffer as the byte string it holds: `Push` appends, `Clear` empties, `Size()` and
`Data()` give the string back, and no other file changes.
-/

set_option autoImplicit false
set_option relaxedAutoImplicit false

namespace FlashLog.Mmap.MMapAux

open FlashLog.Support
open FlashLog.Mmap.Image

/-- The mapping covers a valid file whose contents are `bs`. -/
structure Holds (a : MMapAux) (disk : Disk) (bs : Bytes) : Prop where
  ready : Ready a disk
  fits : headerSize + storedSize (disk.contents a.filePath) ≤ a.capacity
  payload : payload (disk.contents a.filePath) = bs

variable {page : Nat} {a : MMapAux} {disk : Disk} {bs : Bytes}

theorem Holds.storedSize_eq (h : Holds a disk bs) :
    storedSize (disk.contents a.filePath) = bs.length := by
  have fits := h.fits
  rw [← h.ready.covered] at fits
  rw [← h.payload, Image.payload, Bytes.length_slice_of_le fits]

theorem Holds.size (h : Holds a disk bs) : a.size disk = .ok bs.length := by
  rw [h.ready.size, h.storedSize_eq]

theorem Holds.contents (h : Holds a disk bs) : a.contents disk = .ok bs := by
  rw [h.ready.contents h.fits, h.payload]

/-- Only the mapped file may have changed, and it is the same mapping. -/
structure Continues (a : MMapAux) (disk : Disk) (a' : MMapAux) (disk' : Disk) : Prop where
  filePath : a'.filePath = a.filePath
  others : ∀ path, path ≠ a.filePath → disk'.file path = disk.file path
  rests : ∀ path, path ≠ a.filePath → disk'.rest path = disk.rest path

theorem Continues.trans {a' a'' : MMapAux} {disk' disk'' : Disk}
    (h : Continues a disk a' disk') (h' : Continues a' disk' a'' disk'') :
    Continues a disk a'' disk'' := by
  refine ⟨h'.filePath.trans h.filePath, fun path hpath => ?_, fun path hpath => ?_⟩
  · rw [h'.others path (h.filePath ▸ hpath), h.others path hpath]
  · rw [h'.rests path (h.filePath ▸ hpath), h.rests path hpath]

theorem continues_write (mem : Bytes) (n : Nat) :
    Continues a disk { a with capacity := n } (disk.write a.filePath mem) := by
  refine ⟨rfl, fun path hpath => ?_, fun path hpath => ?_⟩ <;> simp [Disk.write, hpath]

theorem Holds.small (h : Holds a disk bs) : bs.length < 2 ^ 32 := by
  rw [← h.storedSize_eq]
  exact storedSize_lt _

theorem payload_grownImage {mem : Bytes} (valid : Valid mem)
    (fits : headerSize + storedSize mem ≤ mem.length) (newSize : Nat) :
    payload (grownImage page mem newSize) = payload mem :=
  payload_setLength valid.header fits (Nat.le_trans fits (le_grown_capacity _ _ _))

theorem payload_pushed (hpage : 0 < page) {mem x : Bytes} (valid : Valid mem)
    (fits : headerSize + storedSize mem ≤ mem.length) (small : storedSize mem + x.length < 2 ^ 32) :
    payload (pushed page mem x) = payload mem ++ x := by
  have hfits := fits_grownImage hpage valid x
  have hsize : storedSize (grownImage page mem (storedSize mem + x.length)) = storedSize mem :=
    storedSize_grownImage valid _
  have grown : Valid (grownImage page mem (storedSize mem + x.length)) := valid_grownImage valid _
  have hheader := (grown.copied hfits).header
  have hslice := slice_copied hfits
  rw [hsize, payload_grownImage valid fits] at hslice
  rw [payload, storedSize_pushed hpage valid, Nat.mod_eq_of_lt small, pushed,
    slice_withSize hheader, hslice]

theorem Holds.push (hpage : 0 < page) (h : Holds a disk bs) {x : Bytes}
    (small : bs.length + x.length < 2 ^ 32) :
    ∃ a' disk', push .working page a disk x = .ok (a', disk') ∧ Holds a' disk' (bs ++ x) ∧
      Continues a disk a' disk' := by
  have valid := h.ready.valid
  have hcontents : ∀ mem, (disk.write a.filePath mem).contents a.filePath = mem :=
    fun mem => disk.contents_write mem h.ready.named
  have fits : headerSize + storedSize (disk.contents a.filePath) ≤
      (disk.contents a.filePath).length := h.ready.covered ▸ h.fits
  have small' : storedSize (disk.contents a.filePath) + x.length < 2 ^ 32 := by
    rw [h.storedSize_eq]
    exact small
  refine ⟨_, _, h.ready.push hpage x, ⟨h.ready.write (valid_pushed hpage valid x), ?_, ?_⟩,
    continues_write _ _⟩
  · simp only [hcontents]
    rw [storedSize_pushed hpage valid, Nat.mod_eq_of_lt small', length_pushed hpage valid]
    exact le_grown_size hpage _ _
  · simp only [hcontents]
    rw [payload_pushed hpage valid fits small', h.payload]

theorem Holds.clear (h : Holds a disk bs) :
    ∃ disk', clear a disk = .ok (a, disk') ∧ Holds a disk' [] ∧ Continues a disk a disk' := by
  have valid := h.ready.valid
  have hcontents : ∀ mem, (disk.write a.filePath mem).contents a.filePath = mem :=
    fun mem => disk.contents_write mem h.ready.named
  have hempty : storedSize (withSize (disk.contents a.filePath) 0) = 0 :=
    storedSize_withSize valid.header 0
  refine ⟨_, h.ready.clear, ⟨h.ready.write_of_length (valid.withSize 0) ?_, ?_, ?_⟩,
    continues_write _ a.capacity⟩
  · rw [length_withSize valid.header, h.ready.covered]
  · rw [hcontents, hempty]
    exact h.ready.headerSize_le
  · rw [hcontents, Image.payload, hempty]
    rfl

theorem construct_holds (hpage : 0 < page) {path : Path} (hpath : path ≠ "")
    (absent : disk.contents path = []) :
    ∃ a disk', construct .working page path disk = .ok (a, disk') ∧ Holds a disk' [] ∧
      a.filePath = path ∧ Continues a disk a disk' := by
  have hcontents : (disk.write path (opened page (disk.contents path))).contents path =
      opened page [] := by
    rw [disk.contents_write _ hpath, absent]
  have hempty : storedSize (opened page []) = 0 := storedSize_opened_blank hpage
  refine ⟨_, _, construct_working hpage hpath disk, ⟨ready_opened hpage hpath disk, ?_, ?_⟩, rfl,
    continues_write _ (initialCapacity page)⟩
  · rw [hcontents, hempty]
    exact headerSize_le_initialCapacity hpage
  · rw [hcontents, Image.payload, hempty]
    rfl

theorem Holds.reopen (hpage : 0 < page)
    (h : Holds a disk bs) (fits : headerSize + bs.length ≤ initialCapacity page) :
    ∃ a' disk', construct .working page a.filePath disk = .ok (a', disk') ∧ Holds a' disk' bs ∧
      a'.filePath = a.filePath ∧ Continues a' disk a' disk' := by
  have named := h.ready.named
  have valid := h.ready.valid
  have covered : headerSize + storedSize (disk.contents a.filePath) ≤
      (disk.contents a.filePath).length := h.ready.covered ▸ h.fits
  have fits' : headerSize + storedSize (disk.contents a.filePath) ≤ initialCapacity page := by
    rw [h.storedSize_eq]
    exact fits
  have hcontents : (disk.write a.filePath (opened page (disk.contents a.filePath))).contents
      a.filePath = Bytes.setLength (disk.contents a.filePath) (initialCapacity page) := by
    rw [disk.contents_write _ named, opened_of_valid hpage valid]
  refine ⟨_, _, construct_working hpage named disk, ⟨ready_opened hpage named disk, ?_, ?_⟩, rfl,
    continues_write _ (initialCapacity page)⟩
  · rw [hcontents, storedSize_setLength valid.header (headerSize_le_initialCapacity hpage)]
    exact fits'
  · rw [hcontents, payload_setLength valid.header covered fits', h.payload]

end FlashLog.Mmap.MMapAux
