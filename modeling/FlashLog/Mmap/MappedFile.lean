import FlashLog.Mmap.MMapAux

/-!
What the operations of `MMapAux` do to the mapped file while the system calls
succeed: each one replaces the file's contents by a function of the old ones.
-/

set_option autoImplicit false
set_option relaxedAutoImplicit false

namespace FlashLog.Mmap

open FlashLog.Support

section Capacity

variable {page : Nat}

theorem le_getValidCapacity (hpage : 0 < page) (size : Nat) :
    size ≤ getValidCapacity page size := by
  have hdiv := Nat.div_add_mod (size + page - 1) page
  have hmod := Nat.mod_lt (size + page - 1) hpage
  have hmul := Nat.mul_comm page ((size + page - 1) / page)
  rw [getValidCapacity]
  omega

theorem getValidCapacity_mul (hpage : 0 < page) (q : Nat) :
    getValidCapacity page (q * page) = q * page := by
  have hdiv : (q * page + page - 1) / page = q := by
    rw [Nat.add_sub_assoc hpage, Nat.mul_comm, Nat.mul_add_div hpage,
      Nat.div_eq_of_lt (by omega), Nat.add_zero]
  rw [getValidCapacity, hdiv]

theorem getValidCapacity_idem (hpage : 0 < page) (size : Nat) :
    getValidCapacity page (getValidCapacity page size) = getValidCapacity page size :=
  getValidCapacity_mul hpage _

abbrev initialCapacity (page : Nat) : Nat := getValidCapacity page kDafaultCapacity

theorem headerSize_le_initialCapacity (hpage : 0 < page) : headerSize ≤ initialCapacity page :=
  Nat.le_trans (by decide) (le_getValidCapacity hpage kDafaultCapacity)

end Capacity

namespace Image

/-! The contents of a mapped file, apart from the object that maps it. -/

def storedMagic (mem : Bytes) : Nat := Bytes.toNatLE (Bytes.slice mem 0 4)

def storedSize (mem : Bytes) : Nat := Bytes.toNatLE (Bytes.slice mem 4 4)

def payload (mem : Bytes) : Bytes := Bytes.slice mem headerSize (storedSize mem)

structure Valid (mem : Bytes) : Prop where
  header : headerSize ≤ mem.length
  magic : storedMagic mem = kMagic

def withSize (mem : Bytes) (n : Nat) : Bytes := Bytes.store mem 4 (Bytes.ofNatLE 4 n)

def copied (mem bs : Bytes) : Bytes := Bytes.store mem (headerSize + storedSize mem) bs

theorem storedSize_lt (mem : Bytes) : storedSize mem < 2 ^ 32 := by
  have hlen : (Bytes.slice mem 4 4).length ≤ 4 := by
    rw [Bytes.length_slice]
    omega
  have hlt := Bytes.toNatLE_lt (Bytes.slice mem 4 4)
  have hpow : 256 ^ (Bytes.slice mem 4 4).length ≤ 256 ^ 4 :=
    Nat.pow_le_pow_right (by decide) hlen
  exact Nat.lt_of_lt_of_le hlt hpow

section Valid

variable {mem : Bytes}

theorem length_withSize (h : headerSize ≤ mem.length) (n : Nat) :
    (withSize mem n).length = mem.length := by
  refine Bytes.length_store ?_
  rw [Bytes.length_ofNatLE]
  exact h

theorem storedSize_withSize (h : headerSize ≤ mem.length) (n : Nat) :
    storedSize (withSize mem n) = n % 2 ^ 32 := by
  have hfield : Bytes.slice (withSize mem n) 4 (Bytes.ofNatLE 4 n).length = Bytes.ofNatLE 4 n := by
    refine Bytes.slice_store_same ?_
    rw [Bytes.length_ofNatLE]
    exact h
  rw [Bytes.length_ofNatLE] at hfield
  rw [storedSize, hfield, Bytes.toNatLE_ofNatLE_four]

theorem Valid.withSize (h : Valid mem) (n : Nat) : Valid (withSize mem n) := by
  have hheader : 8 ≤ mem.length := h.header
  constructor
  · rw [length_withSize h.header]
    exact h.header
  · rw [storedMagic, Image.withSize, Bytes.slice_store_before (by decide) (by omega)]
    exact h.magic

theorem slice_withSize (h : headerSize ≤ mem.length) (n len : Nat) :
    Bytes.slice (withSize mem n) headerSize len = Bytes.slice mem headerSize len := by
  refine Bytes.slice_store_after ?_ ?_
  · rw [Bytes.length_ofNatLE]
    decide
  · rw [Bytes.length_ofNatLE]
    exact h

section Copied

variable {bs : Bytes}

theorem length_copied (fits : headerSize + storedSize mem + bs.length ≤ mem.length) :
    (copied mem bs).length = mem.length :=
  Bytes.length_store fits

theorem slice_copied_before (fits : headerSize + storedSize mem + bs.length ≤ mem.length)
    {off len : Nat} (h : off + len ≤ headerSize + storedSize mem) :
    Bytes.slice (copied mem bs) off len = Bytes.slice mem off len :=
  Bytes.slice_store_before h (by omega)

theorem storedSize_copied (fits : headerSize + storedSize mem + bs.length ≤ mem.length) :
    storedSize (copied mem bs) = storedSize mem := by
  rw [storedSize, slice_copied_before fits (Nat.le_add_right headerSize _)]
  rfl

theorem payload_copied (fits : headerSize + storedSize mem + bs.length ≤ mem.length) :
    payload (copied mem bs) = payload mem := by
  rw [payload, storedSize_copied fits, slice_copied_before fits (Nat.le_refl _)]
  rfl

theorem Valid.copied (h : Valid mem)
    (fits : headerSize + storedSize mem + bs.length ≤ mem.length) : Valid (copied mem bs) := by
  constructor
  · rw [length_copied fits]
    exact h.header
  · rw [storedMagic, slice_copied_before fits (by rw [headerSize]; omega)]
    exact h.magic

theorem slice_copied (fits : headerSize + storedSize mem + bs.length ≤ mem.length) :
    Bytes.slice (Image.copied mem bs) headerSize (storedSize mem + bs.length) =
      payload mem ++ bs := by
  rw [Bytes.slice_add, slice_copied_before fits (Nat.le_refl _), Image.copied,
    Bytes.slice_store_same fits]
  rfl

end Copied

section SetLength

variable {n : Nat}

theorem storedSize_setLength (h : headerSize ≤ mem.length) (hn : headerSize ≤ n) :
    storedSize (Bytes.setLength mem n) = storedSize mem := by
  rw [storedSize, Bytes.slice_setLength hn h]
  rfl

theorem Valid.setLength (h : Valid mem) (hn : headerSize ≤ n) : Valid (Bytes.setLength mem n) := by
  have hheader : 8 ≤ mem.length := h.header
  have hn' : 8 ≤ n := hn
  constructor
  · rw [Bytes.length_setLength]
    exact hn
  · rw [storedMagic, Bytes.slice_setLength (by omega) (by omega)]
    exact h.magic

theorem payload_setLength (h : headerSize ≤ mem.length)
    (fits : headerSize + storedSize mem ≤ mem.length) (hn : headerSize + storedSize mem ≤ n) :
    payload (Bytes.setLength mem n) = payload mem := by
  rw [payload, storedSize_setLength h (Nat.le_trans (Nat.le_add_right _ _) hn),
    Bytes.slice_setLength hn fits]
  rfl

end SetLength

/-- What `Init_` makes of the mapped bytes. -/
def initialised (mem : Bytes) : Bytes :=
  if storedMagic mem = kMagic then mem
  else withSize (Bytes.store mem 0 (Bytes.ofNatLE 4 kMagic)) 0

theorem length_storeMagic (h : headerSize ≤ mem.length) :
    (Bytes.store mem 0 (Bytes.ofNatLE 4 kMagic)).length = mem.length := by
  have hheader : 8 ≤ mem.length := h
  refine Bytes.length_store ?_
  rw [Bytes.length_ofNatLE]
  omega

theorem length_initialised (h : headerSize ≤ mem.length) :
    (initialised mem).length = mem.length := by
  rw [initialised]
  split
  · rfl
  · rw [length_withSize (by rw [length_storeMagic h]; exact h), length_storeMagic h]

theorem valid_initialised (h : headerSize ≤ mem.length) : Valid (initialised mem) := by
  have hheader : 8 ≤ mem.length := h
  rw [initialised]
  split
  · rename_i hmagic
    exact ⟨h, hmagic⟩
  · have hfits : 0 + (Bytes.ofNatLE 4 kMagic).length ≤ mem.length := by
      rw [Bytes.length_ofNatLE]
      omega
    have hvalid : Valid (Bytes.store mem 0 (Bytes.ofNatLE 4 kMagic)) := by
      constructor
      · rw [length_storeMagic h]
        exact h
      · have hfield := Bytes.slice_store_same hfits
        rw [Bytes.length_ofNatLE] at hfield
        rw [storedMagic, hfield, Bytes.toNatLE_ofNatLE]
        rfl
    exact hvalid.withSize 0

theorem storedSize_initialised (h : headerSize ≤ mem.length) :
    storedSize (initialised mem) = if storedMagic mem = kMagic then storedSize mem else 0 := by
  rw [initialised]
  split
  · rfl
  · rw [storedSize_withSize (by rw [length_storeMagic h]; exact h), Nat.zero_mod]

end Valid

end Image

namespace MMapAux

open Image

structure Ready (a : MMapAux) (disk : Disk) : Prop where
  mapped : a.handle = .mapped
  named : a.filePath ≠ ""
  covered : (disk.contents a.filePath).length = a.capacity
  whole : disk.rest a.filePath = []
  valid : Valid (disk.contents a.filePath)

section Ready

variable {a : MMapAux} {disk : Disk}

/-! An access lies inside the mapping and inside the file, or it goes astray. -/

theorem load_within {off len : Nat} (h : a.handle = .mapped) (fits : off + len ≤ a.capacity)
    (fits' : off + len ≤ (disk.contents a.filePath).length) :
    a.load disk off len = .ok (Bytes.slice (disk.contents a.filePath) off len) := by
  have inside : off + len ≤ (disk.image a.filePath).length := by
    rw [Disk.image, List.length_append]
    omega
  rw [MMapAux.load, h]
  simp only
  rw [if_pos (Nat.le_min.mpr ⟨fits, inside⟩), Disk.image, Bytes.slice_append_left fits']

theorem load_beyond (h : a.handle = .mapped) (whole : disk.rest a.filePath = []) (off len : Nat)
    (beyond : (disk.contents a.filePath).length < off + len) :
    a.load disk off len = .error .outOfRange := by
  rw [MMapAux.load, h]
  simp only
  rw [disk.image_of_rest whole, if_neg (fun hle => absurd (Nat.le_min.mp hle).2 (by omega))]

theorem store_within {off : Nat} {bs : Bytes} (h : a.handle = .mapped) (named : a.filePath ≠ "")
    (whole : disk.rest a.filePath = []) (fits : off + bs.length ≤ a.capacity)
    (fits' : off + bs.length ≤ (disk.contents a.filePath).length) :
    a.store disk off bs =
      .ok (disk.write a.filePath (Bytes.store (disk.contents a.filePath) off bs)) := by
  rw [MMapAux.store, h]
  simp only
  rw [disk.image_of_rest whole, if_pos (Nat.le_min.mpr ⟨fits, fits'⟩),
    disk.writeImage_eq_write named (Bytes.length_store fits')]

theorem Ready.write (h : Ready a disk) {mem : Bytes} (valid : Valid mem) :
    Ready { a with capacity := mem.length } (disk.write a.filePath mem) := by
  have hcontents := disk.contents_write mem h.named
  exact ⟨h.mapped, h.named, by rw [hcontents], disk.rest_write mem h.named,
    by rw [hcontents]; exact valid⟩

theorem Ready.write_of_length (h : Ready a disk) {mem : Bytes} (valid : Valid mem)
    (hlen : mem.length = a.capacity) : Ready a (disk.write a.filePath mem) := by
  have hready := h.write valid
  rw [hlen] at hready
  exact hready

theorem Ready.headerSize_le (h : Ready a disk) : headerSize ≤ a.capacity :=
  h.covered ▸ h.valid.header

theorem Ready.load (h : Ready a disk) (off len : Nat) (fits : off + len ≤ a.capacity) :
    a.load disk off len = .ok (Bytes.slice (disk.contents a.filePath) off len) :=
  load_within h.mapped fits (h.covered ▸ fits)

theorem Ready.load_outOfRange (h : Ready a disk) {off len : Nat} (beyond : a.capacity < off + len) :
    a.load disk off len = .error .outOfRange :=
  load_beyond h.mapped h.whole off len (by rw [h.covered]; exact beyond)

theorem Ready.store (h : Ready a disk) {off : Nat} {bs : Bytes}
    (fits : off + bs.length ≤ a.capacity) :
    a.store disk off bs =
      .ok (disk.write a.filePath (Bytes.store (disk.contents a.filePath) off bs)) :=
  store_within h.mapped h.named h.whole fits (h.covered ▸ fits)

theorem Ready.storeSize (h : Ready a disk) (n : Nat) :
    a.storeSize disk n = .ok (disk.write a.filePath (withSize (disk.contents a.filePath) n)) := by
  refine h.store ?_
  rw [Bytes.length_ofNatLE]
  exact h.headerSize_le

theorem Ready.isValid (h : Ready a disk) : a.isValid disk = .ok true := by
  have hheader : 8 ≤ a.capacity := h.headerSize_le
  have hload := h.load 0 4 (by omega)
  have hmagic : Bytes.toNatLE (Bytes.slice (disk.contents a.filePath) 0 4) = kMagic := h.valid.magic
  simp [MMapAux.isValid, h.mapped, hload, hmagic, bind, Except.bind, pure, Except.pure]

theorem Ready.size (h : Ready a disk) :
    a.size disk = .ok (storedSize (disk.contents a.filePath)) := by
  have hheader : 8 ≤ a.capacity := h.headerSize_le
  have hload := h.load 4 4 hheader
  simp [MMapAux.size, h.isValid, hload, bind, Except.bind, pure, Except.pure, storedSize]

theorem Ready.data (h : Ready a disk) : a.data disk = .ok (some headerSize) := by
  simp [MMapAux.data, h.isValid, bind, Except.bind, pure, Except.pure]

private theorem Ready.contents_eq (h : Ready a disk) :
    a.contents disk = a.load disk headerSize (storedSize (disk.contents a.filePath)) := by
  simp [MMapAux.contents, h.data, h.size, bind, Except.bind]

theorem Ready.contents (h : Ready a disk)
    (fits : headerSize + storedSize (disk.contents a.filePath) ≤ a.capacity) :
    a.contents disk = .ok (payload (disk.contents a.filePath)) := by
  rw [h.contents_eq, h.load _ _ fits]
  rfl

theorem Ready.contents_outOfRange (h : Ready a disk)
    (beyond : a.capacity < headerSize + storedSize (disk.contents a.filePath)) :
    a.contents disk = .error .outOfRange := by
  rw [h.contents_eq, h.load_outOfRange beyond]

end Ready

section Growth

variable {page : Nat} {a : MMapAux} {disk : Disk}

def grown (page capacity newSize : Nat) : Nat :=
  max capacity (getValidCapacity page (newSize + headerSize))

theorem le_grown_capacity (page capacity newSize : Nat) : capacity ≤ grown page capacity newSize :=
  Nat.le_max_left _ _

theorem le_grown_size (hpage : 0 < page) (capacity newSize : Nat) :
    headerSize + newSize ≤ grown page capacity newSize := by
  have hvalid := le_getValidCapacity hpage (newSize + headerSize)
  rw [grown]
  omega

theorem Ready.grow (h : Ready a disk) {n : Nat} (hn : a.capacity ≤ n) :
    Ready { a with capacity := n }
      (disk.write a.filePath (Bytes.setLength (disk.contents a.filePath) n)) := by
  have hready := h.write (h.valid.setLength (Nat.le_trans h.headerSize_le hn))
  rw [Bytes.length_setLength] at hready
  exact hready

private theorem Ready.write_same (h : Ready a disk) :
    disk.write a.filePath (Bytes.setLength (disk.contents a.filePath) a.capacity) = disk := by
  rw [← h.covered, Bytes.setLength_self]
  refine disk.write_contents ?_ h.whole
  intro hnil
  have hheader := h.valid.header
  rw [hnil] at hheader
  exact absurd hheader (by decide)

private theorem tryMap_working (hpage : 0 < page) (hnamed : a.filePath ≠ "") (size : Nat) :
    tryMap .working page a disk (getValidCapacity page size) = ({ a with handle := .mapped },
      disk.write a.filePath
        (Bytes.setLength (disk.contents a.filePath) (getValidCapacity page size))) := by
  have hrest := disk.rest_write
    (Bytes.setLength (disk.contents a.filePath) (getValidCapacity page size)) hnamed
  have hshown : Bytes.setLength SysCalls.working.shown 0 = [] := rfl
  have hsame := (disk.write a.filePath (Bytes.setLength (disk.contents a.filePath)
    (getValidCapacity page size))).setRest_rest a.filePath
  rw [hrest] at hsame
  simp only [tryMap, SysCalls.working, hnamed, false_or, Bool.true_eq_false, if_false, if_true,
    Bytes.length_setLength, getValidCapacity_idem hpage, Nat.sub_self]
  exact congrArg (Prod.mk { a with handle := .mapped }) hsame

theorem Ready.ensureCapacity (hpage : 0 < page) (h : Ready a disk) (newSize : Nat) :
    ensureCapacity .working page a disk newSize =
      ({ a with capacity := grown page a.capacity newSize }, disk.write a.filePath
        (Bytes.setLength (disk.contents a.filePath) (grown page a.capacity newSize))) := by
  obtain ⟨capacity, handle, filePath⟩ := a
  obtain rfl : handle = .mapped := h.mapped
  by_cases enough : getValidCapacity page (newSize + headerSize) ≤ capacity
  · have hgrown : grown page capacity newSize = capacity := Nat.max_eq_left enough
    simp only [MMapAux.ensureCapacity, if_pos enough, hgrown]
    rw [h.write_same]
  · have hgrown : grown page capacity newSize = getValidCapacity page (newSize + headerSize) :=
      Nat.max_eq_right (by omega)
    simp only [MMapAux.ensureCapacity, if_neg enough, reserve, getValidCapacity_idem hpage, hgrown]
    rw [tryMap_working (a := unmap ⟨capacity, .mapped, filePath⟩) hpage h.named]
    rfl

end Growth

section Operations

variable {page : Nat} {a : MMapAux} {disk : Disk}

/-- A file's contents after `EnsureCapacity_`. -/
def grownImage (page : Nat) (mem : Bytes) (newSize : Nat) : Bytes :=
  Bytes.setLength mem (grown page mem.length newSize)

/-- A file's contents after `Push`. -/
def pushed (page : Nat) (mem bs : Bytes) : Bytes :=
  withSize (copied (grownImage page mem (storedSize mem + bs.length)) bs)
    (storedSize mem + bs.length)

theorem length_grownImage (page : Nat) (mem : Bytes) (newSize : Nat) :
    (grownImage page mem newSize).length = grown page mem.length newSize :=
  Bytes.length_setLength _ _

theorem valid_grownImage {mem : Bytes} (h : Valid mem) (newSize : Nat) :
    Valid (grownImage page mem newSize) :=
  h.setLength (Nat.le_trans h.header (le_grown_capacity _ _ _))

theorem storedSize_grownImage {mem : Bytes} (h : Valid mem) (newSize : Nat) :
    storedSize (grownImage page mem newSize) = storedSize mem :=
  storedSize_setLength h.header (Nat.le_trans h.header (le_grown_capacity _ _ _))

theorem fits_grownImage (hpage : 0 < page) {mem : Bytes} (h : Valid mem) (bs : Bytes) :
    headerSize + storedSize (grownImage page mem (storedSize mem + bs.length)) + bs.length ≤
      (grownImage page mem (storedSize mem + bs.length)).length := by
  have hle := le_grown_size hpage mem.length (storedSize mem + bs.length)
  rw [storedSize_grownImage h, length_grownImage]
  omega

theorem length_pushed (hpage : 0 < page) {mem : Bytes} (h : Valid mem) (bs : Bytes) :
    (pushed page mem bs).length = grown page mem.length (storedSize mem + bs.length) := by
  have hfits := fits_grownImage hpage h bs
  rw [pushed, length_withSize ((valid_grownImage h _).copied hfits).header,
    length_copied hfits, length_grownImage]

theorem valid_pushed (hpage : 0 < page) {mem : Bytes} (h : Valid mem) (bs : Bytes) :
    Valid (pushed page mem bs) :=
  ((valid_grownImage h _).copied (fits_grownImage hpage h bs)).withSize _

theorem storedSize_pushed (hpage : 0 < page) {mem : Bytes} (h : Valid mem) (bs : Bytes) :
    storedSize (pushed page mem bs) = (storedSize mem + bs.length) % 2 ^ 32 :=
  storedSize_withSize ((valid_grownImage h _).copied (fits_grownImage hpage h bs)).header _

theorem Ready.copyIn (h : Ready a disk) (bs : Bytes)
    (fits : headerSize + storedSize (disk.contents a.filePath) + bs.length ≤ a.capacity) :
    a.copyIn disk bs = .ok (disk.write a.filePath (copied (disk.contents a.filePath) bs)) := by
  simp only [MMapAux.copyIn, h.data, h.size, bind, Except.bind]
  exact h.store fits

theorem Ready.push (hpage : 0 < page) (h : Ready a disk) (bs : Bytes) :
    push .working page a disk bs =
      .ok ({ a with capacity := (pushed page (disk.contents a.filePath) bs).length },
        disk.write a.filePath (pushed page (disk.contents a.filePath) bs)) := by
  have hfits := fits_grownImage hpage h.valid bs
  have hgrow := h.grow (le_grown_capacity page a.capacity
    (storedSize (disk.contents a.filePath) + bs.length))
  have hcontents : ∀ mem, (disk.write a.filePath mem).contents a.filePath = mem :=
    fun mem => disk.contents_write mem h.named
  rw [length_pushed hpage h.valid, h.covered]
  simp only [grownImage, h.covered] at hfits
  have hcopy := hgrow.copyIn bs (by
    simp only [hcontents]
    rw [Bytes.length_setLength] at hfits
    exact hfits)
  have hvalid := (h.valid.setLength (Nat.le_trans h.headerSize_le (le_grown_capacity page
    a.capacity (storedSize (disk.contents a.filePath) + bs.length)))).copied hfits
  have hcopied := hgrow.write_of_length hvalid
    (by rw [length_copied hfits, Bytes.length_setLength])
  have hsize := hcopied.storeSize (storedSize (disk.contents a.filePath) + bs.length)
  simp only [hcontents, Disk.write_write] at hcopy hsize
  simp only [MMapAux.push, h.isValid, h.size, h.ensureCapacity hpage, hcopy, hsize, bind,
    Except.bind, pure, Except.pure, if_true, pushed, grownImage, h.covered]

theorem Ready.resize (hpage : 0 < page) (h : Ready a disk) (newSize : Nat) :
    resize .working page a disk newSize =
      .ok ({ a with capacity := grown page a.capacity newSize }, disk.write a.filePath
        (withSize (grownImage page (disk.contents a.filePath) newSize) newSize)) := by
  have hgrow := h.grow (le_grown_capacity page a.capacity newSize)
  have hsize := hgrow.storeSize newSize
  simp only [disk.contents_write _ h.named, Disk.write_write] at hsize
  simp only [MMapAux.resize, h.isValid, h.ensureCapacity hpage, hsize, bind, Except.bind, pure,
    Except.pure, if_true, grownImage, h.covered]

theorem Ready.clear (h : Ready a disk) :
    clear a disk = .ok (a, disk.write a.filePath (withSize (disk.contents a.filePath) 0)) := by
  simp only [MMapAux.clear, h.isValid, h.storeSize, bind, Except.bind, pure, Except.pure, if_true]

/-- A file's contents after the constructor: the old ones cut to the initial capacity when
they carry the magic number, and an empty buffer otherwise. -/
def opened (page : Nat) (mem : Bytes) : Bytes :=
  let mem := Bytes.setLength mem (initialCapacity page)
  if storedMagic mem = kMagic then mem
  else withSize (Bytes.store mem 0 (Bytes.ofNatLE 4 kMagic)) 0

theorem opened_eq (page : Nat) (mem : Bytes) :
    opened page mem = initialised (Bytes.setLength mem (initialCapacity page)) :=
  rfl

private theorem headerSize_le_setLength (hpage : 0 < page) (mem : Bytes) :
    headerSize ≤ (Bytes.setLength mem (initialCapacity page)).length := by
  rw [Bytes.length_setLength]
  exact headerSize_le_initialCapacity hpage

theorem length_opened (hpage : 0 < page) (mem : Bytes) :
    (opened page mem).length = initialCapacity page := by
  rw [opened_eq, length_initialised (headerSize_le_setLength hpage mem), Bytes.length_setLength]

theorem valid_opened (hpage : 0 < page) (mem : Bytes) : Valid (opened page mem) :=
  valid_initialised (headerSize_le_setLength hpage mem)

theorem storedSize_opened (hpage : 0 < page) (mem : Bytes) :
    storedSize (opened page mem) =
      if storedMagic (Bytes.setLength mem (initialCapacity page)) = kMagic then
        storedSize (Bytes.setLength mem (initialCapacity page))
      else 0 :=
  storedSize_initialised (headerSize_le_setLength hpage mem)

theorem opened_of_valid (hpage : 0 < page) {mem : Bytes} (h : Valid mem) :
    opened page mem = Bytes.setLength mem (initialCapacity page) := by
  rw [opened, if_pos (h.setLength (headerSize_le_initialCapacity hpage)).magic]

private theorem slice_blank (n off len : Nat) :
    Bytes.slice (Bytes.setLength [] n) off len = List.replicate (min len (n - off)) 0 := by
  simp [Bytes.slice, Bytes.setLength]

theorem storedSize_opened_blank (hpage : 0 < page) : storedSize (opened page []) = 0 := by
  have hheader : 8 ≤ initialCapacity page := headerSize_le_initialCapacity hpage
  have hmagic : storedMagic (Bytes.setLength [] (initialCapacity page)) ≠ kMagic := by
    rw [storedMagic, slice_blank, Nat.min_eq_left (by omega)]
    decide
  rw [storedSize_opened hpage, if_neg hmagic]

theorem ready_opened (hpage : 0 < page) {path : Path} (hpath : path ≠ "") (disk : Disk) :
    Ready ⟨initialCapacity page, .mapped, path⟩
      (disk.write path (opened page (disk.contents path))) := by
  have hcontents := disk.contents_write (opened page (disk.contents path)) hpath
  refine ⟨rfl, hpath, ?_, disk.rest_write _ hpath, ?_⟩
  · simp only [hcontents]
    exact length_opened hpage _
  · simp only [hcontents]
    exact valid_opened hpage _

theorem getFileSize_movedFrom (disk : Disk) : getFileSize disk movedFrom = 0 := by
  rw [getFileSize, movedFrom, disk.noEmptyPath]

/-- The constructor's mapping before `Init_` has looked at it. -/
private def fresh (page : Nat) (path : Path) : MMapAux := ⟨initialCapacity page, .mapped, path⟩

private theorem reserve_initial (hpage : 0 < page) {path : Path} (hpath : path ≠ "") (disk : Disk) :
    reserve .working page ⟨0, .null, path⟩ disk kDafaultCapacity =
      (fresh page path,
        disk.write path (Bytes.setLength (disk.contents path) (initialCapacity page))) := by
  have hmore : ¬ getValidCapacity page kDafaultCapacity ≤ 0 := by
    intro hzero
    exact absurd (Nat.le_trans (headerSize_le_initialCapacity hpage) hzero) (by decide)
  simp only [reserve, if_neg hmore]
  rw [tryMap_working (a := unmap ⟨0, .null, path⟩) hpage hpath]
  rfl

theorem init_within {a : MMapAux} {disk : Disk} (mapped : a.handle = .mapped)
    (named : a.filePath ≠ "") (whole : disk.rest a.filePath = []) (hcapacity : headerSize ≤ a.capacity)
    (hlength : headerSize ≤ (disk.contents a.filePath).length) :
    init a disk =
      .ok (disk.write a.filePath (initialised (disk.contents a.filePath))) := by
  have hcapacity' : 8 ≤ a.capacity := hcapacity
  have hlength' : 8 ≤ (disk.contents a.filePath).length := hlength
  have hload : a.load disk 0 4 = .ok (Bytes.slice (disk.contents a.filePath) 0 4) :=
    load_within mapped (by omega) (by omega)
  by_cases hmagic : storedMagic (disk.contents a.filePath) = kMagic
  · have hbytes : Bytes.toNatLE (Bytes.slice (disk.contents a.filePath) 0 4) = kMagic := hmagic
    have hnonempty : disk.contents a.filePath ≠ [] := by
      intro hnil
      rw [hnil] at hlength
      exact absurd hlength (by decide)
    rw [initialised, if_pos hmagic, disk.write_contents hnonempty whole]
    simp [init, mapped, hload, hbytes, bind, Except.bind, pure, Except.pure]
  · have hbytes : Bytes.toNatLE (Bytes.slice (disk.contents a.filePath) 0 4) ≠ kMagic := hmagic
    have hcontents := disk.contents_write (Bytes.store (disk.contents a.filePath) 0
      (Bytes.ofNatLE 4 kMagic)) named
    have hstoreMagic : a.store disk 0 (Bytes.ofNatLE 4 kMagic) = .ok (disk.write a.filePath
        (Bytes.store (disk.contents a.filePath) 0 (Bytes.ofNatLE 4 kMagic))) := by
      refine store_within mapped named whole ?_ ?_ <;> rw [Bytes.length_ofNatLE] <;> omega
    have hstoreSize : a.store (disk.write a.filePath (Bytes.store (disk.contents a.filePath) 0
          (Bytes.ofNatLE 4 kMagic))) 4 (Bytes.ofNatLE 4 0) =
        .ok (disk.write a.filePath (initialised (disk.contents a.filePath))) := by
      rw [store_within mapped named (disk.rest_write _ named), hcontents, Disk.write_write,
        initialised, if_neg hmagic, withSize]
      · rw [Bytes.length_ofNatLE]
        exact hcapacity'
      · rw [hcontents, length_storeMagic hlength, Bytes.length_ofNatLE]
        exact hlength'
    simp [init, mapped, hload, hbytes, storeMagic, hstoreMagic, MMapAux.storeSize, hstoreSize,
      bind, Except.bind]

private theorem init_fresh (hpage : 0 < page) {path : Path} (hpath : path ≠ "") (disk : Disk) :
    init (fresh page path)
        (disk.write path (Bytes.setLength (disk.contents path) (initialCapacity page))) =
      .ok (disk.write path (opened page (disk.contents path))) := by
  have hcontents := disk.contents_write (Bytes.setLength (disk.contents path)
    (initialCapacity page)) hpath
  have hinit : init (fresh page path) (disk.write path (Bytes.setLength (disk.contents path)
      (initialCapacity page))) = _ :=
    init_within rfl hpath (disk.rest_write _ hpath) (headerSize_le_initialCapacity hpage) (by
      rw [fresh, hcontents]
      exact headerSize_le_setLength hpage _)
  rw [hinit, fresh, hcontents, Disk.write_write]
  rfl

theorem construct_working (hpage : 0 < page) {path : Path} (hpath : path ≠ "") (disk : Disk) :
    construct .working page path disk =
      .ok (⟨initialCapacity page, .mapped, path⟩,
        disk.write path (opened page (disk.contents path))) := by
  simp only [construct, getFileSize_movedFrom, Nat.zero_max, reserve_initial hpage hpath,
    init_fresh hpage hpath, bind, Except.bind, pure, Except.pure]
  rfl

end Operations

end MMapAux

end FlashLog.Mmap
