import FlashLog.Mmap.BufferHistory
import FlashLog.Mmap.SizeT

/-!
What failing system calls do to an object over its whole history. The old mapping is given up
before the new one is tried, and what comes of that is looked at nowhere: an object that could
not be mapped at first does nothing, one that fails to grow is accessed without a mapping. Where
`ftruncate` fails, an object may have its content, or even its header, behind the end of the file
in its last page: there it lasts as long as the mapping does.
-/

set_option autoImplicit false
set_option relaxedAutoImplicit false

namespace FlashLog.Mmap.SizeT

open FlashLog.Support
open FlashLog.Support.Machine
open FlashLog.Mmap.MMapAux
open FlashLog.Mmap.Image

structure Answers (s : MMapAux × Disk) : Prop where
  size : ∃ n, s.1.size s.2 = .ok n
  data : ∃ off, s.1.data s.2 = .ok off
  ratio : ∀ fp : Rounding, ∃ r, getRatio fp s.1 s.2 = .ok r

/-- The capacity that `EnsureCapacity_` passes to `Reserve_`. -/
def askedCapacity (page : PageSize) (newSize : Nat) : Nat :=
  getValidCapacity page ((newSize + headerSize) % 2 ^ 64)

/-- The capacity that `Reserve_` maps. -/
def realCapacity (page : PageSize) (newSize : Nat) : Nat :=
  getValidCapacity page (askedCapacity page newSize)

/-- Neither `EnsureCapacity_` nor `Reserve_` returns early. -/
def Grows (page : PageSize) (a : MMapAux) (newSize : Nat) : Prop :=
  a.capacity < askedCapacity page newSize ∧ a.capacity < realCapacity page newSize

instance (page : PageSize) (a : MMapAux) (newSize : Nat) : Decidable (Grows page a newSize) :=
  inferInstanceAs (Decidable (_ ∧ _))

def capacityAfter (page : PageSize) (a : MMapAux) (newSize : Nat) : Nat :=
  if Grows page a newSize then realCapacity page newSize else a.capacity

/-- The bytes that a new mapping shows of a file with these contents. -/
def mappedAnew (page : PageSize) (os : SysCalls) (contents : Bytes) (capacity : Nat) : Bytes :=
  if os.truncates = true then Bytes.setLength contents capacity
  else
    contents ++ Bytes.setLength os.shown
      (Mmap.getValidCapacity page.bytes contents.length - contents.length)

/-- The bytes that the mapping shows behind `EnsureCapacity_`. -/
def remapped (page : PageSize) (os : SysCalls) (s : MMapAux × Disk) (newSize : Nat) : Bytes :=
  if Grows page s.1 newSize then
    mappedAnew page os (s.2.contents s.1.filePath) (realCapacity page newSize)
  else s.2.image s.1.filePath

def asked (s : MMapAux × Disk) (op : Op) : Nat := op.newSize (storedSize (s.2.image s.1.filePath))

def Op.copied (mem : Bytes) : Op → Bytes
  | .push object => Image.copied mem object.bytes
  | _ => mem

structure GrowthFails (page : PageSize) (s : MMapAux × Disk) (os : SysCalls) (op : Op) : Prop where
  valid : s.1.isValid s.2 = .ok true
  grows : Grows page s.1 (asked s op)
  fails : os.opens = false ∨ os.truncates = false ∨ os.maps = false

/-- What could be read as the content is still there and can be read. -/
def Kept (s next : MMapAux × Disk) : Prop :=
  ∀ old, old ≠ [] → s.1.contents s.2 = .ok old →
    ∃ off, next.1.data next.2 = .ok (some off) ∧ next.1.load next.2 off old.length = .ok old

/-- One operation, with the outcomes of its system calls; an access gone astray ends the run. -/
def call (page : PageSize) (s : MMapAux × Disk) (c : SysCalls × Op) : Option (MMapAux × Disk) :=
  (apply page s c.1 c.2).toOption

/-- The object can be asked, and a growth that failed has cost no content. -/
def Harmless (page : PageSize) (s : MMapAux × Disk) (c : SysCalls × Op)
    (next : MMapAux × Disk) : Prop :=
  Answers next ∧ (GrowthFails page s c.1 c.2 → Kept s next)

/-- No file is opened, or it is mapped and its pages have room for the header. -/
def Constructs (page : PageSize) (os : SysCalls) (path : Path) (disk : Disk) : Prop :=
  path = "" ∨ os.opens = false ∨
    (os.maps = true ∧ (os.truncates = true ∨
      headerSize ≤ Mmap.getValidCapacity page.bytes (disk.contents path).length))

/-- Bytes that are copied end up inside the mapping and the file's pages, behind a header. -/
def Reaches (page : PageSize) (s : MMapAux × Disk) (os : SysCalls) : Op → Prop
  | .push object => object.bytes = [] ∨
    let newSize := asked s (.push object)
    let mem := remapped page os s newSize
    storedMagic mem = kMagic ∧ headerSize + storedSize mem + object.bytes.length ≤
      min (capacityAfter page s.1 newSize) mem.length
  | _ => True

/-- If there is content that can be read, the mapping shows it behind the operation too. -/
def Shows (page : PageSize) (s : MMapAux × Disk) (os : SysCalls) (op : Op) : Prop :=
  let mem := s.2.image s.1.filePath
  let mem' := remapped page os s (asked s op)
  0 < storedSize mem → headerSize + storedSize mem ≤ min s.1.capacity mem.length →
    storedMagic mem' = kMagic ∧ payload mem = Bytes.slice (op.copied mem') headerSize (storedSize mem)

/-- There is no header, or a growth opens and maps the file, which is long enough or at least
shows what it showed. -/
def Safe (page : PageSize) (s : MMapAux × Disk) (c : SysCalls × Op) : Prop :=
  s.1.isValid s.2 = .ok false ∨
    ((Grows page s.1 (asked s c.2) →
        (c.1.opens = true ∧ c.1.maps = true) ∧ (c.1.truncates = true ∨ Shows page s c.1 c.2)) ∧
      Reaches page s c.1 c.2)

section Mapping

variable {a : MMapAux}

theorem storeSize_unmapped (h : a.handle ≠ .mapped) (disk : Disk) (n : Nat) :
    ∃ fault, a.storeSize disk n = .error fault := by
  rw [storeSize, store]
  cases hhandle : a.handle with
  | null => exact ⟨_, rfl⟩
  | failed => exact ⟨_, rfl⟩
  | mapped => exact absurd hhandle h

theorem copied_nil (mem : Bytes) : Image.copied mem [] = mem := by
  simp [Image.copied, Bytes.store]

theorem storedMagic_withSize {mem : Bytes} (h : headerSize ≤ mem.length) (n : Nat) :
    storedMagic (withSize mem n) = storedMagic mem := by
  have hheader : 8 ≤ mem.length := h
  rw [storedMagic, withSize, Bytes.slice_store_before (by decide) (by omega)]
  rfl

end Mapping

/-- A mapping from the initial capacity on of the file's pages, which show `mem`. -/
structure Maps (page : PageSize) (a : MMapAux) (disk : Disk) (mem : Bytes) : Prop where
  mapped : a.handle = .mapped
  named : a.filePath ≠ ""
  initial : initialCapacity page.bytes ≤ a.capacity
  image : disk.image a.filePath = mem
  pages : mem.length = Mmap.getValidCapacity page.bytes (disk.contents a.filePath).length

section Maps

variable {page : PageSize} {a : MMapAux} {disk : Disk} {mem : Bytes}

theorem Maps.headerSize_le (h : Maps page a disk mem) : 8 ≤ a.capacity :=
  Nat.le_trans (headerSize_le_initialCapacity page.pos) h.initial

theorem Maps.load (h : Maps page a disk mem) (off len : Nat)
    (fits : off + len ≤ min a.capacity mem.length) :
    a.load disk off len = .ok (Bytes.slice mem off len) := by
  rw [MMapAux.load, h.mapped]
  simp only
  rw [h.image, if_pos fits]

theorem Maps.load_beyond (h : Maps page a disk mem) (off len : Nat)
    (beyond : ¬ off + len ≤ min a.capacity mem.length) :
    a.load disk off len = .error .outOfRange := by
  rw [MMapAux.load, h.mapped]
  simp only
  rw [h.image, if_neg beyond]

theorem Maps.store_beyond (h : Maps page a disk mem) (off : Nat) (bs : Bytes)
    (beyond : ¬ off + bs.length ≤ min a.capacity mem.length) :
    a.store disk off bs = .error .outOfRange := by
  rw [MMapAux.store, h.mapped]
  simp only
  rw [h.image, if_neg beyond]

theorem Maps.store (h : Maps page a disk mem) (off : Nat) (bs : Bytes)
    (fits : off + bs.length ≤ min a.capacity mem.length) :
    ∃ disk', a.store disk off bs = .ok disk' ∧ Maps page a disk' (Bytes.store mem off bs) := by
  have hlength : (Bytes.store mem off bs).length = (disk.image a.filePath).length := by
    rw [Bytes.length_store (Nat.le_trans fits (Nat.min_le_right _ _)), h.image]
  refine ⟨disk.writeImage a.filePath (Bytes.store mem off bs), ?_, h.mapped, h.named, h.initial,
    disk.image_writeImage h.named _, ?_⟩
  · rw [MMapAux.store, h.mapped]
    simp only
    rw [h.image, if_pos fits]
  · rw [hlength, h.image, h.pages, disk.length_contents_writeImage h.named hlength]

theorem Maps.init_short (h : Maps page a disk mem) (short : mem.length < headerSize) :
    ∀ disk', init a disk = .ok disk' → ¬ Answers (a, disk') := by
  intro disk' hinit answers
  have short' : mem.length < 8 := short
  have hcapacity := h.headerSize_le
  by_cases hload : mem.length < 4
  · have hbeyond := h.load_beyond 0 4 (by omega)
    simp [init, h.mapped, hbeyond, bind, Except.bind] at hinit
  · have hmagic := h.load 0 4 (by omega)
    by_cases known : Bytes.toNatLE (Bytes.slice mem 0 4) = kMagic
    · -- the magic number alone is there: `Init_` returns, `Size` reads behind it
      have hsame : disk' = disk := by
        simpa [init, h.mapped, hmagic, known, bind, Except.bind, pure, Except.pure] using hinit.symm
      rw [hsame] at answers
      have hbeyond := h.load_beyond 4 4 (by omega)
      obtain ⟨n, hsize⟩ := answers.size
      simp [size, isValid, h.mapped, hmagic, known, hbeyond, bind, Except.bind, pure,
        Except.pure] at hsize
    · have hfits : 0 + (Bytes.ofNatLE 4 kMagic).length ≤ min a.capacity mem.length := by
        rw [Bytes.length_ofNatLE]
        omega
      obtain ⟨disk₁, hstore, maps⟩ := h.store _ _ hfits
      have hlength := Bytes.length_store (Nat.le_trans hfits (Nat.min_le_right _ _))
      have hbeyond : a.store disk₁ 4 (Bytes.ofNatLE 4 0) = .error .outOfRange := by
        refine maps.store_beyond _ _ ?_
        rw [hlength, Bytes.length_ofNatLE]
        omega
      simp [init, h.mapped, hmagic, known, storeMagic, hstore, storeSize, hbeyond, bind,
        Except.bind] at hinit

end Maps

/-- The pages have room for a header, right or wrong. -/
structure Live (page : PageSize) (a : MMapAux) (disk : Disk) (mem : Bytes) : Prop
    extends Maps page a disk mem where
  header : headerSize ≤ mem.length

section Live

variable {page : PageSize} {a : MMapAux} {disk : Disk} {mem : Bytes}

private theorem Live.load_header (h : Live page a disk mem) (off len : Nat)
    (fits : off + len ≤ 8) : a.load disk off len = .ok (Bytes.slice mem off len) :=
  h.load _ _ (Nat.le_trans fits (Nat.le_min.mpr ⟨h.headerSize_le, h.header⟩))

theorem Live.store (h : Live page a disk mem) (off : Nat) (bs : Bytes)
    (fits : off + bs.length ≤ min a.capacity mem.length) :
    ∃ disk', a.store disk off bs = .ok disk' ∧ Live page a disk' (Bytes.store mem off bs) := by
  obtain ⟨disk', hstore, maps⟩ := h.toMaps.store _ _ fits
  refine ⟨disk', hstore, maps, ?_⟩
  rw [Bytes.length_store (Nat.le_trans fits (Nat.min_le_right _ _))]
  exact h.header

theorem Live.storeSize (h : Live page a disk mem) (n : Nat) :
    ∃ disk', a.storeSize disk n = .ok disk' ∧ Live page a disk' (withSize mem n) := by
  refine h.store _ _ ?_
  rw [Bytes.length_ofNatLE]
  exact Nat.le_min.mpr ⟨h.headerSize_le, h.header⟩

theorem Live.isValid (h : Live page a disk mem) :
    a.isValid disk = .ok (storedMagic mem == kMagic) := by
  have hload := h.load_header 0 4 (by decide)
  simp [MMapAux.isValid, h.mapped, hload, storedMagic, bind, Except.bind, pure, Except.pure]

theorem Live.isValid_eq (h : Live page a disk mem) (magic : storedMagic mem = kMagic) :
    a.isValid disk = .ok true := by
  rw [h.isValid, magic]
  rfl

theorem Live.isValid_ne (h : Live page a disk mem) (wrong : storedMagic mem ≠ kMagic) :
    a.isValid disk = .ok false := by
  rw [h.isValid, beq_eq_false_iff_ne.mpr wrong]

theorem Live.size (h : Live page a disk mem) :
    a.size disk = .ok (if storedMagic mem = kMagic then storedSize mem else 0) := by
  by_cases magic : storedMagic mem = kMagic
  · have hload := h.load_header 4 4 (by decide)
    simp [MMapAux.size, h.isValid_eq magic, magic, hload, storedSize, bind, Except.bind, pure,
      Except.pure]
  · simp [MMapAux.size, h.isValid_ne magic, magic, bind, Except.bind, pure, Except.pure]

theorem Live.data (h : Live page a disk mem) :
    a.data disk = .ok (if storedMagic mem = kMagic then some headerSize else none) := by
  by_cases magic : storedMagic mem = kMagic
  · simp [MMapAux.data, h.isValid_eq magic, magic, bind, Except.bind, pure, Except.pure]
  · simp [MMapAux.data, h.isValid_ne magic, magic, bind, Except.bind, pure, Except.pure]

theorem Live.answers (h : Live page a disk mem) : Answers (a, disk) := by
  refine ⟨⟨_, h.size⟩, ⟨_, h.data⟩, fun fp => ?_⟩
  by_cases magic : storedMagic mem = kMagic
  · simp only [getRatio, h.isValid_eq magic, h.size, bind, Except.bind, pure, Except.pure, if_true]
    exact ⟨_, rfl⟩
  · simp only [getRatio, h.isValid_ne magic, bind, Except.bind, pure, Except.pure]
    exact ⟨_, rfl⟩

theorem Live.init (h : Live page a disk mem) :
    ∃ disk', init a disk = .ok disk' ∧ Live page a disk' (initialised mem) := by
  have hload := h.load_header 0 4 (by decide)
  by_cases magic : storedMagic mem = kMagic
  · have hbytes : Bytes.toNatLE (Bytes.slice mem 0 4) = kMagic := magic
    refine ⟨disk, ?_, ?_⟩
    · simp [MMapAux.init, h.mapped, hload, hbytes, bind, Except.bind, pure, Except.pure]
    · rw [initialised, if_pos magic]
      exact h
  · have hbytes : Bytes.toNatLE (Bytes.slice mem 0 4) ≠ kMagic := magic
    have hheader : 8 ≤ mem.length := h.header
    have hcapacity := h.headerSize_le
    obtain ⟨disk₁, hmagic, live⟩ := h.store 0 (Bytes.ofNatLE 4 kMagic) (by
      rw [Bytes.length_ofNatLE]
      omega)
    obtain ⟨disk₂, hsize, live₂⟩ := live.storeSize 0
    refine ⟨disk₂, ?_, ?_⟩
    · simp [MMapAux.init, h.mapped, hload, hbytes, storeMagic, hmagic, hsize, bind, Except.bind]
    · rw [initialised, if_neg magic]
      exact live₂

theorem Live.contents_eq_iff (h : Live page a disk mem) (magic : storedMagic mem = kMagic)
    {old : Bytes} :
    a.contents disk = .ok old ↔
      headerSize + storedSize mem ≤ min a.capacity mem.length ∧ old = payload mem := by
  have hcontents : a.contents disk = a.load disk headerSize (storedSize mem) := by
    simp [MMapAux.contents, h.data, h.size, magic, bind, Except.bind]
  rw [hcontents]
  by_cases fits : headerSize + storedSize mem ≤ min a.capacity mem.length
  · rw [h.load _ _ fits]
    exact ⟨fun hold => ⟨fits, (Except.ok.inj hold).symm⟩, fun hold => congrArg Except.ok hold.2.symm⟩
  · rw [h.load_beyond _ _ fits]
    exact ⟨(fun hold => by cases hold), fun hold => absurd hold.1 fits⟩

/-- The content is kept where a mapping of no fewer bytes shows it. -/
theorem Live.kept_iff (h : Live page a disk mem) (magic : storedMagic mem = kMagic)
    {a' : MMapAux} {disk' : Disk} {mem' : Bytes} (h' : Live page a' disk' mem')
    (hcapacity : a.capacity ≤ a'.capacity) (hlength : mem.length ≤ mem'.length) :
    Kept (a, disk) (a', disk') ↔
      (0 < storedSize mem → headerSize + storedSize mem ≤ min a.capacity mem.length →
        storedMagic mem' = kMagic ∧
          payload mem = Bytes.slice mem' headerSize (storedSize mem)) := by
  have hpayload (fits : headerSize + storedSize mem ≤ min a.capacity mem.length) :
      (payload mem).length = storedSize mem :=
    Bytes.length_slice_of_le (Nat.le_trans fits (Nat.min_le_right _ _))
  have hload (fits : headerSize + storedSize mem ≤ min a.capacity mem.length) :
      a'.load disk' headerSize (storedSize mem) =
        .ok (Bytes.slice mem' headerSize (storedSize mem)) :=
    h'.load _ _ (by omega)
  constructor
  · intro kept content fits
    have nonempty : payload mem ≠ [] := by
      intro hnil
      have hzero := hpayload fits
      rw [hnil] at hzero
      exact absurd hzero.symm (Nat.ne_of_gt content)
    obtain ⟨off, hdata, hold⟩ := kept _ nonempty ((h.contents_eq_iff magic).mpr ⟨fits, rfl⟩)
    simp only [h'.data, Except.ok.injEq] at hdata
    by_cases magic' : storedMagic mem' = kMagic
    · rw [if_pos magic'] at hdata
      obtain rfl := Option.some.inj hdata
      simp only [hpayload fits, hload fits] at hold
      exact ⟨magic', (Except.ok.inj hold).symm⟩
    · rw [if_neg magic'] at hdata
      cases hdata
  · intro shows old nonempty hold
    obtain ⟨fits, rfl⟩ := (h.contents_eq_iff magic).mp hold
    have content : 0 < storedSize mem := by
      rw [← hpayload fits]
      exact List.length_pos_of_ne_nil nonempty
    obtain ⟨magic', same⟩ := shows content fits
    refine ⟨headerSize, ?_, ?_⟩
    · simp only [h'.data, if_pos magic']
    · simp only [hpayload fits, hload fits, ← same]

end Live

section Growth

variable {page : PageSize} {a : MMapAux} {disk : Disk} {os : SysCalls} {newSize : Nat}

private theorem ensureCapacity_def :
    ensureCapacity os page a disk newSize =
      if askedCapacity page newSize ≤ a.capacity then (a, disk)
      else if realCapacity page newSize ≤ a.capacity then (a, disk)
      else ({ (tryMap os page.bytes a.unmap disk (realCapacity page newSize)).1 with
          capacity := realCapacity page newSize },
        (tryMap os page.bytes a.unmap disk (realCapacity page newSize)).2) :=
  rfl

theorem ensureCapacity_stays (h : ¬ Grows page a newSize) :
    ensureCapacity os page a disk newSize = (a, disk) := by
  rw [Grows, not_and_or, Nat.not_lt, Nat.not_lt] at h
  rw [ensureCapacity_def]
  by_cases asks : askedCapacity page newSize ≤ a.capacity
  · exact if_pos asks
  · rw [if_neg asks, if_pos (h.resolve_left asks)]

theorem ensureCapacity_grows (h : Grows page a newSize) :
    ensureCapacity os page a disk newSize =
      ({ (tryMap os page.bytes a.unmap disk (realCapacity page newSize)).1 with
          capacity := realCapacity page newSize },
        (tryMap os page.bytes a.unmap disk (realCapacity page newSize)).2) := by
  rw [ensureCapacity_def, if_neg (Nat.not_le.mpr h.1), if_neg (Nat.not_le.mpr h.2)]

theorem ensureCapacity_lost (h : Grows page a newSize) (disk : Disk)
    (fails : ¬ (os.opens = true ∧ os.maps = true)) :
    (ensureCapacity os page a disk newSize).1.handle ≠ .mapped := by
  rw [ensureCapacity_grows h, tryMap]
  split
  · exact fun hnull => Handle.noConfusion hnull
  · rename_i opened
    have hopens : os.opens = true := by
      cases hopens : os.opens with
      | true => rfl
      | false => exact absurd (Or.inr hopens) opened
    have hmaps : os.maps = false := by
      cases hmaps : os.maps with
      | true => exact absurd ⟨hopens, hmaps⟩ fails
      | false => rfl
    simp [hmaps]

theorem le_capacityAfter (page : PageSize) (a : MMapAux) (newSize : Nat) :
    a.capacity ≤ capacityAfter page a newSize := by
  rw [capacityAfter]
  split
  · rename_i grows
    exact Nat.le_of_lt grows.2
  · exact Nat.le_refl _

theorem getValidCapacity_realCapacity (page : PageSize) (newSize : Nat) :
    Mmap.getValidCapacity page.bytes (realCapacity page newSize) = realCapacity page newSize :=
  getValidCapacity_mul page.pos _

theorem tryMap_opened (disk : Disk) (named : a.filePath ≠ "") (opens : os.opens = true)
    (maps : os.maps = true)
    {capacity : Nat} (hcapacity : initialCapacity page.bytes ≤ capacity)
    (pages : Mmap.getValidCapacity page.bytes capacity = capacity) :
    ∃ disk', tryMap os page.bytes a disk capacity = ({ a with handle := .mapped }, disk') ∧
      Maps page { a with handle := .mapped, capacity } disk'
        (mappedAnew page os (disk.contents a.filePath) capacity) := by
  have hopened : ¬ (a.filePath = "" ∨ os.opens = false) := by
    rw [opens]
    exact fun hor => hor.elim named (fun hfalse => Bool.noConfusion hfalse)
  rw [tryMap, if_neg hopened, maps]
  refine ⟨_, rfl, rfl, named, hcapacity, ?_, ?_⟩
  · simp only [Disk.image, Disk.contents_setRest, Disk.rest_setRest, disk.contents_write _ named]
    rw [mappedAnew]
    split
    · have hnone : Bytes.setLength os.shown 0 = [] :=
        List.length_eq_zero_iff.mp (Bytes.length_setLength _ _)
      rw [Bytes.length_setLength, pages, Nat.sub_self, hnone, List.append_nil]
    · rfl
  · simp only [Disk.contents_setRest, disk.contents_write _ named, mappedAnew]
    split
    · rw [Bytes.length_setLength, pages]
    · have hle := le_getValidCapacity page.pos (disk.contents a.filePath).length
      rw [List.length_append, Bytes.length_setLength]
      omega

variable {mem : Bytes}

theorem Live.ensureCapacity (h : Live page a disk mem)
    (maps : Grows page a newSize → os.opens = true ∧ os.maps = true) :
    ∃ disk', SizeT.ensureCapacity os page a disk newSize =
        ({ a with capacity := capacityAfter page a newSize }, disk') ∧
      Live page { a with capacity := capacityAfter page a newSize } disk'
        (remapped page os (a, disk) newSize) := by
  by_cases grows : Grows page a newSize
  · obtain ⟨hopens, hmaps⟩ := maps grows
    have hcapacity : initialCapacity page.bytes ≤ realCapacity page newSize :=
      Nat.le_trans h.initial (Nat.le_of_lt grows.2)
    obtain ⟨disk', htry, mapsAnew⟩ := tryMap_opened (a := a.unmap) disk h.named hopens
      hmaps hcapacity (getValidCapacity_realCapacity page newSize)
    obtain ⟨capacity, handle, filePath⟩ := a
    obtain rfl : handle = .mapped := h.mapped
    have hremapped : remapped page os (⟨capacity, .mapped, filePath⟩, disk) newSize =
        mappedAnew page os (disk.contents filePath) (realCapacity page newSize) := if_pos grows
    rw [capacityAfter, if_pos grows, hremapped]
    refine ⟨disk', ?_, mapsAnew, ?_⟩
    · rw [ensureCapacity_grows grows, htry]
      rfl
    · have hheader : headerSize ≤ realCapacity page newSize :=
        Nat.le_trans (headerSize_le_initialCapacity page.pos) hcapacity
      have hold := h.header
      have hpages : mem.length =
          Mmap.getValidCapacity page.bytes (disk.contents filePath).length := h.pages
      have hnew := mapsAnew.pages
      rw [mappedAnew]
      split
      · rw [Bytes.length_setLength]
        exact hheader
      · have hle := le_getValidCapacity page.pos (disk.contents filePath).length
        rw [List.length_append, Bytes.length_setLength]
        omega
  · rw [ensureCapacity_stays grows, capacityAfter, if_neg grows, remapped, if_neg grows]
    refine ⟨disk, rfl, ?_⟩
    simp only [h.image]
    exact h

theorem Live.length_remapped (h : Live page a disk mem) (stays : os.truncates = false)
    (newSize : Nat) :
    (remapped page os (a, disk) newSize).length = mem.length := by
  rw [remapped]
  split
  · have hle := le_getValidCapacity page.pos (disk.contents a.filePath).length
    have hpages := h.pages
    rw [mappedAnew, stays, if_neg Bool.false_ne_true, List.length_append, Bytes.length_setLength]
    simp only
    omega
  · rw [h.image]

end Growth

section Operations

variable {page : PageSize} {a : MMapAux} {disk : Disk} {os : SysCalls} {mem : Bytes}

theorem Live.asked_eq (h : Live page a disk mem) (op : Op) :
    asked (a, disk) op = op.newSize (storedSize mem) := by
  rw [asked, h.image]

theorem Live.lost (h : Live page a disk mem) (magic : storedMagic mem = kMagic) {op : Op}
    (grows : Grows page a (asked (a, disk) op)) (fails : ¬ (os.opens = true ∧ os.maps = true)) :
    op = .clear ∨ ∃ fault, apply page (a, disk) os op = .error fault := by
  have lost := ensureCapacity_lost grows disk fails
  rw [h.asked_eq] at lost
  cases op with
  | push object =>
    right
    simp only [Op.newSize] at lost
    simp only [apply, push, h.isValid_eq magic, h.size, if_pos magic, bind, Except.bind, if_true]
    generalize SizeT.ensureCapacity os page a disk (storedSize mem + object.bytes.length) = after
      at lost
    obtain ⟨a', disk'⟩ := after
    cases copyIn a' disk' object.bytes with
    | error fault => exact ⟨fault, rfl⟩
    | ok disk'' =>
      obtain ⟨fault, hfault⟩ := storeSize_unmapped lost disk''
        (storedSize mem + object.bytes.length)
      exact ⟨fault, by simp only [hfault]⟩
  | resize newSize =>
    right
    simp only [Op.newSize] at lost
    simp only [apply, resize, h.isValid_eq magic, bind, Except.bind, if_true]
    generalize SizeT.ensureCapacity os page a disk newSize.toNat = after at lost
    obtain ⟨a', disk'⟩ := after
    obtain ⟨fault, hfault⟩ := storeSize_unmapped lost disk' newSize.toNat
    exact ⟨fault, by simp only [hfault]⟩
  | clear => exact Or.inl rfl

theorem Live.not_grows_clear (h : Live page a disk mem) :
    ¬ Grows page a (asked (a, disk) .clear) := by
  have hpage := page.isInt
  have hsmall : 0 + headerSize ≤ kDafaultCapacity := by decide
  have hcapacity := getValidCapacity_mono page hsmall
  have hasked : askedCapacity page (asked (a, disk) .clear) =
      Mmap.getValidCapacity page.bytes (0 + headerSize) := by
    have hheader : headerSize = 8 := rfl
    rw [asked, Op.newSize, askedCapacity, Nat.mod_eq_of_lt (by omega),
      getValidCapacity_eq (by omega)]
  have initial : Mmap.getValidCapacity page.bytes kDafaultCapacity ≤ a.capacity := h.initial
  rw [Grows, hasked]
  omega

section Push

variable {object : Object}

private theorem Live.copyIn (h : Live page a disk mem) {bs : Bytes}
    (reaches : bs = [] ∨ storedMagic mem = kMagic ∧
      headerSize + storedSize mem + bs.length ≤ min a.capacity mem.length) :
    ∃ disk', SizeT.copyIn a disk bs = .ok disk' ∧ Live page a disk' (Image.copied mem bs) := by
  by_cases hbs : bs = []
  · refine ⟨disk, ?_, ?_⟩
    · simp [SizeT.copyIn, h.data, h.size, hbs, bind, Except.bind, pure, Except.pure]
    · rw [hbs, copied_nil]
      exact h
  · obtain ⟨magic, fits⟩ := reaches.resolve_left hbs
    obtain ⟨disk', hstore, live⟩ := h.store _ _ fits
    refine ⟨disk', ?_, live⟩
    simp [SizeT.copyIn, h.data, h.size, magic, hbs, hstore, bind, Except.bind]

private theorem Live.copyIn_astray (h : Live page a disk mem) {bs : Bytes}
    (astray : ¬ (bs = [] ∨ storedMagic mem = kMagic ∧
      headerSize + storedSize mem + bs.length ≤ min a.capacity mem.length)) :
    ∃ fault, SizeT.copyIn a disk bs = .error fault := by
  obtain ⟨hbs, beyond⟩ := not_or.mp astray
  by_cases magic : storedMagic mem = kMagic
  · have hstore := h.store_beyond _ _ (fun fits => beyond ⟨magic, fits⟩)
    exact ⟨.outOfRange, by simp [SizeT.copyIn, h.data, h.size, magic, hbs, hstore, bind,
      Except.bind]⟩
  · exact ⟨.nullAccess, by simp [SizeT.copyIn, h.data, h.size, magic, hbs, bind, Except.bind,
      throw, throwThe, MonadExceptOf.throw]⟩

theorem Live.push (h : Live page a disk mem) (magic : storedMagic mem = kMagic)
    (maps : Grows page a (asked (a, disk) (.push object)) → os.opens = true ∧ os.maps = true)
    (reaches : Reaches page (a, disk) os (.push object)) :
    ∃ disk', SizeT.push os page a disk object =
        .ok ({ a with capacity := capacityAfter page a (asked (a, disk) (.push object)) }, disk') ∧
      Live page { a with capacity := capacityAfter page a (asked (a, disk) (.push object)) } disk'
        (withSize ((Op.push object).copied
          (remapped page os (a, disk) (asked (a, disk) (.push object))))
          (asked (a, disk) (.push object))) := by
  obtain ⟨disk₁, hensured, live₁⟩ := h.ensureCapacity maps
  obtain ⟨disk₂, hcopied, live₂⟩ := live₁.copyIn reaches
  obtain ⟨disk₃, hstored, live₃⟩ := live₂.storeSize (asked (a, disk) (.push object))
  refine ⟨disk₃, ?_, live₃⟩
  have hasked : asked (a, disk) (.push object) = storedSize mem + object.bytes.length :=
    h.asked_eq _
  rw [hasked] at hensured hcopied hstored ⊢
  simp only [SizeT.push, h.isValid_eq magic, h.size, if_pos magic, hensured, hcopied, hstored,
    bind, Except.bind, pure, Except.pure, if_true]

theorem Live.push_astray (h : Live page a disk mem) (magic : storedMagic mem = kMagic)
    (maps : Grows page a (asked (a, disk) (.push object)) → os.opens = true ∧ os.maps = true)
    (astray : ¬ Reaches page (a, disk) os (.push object)) :
    ∃ fault, SizeT.push os page a disk object = .error fault := by
  obtain ⟨disk₁, hensured, live₁⟩ := h.ensureCapacity maps
  obtain ⟨fault, hfault⟩ := live₁.copyIn_astray astray
  have hasked : asked (a, disk) (.push object) = storedSize mem + object.bytes.length :=
    h.asked_eq _
  rw [hasked] at hensured hfault
  refine ⟨fault, ?_⟩
  simp only [SizeT.push, h.isValid_eq magic, h.size, if_pos magic, hensured, hfault, bind,
    Except.bind, if_true]

end Push

theorem Live.apply (h : Live page a disk mem) (magic : storedMagic mem = kMagic) (op : Op)
    (maps : Grows page a (asked (a, disk) op) → os.opens = true ∧ os.maps = true)
    (reaches : Reaches page (a, disk) os op) :
    ∃ disk', SizeT.apply page (a, disk) os op =
        .ok ({ a with capacity := capacityAfter page a (asked (a, disk) op) }, disk') ∧
      Live page { a with capacity := capacityAfter page a (asked (a, disk) op) } disk'
        (withSize (op.copied (remapped page os (a, disk) (asked (a, disk) op)))
          (asked (a, disk) op)) := by
  cases op with
  | push object => exact h.push magic maps reaches
  | resize newSize =>
    obtain ⟨disk₁, hensured, live₁⟩ := h.ensureCapacity maps
    obtain ⟨disk₂, hstored, live₂⟩ := live₁.storeSize (asked (a, disk) (.resize newSize))
    refine ⟨disk₂, ?_, live₂⟩
    have hasked : asked (a, disk) (.resize newSize) = newSize.toNat := rfl
    rw [hasked] at hensured hstored ⊢
    simp only [SizeT.apply, SizeT.resize, h.isValid_eq magic, hensured, hstored, bind, Except.bind,
      pure, Except.pure, if_true]
  | clear =>
    obtain ⟨disk₁, hstored, live₁⟩ := h.storeSize 0
    have stays := h.not_grows_clear
    have hcapacity : capacityAfter page a (asked (a, disk) .clear) = a.capacity := if_neg stays
    have hremapped : remapped page os (a, disk) (asked (a, disk) .clear) = mem := by
      rw [remapped, if_neg stays]
      exact h.image
    rw [hcapacity, hremapped]
    refine ⟨disk₁, ?_, live₁⟩
    simp only [SizeT.apply, MMapAux.clear, h.isValid_eq magic, hstored, bind, Except.bind, pure,
      Except.pure, if_true]

theorem Live.apply_astray (h : Live page a disk mem) (magic : storedMagic mem = kMagic) {op : Op}
    (astray : ¬ ((Grows page a (asked (a, disk) op) → os.opens = true ∧ os.maps = true) ∧
      Reaches page (a, disk) os op)) :
    ∃ fault, SizeT.apply page (a, disk) os op = .error fault := by
  by_cases maps : Grows page a (asked (a, disk) op) → os.opens = true ∧ os.maps = true
  · have beyond : ¬ Reaches page (a, disk) os op := fun reaches => astray ⟨maps, reaches⟩
    cases op with
    | push object => exact h.push_astray magic maps beyond
    | resize newSize => exact absurd trivial beyond
    | clear => exact absurd trivial beyond
  · obtain ⟨grows, fails⟩ := Classical.not_imp.mp maps
    rcases h.lost magic grows fails with rfl | lost
    · exact absurd grows h.not_grows_clear
    · exact lost

theorem Reaches.copied {s : MMapAux × Disk} {op : Op} (reaches : Reaches page s os op)
    {mem' : Bytes} (hmem' : mem' = remapped page os s (asked s op)) :
    (op.copied mem').length = mem'.length ∧ storedMagic (op.copied mem') = storedMagic mem' := by
  cases op with
  | push object =>
    by_cases hbs : object.bytes = []
    · rw [Op.copied, hbs, copied_nil]
      exact ⟨rfl, rfl⟩
    · obtain ⟨-, fits⟩ := reaches.resolve_left hbs
      rw [← hmem'] at fits
      have hinside : headerSize + storedSize mem' + object.bytes.length ≤ mem'.length :=
        Nat.le_trans fits (Nat.min_le_right _ _)
      refine ⟨length_copied hinside, ?_⟩
      rw [Op.copied, storedMagic, slice_copied_before hinside (by rw [headerSize]; omega)]
      rfl
  | resize newSize => exact ⟨rfl, rfl⟩
  | clear => exact ⟨rfl, rfl⟩

theorem Live.kept_apply_iff (h : Live page a disk mem) (magic : storedMagic mem = kMagic) {op : Op}
    {disk' : Disk} (stays : os.truncates = false) (reaches : Reaches page (a, disk) os op)
    (live : Live page { a with capacity := capacityAfter page a (asked (a, disk) op) } disk'
      (withSize (op.copied (remapped page os (a, disk) (asked (a, disk) op)))
        (asked (a, disk) op))) :
    Kept (a, disk) ({ a with capacity := capacityAfter page a (asked (a, disk) op) }, disk') ↔
      Shows page (a, disk) os op := by
  have hlength := h.length_remapped stays (asked (a, disk) op)
  obtain ⟨hsame, hmagic⟩ := reaches.copied rfl
  have hheader : headerSize ≤
      (op.copied (remapped page os (a, disk) (asked (a, disk) op))).length := by
    rw [hsame, hlength]
    exact h.header
  have hwhole : (withSize (op.copied (remapped page os (a, disk) (asked (a, disk) op)))
      (asked (a, disk) op)).length = mem.length := by
    rw [length_withSize hheader, hsame, hlength]
  rw [h.kept_iff magic live (le_capacityAfter _ _ _) (Nat.le_of_eq hwhole.symm),
    storedMagic_withSize hheader, slice_withSize hheader, hmagic, Shows]
  simp only [h.image]

end Operations

section Silent

variable {page : PageSize} {a : MMapAux} {disk : Disk}

theorem answers_silent (h : a.isValid disk = .ok false) : Answers (a, disk) := by
  refine ⟨⟨0, ?_⟩, ⟨none, ?_⟩, fun fp => ⟨0, ?_⟩⟩ <;>
    simp [size, data, getRatio, h, bind, Except.bind, pure, Except.pure]

theorem apply_silent (h : a.isValid disk = .ok false) (os : SysCalls) (op : Op) :
    apply page (a, disk) os op = .ok (a, disk) := by
  cases op <;> simp [apply, push, resize, clear, h, bind, Except.bind, pure, Except.pure]

end Silent

/-- The states between operations that went well: never mapped, or mapped with a header. -/
def Sound (page : PageSize) (s : MMapAux × Disk) : Prop :=
  s.1.handle = .null ∨ ∃ mem, Live page s.1 s.2 mem

theorem Sound.silent_or_live {page : PageSize} {a : MMapAux} {disk : Disk}
    (h : Sound page (a, disk)) : a.isValid disk = .ok false ∨
      ∃ mem, Live page a disk mem ∧ storedMagic mem = kMagic := by
  rcases h with hnull | ⟨mem, live⟩
  · left
    rw [isValid, hnull]
  · by_cases magic : storedMagic mem = kMagic
    · exact Or.inr ⟨mem, live, magic⟩
    · exact Or.inl (live.isValid_ne magic)

section Construct

variable {page : PageSize} {path : Path} {disk : Disk} {os : SysCalls}

private theorem construct_tryMap :
    construct os page path disk =
      (init { (tryMap os page.bytes ⟨0, .null, path⟩ disk (initialCapacity page.bytes)).1 with
          capacity := initialCapacity page.bytes }
        (tryMap os page.bytes ⟨0, .null, path⟩ disk (initialCapacity page.bytes)).2).map
          (({ (tryMap os page.bytes ⟨0, .null, path⟩ disk (initialCapacity page.bytes)).1 with
            capacity := initialCapacity page.bytes }, ·)) := by
  have hmore : ¬ Mmap.getValidCapacity page.bytes kDafaultCapacity ≤ 0 := by
    have hheader := headerSize_le_initialCapacity page.pos
    have hpos : 0 < headerSize := by decide
    exact Nat.not_le.mpr (Nat.lt_of_lt_of_le hpos hheader)
  simp only [construct_eq, MMapAux.construct, getFileSize_movedFrom, Nat.zero_max,
    MMapAux.reserve, if_neg hmore, unmap]
  generalize tryMap os page.bytes ⟨0, .null, path⟩ disk (initialCapacity page.bytes) = m
  obtain ⟨a, disk'⟩ := m
  simp only
  cases init { a with capacity := initialCapacity page.bytes } disk' <;> rfl

/-- No file is opened: an object without a mapping, and nothing is accessed. -/
theorem construct_unopened (h : path = "" ∨ os.opens = false) :
    construct os page path disk = .ok (⟨initialCapacity page.bytes, .null, path⟩, disk) := by
  rw [construct_tryMap, tryMap, if_pos h]
  rfl

/-- The file is opened and cannot be mapped: `Init_` looks at `MAP_FAILED`. -/
theorem construct_failed (hpath : path ≠ "") (opens : os.opens = true) (fails : os.maps = false) :
    construct os page path disk = .error .failedMapping := by
  have hopened : ¬ (path = "" ∨ os.opens = false) := by
    rw [opens]
    exact fun hor => hor.elim hpath (fun hfalse => Bool.noConfusion hfalse)
  rw [construct_tryMap, tryMap, if_neg hopened, fails]
  rfl

theorem construct_mapped (page : PageSize) (disk : Disk) (hpath : path ≠ "")
    (opens : os.opens = true) (maps : os.maps = true) :
    ∃ disk', construct os page path disk =
        (init ⟨initialCapacity page.bytes, .mapped, path⟩ disk').map
          ((⟨initialCapacity page.bytes, .mapped, path⟩, ·)) ∧
      Maps page ⟨initialCapacity page.bytes, .mapped, path⟩ disk'
        (mappedAnew page os (disk.contents path) (initialCapacity page.bytes)) := by
  obtain ⟨disk', htry, mapsAnew⟩ := tryMap_opened (a := ⟨0, .null, path⟩) disk hpath opens
    maps (Nat.le_refl _) (getValidCapacity_idem page.pos kDafaultCapacity)
  refine ⟨disk', ?_, mapsAnew⟩
  rw [construct_tryMap, htry]

theorem room_mappedAnew_iff (page : PageSize) (os : SysCalls) (contents : Bytes) :
    headerSize ≤ (mappedAnew page os contents (initialCapacity page.bytes)).length ↔
      os.truncates = true ∨ headerSize ≤ Mmap.getValidCapacity page.bytes contents.length := by
  rw [mappedAnew]
  split
  · rename_i truncates
    rw [Bytes.length_setLength]
    exact iff_of_true (headerSize_le_initialCapacity page.pos) (Or.inl truncates)
  · rename_i stays
    have hle := le_getValidCapacity page.pos contents.length
    rw [or_iff_right stays, List.length_append, Bytes.length_setLength, Nat.add_sub_of_le hle]

theorem construct_cases (page : PageSize) (os : SysCalls) (path : Path) (disk : Disk) :
    (Constructs page os path disk ∧
        ∃ s, construct os page path disk = .ok s ∧ Answers s ∧ Sound page s) ∨
      (¬ Constructs page os path disk ∧
        ∀ s, construct os page path disk = .ok s → ¬ Answers s) := by
  by_cases unopened : path = "" ∨ os.opens = false
  · refine Or.inl ⟨?_, _, construct_unopened unopened, answers_silent rfl, Or.inl rfl⟩
    exact unopened.elim Or.inl (fun fails => Or.inr (Or.inl fails))
  · obtain ⟨hpath, hopens⟩ := not_or.mp unopened
    have opens : os.opens = true := Bool.eq_true_of_not_eq_false hopens
    rw [Constructs, or_iff_right hpath, or_iff_right hopens, ← room_mappedAnew_iff page os]
    by_cases maps : os.maps = true
    · obtain ⟨disk', hconstruct, mapsAnew⟩ := construct_mapped page disk hpath opens maps
      rw [hconstruct]
      by_cases room : headerSize ≤
          (mappedAnew page os (disk.contents path) (initialCapacity page.bytes)).length
      · obtain ⟨disk'', hinit, live⟩ := Live.init ⟨mapsAnew, room⟩
        refine Or.inl ⟨⟨maps, room⟩, (_, disk''), ?_, live.answers, Or.inr ⟨_, live⟩⟩
        rw [hinit]
        rfl
      · refine Or.inr ⟨fun hand => room hand.2, fun s hs => ?_⟩
        cases hinit : init ⟨initialCapacity page.bytes, .mapped, path⟩ disk' with
        | error fault =>
          rw [hinit] at hs
          cases hs
        | ok disk'' =>
          rw [hinit] at hs
          obtain rfl := Except.ok.inj hs
          exact mapsAnew.init_short (Nat.lt_of_not_le room) disk'' hinit
    · refine Or.inr ⟨fun hand => maps hand.1, fun s hconstruct => ?_⟩
      rw [construct_failed hpath opens (Bool.eq_false_of_not_eq_true maps)] at hconstruct
      cases hconstruct

end Construct

section Calls

variable {page : PageSize} {a : MMapAux} {disk : Disk} {os : SysCalls} {op : Op} {mem : Bytes}

theorem Live.call_iff (h : Live page a disk mem) (magic : storedMagic mem = kMagic) :
    (∃ next, call page (a, disk) (os, op) = some next ∧
        Harmless page (a, disk) (os, op) next) ↔ Safe page (a, disk) (os, op) := by
  have valid : ¬ a.isValid disk = .ok false := by
    rw [h.isValid_eq magic]
    exact fun hfalse => Bool.noConfusion (Except.ok.inj hfalse)
  rw [Safe, or_iff_right valid]
  by_cases done : (Grows page a (asked (a, disk) op) → os.opens = true ∧ os.maps = true) ∧
      Reaches page (a, disk) os op
  · obtain ⟨maps, reaches⟩ := done
    obtain ⟨disk', happly, live⟩ := h.apply magic op maps reaches
    have hcall : call page (a, disk) (os, op) =
        some ({ a with capacity := capacityAfter page a (asked (a, disk) op) }, disk') := by
      rw [call, happly]
      rfl
    constructor
    · rintro ⟨next, hnext, -, kept⟩
      obtain rfl := Option.some.inj (hcall.symm.trans hnext)
      refine ⟨fun grows => ⟨maps grows, ?_⟩, reaches⟩
      by_cases truncates : os.truncates = true
      · exact Or.inl truncates
      · have stays := Bool.eq_false_of_not_eq_true truncates
        exact Or.inr ((h.kept_apply_iff magic stays reaches live).mp
          (kept ⟨h.isValid_eq magic, grows, Or.inr (Or.inl stays)⟩))
    · rintro ⟨safe, -⟩
      refine ⟨_, hcall, live.answers, fun ⟨_, grows, fails⟩ => ?_⟩
      obtain ⟨⟨hopens, hmaps⟩, shows⟩ := safe grows
      have stays : os.truncates = false := by
        rcases fails with closed | stays | unmapped
        · exact absurd (hopens.symm.trans closed) (by decide)
        · exact stays
        · exact absurd (hmaps.symm.trans unmapped) (by decide)
      rw [stays] at shows
      exact (h.kept_apply_iff magic stays reaches live).mpr
        (shows.resolve_left Bool.false_ne_true)
  · obtain ⟨fault, hfault⟩ := h.apply_astray magic done
    refine iff_of_false ?_ fun safe => done ⟨fun grows => (safe.1 grows).1, safe.2⟩
    rintro ⟨next, hcall, -⟩
    rw [call, hfault] at hcall
    cases hcall

theorem Sound.call_iff {s : MMapAux × Disk} (h : Sound page s) (c : SysCalls × Op) :
    (∃ next, call page s c = some next ∧ Harmless page s c next) ↔ Safe page s c := by
  obtain ⟨a, disk⟩ := s
  obtain ⟨os, op⟩ := c
  rcases h.silent_or_live with silent | ⟨mem, live, magic⟩
  · have hcall : call page (a, disk) (os, op) = some (a, disk) := by
      rw [call, apply_silent silent]
      rfl
    refine iff_of_true ⟨_, hcall, answers_silent silent, fun growthFails => ?_⟩ (Or.inl silent)
    have hvalid := silent.symm.trans growthFails.valid
    exact Bool.noConfusion (Except.ok.inj hvalid)
  · exact live.call_iff magic

theorem Sound.call {s next : MMapAux × Disk} (h : Sound page s) {c : SysCalls × Op}
    (hcall : call page s c = some next) : Sound page next := by
  obtain ⟨a, disk⟩ := s
  obtain ⟨os, op⟩ := c
  rcases h.silent_or_live with silent | ⟨mem, live, magic⟩
  · rw [SizeT.call, apply_silent silent] at hcall
    obtain rfl := Option.some.inj hcall
    exact h
  · by_cases done : (Grows page a (asked (a, disk) op) → os.opens = true ∧ os.maps = true) ∧
        Reaches page (a, disk) os op
    · obtain ⟨disk', happly, live'⟩ := live.apply magic op done.1 done.2
      rw [SizeT.call, happly] at hcall
      obtain rfl := Option.some.inj hcall
      exact Or.inr ⟨_, live'⟩
    · obtain ⟨fault, hfault⟩ := live.apply_astray magic done
      rw [SizeT.call, hfault] at hcall
      cases hcall

end Calls

/-- Whatever system calls fail: no access goes astray and no content is lost over the whole
history exactly when the constructor opens nothing or maps a file with room for the header, and
every operation on an object with a header is safe. -/
theorem failedMapping_harmless_iff (page : PageSize) (path : Path) (disk : Disk) (os : SysCalls)
    (calls : List (SysCalls × Op)) :
    (∃ s, construct os page path disk = .ok s ∧ Answers s ∧
        Passes (call page) (Harmless page) s calls) ↔
      Constructs page os path disk ∧ ∀ s, construct os page path disk = .ok s →
        Meets (call page) (Safe page) s calls := by
  have passes_iff (s : MMapAux × Disk) (sound : Sound page s) :
      Passes (call page) (Harmless page) s calls ↔ Meets (call page) (Safe page) s calls :=
    passes_iff_meets (fun _ _ _ sound hcall _ => sound.call hcall)
      (fun _ c sound => sound.call_iff c) sound calls
  rcases construct_cases page os path disk with
    ⟨constructs, s, hconstruct, answers, sound⟩ | ⟨astray, silent⟩
  · constructor
    · rintro ⟨s', hconstruct', -, passes⟩
      obtain rfl := Except.ok.inj (hconstruct.symm.trans hconstruct')
      refine ⟨constructs, fun s' hconstruct' => ?_⟩
      obtain rfl := Except.ok.inj (hconstruct.symm.trans hconstruct')
      exact (passes_iff s sound).mp passes
    · rintro ⟨-, meets⟩
      exact ⟨s, hconstruct, answers, (passes_iff s sound).mpr (meets s hconstruct)⟩
  · constructor
    · rintro ⟨s, hconstruct, answers, -⟩
      exact absurd answers (silent s hconstruct)
    · rintro ⟨constructs, -⟩
      exact absurd constructs astray

/-- A growth whose `open` fails stores the size through the null pointer. -/
theorem Live.resize_unopened {page : PageSize} {a : MMapAux} {disk : Disk} {mem : Bytes}
    {newSize : UInt64} (h : Live page a disk mem) (magic : storedMagic mem = kMagic)
    (os : SysCalls) (grows : Grows page a newSize.toNat) (fails : os.opens = false) :
    SizeT.resize os page a disk newSize = .error .nullAccess := by
  have hstore : MMapAux.storeSize { a.unmap with capacity := realCapacity page newSize.toNat } disk
      newSize.toNat = .error .nullAccess := rfl
  simp only [SizeT.resize, h.isValid_eq magic, ensureCapacity_grows grows, tryMap,
    if_pos (Or.inr fails), hstore, bind, Except.bind, if_true]

/-- `Resize` on a new object, to one byte more than it has room for, when `open` fails. -/
theorem failedGrowth_nullAccess :
    ∃ s, construct .working .usual "master_mmap" .blank = .ok s ∧
      apply .usual s ⟨false, true, true, []⟩ (.resize 524281) = .error .nullAccess ∧
      ¬ Passes (call .usual) (Harmless .usual) s [(⟨false, true, true, []⟩, .resize 524281)] := by
  have hpath : "master_mmap" ≠ "" := by decide
  have opens : SysCalls.working.opens = true := rfl
  obtain ⟨disk', hconstruct, mapsAnew⟩ := construct_mapped .usual .blank hpath opens rfl
  have room := (room_mappedAnew_iff .usual .working (Disk.blank.contents "master_mmap")).mpr
    (Or.inl rfl)
  obtain ⟨disk, hinit, live⟩ := Live.init ⟨mapsAnew, room⟩
  have magic := (valid_initialised room).magic
  have grows : Grows .usual ⟨initialCapacity PageSize.usual.bytes, .mapped, "master_mmap"⟩
      (524281 : UInt64).toNat := by decide
  have hnull := live.resize_unopened magic ⟨false, true, true, []⟩ grows rfl
  refine ⟨(_, disk), by rw [hconstruct, hinit]; rfl, hnull, ?_⟩
  rintro ⟨next, hcall, -⟩
  rw [call, apply, hnull] at hcall
  cases hcall

end FlashLog.Mmap.SizeT
