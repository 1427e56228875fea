import FlashLog.Mmap.Persistence
import FlashLog.Mmap.SizeT

/-!
Whether `Data()[0, Size())` lies inside the mapping, for an object opened on any file. The size
field is taken over from a file that carries the magic number, and nothing compares it with the
capacity.
-/

set_option autoImplicit false
set_option relaxedAutoImplicit false

namespace FlashLog.Mmap.SizeT

open FlashLog.Support
open FlashLog.Support.Machine
open FlashLog.Mmap.MMapAux
open FlashLog.Mmap.Image

/-- `sizeof(MMapHeader) + Size() <= capacity_`, and `Data()[0, Size())` can be read. -/
structure InBounds (s : MMapAux × Disk) : Prop where
  fits : ∃ size, s.1.size s.2 = .ok size ∧ headerSize + size ≤ s.1.capacity
  readable : ∃ bs, s.1.contents s.2 = .ok bs

def step (page : PageSize) (s : MMapAux × Disk) (op : Op) : Option (MMapAux × Disk) :=
  (apply page s .working op).toOption

/-- The file's first `initialCapacity` bytes, zeros where it is shorter: a magic number comes
with a size that fits. -/
def HeaderFits (page : PageSize) (mem : Bytes) : Prop :=
  let mem := Bytes.setLength mem (initialCapacity page.bytes)
  storedMagic mem = kMagic → headerSize + storedSize mem ≤ initialCapacity page.bytes

/-- A `Resize` asks for a size that rounds to whole pages, or leaves one that fits anyway. -/
def KeepsBounds (page : PageSize) (s : MMapAux × Disk) : Op → Prop
  | .resize newSize =>
    Roomy page newSize.toNat ∨ headerSize + newSize.toNat % 2 ^ 32 ≤ s.1.capacity
  | _ => True

section Ready

variable {page : PageSize} {a : MMapAux} {disk : Disk}

theorem inBounds_iff (h : Ready a disk) :
    InBounds (a, disk) ↔ headerSize + storedSize (disk.contents a.filePath) ≤ a.capacity := by
  constructor
  · rintro ⟨⟨size, hsize, fits⟩, -⟩
    obtain rfl := Except.ok.inj (h.size.symm.trans hsize)
    exact fits
  · intro fits
    exact ⟨⟨_, h.size, fits⟩, _, h.contents fits⟩

theorem copyIn_eq (h : Ready a disk) (bs : Bytes)
    (fits : headerSize + storedSize (disk.contents a.filePath) + bs.length ≤ a.capacity) :
    copyIn a disk bs = MMapAux.copyIn a disk bs := by
  by_cases hbs : bs = []
  · subst hbs
    have hnonempty : disk.contents a.filePath ≠ [] := by
      intro hnil
      have hheader := h.valid.header
      rw [hnil] at hheader
      exact absurd hheader (by decide)
    have hsame : copied (disk.contents a.filePath) [] = disk.contents a.filePath := by
      simp [copied, Bytes.store]
    rw [h.copyIn [] fits, hsame, disk.write_contents hnonempty h.whole]
    simp [copyIn, h.data, h.size, bind, Except.bind, pure, Except.pure]
  · simp [copyIn, MMapAux.copyIn, h.data, h.size, hbs, bind, Except.bind]

theorem push_eq (h : Ready a disk) (object : Object) :
    push .working page a disk object =
      MMapAux.push .working page.bytes a disk object.bytes := by
  have roomy : Roomy page (storedSize (disk.contents a.filePath) + object.bytes.length) :=
    roomy_push page (storedSize_lt _) object
  have hgrown := h.grow (le_grown_capacity page.bytes a.capacity
    (storedSize (disk.contents a.filePath) + object.bytes.length))
  have hroom := le_grown_size page.pos a.capacity
    (storedSize (disk.contents a.filePath) + object.bytes.length)
  have hcopy := copyIn_eq hgrown object.bytes (by
    have hheader : headerSize ≤ (disk.contents a.filePath).length := h.valid.header
    simp only [disk.contents_write _ h.named]
    rw [storedSize_setLength hheader (Nat.le_trans h.headerSize_le (le_grown_capacity _ _ _))]
    omega)
  simp only [push, MMapAux.push, h.isValid, h.size, ensureCapacity_eq roomy,
    h.ensureCapacity page.pos, hcopy, bind, Except.bind, if_true]

theorem headerSize_add_mod_le_grown (page : PageSize) (capacity newSize : Nat) :
    headerSize + newSize % 2 ^ 32 ≤ grown page.bytes capacity newSize := by
  have hroom := le_grown_size page.pos capacity newSize
  have hmod := Nat.mod_le newSize (2 ^ 32)
  omega

end Ready

/-- A mapping of a whole valid file, from the initial capacity on. -/
structure Opened (page : PageSize) (s : MMapAux × Disk) : Prop where
  ready : Ready s.1 s.2
  initial : initialCapacity page.bytes ≤ s.1.capacity

section Steps

variable {page : PageSize} {s : MMapAux × Disk}

theorem Opened.push (h : Opened page s) (object : Object) :
    ∃ next, apply page s .working (.push object) = .ok next ∧ Opened page next ∧
      InBounds next := by
  obtain ⟨a, disk⟩ := s
  obtain ⟨ready, initial⟩ := h
  have valid := ready.valid
  have hcontents : ∀ mem, (disk.write a.filePath mem).contents a.filePath = mem :=
    fun mem => disk.contents_write mem ready.named
  have hready := ready.write (valid_pushed page.pos valid object.bytes)
  have hlength := length_pushed page.pos valid object.bytes
  refine ⟨_, (push_eq ready object).trans (ready.push page.pos object.bytes), ⟨hready, ?_⟩, ?_⟩
  · rw [ready.covered] at hlength
    simp only [hlength]
    exact Nat.le_trans initial (le_grown_capacity _ _ _)
  · rw [inBounds_iff hready]
    simp only [hcontents, hlength, storedSize_pushed page.pos valid]
    exact headerSize_add_mod_le_grown _ _ _

/-- `Resize` stores the low 32 bits; the capacity follows where nothing wraps. -/
theorem Opened.resize (h : Opened page s) (newSize : UInt64) :
    ∃ next, apply page s .working (.resize newSize) = .ok next ∧ Opened page next ∧
      (InBounds next ↔ KeepsBounds page s (.resize newSize)) := by
  obtain ⟨a, disk⟩ := s
  obtain ⟨ready, initial⟩ := h
  have valid := ready.valid
  have hcontents : ∀ mem, (disk.write a.filePath mem).contents a.filePath = mem :=
    fun mem => disk.contents_write mem ready.named
  by_cases roomy : Roomy page newSize.toNat
  · have heq : resize .working page a disk newSize =
        MMapAux.resize .working page.bytes a disk newSize.toNat := by
      simp only [SizeT.resize, MMapAux.resize, ensureCapacity_eq roomy]
    have grownValid : Valid (grownImage page.bytes (disk.contents a.filePath) newSize.toNat) :=
      valid_grownImage valid _
    have hlength := length_withSize grownValid.header newSize.toNat
    rw [length_grownImage, ready.covered] at hlength
    have hready := ready.write (grownValid.withSize newSize.toNat)
    rw [hlength] at hready
    refine ⟨_, heq.trans (ready.resize page.pos newSize.toNat),
      ⟨hready, Nat.le_trans initial (le_grown_capacity _ _ _)⟩, iff_of_true ?_ (Or.inl roomy)⟩
    rw [inBounds_iff hready]
    simp only [hcontents, storedSize_withSize grownValid.header]
    exact headerSize_add_mod_le_grown _ _ _
  · have hstays : ensureCapacity .working page a disk newSize.toNat = (a, disk) :=
      ensureCapacity_wrapped roomy newSize.toNat_lt initial
    have hlength := length_withSize valid.header newSize.toNat
    rw [ready.covered] at hlength
    have hready := ready.write_of_length (valid.withSize newSize.toNat) hlength
    refine ⟨(a, disk.write a.filePath (withSize (disk.contents a.filePath) newSize.toNat)), ?_,
      ⟨hready, initial⟩, ?_⟩
    · simp only [apply, SizeT.resize, ready.isValid, hstays, ready.storeSize, bind, Except.bind,
        pure, Except.pure, if_true]
    · rw [inBounds_iff hready, hcontents, storedSize_withSize valid.header]
      simp only [KeepsBounds, roomy, false_or]

theorem Opened.clear (h : Opened page s) :
    ∃ next, apply page s .working .clear = .ok next ∧ Opened page next ∧ InBounds next := by
  obtain ⟨a, disk⟩ := s
  obtain ⟨ready, initial⟩ := h
  have valid := ready.valid
  have hlength := length_withSize valid.header 0
  rw [ready.covered] at hlength
  have hready := ready.write_of_length (valid.withSize 0) hlength
  refine ⟨_, ready.clear, ⟨hready, initial⟩, ?_⟩
  rw [inBounds_iff hready, disk.contents_write _ ready.named, storedSize_withSize valid.header]
  exact ready.headerSize_le

theorem Opened.apply (h : Opened page s) (op : Op) :
    ∃ next, apply page s .working op = .ok next ∧ Opened page next ∧
      (InBounds next ↔ KeepsBounds page s op) := by
  cases op with
  | push object =>
    obtain ⟨next, hpush, opened, bounds⟩ := h.push object
    exact ⟨next, hpush, opened, iff_of_true bounds trivial⟩
  | resize newSize => exact h.resize newSize
  | clear =>
    obtain ⟨next, hclear, opened, bounds⟩ := h.clear
    exact ⟨next, hclear, opened, iff_of_true bounds trivial⟩

theorem opened_fits_iff (page : PageSize) (mem : Bytes) :
    headerSize + storedSize (opened page.bytes mem) ≤ initialCapacity page.bytes ↔
      HeaderFits page mem := by
  have hheader : headerSize ≤ initialCapacity page.bytes := headerSize_le_initialCapacity page.pos
  rw [HeaderFits, storedSize_opened page.pos]
  split
  · rename_i hmagic
    exact ⟨fun fits _ => fits, fun fits => fits hmagic⟩
  · rename_i hmagic
    exact iff_of_true hheader fun magic => absurd magic hmagic

theorem construct_opened (page : PageSize) {path : Path} (hpath : path ≠ "") (disk : Disk) :
    ∃ s, construct .working page path disk = .ok s ∧ Opened page s ∧
      (InBounds s ↔ HeaderFits page (disk.contents path)) := by
  have hready := ready_opened page.pos hpath disk
  refine ⟨_, (construct_eq path).trans (construct_working page.pos hpath disk),
    ⟨hready, Nat.le_refl _⟩, ?_⟩
  rw [inBounds_iff hready, disk.contents_write _ hpath]
  exact opened_fits_iff page _

end Steps

/-- On any file and over any operations, `Data()[0, Size())` lies inside the mapping in every
state exactly when the file's header fits and every `Resize` keeps the bounds. -/
theorem opened_inBounds_iff (page : PageSize) {path : Path} (hpath : path ≠ "") (disk : Disk)
    (ops : List Op) :
    (∃ s, construct .working page path disk = .ok s ∧ InBounds s ∧
        Passes (step page) (fun _ _ next => InBounds next) s ops) ↔
      HeaderFits page (disk.contents path) ∧
        ∀ s, construct .working page path disk = .ok s →
          Meets (step page) (KeepsBounds page) s ops := by
  obtain ⟨s, hconstruct, opened, bounds⟩ := construct_opened page hpath disk
  have hstep : ∀ s op, Opened page s → ∃ next, step page s op = some next ∧ Opened page next ∧
      (InBounds next ↔ KeepsBounds page s op) := by
    intro s op opened
    obtain ⟨next, happly, opened', iff⟩ := opened.apply op
    exact ⟨next, by rw [step, happly]; rfl, opened', iff⟩
  have passes : Passes (step page) (fun _ _ next => InBounds next) s ops ↔
      Meets (step page) (KeepsBounds page) s ops := passes_iff_meets (I := Opened page)
    (fun s op next opened hnext _ => by
      obtain ⟨next', hnext', opened', -⟩ := hstep s op opened
      obtain rfl := Option.some.inj (hnext'.symm.trans hnext)
      exact opened')
    (fun s op opened => by
      obtain ⟨next, hnext, -, iff⟩ := hstep s op opened
      rw [← iff]
      constructor
      · rintro ⟨next', hnext', inBounds⟩
        obtain rfl := Option.some.inj (hnext.symm.trans hnext')
        exact inBounds
      · exact fun inBounds => ⟨next, hnext, inBounds⟩)
    opened ops
  constructor
  · rintro ⟨s', hconstruct', inBounds, hpasses⟩
    obtain rfl := Except.ok.inj (hconstruct.symm.trans hconstruct')
    refine ⟨bounds.mp inBounds, fun s' hconstruct' => ?_⟩
    obtain rfl := Except.ok.inj (hconstruct.symm.trans hconstruct')
    exact passes.mp hpasses
  · rintro ⟨fits, meets⟩
    exact ⟨s, hconstruct, bounds.mpr fits, passes.mpr (meets s hconstruct)⟩

/-- What an earlier process left: the magic number, a size of five and the five bytes. -/
def leftFive : Disk :=
  Disk.blank.write "master_mmap"
    (Bytes.ofNatLE 4 kMagic ++ Bytes.ofNatLE 4 5 ++ [104, 101, 108, 108, 111])

def someOps : List Op := [.push ⟨[33], by decide⟩, .resize 9, .clear]

theorem opened_inBounds_iff_leftFive :
    (∃ s, construct .working .usual "master_mmap" leftFive = .ok s ∧ InBounds s ∧
        Passes (step .usual) (fun _ _ next => InBounds next) s someOps) ↔
      HeaderFits .usual (leftFive.contents "master_mmap") ∧
        ∀ s, construct .working .usual "master_mmap" leftFive = .ok s →
          Meets (step .usual) (KeepsBounds .usual) s someOps :=
  opened_inBounds_iff .usual (by decide) leftFive _

/-- A file of eight bytes: the magic number and the largest size. -/
def oversized : Disk :=
  Disk.blank.write "master_mmap" (Bytes.ofNatLE 4 kMagic ++ Bytes.ofNatLE 4 0xffffffff)

theorem oversized_outOfBounds :
    ∃ s, construct .working .usual "master_mmap" oversized = .ok s ∧ ¬ InBounds s ∧
      s.1.contents s.2 = .error .outOfRange := by
  have hpath : "master_mmap" ≠ "" := by decide
  obtain ⟨s, hconstruct, opened, bounds⟩ := construct_opened .usual hpath oversized
  have hcontents : oversized.contents "master_mmap" =
      Bytes.ofNatLE 4 kMagic ++ Bytes.ofNatLE 4 0xffffffff :=
    Disk.blank.contents_write _ hpath
  have outside : ¬ InBounds s := by
    rw [bounds, hcontents]
    intro fits
    have hheader : headerSize ≤ (Bytes.ofNatLE 4 kMagic ++ Bytes.ofNatLE 4 0xffffffff).length :=
      Nat.le_refl 8
    have hinitial : headerSize ≤ initialCapacity PageSize.usual.bytes := by decide
    have valid : Valid (Bytes.ofNatLE 4 kMagic ++ Bytes.ofNatLE 4 0xffffffff) :=
      ⟨hheader, by decide⟩
    have hfits := fits (valid.setLength hinitial).magic
    rw [storedSize_setLength hheader hinitial] at hfits
    exact absurd hfits (by decide)
  refine ⟨s, hconstruct, outside, opened.ready.contents_outOfRange ?_⟩
  have hle := mt (inBounds_iff opened.ready).mpr outside
  omega

end FlashLog.Mmap.SizeT
