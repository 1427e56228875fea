import FlashLog.Mmap.MappedFile

/-!
A buffer abandoned by one process and mapped again by the next: what the new
`MMapAux` finds of what the old one held.
-/

set_option autoImplicit false
set_option relaxedAutoImplicit false

namespace FlashLog.Mmap.MMapAux

open FlashLog.Support
open Image

inductive Op
  | push (bs : Bytes)
  | resize (newSize : Nat)
  | clear

def apply (page : Nat) : Op → MMapAux × Disk → Except Fault (MMapAux × Disk)
  | .push bs, (a, disk) => push .working page a disk bs
  | .resize newSize, (a, disk) => resize .working page a disk newSize
  | .clear, (a, disk) => clear a disk

def applyAll (page : Nat) : List Op → MMapAux × Disk → Except Fault (MMapAux × Disk)
  | [], s => .ok s
  | op :: ops, s => do applyAll page ops (← apply page op s)

def history (page : Nat) (path : Path) (disk : Disk) (ops : List Op) :
    Except Fault (MMapAux × Disk) := do
  applyAll page ops (← construct .working page path disk)

/-- The new object reports the old one's size and holds the old one's bytes. -/
def Persists (old new : MMapAux × Disk) : Prop :=
  new.1.size new.2 = old.1.size old.2 ∧
    ∃ bytes, old.1.contents old.2 = .ok bytes ∧ new.1.contents new.2 = .ok bytes

/-- A ready object on `path` whose file has at least the initial capacity. -/
structure Grown (page : Nat) (path : Path) (s : MMapAux × Disk) : Prop where
  ready : Ready s.1 s.2
  onPath : s.1.filePath = path
  capacity : initialCapacity page ≤ s.1.capacity

section Persistence

variable {page : Nat} {path : Path}

private theorem grown_construct (hpage : 0 < page) (hpath : path ≠ "") (disk : Disk) :
    ∃ s, construct .working page path disk = .ok s ∧ Grown page path s := by
  refine ⟨_, construct_working hpage hpath disk, ready_opened hpage hpath disk, rfl, ?_⟩
  exact Nat.le_refl _

private theorem Grown.write {s : MMapAux × Disk} (h : Grown page path s) {mem : Bytes} {n : Nat}
    (valid : Valid mem) (hlen : mem.length = n) (hn : s.1.capacity ≤ n) :
    Grown page path ({ s.1 with capacity := n }, s.2.write s.1.filePath mem) := by
  subst hlen
  exact ⟨h.ready.write valid, h.onPath, Nat.le_trans h.capacity hn⟩

private theorem grown_apply (hpage : 0 < page) {s : MMapAux × Disk} (h : Grown page path s)
    (op : Op) : ∃ next, apply page op s = .ok next ∧ Grown page path next := by
  have hvalid := h.ready.valid
  have hcovered := h.ready.covered
  cases op with
  | push bs =>
    refine ⟨_, h.ready.push hpage bs, h.write (valid_pushed hpage hvalid bs) rfl ?_⟩
    rw [length_pushed hpage hvalid, hcovered]
    exact le_grown_capacity _ _ _
  | resize newSize =>
    refine ⟨_, h.ready.resize hpage newSize,
      h.write ((valid_grownImage hvalid newSize).withSize _) ?_ (le_grown_capacity _ _ _)⟩
    rw [length_withSize (valid_grownImage hvalid newSize).header, length_grownImage, hcovered]
  | clear =>
    refine ⟨_, h.ready.clear, h.write (hvalid.withSize 0) ?_ (Nat.le_refl _)⟩
    rw [length_withSize hvalid.header, hcovered]

private theorem grown_applyAll (hpage : 0 < page) (ops : List Op) {s : MMapAux × Disk}
    (h : Grown page path s) : ∃ last, applyAll page ops s = .ok last ∧ Grown page path last := by
  induction ops generalizing s with
  | nil => exact ⟨s, rfl, h⟩
  | cons op ops ih =>
    obtain ⟨next, hnext, hgrown⟩ := grown_apply hpage h op
    obtain ⟨last, hlast, hgrown⟩ := ih hgrown
    refine ⟨last, ?_, hgrown⟩
    simp only [applyAll, hnext, bind, Except.bind]
    exact hlast

theorem history_grown (hpage : 0 < page) (hpath : path ≠ "") (disk : Disk) (ops : List Op) :
    ∃ s, history page path disk ops = .ok s ∧ Grown page path s := by
  obtain ⟨first, hfirst, hgrown⟩ := grown_construct hpage hpath disk
  obtain ⟨last, hlast, hgrown⟩ := grown_applyAll hpage ops hgrown
  refine ⟨last, ?_, hgrown⟩
  simp only [history, hfirst, bind, Except.bind]
  exact hlast

/-- The object mapped over an abandoned one has a file of the initial capacity, with the
size field and the bytes that the cut left. -/
theorem Grown.reopen (hpage : 0 < page) (hpath : path ≠ "") {old : MMapAux × Disk}
    (h : Grown page path old) :
    ∃ new, construct .working page path old.2 = .ok new ∧ Ready new.1 new.2 ∧
      new.1.capacity = initialCapacity page ∧
      new.2.contents new.1.filePath =
        Bytes.setLength (old.2.contents old.1.filePath) (initialCapacity page) := by
  refine ⟨_, construct_working hpage hpath old.2, ready_opened hpage hpath old.2, rfl, ?_⟩
  have hvalid := h.ready.valid
  rw [h.onPath] at hvalid ⊢
  simp only [old.2.contents_write _ hpath]
  exact opened_of_valid hpage hvalid

theorem Grown.persists_iff (hpage : 0 < page) {old new : MMapAux × Disk}
    (h : Grown page path old) (hready : Ready new.1 new.2)
    (hcapacity : new.1.capacity = initialCapacity page)
    (hcut : new.2.contents new.1.filePath =
      Bytes.setLength (old.2.contents old.1.filePath) (initialCapacity page)) :
    Persists old new ↔
      headerSize + storedSize (old.2.contents old.1.filePath) ≤ initialCapacity page := by
  have hheader := headerSize_le_initialCapacity hpage
  have hsize : storedSize (new.2.contents new.1.filePath) =
      storedSize (old.2.contents old.1.filePath) := by
    rw [hcut]
    exact storedSize_setLength h.ready.valid.header hheader
  constructor
  · rintro ⟨-, bytes, -, hnew⟩
    by_contra hbeyond
    rw [hready.contents_outOfRange (by rw [hsize, hcapacity]; omega)] at hnew
    cases hnew
  · intro hfits
    have hold := h.capacity
    refine ⟨?_, payload (old.2.contents old.1.filePath), ?_, ?_⟩
    · rw [hready.size, h.ready.size, hsize]
    · exact h.ready.contents (Nat.le_trans hfits h.capacity)
    · rw [hready.contents (by rw [hsize, hcapacity]; exact hfits), hcut]
      congr 1
      exact payload_setLength h.ready.valid.header
        (by rw [h.ready.covered]; exact Nat.le_trans hfits h.capacity) hfits

/-- Whatever the operations did, a restart keeps the contents if and only if they fit the
initial capacity. -/
theorem restart_persists_iff {page : Nat} (hpage : 0 < page) {path : Path} (hpath : path ≠ "")
    (disk : Disk) (ops : List Op) :
    ∃ old new size, history page path disk ops = .ok old ∧ old.1.size old.2 = .ok size ∧
      construct .working page path old.2 = .ok new ∧
      (Persists old new ↔ headerSize + size ≤ initialCapacity page) := by
  obtain ⟨old, hold, hgrown⟩ := history_grown hpage hpath disk ops
  obtain ⟨new, hnew, hready, hcapacity, hcut⟩ := hgrown.reopen hpage hpath
  exact ⟨old, new, _, hold, hgrown.ready.size, hnew,
    hgrown.persists_iff hpage hready hcapacity hcut⟩

private theorem history_push_blank (hpage : 0 < page) (hpath : path ≠ "") (bs : Bytes)
    (hbs : bs.length < 2 ^ 32) :
    ∃ old, history page path .blank [.push bs] = .ok old ∧ Grown page path old ∧
      storedSize (old.2.contents old.1.filePath) = bs.length ∧
      headerSize + bs.length ≤ old.1.capacity := by
  obtain ⟨old, hold, hgrown⟩ := history_grown hpage hpath .blank [.push bs]
  refine ⟨old, hold, hgrown, ?_⟩
  have hready := ready_opened hpage hpath .blank
  have hpush := hready.push hpage bs
  have hempty : Disk.blank.contents path = [] := rfl
  simp only [Disk.contents_write _ _ hpath, Disk.write_write, hempty] at hpush
  simp only [history, construct_working hpage hpath, hempty, applyAll, apply, hpush, bind,
    Except.bind, Except.ok.injEq] at hold
  subst hold
  simp only [Disk.contents_write _ _ hpath]
  constructor
  · rw [storedSize_pushed hpage (valid_opened hpage []), storedSize_opened_blank hpage,
      Nat.zero_add, Nat.mod_eq_of_lt hbs]
  · have hfits := le_grown_size hpage (opened page []).length (0 + bs.length)
    rw [length_pushed hpage (valid_opened hpage []), storedSize_opened_blank hpage]
    omega

end Persistence

theorem restart_persists_iff_two_bytes :
    ∃ old new, history 4096 "master_mmap" .blank [.push [104, 105]] = .ok old ∧
      construct .working 4096 "master_mmap" old.2 = .ok new ∧ Persists old new := by
  have hpage : 0 < 4096 := by decide
  have hpath : "master_mmap" ≠ "" := by decide
  obtain ⟨old, new, size, hold, hsize, hnew, hiff⟩ :=
    restart_persists_iff hpage hpath .blank [.push [104, 105]]
  obtain ⟨old', hold', hgrown, hstored, -⟩ :=
    history_push_blank hpage hpath [104, 105] (by decide)
  obtain rfl : old = old' := Except.ok.inj (hold.symm.trans hold')
  have hvalue : size = 2 := by
    have hread := hgrown.ready.size
    rw [hstored, hsize] at hread
    exact Except.ok.inj hread
  refine ⟨old, new, hold, hnew, hiff.mpr ?_⟩
  rw [hvalue]
  decide

/-- A buffer grown past the initial capacity is cut by the next construction: its size
field is kept, and the bytes it counts are outside the new mapping. -/
theorem restart_cuts_grown_file :
    ∃ old new, history 4096 "master_mmap" .blank [.push (List.replicate 524281 7)] = .ok old ∧
      construct .working 4096 "master_mmap" old.2 = .ok new ∧
      old.1.size old.2 = .ok 524281 ∧ new.1.size new.2 = .ok 524281 ∧
      (∃ bytes, old.1.contents old.2 = .ok bytes) ∧
      new.1.contents new.2 = .error .outOfRange ∧ ¬ Persists old new := by
  have hpage : 0 < 4096 := by decide
  have hpath : "master_mmap" ≠ "" := by decide
  have hlen : (List.replicate 524281 (7 : UInt8)).length = 524281 := List.length_replicate
  have hbeyond : initialCapacity 4096 < headerSize + 524281 := by decide
  obtain ⟨old, hold, hgrown, hstored, hroom⟩ := history_push_blank hpage hpath
    (List.replicate 524281 7) (by rw [hlen]; decide)
  rw [hlen] at hstored hroom
  obtain ⟨new, hnew, hready, hcapacity, hcut⟩ := hgrown.reopen hpage (by decide)
  have hsize : storedSize (new.2.contents new.1.filePath) = 524281 := by
    rw [hcut, storedSize_setLength hgrown.ready.valid.header (by decide), hstored]
  refine ⟨old, new, hold, hnew, ?_, ?_, ⟨_, hgrown.ready.contents ?_⟩, ?_, ?_⟩
  · rw [hgrown.ready.size, hstored]
  · rw [hready.size, hsize]
  · rw [hstored]
    exact hroom
  · exact hready.contents_outOfRange (by rw [hsize, hcapacity]; exact hbeyond)
  · rw [hgrown.persists_iff hpage hready hcapacity hcut, hstored]
    exact Nat.not_le_of_lt hbeyond

end FlashLog.Mmap.MMapAux
