import FlashLog.Support.Machine
import FlashLog.Mmap.MappedFile
import FlashLog.Decode.ItemLoop

/-!
`WriteToCache_` on a mapped buffer, store by store: the header of an item and its payload
are two calls of `Push`, and each `Push` may grow the mapping, copies its bytes and then
stores the new size. Calls of `WriteToCache_` and `Clear` on one buffer do not overlap:
`mtx_` is held during the former, and the latter follows an exchange or holds it too.
-/

set_option autoImplicit false
set_option relaxedAutoImplicit false

namespace FlashLog.Sinks.ItemStores

open FlashLog.Support
open FlashLog.Support.Machine (run)
open FlashLog.Mmap
open FlashLog.Mmap.MMapAux
open FlashLog.Mmap.Image

/-- The two calls of `Push` in `WriteToCache_`. -/
inductive Part
  | header | payload

def Part.bytes : Part → Bytes → Bytes
  | .header, item => ItemHeader.bytes item.length
  | .payload, item => item

/-- The next store of `WriteToCache_`; `newSize` is the local variable of `Push`. -/
inductive Stage
  | idle
  | grow (part : Part) (item : Bytes)
  | copy (part : Part) (item : Bytes) (newSize : Nat)
  | commit (part : Part) (item : Bytes) (newSize : Nat)

/-- A mapped buffer that items are written to. -/
structure Journal where
  aux : MMapAux
  disk : Disk
  stage : Stage
  /-- the items whose `WriteToCache_` has returned since the last `Clear` -/
  returned : List Bytes

inductive Label
  | writeToCache (item : Bytes)
  | store
  | clear

def Journal.afterPush (j : Journal) (part : Part) (item : Bytes) : Journal :=
  match part with
  | .header => { j with stage := .grow .payload item }
  | .payload => { j with stage := .idle, returned := j.returned ++ [item] }

/-- The next store. `Push` of an invalid buffer returns at once. -/
def storeStep (page : Nat) (j : Journal) : Option Journal :=
  match j.stage with
  | .idle => none
  | .grow part item =>
    match j.aux.isValid j.disk, j.aux.size j.disk with
    | .ok true, .ok size =>
      let newSize := size + (part.bytes item).length
      let (aux, disk) := ensureCapacity .working page j.aux j.disk newSize
      some { j with aux, disk, stage := .copy part item newSize }
    | .ok false, _ => some (j.afterPush part item)
    | _, _ => none
  | .copy part item newSize =>
    match j.aux.copyIn j.disk (part.bytes item) with
    | .ok disk => some { j with disk, stage := .commit part item newSize }
    | .error _ => none
  | .commit part item newSize =>
    match j.aux.storeSize j.disk newSize with
    | .ok disk => some ({ j with disk }.afterPush part item)
    | .error _ => none

def step (page : Nat) (j : Journal) : Label → Option Journal
  | .writeToCache item =>
    match j.stage with
    | .idle => some { j with stage := .grow .header item }
    | _ => none
  | .store => storeStep page j
  | .clear =>
    match j.stage, j.aux.clear j.disk with
    | .idle, .ok (aux, disk) => some { j with aux, disk, returned := [] }
    | _, _ => none

/-- What the size field covers of the item under way. -/
def Stage.covered : Stage → Bytes
  | .grow .payload item | .copy .payload item _ | .commit .payload item _ =>
    ItemHeader.bytes item.length
  | _ => []

/-- The size field covers a header that announces a payload which it does not cover yet. -/
def Stage.Dangling : Stage → Prop
  | .grow .payload item | .copy .payload item _ | .commit .payload item _ =>
    item.length % 2 ^ 32 ≠ 0
  | _ => False

/-- The bytes that have been pushed since the last `Clear`. -/
def Journal.content (j : Journal) : Bytes :=
  ItemHeader.framing.frames j.returned ++ j.stage.covered

/-- The next construction finds whole items, the returned ones first, and the decoder's loop
passes over them. -/
def RecoversItems (page : Nat) (path : Path) (j : Journal) : Prop :=
  ∃ new bytes items, construct .working page path j.disk = .ok new ∧
    new.1.contents new.2 = .ok bytes ∧ bytes = ItemHeader.framing.frames items ∧
    j.returned <+: items ∧
    ∀ rest, Decode.decodeItems (bytes ++ rest) bytes.length 0 = .ok items

def Journal.mem (j : Journal) : Bytes := j.disk.contents j.aux.filePath

def Journal.Prepared (j : Journal) : Prop :=
  match j.stage with
  | .idle | .grow _ _ => True
  | .copy part item newSize =>
    newSize = storedSize j.mem + (part.bytes item).length ∧ headerSize + newSize ≤ j.mem.length
  | .commit part item newSize =>
    newSize = storedSize j.mem + (part.bytes item).length ∧ headerSize + newSize ≤ j.mem.length ∧
      Bytes.slice j.mem headerSize newSize = payload j.mem ++ part.bytes item

/-- The invariant of a journal on the file `path`. The size field holds 32 bits, so the file
shows the pushed bytes as long as their number fits. -/
structure Sound (page : Nat) (path : Path) (j : Journal) : Prop where
  ready : Ready j.aux j.disk
  onPath : j.aux.filePath = path
  capacity : initialCapacity page ≤ j.aux.capacity
  covers : storedSize j.mem = j.content.length % 2 ^ 32
  holds : j.content.length < 2 ^ 32 → payload j.mem = j.content
  fits : headerSize + storedSize j.mem ≤ j.mem.length
  prepared : j.Prepared

section Steps

variable {page : Nat} {path : Path} {j next : Journal}

private theorem storeStep_grow {part : Part} {item : Bytes} (hpage : 0 < page)
    (h : Ready j.aux j.disk) (hstage : j.stage = .grow part item) :
    storeStep page j = some
      { j with
        aux := { j.aux with
          capacity := grown page j.aux.capacity (storedSize j.mem + (part.bytes item).length) }
        disk := j.disk.write j.aux.filePath
          (grownImage page j.mem (storedSize j.mem + (part.bytes item).length))
        stage := .copy part item (storedSize j.mem + (part.bytes item).length) } := by
  have hcovered : j.mem.length = j.aux.capacity := h.covered
  rw [storeStep, hstage]
  simp only [h.isValid, h.size, h.ensureCapacity hpage, grownImage, hcovered]
  rfl

private theorem storeStep_copy {part : Part} {item : Bytes} {newSize : Nat}
    (h : Ready j.aux j.disk) (hstage : j.stage = .copy part item newSize)
    (fits : headerSize + storedSize j.mem + (part.bytes item).length ≤ j.mem.length) :
    storeStep page j = some
      { j with
        disk := j.disk.write j.aux.filePath (copied j.mem (part.bytes item))
        stage := .commit part item newSize } := by
  rw [storeStep, hstage]
  simp only [h.copyIn (part.bytes item) (by rw [← h.covered]; exact fits)]
  rfl

private theorem storeStep_commit {part : Part} {item : Bytes} {newSize : Nat}
    (h : Ready j.aux j.disk) (hstage : j.stage = .commit part item newSize) :
    storeStep page j = some
      ({ j with disk := j.disk.write j.aux.filePath (withSize j.mem newSize) }.afterPush part
        item) := by
  rw [storeStep, hstage]
  simp only [h.storeSize newSize]
  rfl

private theorem content_afterPush (part : Part) (item : Bytes) (newSize : Nat)
    (hstage : j.stage = .commit part item newSize) :
    (j.afterPush part item).content = j.content ++ part.bytes item := by
  cases part with
  | header => simp [Journal.afterPush, Journal.content, hstage, Stage.covered, Part.bytes]
  | payload =>
    simp [Journal.afterPush, Journal.content, hstage, Stage.covered, Part.bytes,
      Framing.frames_append, Framing.frames_singleton, ItemHeader.framing]

private theorem Sound.length_mem (h : Sound page path j) : j.mem.length = j.aux.capacity :=
  h.ready.covered

private theorem sound_grow {part : Part} {item : Bytes} (hpage : 0 < page) (h : Sound page path j)
    (hstage : j.stage = .grow part item) (hstep : storeStep page j = some next) :
    Sound page path next := by
  have hvalid : Valid j.mem := h.ready.valid
  have hfits := h.fits
  generalize hsize : storedSize j.mem + (part.bytes item).length = newSize
  have hroom := le_grown_size hpage j.mem.length newSize
  have hmore := le_grown_capacity page j.mem.length newSize
  have hlength := length_grownImage page j.mem newSize
  have hnext : next =
      { j with
        aux := { j.aux with capacity := grown page j.aux.capacity newSize }
        disk := j.disk.write j.aux.filePath (grownImage page j.mem newSize)
        stage := .copy part item newSize } := by
    rw [storeStep_grow hpage h.ready hstage, hsize] at hstep
    exact (Option.some.inj hstep).symm
  have hmem : next.mem = grownImage page j.mem newSize := by
    rw [hnext]
    exact j.disk.contents_write _ h.ready.named
  have hcontent : next.content = j.content := by
    rw [hnext, Journal.content, Journal.content, hstage]
    cases part <;> rfl
  have hstored : storedSize next.mem = storedSize j.mem := by
    rw [hmem, storedSize_grownImage hvalid]
  have hgrow := h.ready.grow (le_grown_capacity page j.aux.capacity newSize)
  refine ⟨?_, ?_, ?_, ?_, ?_, ?_, ?_⟩
  · rw [hnext, grownImage, h.length_mem]
    exact hgrow
  · rw [hnext]
    exact h.onPath
  · rw [hnext]
    exact Nat.le_trans h.capacity (le_grown_capacity _ _ _)
  · rw [hstored, hcontent]
    exact h.covers
  · intro hsmall
    rw [hcontent] at hsmall ⊢
    rw [hmem, grownImage, payload_setLength hvalid.header hfits (Nat.le_trans hfits hmore),
      h.holds hsmall]
  · rw [hstored, hmem, hlength]
    exact Nat.le_trans hfits hmore
  · have hstage' : next.stage = .copy part item newSize := by rw [hnext]
    rw [Journal.Prepared, hstage']
    simp only
    rw [hstored, hmem, hlength]
    exact ⟨hsize.symm, hroom⟩

private theorem sound_copy {part : Part} {item : Bytes} {newSize : Nat} (h : Sound page path j)
    (hstage : j.stage = .copy part item newSize) (hstep : storeStep page j = some next) :
    Sound page path next := by
  have hvalid : Valid j.mem := h.ready.valid
  have hprepared := h.prepared
  rw [Journal.Prepared, hstage] at hprepared
  obtain ⟨hsize, hroom⟩ := hprepared
  have hfits : headerSize + storedSize j.mem + (part.bytes item).length ≤ j.mem.length := by omega
  have hlength := length_copied hfits
  have hnext : next =
      { j with
        disk := j.disk.write j.aux.filePath (copied j.mem (part.bytes item))
        stage := .commit part item newSize } := by
    rw [storeStep_copy h.ready hstage hfits] at hstep
    exact (Option.some.inj hstep).symm
  have hmem : next.mem = copied j.mem (part.bytes item) := by
    rw [hnext]
    exact j.disk.contents_write _ h.ready.named
  have hcontent : next.content = j.content := by
    rw [hnext, Journal.content, Journal.content, hstage]
    cases part <;> rfl
  have hstored : storedSize next.mem = storedSize j.mem := by
    rw [hmem, storedSize_copied hfits]
  have hpayload : payload next.mem = payload j.mem := by
    rw [hmem, payload_copied hfits]
  refine ⟨?_, ?_, ?_, ?_, ?_, ?_, ?_⟩
  · rw [hnext]
    exact h.ready.write_of_length (hvalid.copied hfits) (hlength.trans h.length_mem)
  · rw [hnext]
    exact h.onPath
  · rw [hnext]
    exact h.capacity
  · rw [hstored, hcontent]
    exact h.covers
  · rw [hpayload, hcontent]
    exact h.holds
  · rw [hstored, hmem, hlength]
    exact h.fits
  · have hstage' : next.stage = .commit part item newSize := by rw [hnext]
    rw [Journal.Prepared, hstage']
    simp only
    rw [hstored, hpayload, hmem, hlength]
    refine ⟨hsize, hroom, ?_⟩
    rw [hsize, slice_copied hfits]

private theorem sound_commit {part : Part} {item : Bytes} {newSize : Nat} (h : Sound page path j)
    (hstage : j.stage = .commit part item newSize) (hstep : storeStep page j = some next) :
    Sound page path next := by
  have hvalid : Valid j.mem := h.ready.valid
  have hprepared := h.prepared
  rw [Journal.Prepared, hstage] at hprepared
  obtain ⟨hsize, hroom, hslice⟩ := hprepared
  have hlength := length_withSize hvalid.header newSize
  have hnext : next =
      { j with
        disk := j.disk.write j.aux.filePath (withSize j.mem newSize) }.afterPush part item := by
    rw [storeStep_commit h.ready hstage] at hstep
    exact (Option.some.inj hstep).symm
  have haux : next.aux = j.aux ∧
      next.disk = j.disk.write j.aux.filePath (withSize j.mem newSize) := by
    rw [hnext]
    cases part <;> exact ⟨rfl, rfl⟩
  have hmem : next.mem = withSize j.mem newSize := by
    rw [Journal.mem, haux.1, haux.2]
    exact j.disk.contents_write _ h.ready.named
  have hcontent : next.content = j.content ++ part.bytes item := by
    rw [← content_afterPush part item newSize hstage, hnext]
    cases part <;> rfl
  have hstored : storedSize next.mem = newSize % 2 ^ 32 := by
    rw [hmem, storedSize_withSize hvalid.header]
  have hcovers := h.covers
  refine ⟨?_, ?_, ?_, ?_, ?_, ?_, ?_⟩
  · rw [haux.1, haux.2]
    exact h.ready.write_of_length (hvalid.withSize newSize) (hlength.trans h.length_mem)
  · rw [haux.1]
    exact h.onPath
  · rw [haux.1]
    exact h.capacity
  · rw [hstored, hsize, hcovers, hcontent, List.length_append, Nat.mod_add_mod]
  · intro hsmall
    rw [hcontent, List.length_append] at hsmall
    have hbefore : j.content.length < 2 ^ 32 := by omega
    have hbound : newSize < 2 ^ 32 := by
      rw [hsize, hcovers, Nat.mod_eq_of_lt hbefore]
      exact hsmall
    rw [payload, hstored, Nat.mod_eq_of_lt hbound, hmem, slice_withSize hvalid.header, hslice,
      h.holds hbefore, hcontent]
  · rw [hstored, hmem, hlength]
    have hmod := Nat.mod_le newSize (2 ^ 32)
    omega
  · rw [hnext]
    cases part <;> trivial

private theorem sound_clear (h : Sound page path j) (hstage : j.stage = .idle)
    (hstep : step page j .clear = some next) : Sound page path next := by
  have hvalid : Valid j.mem := h.ready.valid
  have hlength := length_withSize hvalid.header 0
  have hnext : next =
      { j with
        disk := j.disk.write j.aux.filePath (withSize j.mem 0)
        returned := [] } := by
    simp only [step, hstage, h.ready.clear] at hstep
    rw [hstage]
    exact (Option.some.inj hstep).symm
  have hmem : next.mem = withSize j.mem 0 := by
    rw [hnext]
    exact j.disk.contents_write _ h.ready.named
  have hidle : next.stage = .idle := by
    rw [hnext]
    exact hstage
  have hcontent : next.content = [] := by
    rw [Journal.content, hidle, hnext]
    rfl
  have hstored : storedSize next.mem = 0 := by
    rw [hmem, storedSize_withSize hvalid.header, Nat.zero_mod]
  refine ⟨?_, ?_, ?_, ?_, ?_, ?_, ?_⟩
  · rw [hnext]
    exact h.ready.write_of_length (hvalid.withSize 0) (hlength.trans h.length_mem)
  · rw [hnext]
    exact h.onPath
  · rw [hnext]
    exact h.capacity
  · rw [hstored, hcontent]
    rfl
  · intro _
    rw [payload, hstored, hcontent]
    exact Bytes.slice_zero _ _
  · rw [hstored, hmem, hlength]
    exact hvalid.header
  · rw [Journal.Prepared, hidle]
    trivial

theorem sound_step (hpage : 0 < page) (j : Journal) (a : Label) (next : Journal)
    (h : Sound page path j) (hstep : step page j a = some next) : Sound page path next := by
  cases a with
  | writeToCache item =>
    cases hstage : j.stage with
    | idle =>
      simp only [step, hstage] at hstep
      obtain rfl := Option.some.inj hstep
      have hcontent : Journal.content { j with stage := .grow .header item } = j.content := by
        rw [Journal.content, Journal.content, hstage]
        rfl
      refine ⟨h.ready, h.onPath, h.capacity, ?_, ?_, h.fits, trivial⟩
      · rw [hcontent]
        exact h.covers
      · rw [hcontent]
        exact h.holds
    | _ => simp [step, hstage] at hstep
  | store =>
    cases hstage : j.stage with
    | idle =>
      rw [step, storeStep, hstage] at hstep
      cases hstep
    | grow part item => exact sound_grow hpage h hstage hstep
    | copy part item newSize => exact sound_copy h hstage hstep
    | commit part item newSize => exact sound_commit h hstage hstep
  | clear =>
    cases hstage : j.stage with
    | idle => exact sound_clear h hstage hstep
    | _ => simp [step, hstage] at hstep

private theorem run_copy_commit {part : Part} {item : Bytes} {newSize : Nat}
    (h : Ready j.aux j.disk) (hstage : j.stage = .copy part item newSize)
    (fits : headerSize + storedSize j.mem + (part.bytes item).length ≤ j.mem.length) :
    run (step page) j [.store, .store] = some ({ j with
      disk := j.disk.write j.aux.filePath
        (withSize (copied j.mem (part.bytes item)) newSize) }.afterPush part item) := by
  have hready : Ready j.aux (j.disk.write j.aux.filePath (copied j.mem (part.bytes item))) :=
    h.write_of_length (h.valid.copied fits) ((length_copied fits).trans h.covered)
  have hcopy : storeStep page j = _ := storeStep_copy h hstage fits
  generalize hnext : ({ j with
    disk := j.disk.write j.aux.filePath (copied j.mem (part.bytes item))
    stage := .commit part item newSize } : Journal) = next at hcopy
  have hmem : next.mem = copied j.mem (part.bytes item) := by
    rw [← hnext]
    exact j.disk.contents_write _ h.named
  have hstage' : next.stage = .commit part item newSize := by rw [← hnext]
  have hcommit : storeStep page next = _ :=
    storeStep_commit (by rw [← hnext]; exact hready) hstage'
  rw [Machine.run_cons, step, hcopy, Option.bind_some, Machine.run_cons, step, hcommit, hmem,
    Option.bind_some, Machine.run_nil, ← hnext, Disk.write_write]
  cases part <;> rfl

theorem run_stores_eq_push (hpage : 0 < page) (h : Ready j.aux j.disk) (part : Part) (item : Bytes)
    (hstage : j.stage = .grow part item) :
    ∃ aux disk, push .working page j.aux j.disk (part.bytes item) = .ok (aux, disk) ∧
      Ready aux disk ∧ run (step page) j [.store, .store, .store] =
        some ({ j with aux, disk }.afterPush part item) := by
  refine ⟨_, _, h.push hpage (part.bytes item), h.write (valid_pushed hpage h.valid _), ?_⟩
  have hvalid : Valid j.mem := h.valid
  have hcovered : j.mem.length = j.aux.capacity := h.covered
  have hlength := length_pushed hpage hvalid (part.bytes item)
  have hgrow := storeStep_grow hpage h hstage
  have hready := h.grow (le_grown_capacity page j.aux.capacity
    (storedSize j.mem + (part.bytes item).length))
  generalize hnewSize : storedSize j.mem + (part.bytes item).length = newSize
    at hgrow hready hlength
  obtain ⟨next, hnext⟩ : ∃ next, next = ({ j with
      aux := { j.aux with capacity := grown page j.aux.capacity newSize }
      disk := j.disk.write j.aux.filePath (grownImage page j.mem newSize)
      stage := .copy part item newSize } : Journal) := ⟨_, rfl⟩
  have hmem : next.mem = grownImage page j.mem newSize := by
    rw [hnext]
    exact j.disk.contents_write _ h.named
  have hfits : headerSize + storedSize next.mem + (part.bytes item).length ≤ next.mem.length := by
    rw [hmem, ← hnewSize]
    exact fits_grownImage hpage hvalid (part.bytes item)
  have hready' : Ready next.aux next.disk := by
    rw [hnext, grownImage, hcovered]
    exact hready
  have hstage' : next.stage = .copy part item newSize := by rw [hnext]
  have hrest : run (step page) next [.store, .store] = _ := run_copy_commit hready' hstage' hfits
  have hpushed : pushed page j.mem (part.bytes item) =
      withSize (copied next.mem (part.bytes item)) newSize := by
    rw [hmem, pushed, hnewSize]
  have hcapacity : (pushed page j.mem (part.bytes item)).length =
      grown page j.aux.capacity newSize := by
    rw [hlength, hcovered]
  rw [← hnext] at hgrow
  rw [Machine.run_cons, step, hgrow, Option.bind_some, hrest, ← hpushed, hnext]
  simp only [Disk.write_write]
  rw [← hcapacity]
  cases part <;> rfl

end Steps

section Recovery

variable {page : Nat} {path : Path} {j : Journal}

private theorem content_of_not_dangling (h : ¬ j.stage.Dangling) :
    ∃ items, j.content = ItemHeader.framing.frames items ∧ j.returned <+: items := by
  have hdone : ∀ part item, j.stage.covered = Stage.covered (.grow part item) →
      (part = .payload → item.length % 2 ^ 32 = 0) →
      ∃ items, j.content = ItemHeader.framing.frames items ∧ j.returned <+: items := by
    intro part item hcovered hempty
    cases part with
    | header =>
      refine ⟨j.returned, ?_, List.prefix_refl _⟩
      rw [Journal.content, hcovered]
      exact List.append_nil _
    | payload =>
      -- the header announces nothing, so it is an item by itself
      have hheader : ItemHeader.bytes item.length = ItemHeader.bytes 0 := by
        rw [← ItemHeader.bytes_mod, hempty rfl]
      refine ⟨j.returned ++ [[]], ?_, List.prefix_append _ _⟩
      rw [Journal.content, hcovered, Framing.frames_append, Framing.frames_singleton,
        List.append_nil]
      exact congrArg (_ ++ ·) hheader
  cases hstage : j.stage with
  | idle =>
    refine ⟨j.returned, ?_, List.prefix_refl _⟩
    rw [Journal.content, hstage]
    exact List.append_nil _
  | grow part item | copy part item n | commit part item n =>
    rw [hstage] at h
    refine hdone part item ?_ ?_
    · refine (congrArg Stage.covered hstage).trans ?_
      cases part <;> rfl
    · rintro rfl
      exact not_not.mp h

private theorem content_of_dangling (h : j.stage.Dangling) (hsmall : j.content.length < 2 ^ 32)
    (items : List Bytes) : j.content ≠ ItemHeader.framing.frames items := by
  obtain ⟨size, hsize, hbound, hcovered⟩ : ∃ size, 0 < size ∧ size < 2 ^ 32 ∧
      j.stage.covered = ItemHeader.bytes size := by
    cases hstage : j.stage with
    | idle =>
      rw [hstage] at h
      exact h.elim
    | grow part item | copy part item n | commit part item n =>
      rw [hstage] at h
      cases part with
      | header => exact h.elim
      | payload =>
        exact ⟨item.length % 2 ^ 32, Nat.pos_of_ne_zero h, Nat.mod_lt _ (by decide),
          (ItemHeader.bytes_mod item.length).symm⟩
  intro heq
  have hlen : j.content.length =
      (ItemHeader.framing.frames j.returned).length + j.stage.covered.length := by
    rw [Journal.content, List.length_append]
  have hitems : ∀ v ∈ items, v.length < 2 ^ 32 := by
    intro v hv
    refine ItemHeader.framing.length_lt_of_mem hv ?_
    rw [← heq]
    exact hsmall
  have hreturned : ∀ v ∈ j.returned, v.length < 2 ^ 32 := by
    intro v hv
    refine ItemHeader.framing.length_lt_of_mem hv ?_
    omega
  have hwhole := ItemHeader.framing.parse_frames hitems
  have hdangling : ItemHeader.framing.parse (ItemHeader.bytes size) = none :=
    ItemHeader.framing.parse_dangling hbound hsize
  have hparse := ItemHeader.framing.parse_frames_append hreturned j.stage.covered
  rw [hcovered, hdangling, Option.map_none, ← hcovered] at hparse
  rw [← heq, Journal.content, hparse] at hwhole
  cases hwhole

private theorem length_covered_le (stage : Stage) : stage.covered.length ≤ ItemHeader.length := by
  cases stage with
  | idle => exact Nat.zero_le _
  | grow part item | copy part item n | commit part item n =>
    cases part with
    | header => exact Nat.zero_le _
    | payload => exact Nat.le_of_eq (ItemHeader.length_bytes _)

private theorem small_of_covered {items : List Bytes} (hreturned : j.returned <+: items)
    (hlen : (ItemHeader.framing.frames items).length = j.content.length % 2 ^ 32) :
    j.content.length < 2 ^ 32 := by
  obtain ⟨more, rfl⟩ := hreturned
  rw [Framing.frames_append, List.length_append] at hlen
  have hcontent : j.content.length =
      (ItemHeader.framing.frames j.returned).length + j.stage.covered.length := by
    rw [Journal.content, List.length_append]
  have hcovered := length_covered_le j.stage
  have hheader : ItemHeader.length = 8 := rfl
  by_contra hlarge
  omega

private theorem Sound.reopened (hpage : 0 < page) (hpath : path ≠ "") (h : Sound page path j) :
    ∃ new, construct .working page path j.disk = .ok new ∧
      new.1.contents new.2 =
        if headerSize + storedSize j.mem ≤ initialCapacity page then .ok (payload j.mem)
        else .error .outOfRange := by
  have hvalid : Valid j.mem := h.ready.valid
  have hready := ready_opened hpage hpath j.disk
  have hcontents := j.disk.contents_write (opened page (j.disk.contents path)) hpath
  have hmem : j.disk.contents path = j.mem := by
    rw [← h.onPath]
    rfl
  refine ⟨_, construct_working hpage hpath j.disk, ?_⟩
  rw [hmem, opened_of_valid hpage hvalid] at hready hcontents ⊢
  have hstored : storedSize (Bytes.setLength j.mem (initialCapacity page)) = storedSize j.mem :=
    storedSize_setLength hvalid.header (headerSize_le_initialCapacity hpage)
  split
  · rename_i hfits
    rw [hready.contents (by rw [hcontents, hstored]; exact hfits), hcontents,
      payload_setLength hvalid.header h.fits hfits]
  · rename_i hbeyond
    exact hready.contents_outOfRange (by rw [hcontents, hstored]; exact Nat.lt_of_not_le hbeyond)

private theorem decodeItems_content {items : List Bytes}
    (hframes : j.content = ItemHeader.framing.frames items) (hsmall : j.content.length < 2 ^ 32)
    (rest : Bytes) : Decode.decodeItems (j.content ++ rest) j.content.length 0 = .ok items := by
  have hitems : ∀ v ∈ items, v.length < 2 ^ 32 := by
    intro v hv
    refine ItemHeader.framing.length_lt_of_mem hv ?_
    rw [← hframes]
    exact hsmall
  have hdecode := Decode.decodeItems_frames [] items rest hitems
  rw [List.nil_append, List.length_nil, Nat.zero_add, ← hframes] at hdecode
  exact hdecode

theorem Sound.recovers_iff (hpage : 0 < page) (hpath : path ≠ "") (h : Sound page path j) :
    RecoversItems page path j ↔
      ¬ j.stage.Dangling ∧ headerSize + j.content.length ≤ initialCapacity page ∧
        j.content.length < 2 ^ 32 := by
  obtain ⟨new, hconstruct, hcontents⟩ := h.reopened hpage hpath
  constructor
  · rintro ⟨new', bytes, items, hnew', hbytes, hframes, hreturned, -⟩
    obtain rfl : new = new' := Except.ok.inj (hconstruct.symm.trans hnew')
    rw [hcontents] at hbytes
    split at hbytes
    · rename_i hfits
      obtain rfl := Except.ok.inj hbytes
      have hpayload : (payload j.mem).length = storedSize j.mem :=
        Bytes.length_slice_of_le h.fits
      have hsmall : j.content.length < 2 ^ 32 := by
        refine small_of_covered hreturned ?_
        rw [← hframes, hpayload, h.covers]
      rw [h.covers, Nat.mod_eq_of_lt hsmall] at hfits
      refine ⟨?_, hfits, hsmall⟩
      intro hdangling
      rw [h.holds hsmall] at hframes
      exact content_of_dangling hdangling hsmall items hframes
    · cases hbytes
  · rintro ⟨hwhole, hfits, hsmall⟩
    obtain ⟨items, hframes, hreturned⟩ := content_of_not_dangling hwhole
    have hcovers : storedSize j.mem = j.content.length := by
      rw [h.covers, Nat.mod_eq_of_lt hsmall]
    refine ⟨new, j.content, items, hconstruct, ?_, hframes, hreturned,
      decodeItems_content hframes hsmall⟩
    rw [hcontents, hcovers, if_pos hfits, h.holds hsmall]

end Recovery

end FlashLog.Sinks.ItemStores
