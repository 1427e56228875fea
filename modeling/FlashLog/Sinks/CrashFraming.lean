import Mathlib.Logic.Function.Basic
import FlashLog.Sinks.ItemStores

/-!
A crash between two stores to a mapped file: what the next construction finds of the items.
`MMapSink` has one mapped buffer; `EffectiveSink` has two, pushes to the one its master
pointer names and clears the other. Each file keeps a `Disk` of its own here, as no
operation on one touches another.
-/

set_option autoImplicit false
set_option relaxedAutoImplicit false

namespace FlashLog.Sinks.ItemStores

open FlashLog.Support
open FlashLog.Support.Machine (run Simulates Shows)
open FlashLog.Mmap
open FlashLog.Mmap.MMapAux
open FlashLog.Mmap.Image

/-- The two mapped buffers of `EffectiveSink`; `front` names the master's. -/
structure Buffers where
  journal : Bool → Journal
  front : Bool

namespace Buffers

inductive Label
  /-- a `Log` enters `WriteToCache_` -/
  | writeToCache (item : Bytes)
  | store
  /-- the exchange of `SwapCache_`, which excludes `WriteToCache_` by `mtx_` -/
  | swap
  /-- `Clear` of the slave buffer -/
  | clear

def update (s : Buffers) (b : Bool) (j : Journal) : Buffers :=
  { s with journal := Function.update s.journal b j }

def step (page : Nat) (s : Buffers) : Label → Option Buffers
  | .writeToCache item =>
    (ItemStores.step page (s.journal s.front) (.writeToCache item)).map (s.update s.front)
  | .store => (ItemStores.step page (s.journal s.front) .store).map (s.update s.front)
  | .swap =>
    match (s.journal s.front).stage with
    | .idle => some { s with front := !s.front }
    | _ => none
  | .clear => (ItemStores.step page (s.journal !s.front) .clear).map (s.update !s.front)

def on (b : Bool) (s : Buffers) : Label → Option ItemStores.Label
  | .writeToCache item => if s.front = b then some (.writeToCache item) else none
  | .store => if s.front = b then some .store else none
  | .swap => none
  | .clear => if s.front = b then none else some .clear

private theorem shows_update {page : Nat} {s next : Buffers} {c : Bool} {a : ItemStores.Label}
    (h : (ItemStores.step page (s.journal c) a).map (s.update c) = some next) (b : Bool) :
    Shows (ItemStores.step page) (s.journal b) (next.journal b)
      (if c = b then some a else none) := by
  obtain ⟨j, hj, rfl⟩ := Option.map_eq_some_iff.mp h
  by_cases hb : c = b
  · subst hb
    simp [Shows, update, hj]
  · have hne : b ≠ c := fun heq => hb heq.symm
    simp [Shows, update, hb, hne]

theorem simulates_journal (page : Nat) (b : Bool) :
    Simulates (step page) (ItemStores.step page) (fun s => s.journal b) (on b) := by
  intro s a next h
  cases a with
  | writeToCache item => exact shows_update h b
  | store => exact shows_update h b
  | swap =>
    rw [step] at h
    split at h
    · obtain rfl := Option.some.inj h
      rfl
    · cases h
  | clear =>
    have hshows := shows_update h b
    have hon : on b s .clear = if (!s.front) = b then some .clear else none := by
      cases hfront : s.front <;> cases b <;> simp [on, hfront]
    rw [hon]
    exact hshows

end Buffers

section Start

variable {page : Nat} {path : Path}

/-- A journal just constructed over a file that holds the items an earlier process left. -/
structure Opened (page : Nat) (path : Path) (disk : Disk) (leftover : List Bytes) (j : Journal) :
    Prop where
  constructed : construct .working page path disk = .ok (j.aux, j.disk)
  contents : j.aux.contents j.disk = .ok (ItemHeader.framing.frames leftover)
  stage : j.stage = .idle
  returned : j.returned = leftover

theorem Opened.sound {disk : Disk} {leftover : List Bytes} {j : Journal} (hpage : 0 < page)
    (hpath : path ≠ "") (h : Opened page path disk leftover j) : Sound page path j := by
  have hconstruct := Except.ok.inj
    ((construct_working hpage hpath disk).symm.trans h.constructed)
  have haux : j.aux = ⟨initialCapacity page, .mapped, path⟩ := (congrArg Prod.fst hconstruct).symm
  have hdisk : j.disk = disk.write path (opened page (disk.contents path)) :=
    (congrArg Prod.snd hconstruct).symm
  have hready : Ready j.aux j.disk := by
    rw [haux, hdisk]
    exact ready_opened hpage hpath disk
  have hcontent : j.content = ItemHeader.framing.frames leftover := by
    rw [Journal.content, h.stage, h.returned]
    exact List.append_nil _
  have hlength : j.mem.length = j.aux.capacity := hready.covered
  have hfits : headerSize + storedSize j.mem ≤ j.aux.capacity := by
    by_contra hbeyond
    have hfault := hready.contents_outOfRange (Nat.lt_of_not_le hbeyond)
    rw [h.contents] at hfault
    cases hfault
  have hpayload : payload j.mem = j.content := by
    rw [hcontent]
    exact Except.ok.inj ((hready.contents hfits).symm.trans h.contents)
  have hstored : storedSize j.mem = j.content.length := by
    rw [← hpayload, payload]
    exact (Bytes.length_slice_of_le (by rw [hlength]; exact hfits)).symm
  refine ⟨hready, by rw [haux], Nat.le_of_eq (by rw [haux]), ?_, fun _ => hpayload, ?_, ?_⟩
  · rw [← hstored, Nat.mod_eq_of_lt (storedSize_lt j.mem)]
  · rw [hlength]
    exact hfits
  · rw [Journal.Prepared, h.stage]
    trivial

end Start

private theorem run_sound {page : Nat} {path : Path} (hpage : 0 < page) {start j : Journal}
    {as : List Label} (h : Sound page path start) (hrun : run (step page) start as = some j) :
    Sound page path j :=
  Machine.run_preserves (Sound page path) (sound_step hpage) h hrun

/-- At every point between two stores, on `MMapSink` and on either buffer of `EffectiveSink`,
the next construction recovers the items if and only if no header is committed ahead of a
payload and the pushed bytes fit the initial capacity and the size field. -/
theorem recoversItems_iff {page : Nat} (hpage : 0 < page) :
    (∀ (path : Path) (disk : Disk) (leftover : List Bytes) (start j : Journal)
      (as : List Label), path ≠ "" → Opened page path disk leftover start →
      run (step page) start as = some j →
      (RecoversItems page path j ↔
        ¬ j.stage.Dangling ∧ headerSize + j.content.length ≤ initialCapacity page ∧
          j.content.length < 2 ^ 32)) ∧
    (∀ (path : Bool → Path) (disk : Bool → Disk) (leftover : Bool → List Bytes)
      (start s : Buffers) (as : List Buffers.Label), (∀ b, path b ≠ "") →
      (∀ b, Opened page (path b) (disk b) (leftover b) (start.journal b)) →
      run (Buffers.step page) start as = some s →
      ∀ b, RecoversItems page (path b) (s.journal b) ↔
        ¬ (s.journal b).stage.Dangling ∧
          headerSize + (s.journal b).content.length ≤ initialCapacity page ∧
            (s.journal b).content.length < 2 ^ 32) := by
  constructor
  · intro path disk leftover start j as hpath hstart hrun
    have hsound : Sound page path j := run_sound hpage (hstart.sound hpage hpath) hrun
    exact hsound.recovers_iff hpage hpath
  · intro path disk leftover start s as hpath hstart hrun b
    obtain ⟨as', hrun'⟩ := (Buffers.simulates_journal page b).run_of_run hrun
    have hsound : Sound page (path b) (s.journal b) :=
      run_sound hpage ((hstart b).sound hpage (hpath b)) hrun'
    exact hsound.recovers_iff hpage (hpath b)

section Fresh

variable {page : Nat} {path : Path}

theorem exists_opened_blank (hpage : 0 < page) (hpath : path ≠ "") :
    ∃ j, Opened page path .blank [] j := by
  obtain ⟨aux, disk, hconstruct, hready, hmem⟩ : ∃ aux disk,
      construct .working page path .blank = .ok (aux, disk) ∧ Ready aux disk ∧
        disk.contents aux.filePath = opened page [] :=
    ⟨_, _, construct_working hpage hpath .blank, ready_opened hpage hpath .blank,
      Disk.contents_write _ _ hpath⟩
  have hempty : storedSize (disk.contents aux.filePath) = 0 := by
    rw [hmem]
    exact storedSize_opened_blank hpage
  refine ⟨⟨aux, disk, .idle, []⟩, hconstruct, ?_, rfl, rfl⟩
  rw [hready.contents (by rw [hempty]; exact hready.headerSize_le), payload, hempty,
    Bytes.slice_zero]
  rfl

/-- The first `Push` of a `WriteToCache_`: the header is committed, the payload is not. -/
theorem run_header {j : Journal} (hpage : 0 < page) (h : Ready j.aux j.disk)
    (hstage : j.stage = .idle) (item : Bytes) :
    ∃ next, run (step page) j [.writeToCache item, .store, .store, .store] = some next ∧
      Ready next.aux next.disk ∧ next.stage = .grow .payload item ∧ next.returned = j.returned := by
  obtain ⟨aux, disk, -, hready, hrun⟩ :=
    run_stores_eq_push (j := { j with stage := .grow .header item }) hpage h .header item rfl
  refine ⟨{ j with aux, disk, stage := .grow .payload item }, ?_, hready, rfl, rfl⟩
  rw [Machine.run_cons, step, hstage]
  exact hrun

theorem run_payload {j : Journal} {item : Bytes} (hpage : 0 < page) (h : Ready j.aux j.disk)
    (hstage : j.stage = .grow .payload item) :
    ∃ next, run (step page) j [.store, .store, .store] = some next ∧
      next.stage = .idle ∧ next.returned = j.returned ++ [item] := by
  obtain ⟨aux, disk, -, -, hrun⟩ := run_stores_eq_push hpage h .payload item hstage
  exact ⟨_, hrun, rfl, rfl⟩

end Fresh

theorem recoversItems_iff_two_bytes :
    ∃ start j, Opened 4096 "mmap" .blank [] start ∧
      run (step 4096) start
        [.writeToCache [104, 105], .store, .store, .store, .store, .store, .store] = some j ∧
      RecoversItems 4096 "mmap" j := by
  have hpage : 0 < 4096 := by decide
  have hpath : "mmap" ≠ "" := by decide
  obtain ⟨start, hstart⟩ := exists_opened_blank hpage hpath
  obtain ⟨mid, hmid, hready, hstage, hreturned⟩ :=
    run_header hpage (hstart.sound hpage hpath).ready hstart.stage [104, 105]
  obtain ⟨j, hj, hidle, hitems⟩ := run_payload hpage hready hstage
  have hrun : run (step 4096) start
      ([.writeToCache [104, 105], .store, .store, .store] ++ [.store, .store, .store]) =
        some j := by
    rw [Machine.run_append, hmid]
    exact hj
  have hcontent : j.content = ItemHeader.framing.frames [[104, 105]] := by
    rw [Journal.content, hidle, hitems, hreturned, hstart.returned]
    exact List.append_nil _
  refine ⟨start, j, hstart, hrun, ?_⟩
  refine ((recoversItems_iff hpage).1 "mmap" .blank [] start j _ hpath hstart hrun).mpr ?_
  rw [hidle, hcontent]
  exact ⟨not_false, by decide, by decide⟩

/-- A crash after the first `Push` of the only `Log` leaves a header without its payload. -/
theorem header_without_payload :
    ∃ start j, Opened 4096 "mmap" .blank [] start ∧
      run (step 4096) start [.writeToCache [104, 105], .store, .store, .store] = some j ∧
      ¬ RecoversItems 4096 "mmap" j := by
  have hpage : 0 < 4096 := by decide
  have hpath : "mmap" ≠ "" := by decide
  obtain ⟨start, hstart⟩ := exists_opened_blank hpage hpath
  obtain ⟨j, hrun, -, hstage, -⟩ :=
    run_header hpage (hstart.sound hpage hpath).ready hstart.stage [104, 105]
  have hsound : Sound 4096 "mmap" j :=
    run_sound hpage (hstart.sound hpage hpath) hrun
  refine ⟨start, j, hstart, hrun, ?_⟩
  rw [hsound.recovers_iff hpage hpath, hstage]
  rintro ⟨hwhole, -⟩
  exact hwhole (by decide : ([104, 105] : Bytes).length % 2 ^ 32 ≠ 0)

end FlashLog.Sinks.ItemStores
