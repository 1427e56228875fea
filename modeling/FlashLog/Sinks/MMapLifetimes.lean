import FlashLog.Formatter.DefaultFormatter
import FlashLog.Sinks.MMapCallers

/-!
`MMapSink` over process lifetimes on one directory. A lifetime constructs the sink over what the
mapped file holds, takes any steps of any number of callers and ends between two sections of its
lock, by the destructor or in a crash; the mapped file keeps what the buffer held. The chunks are
those handed to a stream.
-/

set_option autoImplicit false
set_option relaxedAutoImplicit false

namespace FlashLog.Sinks.MMapLifetimes

open FlashLog.Support
open FlashLog.Support.Machine (run Meets run_invariant)
open FlashLog.Mmap
open FlashLog.Mmap.MMapAux (Holds construct_holds)
open FlashLog.Sinks.MMapCallers (Sink Chunk Held chunkOf)
open FlashLog.Handler (LogMsg)
open FlashLog.Formatter

structure Directory (T : Type) where
  disk : Disk
  process : Option (Sink T)
  /-- what the sinks before have handed to their streams -/
  filed : List Chunk
  /-- what they have pushed, in the order of the lock -/
  texts : List Bytes
  fault : Option Fault

inductive Label (T : Type)
  | construct (t : T)
  | call (a : MMapCallers.Label T)
  | leave

variable {T : Type}

def fresh (disk : Disk) : Directory T := ⟨disk, none, [], [], none⟩

namespace Directory

def sinkChunks (d : Directory T) : List Chunk := (d.process.map Sink.written).getD []

def sinkTexts (d : Directory T) : List Bytes := (d.process.map Sink.logged).getD []

def chunks (d : Directory T) : List Chunk := d.filed ++ d.sinkChunks

def logged (d : Directory T) : List Bytes := d.texts ++ d.sinkTexts

def buffer (page : Nat) (path : Path) (d : Directory T) : Except Fault Bytes :=
  match d.process with
  | some sink => sink.aux.contents sink.disk
  | none => do
    let (aux, disk) ← MMapAux.construct .working page path d.disk
    aux.contents disk

end Directory

section Steps

variable [DecidableEq T]

def step (page : Nat) (path : Path) (d : Directory T) : Label T → Option (Directory T)
  | .construct t =>
    match d.process, d.fault with
    | none, none =>
      match MMapAux.construct .working page path d.disk with
      | .error fault => some { d with fault := some fault }
      | .ok (aux, disk) => some { d with process := some (MMapCallers.initial t aux disk) }
    | _, _ => none
  | .call a =>
    match d.process with
    | none => none
    | some sink => (MMapCallers.step page sink a).map fun next => { d with process := some next }
  | .leave =>
    match d.process with
    | none => none
    | some sink =>
      some { d with
        disk := sink.disk, process := none
        filed := d.filed ++ sink.written, texts := d.texts ++ sink.logged }

/-- What is pushed keeps the buffer below 2^32 bytes, and what a sink leaves in it fits the first
mapping of the next one. -/
def Fits (page : Nat) (d : Directory T) : Label T → Prop
  | .construct _ => True
  | .call a => ∀ sink, d.process = some sink → MMapCallers.BufferSmall sink a
  | .leave => ∀ sink size, d.process = some sink → sink.aux.size sink.disk = .ok size →
      headerSize + size ≤ initialCapacity page

end Steps

section Kept

variable [DecidableEq T] {page : Nat} {path : Path}

theorem step_construct {d : Directory T} {aux : MMapAux} {disk : Disk} (t : T)
    (hprocess : d.process = none) (noFault : d.fault = none)
    (h : MMapAux.construct .working page path d.disk = .ok (aux, disk)) :
    step page path d (.construct t) =
      some { d with process := some (MMapCallers.initial t aux disk) } := by
  simp only [step, hprocess, noFault, h]

theorem filePath_step (hpage : 0 < page) {items : List Bytes} {s next : Sink T}
    {a : MMapCallers.Label T} (inv : s.Kept items) (guard : MMapCallers.BufferSmall s a)
    (h : MMapCallers.step page s a = some next) : next.aux.filePath = s.aux.filePath := by
  obtain ⟨noFault, groups, last, held⟩ := inv
  simp only [MMapCallers.step, noFault] at h
  cases a with
  | log t text | flush t =>
    obtain rfl := MMapCallers.enter_cases h
    rfl
  | thread t filled =>
    cases hpc : s.pc t with
    | idle => simp [MMapCallers.threadStep, hpc] at h
    | ctor =>
      simp only [MMapCallers.threadStep, hpc, held.buffer.size] at h
      obtain rfl := Option.some.inj h
      split <;> rfl
    | writeToCache text =>
      obtain ⟨aux, disk, hwrite, -, continues⟩ :=
        MMapCallers.writeToCache_holds hpage held.buffer (guard text _ hpc held.buffer.size)
      simp only [MMapCallers.threadStep, hpc, hwrite] at h
      obtain rfl := Option.some.inj h
      exact continues.filePath
    | needWrite =>
      simp only [MMapCallers.threadStep, hpc] at h
      obtain rfl := Option.some.inj h
      rfl
    | cacheToFile =>
      obtain ⟨disk, hcache, -⟩ := MMapCallers.cacheToFile_holds held.buffer
      simp only [MMapCallers.threadStep, hpc, hcache] at h
      obtain rfl := Option.some.inj h
      rfl

/-- The sink of a lifetime that began with these items in the buffer; without one, the items are
what the next constructor finds. -/
def Buffered (page : Nat) (path : Path) (items : List Bytes) (d : Directory T) : Prop :=
  match d.process with
  | some sink => sink.Kept items ∧ sink.aux.filePath = path
  | none => ∃ aux disk, MMapAux.construct .working page path d.disk = .ok (aux, disk) ∧
      Holds aux disk (ItemHeader.framing.frames items) ∧ aux.filePath = path

/-- What earlier lifetimes have pushed is in their chunks or was left in the buffer. -/
structure Kept (page : Nat) (path : Path) (d : Directory T) (groups : List (List Bytes))
    (items : List Bytes) : Prop where
  noFault : d.fault = none
  filed : d.filed = groups.map chunkOf
  small : ∀ g ∈ groups, (ItemHeader.framing.frames g).length < 2 ^ 32
  order : groups.flatten ++ items = d.texts
  buffered : Buffered page path items d

omit [DecidableEq T] in
theorem fresh_kept (hpage : 0 < page) (hpath : path ≠ "") {disk : Disk}
    (absent : disk.contents path = []) : Kept (T := T) page path (fresh disk) [] [] := by
  obtain ⟨aux, disk', hconstruct, holds, hpath', -⟩ := construct_holds hpage hpath absent
  exact ⟨rfl, rfl, nofun, rfl, aux, disk', hconstruct, holds, hpath'⟩

theorem step_kept (hpage : 0 < page) {d next : Directory T} {a : Label T}
    {groups : List (List Bytes)} {items : List Bytes} (inv : Kept page path d groups items)
    (guard : Fits page d a) (h : step page path d a = some next) :
    ∃ groups items, Kept page path next groups items := by
  have buffered := inv.buffered
  cases hprocess : d.process with
  | none =>
    simp only [Buffered, hprocess] at buffered
    obtain ⟨aux, disk, hconstruct, holds, hpath⟩ := buffered
    cases a with
    | construct t =>
      rw [step_construct t hprocess inv.noFault hconstruct] at h
      obtain rfl := Option.some.inj h
      exact ⟨groups, items, inv.noFault, inv.filed, inv.small, inv.order,
        MMapCallers.initial_kept holds, hpath⟩
    | call a => simp [step, hprocess] at h
    | leave => simp [step, hprocess] at h
  | some sink =>
    simp only [Buffered, hprocess] at buffered
    obtain ⟨kept, hpath⟩ := buffered
    cases a with
    | construct t => simp [step, hprocess] at h
    | call a =>
      simp only [step, hprocess] at h
      obtain ⟨sink', hstep, rfl⟩ := Option.map_eq_some_iff.mp h
      have room := guard sink hprocess
      exact ⟨groups, items, inv.noFault, inv.filed, inv.small, inv.order,
        MMapCallers.step_kept hpage kept room hstep,
        (filePath_step hpage kept room hstep).trans hpath⟩
    | leave =>
      simp only [step, hprocess] at h
      obtain rfl := Option.some.inj h
      obtain ⟨-, groups', last, held⟩ := kept
      obtain ⟨aux, disk, hconstruct, holds, hpath', -⟩ :=
        held.buffer.reopen hpage (guard sink _ hprocess held.buffer.size)
      rw [hpath] at hconstruct hpath'
      refine ⟨groups ++ groups', last, inv.noFault, ?_, ?_, ?_, aux, disk, hconstruct, holds,
        hpath'⟩
      · rw [List.map_append, ← inv.filed, ← held.written]
      · intro g hg
        exact (List.mem_append.mp hg).elim (inv.small g) (held.small g)
      · rw [List.flatten_append, List.append_assoc, held.order, ← List.append_assoc, inv.order]

end Kept

section Runs

variable {page : Nat} {path : Path}

/-- The texts are in the chunks group by group, and the last ones in the buffer. -/
structure Shown (page : Nat) (path : Path) (d : Directory T) (groups : List (List Bytes))
    (last : List Bytes) : Prop where
  noFault : d.fault = none ∧ ∀ sink ∈ d.process, sink.fault = none
  chunks : d.chunks = groups.map chunkOf
  small : ∀ g ∈ last :: groups, (ItemHeader.framing.frames g).length < 2 ^ 32
  buffer : d.buffer page path = .ok (ItemHeader.framing.frames last)
  order : groups.flatten ++ last = d.logged

theorem Kept.shown {d : Directory T} {groups : List (List Bytes)} {items : List Bytes}
    (h : Kept page path d groups items) : ∃ groups last, Shown page path d groups last := by
  have buffered := h.buffered
  cases hprocess : d.process with
  | none =>
    simp only [Buffered, hprocess] at buffered
    obtain ⟨aux, disk, hconstruct, holds, -⟩ := buffered
    refine ⟨groups, items, ⟨h.noFault, by simp [hprocess]⟩, ?_, ?_, ?_, ?_⟩
    · rw [Directory.chunks, Directory.sinkChunks, hprocess, h.filed]
      exact List.append_nil _
    · exact List.forall_mem_cons.mpr ⟨holds.small, h.small⟩
    · simp only [Directory.buffer, hprocess, hconstruct, bind, Except.bind]
      exact holds.contents
    · rw [h.order, Directory.logged, Directory.sinkTexts, hprocess]
      exact (List.append_nil _).symm
  | some sink =>
    simp only [Buffered, hprocess] at buffered
    obtain ⟨⟨noFault, groups', last, held⟩, -⟩ := buffered
    refine ⟨groups ++ groups', last, ⟨h.noFault, by simpa [hprocess] using noFault⟩, ?_, ?_, ?_, ?_⟩
    · rw [Directory.chunks, Directory.sinkChunks, hprocess, h.filed, List.map_append, ← held.written]
      rfl
    · refine List.forall_mem_cons.mpr ⟨held.buffer.small, fun g hg => ?_⟩
      exact (List.mem_append.mp hg).elim (h.small g) (held.small g)
    · rw [Directory.buffer, hprocess]
      exact held.buffer.contents
    · rw [List.flatten_append, List.append_assoc, held.order, ← List.append_assoc, h.order,
        Directory.logged, Directory.sinkTexts, hprocess]
      rfl

theorem Shown.parse {d : Directory T} {groups : List (List Bytes)} {last : List Bytes}
    (h : Shown page path d groups last) :
    ItemHeader.framing.parse
      (d.chunks.flatMap Chunk.payload ++ ItemHeader.framing.frames last) = some d.logged := by
  have payloads : d.chunks.flatMap Chunk.payload = ItemHeader.framing.frames groups.flatten := by
    rw [h.chunks, List.flatMap_map, Framing.frames_flatten]
    rfl
  rw [payloads, ← Framing.frames_append, ← h.order]
  refine ItemHeader.framing.parse_frames fun text htext => ?_
  obtain ⟨g, hg, hmem⟩ : ∃ g ∈ last :: groups, text ∈ g := by
    rcases List.mem_append.mp htext with earlier | pending
    · obtain ⟨g, hg, hmem⟩ := List.mem_flatten.mp earlier
      exact ⟨g, List.mem_cons_of_mem _ hg, hmem⟩
    · exact ⟨last, List.mem_cons_self, pending⟩
  exact ItemHeader.framing.length_lt_of_mem hmem (h.small g hg)

variable [DecidableEq T]

theorem run_shown (hpage : 0 < page) (hpath : path ≠ "") {disk : Disk}
    (absent : disk.contents path = []) {as : List (Label T)} {d : Directory T}
    (meets : Meets (step page path) (Fits page) (fresh disk) as)
    (h : run (step page path) (fresh disk) as = some d) :
    ∃ groups last, Shown page path d groups last := by
  obtain ⟨groups, items, kept⟩ : ∃ groups items, Kept page path d groups items := by
    refine run_invariant (I := fun d => ∃ groups items, Kept page path d groups items) ?_
      ⟨[], [], fresh_kept hpage hpath absent⟩ meets h
    rintro d a next ⟨groups, items, kept⟩ guard hstep
    exact step_kept hpage kept guard hstep
  exact kept.shown

/-- Over any number of lifetimes of `MMapSink` on one directory, however its callers interleave
and wherever between two sections a lifetime ends: the chunks handed to the streams and then the
mapped buffer are read back as all the texts pushed, each once, in the order of the lock, and
every chunk as whole items. -/
theorem lifetimes_keep_texts (page : Nat) (hpage : 0 < page) (path : Path) (hpath : path ≠ "")
    (disk : Disk) (absent : disk.contents path = []) (as : List (Label T)) (d : Directory T)
    (meets : Meets (step page path) (Fits page) (fresh disk) as)
    (h : run (step page path) (fresh disk) as = some d) :
    (d.fault = none ∧ ∀ sink ∈ d.process, sink.fault = none) ∧
      (∃ buffer, d.buffer page path = .ok buffer ∧ ItemHeader.framing.parse
        (d.chunks.flatMap Chunk.payload ++ buffer) = some d.logged) ∧
      ∀ c ∈ d.chunks, c.size = c.payload.length ∧
        ∃ whole, ItemHeader.framing.parse c.payload = some whole := by
  obtain ⟨groups, last, shown⟩ := run_shown hpage hpath absent meets h
  refine ⟨shown.noFault, ⟨_, shown.buffer, shown.parse⟩, ?_⟩
  intro c hc
  rw [shown.chunks] at hc
  obtain ⟨g, hg, rfl⟩ := List.mem_map.mp hc
  exact ⟨rfl, g, ItemHeader.framing.parse_frames_of_lt (shown.small g (List.mem_cons_of_mem _ hg))⟩

end Runs

section Restart

/-- A lifetime ends with a text in the buffer; the next constructor writes it to a chunk. -/
def restarted (text : Bytes) : List (Label Unit) :=
  let thread := Label.call (.thread () false)
  [.construct (), thread, .call (.log () text), thread, .leave, .construct (), thread, thread]

private theorem step_call (d : Directory Unit) {sink next : Sink Unit}
    {a : MMapCallers.Label Unit} (h : MMapCallers.step 4096 sink a = some next) :
    step 4096 "mmap" { d with process := some sink } (.call a) =
      some { d with process := some next } := by
  simp only [step, h, Option.map_some]

private theorem fits_call {d : Directory Unit} {sink : Sink Unit} {a : MMapCallers.Label Unit}
    (h : MMapCallers.BufferSmall sink a) :
    Fits 4096 { d with process := some sink } (.call a) := by
  rintro sink' ⟨rfl⟩
  exact h

theorem run_restarted (text : Bytes) (small : text.length ≤ 1024) :
    Meets (step 4096 "mmap") (Fits 4096) (fresh Disk.blank) (restarted text) ∧
      ∃ d, run (step 4096 "mmap") (fresh Disk.blank) (restarted text) = some d ∧
        d.logged = [text] ∧ d.chunks = [chunkOf [text]] := by
  have length : (ItemHeader.framing.frames [text]).length = 8 + text.length := by
    rw [Framing.length_frames_cons]
    rfl
  have positive : 0 < 4096 := by decide
  have mapping : kDafaultCapacity ≤ initialCapacity 4096 := le_getValidCapacity positive _
  -- the first lifetime pushes the text and ends
  have absent : Disk.blank.contents "mmap" = [] := rfl
  obtain ⟨aux, disk, hconstruct, holds, hpath, -⟩ := construct_holds positive (by decide) absent
  let first : Sink Unit := MMapCallers.initial () aux disk
  let opened := { first with constructed := true }.goto () .idle
  let entered := opened.goto () (.writeToCache text)
  have room : MMapCallers.BufferSmall entered (.thread () false) := by
    intro text' size hpc hsize
    obtain rfl : text = text' := by simpa [entered, MMapCallers.Sink.goto] using hpc
    obtain rfl : 0 = size := Except.ok.inj (holds.size.symm.trans hsize)
    simp only [ItemHeader.length]
    omega
  obtain ⟨aux₁, disk₁, hwrite, pushed₁, continues⟩ :=
    MMapCallers.writeToCache_holds positive holds
      (room text 0 (by simp [entered, MMapCallers.Sink.goto]) holds.size)
  have holds₁ : Holds aux₁ disk₁ (ItemHeader.framing.frames [text]) := by
    rw [Framing.frames_singleton]
    exact pushed₁
  let pushed := { entered with aux := aux₁, disk := disk₁, logged := [text] }.goto () .needWrite
  have hopened : MMapCallers.step 4096 first (.thread () false) = some opened := by
    simp [MMapCallers.step, MMapCallers.threadStep, first, MMapCallers.initial, holds.size, opened]
  have hentered : MMapCallers.step 4096 opened (.log () text) = some entered := by
    simp [MMapCallers.step, MMapCallers.enter, opened, MMapCallers.Sink.goto, entered, first,
      MMapCallers.initial]
  have hpushed : MMapCallers.step 4096 entered (.thread () false) = some pushed := by
    simp [MMapCallers.step, MMapCallers.threadStep, entered, opened, first, MMapCallers.initial,
      MMapCallers.Sink.goto, hwrite, pushed]
  -- the second finds it in the mapped file
  have fits : headerSize + (ItemHeader.framing.frames [text]).length ≤ initialCapacity 4096 := by
    simp only [length, headerSize, kDafaultCapacity] at mapping ⊢
    omega
  obtain ⟨aux₂, disk₂, hreopen, holds₂, -⟩ := holds₁.reopen positive fits
  rw [continues.filePath.trans hpath] at hreopen
  obtain ⟨disk₃, hcache, -⟩ := MMapCallers.cacheToFile_holds holds₂
  let again : Sink Unit := MMapCallers.initial () aux₂ disk₂
  let found := again.goto () .cacheToFile
  let written := { found with
    disk := disk₃, written := [chunkOf [text]], constructed := true }.goto () .idle
  have hfound : MMapCallers.step 4096 again (.thread () false) = some found := by
    simp [MMapCallers.step, MMapCallers.threadStep, again, MMapCallers.initial, holds₂.size, length,
      found]
  have hwritten : MMapCallers.step 4096 found (.thread () false) = some written := by
    simp [MMapCallers.step, MMapCallers.threadStep, again, MMapCallers.initial, found, hcache,
      MMapCallers.Sink.goto, written, chunkOf]
  let left : Directory Unit := ⟨disk₁, none, [], [text], none⟩
  have hfirst : step 4096 "mmap" (fresh Disk.blank) (.construct ()) =
      some { (fresh Disk.blank : Directory Unit) with process := some first } :=
    step_construct () rfl rfl hconstruct
  have hleft : step 4096 "mmap" { (fresh Disk.blank : Directory Unit) with process := some pushed }
      .leave = some left := rfl
  have hagain : step 4096 "mmap" left (.construct ()) = some { left with process := some again } :=
    step_construct () rfl rfl hreopen
  have fitsLeft : Fits 4096 { (fresh Disk.blank : Directory Unit) with process := some pushed }
      .leave := by
    rintro sink size ⟨rfl⟩ hsize
    obtain rfl := Except.ok.inj (holds₁.size.symm.trans hsize)
    exact fits
  refine ⟨?_, { left with process := some written }, ?_, rfl, rfl⟩
  · refine Meets.cons trivial hfirst
      (Meets.cons (fits_call (fun _ _ hpc => by cases hpc)) (step_call _ hopened)
        (Meets.cons (fits_call trivial) (step_call _ hentered)
          (Meets.cons (fits_call room) (step_call _ hpushed)
            (Meets.cons fitsLeft hleft (Meets.cons trivial hagain
              (Meets.cons (fits_call (fun _ _ hpc => by cases hpc)) (step_call _ hfound)
                (Meets.cons (fits_call (fun _ _ hpc => by cases hpc)) (step_call _ hwritten)
                  trivial)))))))
  · simp only [restarted, Machine.run_cons, Machine.run_nil, hfirst, step_call _ hopened,
      step_call _ hentered, step_call _ hpushed, hleft, hagain, step_call _ hfound,
      step_call _ hwritten, Option.bind_some]

theorem lifetimes_keep_texts_restarted :
    ∃ d, run (step 4096 "mmap") (fresh Disk.blank) (restarted [104, 105]) = some d ∧
      d.logged = [[104, 105]] ∧ d.chunks = [chunkOf [[104, 105]]] ∧
      (d.fault = none ∧ ∀ sink ∈ d.process, sink.fault = none) ∧
      (∃ buffer, d.buffer 4096 "mmap" = .ok buffer ∧ ItemHeader.framing.parse
        (d.chunks.flatMap Chunk.payload ++ buffer) = some d.logged) ∧
      ∀ c ∈ d.chunks, c.size = c.payload.length ∧
        ∃ whole, ItemHeader.framing.parse c.payload = some whole := by
  obtain ⟨meets, d, h, logged, chunks⟩ := run_restarted [104, 105] (by decide)
  exact ⟨d, h, logged, chunks, lifetimes_keep_texts 4096 (by decide) "mmap" (by decide) Disk.blank
    rfl (restarted [104, 105]) d meets h⟩

end Restart

section Texts

variable [DecidableEq T] {page : Nat} {path : Path} {p : Bytes → Prop}

def Gives (p : Bytes → Prop) : Label T → Prop
  | .call (.log _ text) => p text
  | _ => True

/-- The texts of a sink, those on their way to `WriteToCache_` included. -/
structure SinkTexts (p : Bytes → Prop) (s : Sink T) : Prop where
  logged : ∀ text ∈ s.logged, p text
  pending : ∀ t text, s.pc t = .writeToCache text → p text

structure AllTexts (p : Bytes → Prop) (d : Directory T) : Prop where
  texts : ∀ text ∈ d.texts, p text
  process : ∀ sink ∈ d.process, SinkTexts p sink

theorem SinkTexts.moved {s next : Sink T} (h : SinkTexts p s) (t : T) (pc : MMapCallers.Pc)
    (given : ∀ text, pc = .writeToCache text → p text) (hpc : next.pc = Function.update s.pc t pc)
    (logged : ∀ text ∈ next.logged, p text) : SinkTexts p next := by
  refine ⟨logged, fun u text hu => ?_⟩
  rw [hpc, Function.update_apply] at hu
  split at hu
  · exact given text hu
  · exact h.pending u text hu

theorem SinkTexts.step {s next : Sink T} {a : MMapCallers.Label T} (h : SinkTexts p s)
    (gives : Gives p (.call a)) (hstep : MMapCallers.step page s a = some next) :
    SinkTexts p next := by
  unfold MMapCallers.step at hstep
  split at hstep
  · cases hstep
  cases a with
  | log t text =>
    obtain rfl := MMapCallers.enter_cases hstep
    refine h.moved t (.writeToCache text) ?_ rfl h.logged
    rintro text' ⟨rfl⟩
    exact gives
  | flush t =>
    obtain rfl := MMapCallers.enter_cases hstep
    exact h.moved t .cacheToFile (fun _ hpc => by cases hpc) rfl h.logged
  | thread t filled =>
    simp only [MMapCallers.threadStep] at hstep
    split at hstep
    · cases hstep
    · split at hstep
      · obtain rfl := Option.some.inj hstep
        exact ⟨h.logged, h.pending⟩
      · obtain rfl := Option.some.inj hstep
        split
        · exact h.moved t .idle (fun _ hpc => by cases hpc) rfl h.logged
        · exact h.moved t .cacheToFile (fun _ hpc => by cases hpc) rfl h.logged
    · rename_i text hpc
      split at hstep
      · obtain rfl := Option.some.inj hstep
        exact ⟨h.logged, h.pending⟩
      · obtain rfl := Option.some.inj hstep
        refine h.moved t .needWrite (fun _ hpc => by cases hpc) rfl ?_
        intro text' htext'
        rcases List.mem_append.mp htext' with old | new
        · exact h.logged text' old
        · obtain rfl := List.mem_singleton.mp new
          exact h.pending t _ hpc
    · obtain rfl := Option.some.inj hstep
      refine h.moved t (if filled then .cacheToFile else .idle) ?_ rfl h.logged
      intro text hpc
      cases filled <;> cases hpc
    · split at hstep
      · obtain rfl := Option.some.inj hstep
        exact ⟨h.logged, h.pending⟩
      · obtain rfl := Option.some.inj hstep
        exact h.moved t .idle (fun _ hpc => by cases hpc) rfl h.logged

theorem initial_texts (t : T) (aux : MMapAux) (disk : Disk) :
    SinkTexts p (MMapCallers.initial t aux disk) := by
  refine ⟨nofun, fun u text hu => ?_⟩
  simp only [MMapCallers.initial, Function.update_apply] at hu
  split at hu <;> cases hu

theorem AllTexts.step {d next : Directory T} {a : Label T} (h : AllTexts p d) (gives : Gives p a)
    (hstep : step page path d a = some next) : AllTexts p next := by
  cases a with
  | construct t =>
    simp only [MMapLifetimes.step] at hstep
    split at hstep
    · split at hstep
      · obtain rfl := Option.some.inj hstep
        exact ⟨h.texts, h.process⟩
      · obtain rfl := Option.some.inj hstep
        refine ⟨h.texts, ?_⟩
        rintro sink ⟨rfl⟩
        exact initial_texts t _ _
    · cases hstep
  | call a =>
    simp only [MMapLifetimes.step] at hstep
    split at hstep
    · cases hstep
    · rename_i sink hprocess
      obtain ⟨sink', hsink, rfl⟩ := Option.map_eq_some_iff.mp hstep
      refine ⟨h.texts, ?_⟩
      rintro next ⟨rfl⟩
      exact (h.process sink hprocess).step gives hsink
  | leave =>
    simp only [MMapLifetimes.step] at hstep
    split at hstep
    · cases hstep
    · rename_i sink hprocess
      obtain rfl := Option.some.inj hstep
      refine ⟨fun text htext => ?_, nofun⟩
      exact (List.mem_append.mp htext).elim (h.texts text) ((h.process sink hprocess).logged text)

theorem run_texts {disk : Disk} {as : List (Label T)} {d : Directory T}
    (gives : ∀ a ∈ as, Gives p a) (h : run (step page path) (fresh disk) as = some d) :
    ∀ text ∈ d.logged, p text := by
  have start : AllTexts p (fresh disk : Directory T) := ⟨nofun, by simp [fresh]⟩
  have meets : Meets (step page path) (fun _ a => Gives p a) (fresh disk) as :=
    Machine.meets_of_forall gives
  have all : AllTexts p d :=
    run_invariant (fun _ _ _ inv gives hstep => inv.step gives hstep) start meets h
  intro text htext
  rcases List.mem_append.mp htext with earlier | current
  · exact all.texts text earlier
  · cases hprocess : d.process with
    | none => simp [Directory.sinkTexts, hprocess] at current
    | some sink =>
      simp only [Directory.sinkTexts, hprocess, Option.map_some, Option.getD_some] at current
      exact (all.process sink hprocess).logged text current

end Texts

section Lines

/-- With its own formatter: what any threads of any lifetimes have logged is read back, field by
field, from the chunks handed to the streams and then the mapped buffer, in the order of the
lock. -/
theorem lifetimes_keep_lines [DecidableEq T] (page : Nat) (hpage : 0 < page) (path : Path)
    (hpath : path ≠ "") (disk : Disk) (absent : disk.contents path = []) (as : List (Label T))
    (d : Directory T) (gives : ∀ a ∈ as, Gives DefaultFormatter.Made a)
    (meets : Meets (step page path) (Fits page) (fresh disk) as)
    (h : run (step page path) (fresh disk) as = some d) :
    ∃ entries : List (LogMsg × DefaultFormatter.Moment),
      (∀ e ∈ entries, DefaultFormatter.Readable e.1 e.2) ∧
      entries.map (fun e => DefaultFormatter.format e.1 e.2 []) = d.logged.map some ∧
      ∃ buffer, d.buffer page path = .ok buffer ∧
        (ItemHeader.framing.parse (d.chunks.flatMap Chunk.payload ++ buffer)).bind
            (List.mapM DefaultFormatter.readLine) =
          some (entries.map fun e => DefaultFormatter.shown e.1 e.2) := by
  obtain ⟨groups, last, shown⟩ := run_shown hpage hpath absent meets h
  obtain ⟨entries, readable, hformats, hlines⟩ :=
    DefaultFormatter.readLines_made (run_texts gives h)
  refine ⟨entries, readable, hformats, _, shown.buffer, ?_⟩
  rw [shown.parse, Option.bind_some, hlines]

/-- A warning of `main.cc`, line 12, with a bracket and a colon in its message. -/
def demoMsg : LogMsg :=
  ⟨.kWarn, ⟨[109, 97, 105, 110, 46, 99, 99], 12, []⟩, [93, 58, 32]⟩

def demoMoment : DefaultFormatter.Moment := ⟨[50, 48, 50, 54], 4711, 4712⟩

theorem readable_demoMsg : DefaultFormatter.Readable demoMsg demoMoment where
  level := by decide
  now := by decide
  fileName := by decide

theorem lifetimes_keep_lines_restarted :
    ∃ text d, DefaultFormatter.format demoMsg demoMoment [] = some text ∧
      run (step 4096 "mmap") (fresh Disk.blank) (restarted text) = some d ∧
      d.logged = [text] ∧ ∃ entries : List (LogMsg × DefaultFormatter.Moment),
      (∀ e ∈ entries, DefaultFormatter.Readable e.1 e.2) ∧
      entries.map (fun e => DefaultFormatter.format e.1 e.2 []) = d.logged.map some ∧
      ∃ buffer, d.buffer 4096 "mmap" = .ok buffer ∧
        (ItemHeader.framing.parse (d.chunks.flatMap Chunk.payload ++ buffer)).bind
            (List.mapM DefaultFormatter.readLine) =
          some (entries.map fun e => DefaultFormatter.shown e.1 e.2) := by
  obtain ⟨text, hformat, small⟩ : ∃ text,
      DefaultFormatter.format demoMsg demoMoment [] = some text ∧ text.length ≤ 1024 :=
    ⟨_, rfl, by decide⟩
  obtain ⟨meets, d, h, logged, -⟩ := run_restarted text small
  refine ⟨text, d, hformat, h, logged, lifetimes_keep_lines 4096 (by decide) "mmap" (by decide)
    Disk.blank rfl (restarted text) d ?_ meets h⟩
  intro a ha
  simp only [restarted, List.mem_cons, List.not_mem_nil, or_false] at ha
  rcases ha with rfl | rfl | rfl | rfl | rfl | rfl | rfl | rfl
  case inr.inr.inl => exact ⟨demoMsg, demoMoment, readable_demoMsg, hformat⟩
  all_goals trivial

end Lines

end FlashLog.Sinks.MMapLifetimes
