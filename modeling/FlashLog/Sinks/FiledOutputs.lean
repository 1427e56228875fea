import FlashLog.Sinks.AtomicCalls

/-!
Where the outputs of `Compress` are in a run of `EffectiveSink`: encrypted and behind an item
header, each is in the chunks of the log files, in the slave buffer or in the master buffer, in
the order of the calls of `Log`. Every chunk starts with an output right behind a reset.
-/

set_option autoImplicit false
set_option relaxedAutoImplicit false

namespace FlashLog.Sinks.AtomicCalls

open FlashLog.Support
open FlashLog.Support.Machine (run Meets meets_append run_defined run_append run_cons run_nil)
open FlashLog.Mmap (Disk)
open FlashLog.Sinks.ItemStream (Env Encoder)

variable (E : Env)

def stored (xs : List Output) : Bytes :=
  ItemHeader.framing.frames (xs.map fun x => E.crypto.encrypt E.lib x.bytes)

/-- The first output comes right behind a reset, and no other does. -/
structure Opens (xs : List Output) : Prop where
  first : ∀ x ∈ xs.head?, x.afterReset = true
  rest : ∀ x ∈ xs.tail, x.afterReset = false

/-- A chunk in a log file: what the arrays of its header held on the stack, and its outputs. -/
structure FiledChunk where
  stack : Keys
  outputs : List Output

def FiledChunk.header (keys : Keys) (c : FiledChunk) : ChunkHeader :=
  (ChunkHeader.onStack c.stack (stored E c.outputs).length).copyKeys keys

def FiledChunk.bytes (keys : Keys) (c : FiledChunk) : Bytes :=
  (c.header E keys).bytes ++ stored E c.outputs

structure FiledChunk.Sound (c : FiledChunk) : Prop where
  nonempty : c.outputs ≠ []
  opens : Opens c.outputs
  small : (stored E c.outputs).length < 2 ^ 32
  arrays : c.stack.iv.length = 32 ∧ c.stack.pubKey.length = 128

structure LogFile where
  name : String
  chunks : List FiledChunk

def LogFile.entry (keys : Keys) (file : LogFile) : String × Bytes :=
  (file.name, file.chunks.flatMap (FiledChunk.bytes E keys))

def filedOutputs (files : List LogFile) : List Output :=
  (files.flatMap LogFile.chunks).flatMap FiledChunk.outputs

variable {E}

section Lists

variable {keys : Keys} {xs : List Output} {x : Output}

theorem opens_nil : Opens [] := ⟨nofun, nofun⟩

theorem Opens.append (h : Opens xs) (hx : x.afterReset = decide (xs = [])) : Opens (xs ++ [x]) := by
  cases xs with
  | nil =>
    refine ⟨?_, nofun⟩
    intro y hy
    obtain rfl : x = y := Option.some.inj hy
    exact hx
  | cons x' xs =>
    refine ⟨h.first, ?_⟩
    intro y hy
    rcases List.mem_append.mp hy with old | new
    · exact h.rest y old
    · obtain rfl := List.mem_singleton.mp new
      exact hx

theorem stored_append (xs ys : List Output) : stored E (xs ++ ys) = stored E xs ++ stored E ys := by
  rw [stored, stored, stored, List.map_append, Framing.frames_append]

theorem stored_singleton (x : Output) :
    stored E [x] = ItemHeader.bytes (E.crypto.encrypt E.lib x.bytes).length ++
      E.crypto.encrypt E.lib x.bytes :=
  ItemHeader.framing.frames_singleton _

theorem stored_eq_nil : stored E xs = [] ↔ xs = [] := by
  constructor
  · intro h
    cases xs with
    | nil => rfl
    | cons x xs =>
      have hlength := congrArg List.length h
      have hheader : 0 < ItemHeader.framing.headerLength := by decide
      rw [stored, List.map_cons, Framing.length_frames_cons, List.length_nil] at hlength
      omega
  · rintro rfl
    rfl

theorem extends_chunks {files : List LogFile} {c : FiledChunk} {dir : LogDir}
    (h : FileSink.Extends (files.map (LogFile.entry E keys)) (c.bytes E keys) dir) :
    ∃ files' : List LogFile, dir = files'.map (LogFile.entry E keys) ∧
      files'.flatMap LogFile.chunks = files.flatMap LogFile.chunks ++ [c] ∧
      ((∀ file ∈ files, file.chunks ≠ []) → ∀ file ∈ files', file.chunks ≠ []) := by
  cases h with
  | last before name content hlast =>
    obtain ⟨front, back, rfl, rfl, hback⟩ := List.map_eq_append_iff.mp hlast
    obtain ⟨file, rfl, hfile⟩ := List.map_eq_singleton_iff.mp hback
    obtain ⟨rfl, rfl⟩ := Prod.mk.inj hfile
    refine ⟨front ++ [{ file with chunks := file.chunks ++ [c] }], ?_, ?_, ?_⟩
    · simp [LogFile.entry]
    · simp
    · intro nonempty file' hfile'
      rcases List.mem_append.mp hfile' with old | new
      · exact nonempty file' (List.mem_append_left _ old)
      · obtain rfl := List.mem_singleton.mp new
        exact List.append_ne_nil_of_right_ne_nil _ (List.cons_ne_nil _ _)
  | new name =>
    refine ⟨files ++ [⟨name, [c]⟩], ?_, ?_, ?_⟩
    · simp [LogFile.entry]
    · simp
    · intro nonempty file' hfile'
      rcases List.mem_append.mp hfile' with old | new
      · exact nonempty file' old
      · obtain rfl := List.mem_singleton.mp new
        exact List.cons_ne_nil _ _

end Lists

/-- The log files hold the chunks, and the buffers the outputs that are in no chunk yet. -/
structure Filed (conf : Conf) (keys : Keys) (f : FileSink (Encoder E.z)) (files : List LogFile)
    (slave master : List Output) : Prop where
  tidy : FileSink.Tidy conf f (files.map (LogFile.entry E keys))
  nonempty : ∀ file ∈ files, file.chunks ≠ []
  chunks : ∀ c ∈ files.flatMap LogFile.chunks, c.Sound E
  cache : f.cache = stored E slave
  pending : f.master = stored E master
  slaveOpens : Opens slave
  masterOpens : Opens master
  free : f.isSlaveFree = true → slave = []

section Steps

variable {conf : Conf} {keys : Keys} {f : FileSink (Encoder E.z)} {files : List LogFile}
variable {slave master : List Output}

theorem initial_filed :
    Filed conf keys (SinkName.effective.initial [] [] [] (Encoder.new E)) [] [] [] where
  tidy := ⟨nofun, Or.inl ⟨rfl, rfl, rfl, rfl⟩⟩
  nonempty := nofun
  chunks := nofun
  cache := rfl
  pending := rfl
  slaveOpens := opens_nil
  masterOpens := opens_nil
  free := fun _ => rfl

theorem Filed.swapCache (h : Filed conf keys f files slave master) :
    ∃ slave' master', Filed conf keys (SinkName.swapCache f) files slave' master' ∧
      slave' ++ master' = slave ++ master ∧
      (f.isSlaveFree = true → slave' = master ∧ master' = []) := by
  rw [SinkName.swapCache]
  split
  · rename_i hfree
    obtain rfl := h.free hfree
    refine ⟨master, [], ?_, List.append_nil _, fun _ => ⟨rfl, rfl⟩⟩
    exact ⟨h.tidy.congr rfl rfl rfl, h.nonempty, h.chunks, h.pending, h.cache, h.masterOpens,
      opens_nil, fun hbusy => absurd hbusy Bool.false_ne_true⟩
  · rename_i hbusy
    exact ⟨slave, master, h, rfl, fun hfree => absurd hfree hbusy⟩

theorem Filed.cacheToFile (h : Filed conf keys f files slave master) {io : Io} (fine : Fine io)
    (small : f.cache.length < 2 ^ 32) :
    ∃ files', Filed conf keys (EffectiveSink.cacheToFile conf keys io f) files' [] master ∧
      filedOutputs files' =
        filedOutputs files ++ slave ∧
      (EffectiveSink.cacheToFile conf keys io f).isSlaveFree = true := by
  rw [EffectiveSink.cacheToFile]
  by_cases hfree : f.isSlaveFree = true
  · obtain rfl := h.free hfree
    rw [FileSink.guarded_of_free hfree]
    exact ⟨files, h, (List.append_nil _).symm, hfree⟩
  · by_cases hcache : f.cache = []
    · obtain rfl := stored_eq_nil.mp (h.cache.symm.trans hcache)
      rw [FileSink.guarded_of_empty hfree hcache]
      refine ⟨files, ?_, (List.append_nil _).symm, rfl⟩
      exact ⟨h.tidy.congr rfl rfl rfl, h.nonempty, h.chunks, h.cache, h.pending, h.slaveOpens,
        h.masterOpens, fun _ => rfl⟩
    · have filled : slave ≠ [] := by
        rintro rfl
        exact hcache h.cache
      rw [FileSink.guarded_of_filled hfree hcache]
      obtain ⟨dir, grown, tidy⟩ :=
        h.tidy.putChunk (f.keyedHeader keys io) fine.working fine.dated
      let c : FiledChunk := ⟨io.stack, slave⟩
      have hbytes : (f.keyedHeader keys io).bytes ++ f.cache = c.bytes E keys := by
        rw [FileSink.keyedHeader, FileSink.plainHeader, h.cache]
        rfl
      rw [hbytes] at grown
      obtain ⟨files', rfl, hchunks, hnonempty⟩ := extends_chunks grown
      have sound : c.Sound E := by
        rw [h.cache] at small
        exact ⟨filled, h.slaveOpens, small, fine.arrays⟩
      refine ⟨files', ⟨tidy.congr rfl rfl rfl, hnonempty h.nonempty, ?_, rfl, ?_, opens_nil,
        h.masterOpens, fun _ => rfl⟩, ?_, rfl⟩
      · rw [hchunks]
        intro c' hc'
        rcases List.mem_append.mp hc' with old | new
        · exact h.chunks c' old
        · obtain rfl := List.mem_singleton.mp new
          exact sound
      · exact (putChunk_rest conf "" (f.keyedHeader keys io) io f).1.trans h.pending
      · rw [filedOutputs, hchunks, List.flatMap_append, List.flatMap_singleton]
        rfl

theorem Filed.logged (encrypts : E.Encrypts) (h : Filed conf keys f files slave master)
    (text : Bytes) (filled : Bool) :
    ∃ slave' master', Filed conf keys (logged text filled f) files slave' master' ∧
      slave' ++ master' = slave ++ master ++ nextOutputs f text := by
  cases hencode : (opened f).encode text with
  | mk encoder item =>
    cases item with
    | none =>
      have hnext : nextOutputs f text = [] := by
        rw [nextOutputs, compressed_of_none encrypts hencode, List.map_nil]
      simp only [AtomicCalls.logged, hencode]
      refine ⟨slave, master, ?_, ?_⟩
      · exact ⟨h.tidy.congr rfl rfl rfl, h.nonempty, h.chunks, h.cache, h.pending, h.slaveOpens,
          h.masterOpens, h.free⟩
      · rw [hnext, List.append_nil]
    | some item =>
      obtain ⟨hcompressed, hdata⟩ := compressed_of_some hencode
      let x : Output := ⟨item.compressed, decide (f.master.length = 0)⟩
      have hnext : nextOutputs f text = [x] := by
        rw [nextOutputs, hcompressed, List.map_singleton]
      have hempty : f.master.length = 0 ↔ master = [] := by
        rw [List.length_eq_zero_iff, h.pending, stored_eq_nil]
      have pushed : Filed conf keys
          (SinkName.effective.writeToCache item.data { f with compress := encoder }) files slave
            (master ++ [x]) := by
        refine ⟨h.tidy.congr rfl rfl rfl, h.nonempty, h.chunks, h.cache, ?_, h.slaveOpens,
          h.masterOpens.append (decide_eq_decide.mpr hempty), h.free⟩
        rw [stored_append, stored_singleton, ← h.pending, ← hdata, SinkName.writeToCache_effective]
        rfl
      simp only [AtomicCalls.logged, hencode, hnext]
      cases filled with
      | false => exact ⟨slave, master ++ [x], pushed, (List.append_assoc _ _ _).symm⟩
      | true =>
        obtain ⟨slave', master', swapped, horder, -⟩ := pushed.swapCache
        exact ⟨slave', master', swapped, horder.trans (List.append_assoc _ _ _).symm⟩

end Steps

section Runs

variable {conf : Conf} {keys : Keys} {page : Nat} {s : Sink E}

/-- Every output is in a log file or in a buffer, in order. -/
def Traced (conf : Conf) (keys : Keys) (s : Sink E) : Prop :=
  ∃ f files slave master, Shows s f ∧ Filed conf keys f files slave master ∧
    filedOutputs files ++ slave ++ master = s.outputs

/-- Behind a flush, every output is in a log file. -/
def Flushed (conf : Conf) (keys : Keys) (s : Sink E) : Prop :=
  ∃ f files, Shows s f ∧ Filed conf keys f files [] [] ∧ filedOutputs files = s.outputs

theorem Traced.flush (inv : Traced conf keys s) {io io' : Io} (fine : Fine io) (fine' : Fine io') :
    ∃ next, s.flush conf keys io io' = .ok next ∧ Flushed conf keys next := by
  obtain ⟨f, files, slave, master, shows, filed, order⟩ := inv
  obtain ⟨first, hfirst, shows₁, houtputs₁⟩ :
      ∃ first, s.cacheToFile conf keys io = .ok first ∧
        Shows first (EffectiveSink.cacheToFile conf keys io f) ∧ first.outputs = s.outputs :=
    shows.cacheToFile io
  obtain ⟨files₁, filed₁, horder₁, hfree⟩ := filed.cacheToFile fine shows.slave.small
  -- the slave buffer is free now, so the exchange takes place and leaves nothing behind
  have shows₂ := shows₁.swapCache
  obtain ⟨slave₂, master₂, filed₂, -, hswap⟩ := filed₁.swapCache
  obtain ⟨rfl, rfl⟩ := hswap hfree
  obtain ⟨next, hnext, shows₃, houtputs₃⟩ :
      ∃ next, first.swapCache.cacheToFile conf keys io' = .ok next ∧
        Shows next (EffectiveSink.cacheToFile conf keys io'
          (SinkName.swapCache (EffectiveSink.cacheToFile conf keys io f))) ∧
        next.outputs = first.swapCache.outputs := shows₂.cacheToFile io'
  obtain ⟨files₃, filed₃, horder₃, -⟩ := filed₂.cacheToFile fine' shows₂.slave.small
  refine ⟨next, ?_, _, files₃, shows₃, filed₃, ?_⟩
  · simp only [Sink.flush, hfirst, bind, Except.bind, hnext]
  · rw [horder₃, horder₁, order, houtputs₃, outputs_swapCache, houtputs₁]

theorem Flushed.traced (h : Flushed conf keys s) : Traced conf keys s := by
  obtain ⟨f, files, shows, filed, order⟩ := h
  refine ⟨f, files, [], [], shows, filed, ?_⟩
  rw [List.append_nil, List.append_nil, order]

theorem step_traced (encrypts : E.Encrypts) (hpage : 0 < page) {a : Label}
    (inv : Traced conf keys s) (allowed : Allowed s a) :
    ∃ next, step conf keys page s a = some next ∧ Traced conf keys next := by
  cases a with
  | log text filled =>
    obtain ⟨f, files, slave, master, shows, filed, order⟩ := inv
    have small : ∀ item, ((opened f).encode text).2 = some item →
        f.master.length + ItemHeader.length + item.data.length < 2 ^ 32 := by
      intro item hitem
      apply allowed _ shows.master.size item
      have hencoder : f.compress = s.encoder := by rw [shows.same]; rfl
      rw [← hencoder]
      exact hitem
    obtain ⟨next, hlog, shows', houtputs⟩ := shows.log hpage text filled small
    obtain ⟨slave', master', filed', horder⟩ := filed.logged encrypts text filled
    refine ⟨next, ?_, _, files, slave', master', shows', filed', ?_⟩
    · rw [step, hlog]
      rfl
    · rw [List.append_assoc, horder, houtputs, ← order]
      simp only [List.append_assoc]
  | flush io io' =>
    obtain ⟨next, hflush, flushed⟩ := inv.flush allowed.1 allowed.2
    refine ⟨next, ?_, flushed.traced⟩
    rw [step, hflush]
    rfl
  | cacheToFile io =>
    obtain ⟨f, files, slave, master, shows, filed, order⟩ := inv
    obtain ⟨next, hcache, shows', houtputs⟩ :
        ∃ next, s.cacheToFile conf keys io = .ok next ∧
          Shows next (EffectiveSink.cacheToFile conf keys io f) ∧ next.outputs = s.outputs :=
      shows.cacheToFile io
    obtain ⟨files', filed', horder, -⟩ := filed.cacheToFile allowed shows.slave.small
    refine ⟨next, ?_, _, files', [], master, shows', filed', ?_⟩
    · rw [step, hcache]
      rfl
    · rw [List.append_nil, horder, order, houtputs]

theorem run_flushed (encrypts : E.Encrypts) (hpage : 0 < page) {io₀ io io' : Io}
    {as : List Label}
    (meets : ∀ s₀ : Sink E, construct conf keys page Disk.blank [] io₀ = .ok s₀ →
      Meets (step conf keys page) Allowed s₀ (as ++ [.flush io io'])) :
    ∃ s₀ s : Sink E, construct conf keys page Disk.blank [] io₀ = .ok s₀ ∧
      run (step conf keys page) s₀ (as ++ [.flush io io']) = some s ∧ Flushed conf keys s := by
  obtain ⟨s₀, hnew, shows, houtputs⟩ :
      ∃ s₀ : Sink E, construct conf keys page Disk.blank [] io₀ = .ok s₀ ∧
        Shows s₀ (SinkName.effective.initial [] [] [] (Encoder.new E)) ∧ s₀.outputs = [] :=
    construct_shows hpage io₀
  have start : Traced conf keys s₀ := by
    refine ⟨_, [], [], [], shows, initial_filed, ?_⟩
    rw [houtputs]
    rfl
  obtain ⟨before, last⟩ := (meets_append _ _ _ _ _).mp (meets s₀ hnew)
  obtain ⟨t, hrun, inv⟩ := run_defined
    (fun _ _ inv allowed => step_traced encrypts hpage inv allowed) start before
  obtain ⟨fine, fine'⟩ := (last t hrun).1
  obtain ⟨s, hflush, flushed⟩ := inv.flush fine fine'
  refine ⟨s₀, s, hnew, ?_, flushed⟩
  have hstep : step conf keys page t (.flush io io') = some s := by
    rw [step, hflush]
    rfl
  rw [run_append, hrun, Option.bind_some, run_cons, hstep, Option.bind_some, run_nil]

end Runs

end FlashLog.Sinks.AtomicCalls
