import Mathlib.Logic.Function.Basic
import FlashLog.Compress.RoundTrip
import FlashLog.Support.Machine

/-!
`CompressSink`: callers compress into the shared string `compress_buf_` under `mtx_`, release
the lock, read the string's data and size without it, and push an item under `mtx_` again.
`reserve` lengthens the string's capacity and never its size, so every item pushed is empty.

One label is one `mtx_` section, or the unlocked reads of `compress_buf_`. A message is the
text its formatter made of it.
-/

set_option autoImplicit false
set_option relaxedAutoImplicit false

namespace FlashLog.Sinks.CompressSink

open FlashLog.Support
open FlashLog.Support.Machine (run run_preserves)
open FlashLog.Compress (Zstd ZstdCompress)
open FlashLog.Mmap (StringImpl StdString)

inductive Pc
  | idle
  | compress (text : Bytes)
  | readBuf
  | writeToCache (size : Nat)
  | needWrite
  | cacheToFile
  deriving DecidableEq

/-- An item in the cache: the size in its `ItemHeader` and the bytes that follow. -/
structure Item where
  size : Nat
  data : Bytes
  deriving DecidableEq

/-- What a successful `Compress` put out, and whether it was the first since a reset. -/
structure Output where
  data : Bytes
  fresh : Bool
  deriving DecidableEq

def Output.item (o : Output) : Item := ⟨o.data.length, o.data⟩

structure Sink (T : Type) (z : Zstd) where
  compressBuf : StdString
  compress : ZstdCompress z
  cache : List Item
  written : List (List Item)
  pc : T → Pc
  /-- no `Compress` has put anything out since the last `ResetStream` -/
  fresh : Bool
  /-- every text given to `Compress` -/
  texts : List Bytes
  outputs : List Output

inductive Label (T : Type)
  | log (t : T) (text : Bytes)
  | flush (t : T)
  | thread (t : T) (filled : Bool)

/-- `Compress` writes its output into the characters of the string, within its capacity. -/
def fill (buf : StdString) (output : Bytes) : StdString :=
  buf.poke 0 (output.take buf.capacity) (by
    rw [Nat.zero_add, List.length_take]
    exact Nat.min_le_left _ _)

variable {T : Type} {z : Zstd}

def initial (impl : StringImpl) : Sink T z :=
  { compressBuf := StdString.empty impl, compress := ZstdCompress.new.resetStream, cache := []
    written := [], pc := fun _ => .idle, fresh := true, texts := [], outputs := [] }

/-- Chunks and cache hold the outputs whole, each once and in order, and the first nonempty
item of every chunk is the first output after a reset. -/
def Sink.StoresOutputs (s : Sink T z) : Prop :=
  ∃ (groups : List (List Output)) (last : List Output), groups.flatten ++ last = s.outputs ∧
    s.written = groups.map (List.map Output.item) ∧ s.cache = last.map Output.item ∧
    ∀ g ∈ groups, ∀ o ∈ g.find? (fun o => !o.data.isEmpty), o.fresh = true

def Sink.stored (s : Sink T z) : List Item := s.written.flatten ++ s.cache

/-- Between its `Compress` and its `WriteToCache_`. -/
def Pc.storing : Pc → Prop
  | .readBuf | .writeToCache _ => True
  | _ => False

theorem not_storing_idle : ¬ Pc.idle.storing := id

theorem not_storing_needWrite : ¬ Pc.needWrite.storing := id

variable [DecidableEq T]

def Sink.goto (s : Sink T z) (t : T) (pc : Pc) : Sink T z :=
  { s with pc := Function.update s.pc t pc }

/-- The locked section of `Log`: reserve, compress, and give up if nothing came out. -/
def compressStep (impl : StringImpl) (s : Sink T z) (t : T) (text : Bytes) : Sink T z :=
  let buf := s.compressBuf.reserve impl (z.compressBound text.length)
  match s.compress.compress text buf.capacity with
  | (compress, output) =>
    if output.isEmpty then
      { s with compressBuf := buf, compress, texts := s.texts ++ [text] }.goto t .idle
    else
      { s with
        compressBuf := fill buf output, compress, fresh := false, texts := s.texts ++ [text]
        outputs := s.outputs ++ [Output.mk output s.fresh] }.goto t .readBuf

def threadStep (impl : StringImpl) (s : Sink T z) (t : T) (filled : Bool) : Option (Sink T z) :=
  match s.pc t with
  | .idle => none
  | .compress text => some (compressStep impl s t text)
  | .readBuf => some (s.goto t (.writeToCache s.compressBuf.size))
  | .writeToCache size =>
    some ({ s with
      cache := s.cache ++ [Item.mk (size % 2 ^ 32) (s.compressBuf.mem.take size)] }.goto t
        .needWrite)
  | .needWrite => some (s.goto t (if filled then .cacheToFile else .idle))
  | .cacheToFile =>
    some ({ s with
      written := s.written ++ [s.cache], cache := [], compress := s.compress.resetStream
      fresh := true }.goto t .idle)

def enter (s : Sink T z) (t : T) (pc : Pc) : Option (Sink T z) :=
  match s.pc t with
  | .idle => some (s.goto t pc)
  | _ => none

def step (impl : StringImpl) (s : Sink T z) : Label T → Option (Sink T z)
  | .log t text => enter s t (.compress text)
  | .flush t => enter s t .cacheToFile
  | .thread t filled => threadStep impl s t filled

inductive ThreadStep (impl : StringImpl) (s : Sink T z) (t : T) (filled : Bool) :
    Sink T z → Prop
  | fail (text : Bytes) (compress : ZstdCompress z) : s.pc t = .compress text →
      s.compress.compress text
        (s.compressBuf.reserve impl (z.compressBound text.length)).capacity = (compress, []) →
      ThreadStep impl s t filled ({ s with
        compressBuf := s.compressBuf.reserve impl (z.compressBound text.length), compress
        texts := s.texts ++ [text] }.goto t .idle)
  | compress (text : Bytes) (compress : ZstdCompress z) (output : Bytes) :
      s.pc t = .compress text →
      s.compress.compress text
        (s.compressBuf.reserve impl (z.compressBound text.length)).capacity =
          (compress, output) → output ≠ [] →
      ThreadStep impl s t filled ({ s with
        compressBuf := fill (s.compressBuf.reserve impl (z.compressBound text.length)) output
        compress, fresh := false, texts := s.texts ++ [text]
        outputs := s.outputs ++ [Output.mk output s.fresh] }.goto t .readBuf)
  | readBuf : s.pc t = .readBuf →
      ThreadStep impl s t filled (s.goto t (.writeToCache s.compressBuf.size))
  | writeToCache (size : Nat) : s.pc t = .writeToCache size →
      ThreadStep impl s t filled ({ s with
        cache := s.cache ++ [Item.mk (size % 2 ^ 32) (s.compressBuf.mem.take size)] }.goto t
          .needWrite)
  | needWrite : s.pc t = .needWrite →
      ThreadStep impl s t filled (s.goto t (if filled then .cacheToFile else .idle))
  | cacheToFile : s.pc t = .cacheToFile →
      ThreadStep impl s t filled ({ s with
        written := s.written ++ [s.cache], cache := [], compress := s.compress.resetStream
        fresh := true }.goto t .idle)

theorem threadStep_cases {impl : StringImpl} {s next : Sink T z} {t : T} {filled : Bool}
    (h : threadStep impl s t filled = some next) : ThreadStep impl s t filled next := by
  cases hpc : s.pc t with
  | idle => simp [threadStep, hpc] at h
  | compress text =>
    simp only [threadStep, hpc] at h
    obtain rfl := Option.some.inj h
    cases hcompress : s.compress.compress text
        (s.compressBuf.reserve impl (z.compressBound text.length)).capacity with
    | mk compress output =>
      simp only [compressStep, hcompress]
      split
      · rename_i hempty
        obtain rfl := List.isEmpty_iff.mp hempty
        exact .fail text compress hpc hcompress
      · rename_i hempty
        exact .compress text compress output hpc hcompress (by simpa using hempty)
  | _ =>
    simp only [threadStep, hpc] at h
    obtain rfl := Option.some.inj h
    constructor
    exact hpc

theorem enter_cases {s next : Sink T z} {t : T} {pc : Pc} (h : enter s t pc = some next) :
    s.pc t = .idle ∧ next = s.goto t pc := by
  unfold enter at h
  split at h
  · rename_i hpc
    exact ⟨hpc, (Option.some.inj h).symm⟩
  · cases h

/-- What no interleaving changes: the string stays empty and so does every item stored, while
every nonempty text has come out of `Compress` as something. -/
structure Sink.Hollow (s : Sink T z) : Prop where
  bufEmpty : s.compressBuf.size = 0
  readEmpty : ∀ t size, s.pc t = .writeToCache size → size = 0
  storedEmpty : ∀ item ∈ s.stored, item.data = []
  outputs : ∀ o ∈ s.outputs, o.data ≠ []
  compressed : s.outputs = [] ↔ ∀ x ∈ s.texts, x = []
  storing : s.outputs = [] → s.stored = [] ∧ ∀ t, ¬ (s.pc t).storing

theorem Sink.goto_pc (s : Sink T z) (t u : T) (pc : Pc) :
    (s.goto t pc).pc u = if u = t then pc else s.pc u := by
  simp [Sink.goto, Function.update_apply]

omit [DecidableEq T] in
theorem initial_hollow (impl : StringImpl) : (initial impl : Sink T z).Hollow where
  bufEmpty := rfl
  readEmpty := nofun
  storedEmpty := nofun
  outputs := nofun
  compressed := ⟨fun _ => nofun, fun _ => rfl⟩
  storing := fun _ => ⟨rfl, fun _ h => h⟩

private theorem goto_hollow {s : Sink T z} (inv : s.Hollow) (t : T) {pc : Pc}
    (outside : ¬ pc.storing) : (s.goto t pc).Hollow where
  bufEmpty := inv.bufEmpty
  readEmpty := by
    intro u size hu
    rw [Sink.goto_pc] at hu
    split at hu
    · exact absurd (hu ▸ trivial) outside
    · exact inv.readEmpty u size hu
  storedEmpty := inv.storedEmpty
  outputs := inv.outputs
  compressed := inv.compressed
  storing := by
    intro none
    refine ⟨(inv.storing none).1, fun u => ?_⟩
    rw [Sink.goto_pc]
    split
    · exact outside
    · exact (inv.storing none).2 u

private theorem compress_hollow {impl : StringImpl} {s : Sink T z} {t : T} {text output : Bytes}
    {compress : ZstdCompress z} (inv : s.Hollow) (houtput : output ≠ []) (htext : text ≠ []) :
    ({ s with
      compressBuf := fill (s.compressBuf.reserve impl (z.compressBound text.length)) output
      compress, fresh := false, texts := s.texts ++ [text]
      outputs := s.outputs ++ [Output.mk output s.fresh] }.goto t .readBuf : Sink T z).Hollow where
  bufEmpty := by
    show (s.compressBuf.reserve impl (z.compressBound text.length)).size = 0
    rw [StdString.size_reserve, inv.bufEmpty]
  readEmpty := by
    intro u size hu
    rw [Sink.goto_pc] at hu
    split at hu
    · cases hu
    · exact inv.readEmpty u size hu
  storedEmpty := inv.storedEmpty
  outputs := by
    intro o ho
    rcases List.mem_append.mp ho with ho | ho
    · exact inv.outputs o ho
    · obtain rfl := List.mem_singleton.mp ho
      exact houtput
  compressed := by
    constructor
    · intro none
      cases List.append_ne_nil_of_right_ne_nil s.outputs (List.cons_ne_nil _ _) none
    · intro allEmpty
      exact absurd (allEmpty text (List.mem_append_right _ List.mem_cons_self)) htext
  storing := by
    intro none
    cases List.append_ne_nil_of_right_ne_nil s.outputs (List.cons_ne_nil _ _) none

private theorem thread_hollow (stream : z.Stream) {impl : StringImpl} {s next : Sink T z} {t : T}
    {filled : Bool} (inv : s.Hollow) (h : threadStep impl s t filled = some next) :
    next.Hollow := by
  cases threadStep_cases h with
  | fail text compress hpc hcompress =>
    have empty : text = [] := by
      by_contra htext
      have room := StdString.le_capacity_reserve impl s.compressBuf (z.compressBound text.length)
      exact ZstdCompress.compress_ne_nil stream s.compress htext room
        (congrArg Prod.snd hcompress)
    subst empty
    refine goto_hollow ?_ t not_storing_idle
    refine ⟨?_, inv.readEmpty, inv.storedEmpty, inv.outputs, ?_, inv.storing⟩
    · show (s.compressBuf.reserve impl _).size = 0
      rw [StdString.size_reserve, inv.bufEmpty]
    · rw [inv.compressed]
      simp [or_imp]
  | compress text compress output hpc hcompress houtput =>
    have htext : text ≠ [] := by
      rintro rfl
      have nothing : ∀ size, s.compress.compress [] size = (s.compress, []) := fun _ => rfl
      rw [nothing] at hcompress
      exact houtput (congrArg Prod.snd hcompress).symm
    exact compress_hollow inv houtput htext
  | readBuf hpc =>
    have produced : s.outputs ≠ [] := by
      intro none
      exact (inv.storing none).2 t (by rw [hpc]; trivial)
    refine ⟨inv.bufEmpty, ?_, inv.storedEmpty, inv.outputs, inv.compressed,
      fun none => absurd none produced⟩
    intro u size hu
    rw [Sink.goto_pc] at hu
    split at hu
    · exact (Pc.writeToCache.inj hu).symm.trans inv.bufEmpty
    · exact inv.readEmpty u size hu
  | writeToCache size hpc =>
    have produced : s.outputs ≠ [] := by
      intro none
      exact (inv.storing none).2 t (by rw [hpc]; trivial)
    obtain rfl := inv.readEmpty t size hpc
    refine goto_hollow ?_ t not_storing_needWrite
    refine ⟨inv.bufEmpty, inv.readEmpty, ?_, inv.outputs, inv.compressed,
      fun none => absurd none produced⟩
    intro item hitem
    have stored : item ∈ s.stored ∨ item = ⟨0, []⟩ := by
      simpa [Sink.stored, or_assoc] using hitem
    rcases stored with old | rfl
    · exact inv.storedEmpty item old
    · rfl
  | needWrite hpc => exact goto_hollow inv t (by cases filled <;> exact id)
  | cacheToFile hpc =>
    have same : (s.written ++ [s.cache]).flatten ++ [] = s.stored := by
      simp [Sink.stored]
    refine goto_hollow ?_ t not_storing_idle
    refine ⟨inv.bufEmpty, inv.readEmpty, ?_, inv.outputs, inv.compressed, ?_⟩
    · intro item hitem
      exact inv.storedEmpty item (same ▸ hitem)
    · intro none
      exact ⟨same.trans (inv.storing none).1, (inv.storing none).2⟩

theorem step_hollow (stream : z.Stream) {impl : StringImpl} {s next : Sink T z} {a : Label T}
    (inv : s.Hollow) (h : step impl s a = some next) : next.Hollow := by
  cases a with
  | log t text =>
    obtain ⟨-, rfl⟩ := enter_cases h
    exact goto_hollow inv t id
  | flush t =>
    obtain ⟨-, rfl⟩ := enter_cases h
    exact goto_hollow inv t id
  | thread t filled => exact thread_hollow stream inv h

theorem run_hollow (stream : z.Stream) {impl : StringImpl} {s : Sink T z} {as : List (Label T)}
    (h : run (step impl) (initial impl) as = some s) : s.Hollow :=
  run_preserves Sink.Hollow (fun _ _ _ inv hstep => step_hollow stream inv hstep)
    (initial_hollow impl) h

omit [DecidableEq T] in
theorem Sink.Hollow.outputs_eq_nil {s : Sink T z} (inv : s.Hollow) (stores : s.StoresOutputs) :
    s.outputs = [] := by
  obtain ⟨groups, last, houtputs, hwritten, hcache, -⟩ := stores
  have hstored : s.stored = s.outputs.map Output.item := by
    rw [Sink.stored, hwritten, hcache, ← houtputs, List.map_append, List.map_flatten]
  cases hcases : s.outputs with
  | nil => rfl
  | cons o rest =>
    have ho : o ∈ s.outputs := by
      rw [hcases]
      exact List.mem_cons_self
    have hitem : o.item ∈ s.stored := by
      rw [hstored]
      exact List.mem_map_of_mem ho
    exact absurd (inv.storedEmpty o.item hitem) (inv.outputs o ho)

omit [DecidableEq T] in
theorem Sink.Hollow.storesOutputs {s : Sink T z} (inv : s.Hollow) (none : s.outputs = []) :
    s.StoresOutputs := by
  obtain ⟨hwritten, hcache⟩ := List.append_eq_nil_iff.mp (inv.storing none).1
  -- only empty chunks have been written
  refine ⟨s.written.map fun _ => [], [], ?_, ?_, hcache, ?_⟩
  · rw [none]
    simp
  · rw [List.map_map]
    refine (List.map_id s.written).symm.trans (List.map_congr_left fun chunk hchunk => ?_)
    exact List.flatten_eq_nil_iff.mp hwritten chunk hchunk
  · intro g hg o ho
    obtain ⟨chunk, -, rfl⟩ := List.mem_map.mp hg
    cases ho

/-- In every reachable state of any interleaving, chunks and cache hold what `Compress` put out
if and only if every text given to it was empty. -/
theorem storesOutputs_iff (stream : z.Stream) (impl : StringImpl) (as : List (Label T))
    (s : Sink T z) (hrun : run (step impl) (initial impl) as = some s) :
    s.StoresOutputs ↔ ∀ x ∈ s.texts, x = [] := by
  have inv := run_hollow stream hrun
  rw [← inv.compressed]
  exact ⟨inv.outputs_eq_nil, inv.storesOutputs⟩

def logOnce (text : Bytes) : List (Label Unit) :=
  [.log () text, .thread () false, .thread () false, .thread () false, .thread () false]

theorem storesOutputs_iff_empty_text :
    ∃ s : Sink Unit Compress.Stored.zstd,
      run (step .libstdcxx) (initial .libstdcxx) [.log () [], .thread () false] = some s ∧
        s.texts = [[]] ∧ (s.StoresOutputs ↔ ∀ x ∈ s.texts, x = []) := by
  obtain ⟨s, hs, htexts⟩ : ∃ s : Sink Unit Compress.Stored.zstd,
      run (step .libstdcxx) (initial .libstdcxx) [.log () [], .thread () false] = some s ∧
        s.texts = [[]] := ⟨_, rfl, rfl⟩
  exact ⟨s, hs, htexts, storesOutputs_iff Compress.Stored.stream .libstdcxx _ s hs⟩

private theorem run_logOnce : ∃ s : Sink Unit Compress.Stored.zstd,
    run (step .libstdcxx) (initial .libstdcxx) (logOnce [104]) = some s ∧
      s.cache = [⟨0, []⟩] ∧ s.outputs ≠ [] := by
  have hroom : Compress.Stored.zstd.compressBound [(104 : UInt8)].length ≤
      ((StdString.empty .libstdcxx).reserve .libstdcxx
        (Compress.Stored.zstd.compressBound 1)).capacity :=
    StdString.le_capacity_reserve .libstdcxx _ _
  obtain ⟨cctx, data, hflush⟩ := Compress.Stored.stream.flushes
    (ZstdCompress.new.resetStream : ZstdCompress Compress.Stored.zstd).cctx [104] _ (by decide)
    hroom
  have produced := ZstdCompress.compress_ne_nil Compress.Stored.stream
    (ZstdCompress.new.resetStream : ZstdCompress Compress.Stored.zstd)
    (by decide : [(104 : UInt8)] ≠ []) hroom
  have hcompress := ZstdCompress.compress_of_flushes (by decide) hflush
  rw [hcompress] at produced
  have hdata : data ≠ [] := produced
  have hsize : (StdString.empty .libstdcxx).size = 0 := rfl
  simp [logOnce, step, enter, threadStep, compressStep, initial, Sink.goto, hcompress, hdata,
    fill, StdString.poke, hsize]

theorem logOnce_stores_empty_item :
    ¬ ∀ s : Sink Unit Compress.Stored.zstd,
      run (step .libstdcxx) (initial .libstdcxx) (logOnce [104]) = some s → s.StoresOutputs := by
  intro always
  obtain ⟨s, hs, hcache, produced⟩ := run_logOnce
  exact produced ((run_hollow Compress.Stored.stream hs).outputs_eq_nil (always s hs))

end FlashLog.Sinks.CompressSink
