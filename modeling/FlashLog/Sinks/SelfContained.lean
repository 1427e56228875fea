import Mathlib.Data.Fintype.Basic
import FlashLog.Compress.StoredFrames
import FlashLog.Sinks.Conservation
import FlashLog.Sinks.Format
import FlashLog.Sinks.ItemStream

/-!
Every chunk of `EffectiveSink` decodes on its own, unless an exchange of the buffers falls
between the `Empty` test of a `Log` and its push. The test decides on the reset outside the
lock; after such an exchange the push goes on with the old stream in the new buffer.
-/

set_option autoImplicit false
set_option relaxedAutoImplicit false

namespace FlashLog.Sinks.DoubleBuffer

open FlashLog.Support FlashLog.Compress
open FlashLog.Support.Machine (run Meets run_invariant)
open FlashLog.Sinks.ItemStream

variable {T : Type} {E : Env}

/-- The encoder as the pipeline of the protocol. A message is the text its formatter made of
it. -/
def encoding (E : Env) (pubKey : Bytes) : Pipeline (Encoder E.z) Bytes Item Keys where
  resetStream := Encoder.resetStream
  encode := Encoder.encode
  keys := ⟨E.crypto.iv, pubKey⟩

/-- Between the `Empty` test of a `Log` and its push. -/
def Pc.isPush {μ : Type} : Pc μ → Bool
  | .push _ => true
  | _ => false

/-- An exchange brings in an empty buffer, and takes none with items away from a thread between
its `Empty` test and its push. -/
def SwapOutsideLog {σ μ ι η : Type} (s : Sink T σ μ ι η) : Label T μ → Prop
  | .thread t _ => (s.pc t).isSwap = true →
    s.slave = [] ∧ ∀ u, (s.pc u).isPush = true → s.master = []
  | _ => True

instance {σ μ ι η : Type} [Fintype T] [DecidableEq ι] (s : Sink T σ μ ι η) :
    ∀ a : Label T μ, Decidable (SwapOutsideLog s a)
  | .thread t _ => inferInstanceAs (Decidable ((s.pc t).isSwap = true →
    s.slave = [] ∧ ∀ u, (s.pc u).isPush = true → s.master = []))
  | .log _ _ | .flush _ | .worker => inferInstanceAs (Decidable True)

/-- A chunk whose header names the size of its payload, and whose items decode on their own. -/
structure Chunk.SelfContained (E : Env) (c : Chunk Item Keys) : Prop where
  whole : c.Whole
  items : ItemStream.SelfContained E c.payload

/-- What the worker has found or measured of the slave buffer. -/
def WorkerKnows {ι : Type} (slave : List ι) : WorkerPc ι → Prop
  | .size | .clear => slave ≠ []
  | .write sized => slave ≠ [] ∧ sized = slave
  | _ => True

/-- The encoder is ready for the master buffer whenever an item may be pushed there, and all
other buffers and chunks decode on their own. -/
structure InFrames (stream : E.z.Stream) (s : Sink T (Encoder E.z) Bytes Item Keys) : Prop where
  master : (s.master ≠ [] ∨ ∃ t, (s.pc t).isPush = true) → Ready stream s.stream s.master
  slave : ItemStream.SelfContained E s.slave
  worker : WorkerKnows s.slave s.worker
  written : ∀ c ∈ s.written, c.SelfContained E

variable [DecidableEq T] {stream : E.z.Stream} {pubKey : Bytes}

theorem goto_isPush {s : Sink T (Encoder E.z) Bytes Item Keys} {t u : T} {pc : Pc Bytes}
    (hpc : pc.isPush = false) (h : ((s.goto t pc).pc u).isPush = true) :
    (s.pc u).isPush = true := by
  simp only [Sink.goto, Function.update_apply] at h
  split at h
  · rw [hpc] at h
    cases h
  · exact h

theorem InFrames.goto {s : Sink T (Encoder E.z) Bytes Item Keys} (inv : InFrames stream s) (t : T)
    {pc : Pc Bytes} (hpc : pc.isPush = false) : InFrames stream (s.goto t pc) where
  master := by
    rintro (hmaster | ⟨u, hu⟩)
    · exact inv.master (Or.inl hmaster)
    · exact inv.master (Or.inr ⟨u, goto_isPush hpc hu⟩)
  slave := inv.slave
  worker := inv.worker
  written := inv.written

omit [DecidableEq T] in
private theorem InFrames.push {s : Sink T (Encoder E.z) Bytes Item Keys} (inv : InFrames stream s)
    {t : T} {m : Bytes} (hpc : s.pc t = .push m) : Ready stream s.stream s.master :=
  inv.master (Or.inr ⟨t, by rw [hpc]; rfl⟩)

private theorem thread_inFrames (encrypts : E.Encrypts)
    {s next : Sink T (Encoder E.z) Bytes Item Keys} {t : T} {filled : Bool}
    (inv : InFrames stream s) (guard : SwapOutsideLog s (.thread t filled : Label T Bytes))
    (h : threadStep (encoding E pubKey) s t filled = some next) : InFrames stream next := by
  cases threadStep_cases h with
  | resetIfEmpty m hpc =>
    refine ⟨fun _ => ?_, inv.slave, inv.worker, inv.written⟩
    cases hmaster : s.master with
    | nil =>
      simp only [Sink.goto, List.isEmpty_nil, if_pos]
      exact ready_resetStream s.stream
    | cons x xs =>
      have ready := inv.master (Or.inl (by rw [hmaster]; exact List.cons_ne_nil _ _))
      simpa [Sink.goto, hmaster] using ready
  | fail m stream' hpc hencode =>
    obtain ⟨hcompress, hresets, hfresh⟩ := encode_none stream encrypts hencode
    have ready := (inv.push hpc).congr hcompress hresets hfresh
    exact ⟨fun _ => ready, inv.slave, inv.worker, inv.written⟩
  | push m stream' x hpc hencode =>
    have ready := (inv.push hpc).push (encode_some hencode)
    exact ⟨fun _ => ready, inv.slave, inv.worker, inv.written⟩
  | swap k hpc =>
    obtain ⟨emptied, between⟩ := guard (by rw [hpc]; rfl)
    refine ⟨?_, ?_, ?_, inv.written⟩
    · -- the buffer that comes in is empty, and so is the one a pushing thread has tested
      intro used
      have pushing : ∃ u, (s.pc u).isPush = true := by
        rcases used with hmaster | ⟨u, hu⟩
        · exact absurd emptied hmaster
        · have outside : Pc.isPush (.post k : Pc Bytes) = false := rfl
          exact ⟨u, goto_isPush outside hu⟩
      have ready := inv.master (Or.inr pushing)
      obtain ⟨u, hu⟩ := pushing
      rw [between u hu] at ready
      simpa [Sink.goto, emptied] using ready
    · by_cases hmaster : s.master = []
      · simpa [Sink.goto, hmaster] using selfContained_nil
      · exact (inv.master (Or.inl hmaster)).selfContained
    · have worker := inv.worker
      rw [emptied] at worker
      cases hworker : s.worker <;> simp_all [WorkerKnows, Sink.goto]
  | storeBusy k hpc => exact ⟨(inv.goto t rfl).master, inv.slave, inv.worker, inv.written⟩
  | needWrite hpc => exact inv.goto t (by cases filled <;> rfl)
  | loadFree k hpc => exact inv.goto t (by cases s.isSlaveFree <;> rfl)
  | wait w hpc woken => exact inv.goto t (by cases w <;> rfl)
  | ctorSlave hpc => exact inv.goto t (by cases s.slave.isEmpty <;> rfl)
  | post k hpc =>
    exact ⟨(inv.goto t (by cases k <;> rfl)).master, inv.slave, inv.worker, inv.written⟩
  | flushPost hpc | mark w hpc | ctorBusy hpc | ctorPost hpc =>
    exact ⟨(inv.goto t rfl).master, inv.slave, inv.worker, inv.written⟩
  | ctorMaster hpc =>
    have there : ∀ pc : Pc Bytes, pc.isPush = false → ∀ b,
        InFrames stream ({ s with constructed := b }.goto t pc) :=
      fun pc hpc b => ⟨(inv.goto t hpc).master, inv.slave, inv.worker, inv.written⟩
    split
    · exact there _ rfl true
    · exact inv.goto t rfl

private theorem worker_inFrames {s next : Sink T (Encoder E.z) Bytes Item Keys}
    (inv : InFrames stream s) (h : workerStep (encoding E pubKey) s = some next) :
    InFrames stream next := by
  have worker := inv.worker
  cases workerStep_cases h with
  | take queue hworker hqueue | wake u queue hworker hqueue | store hworker =>
    exact ⟨inv.master, inv.slave, trivial, inv.written⟩
  | load hworker =>
    refine ⟨inv.master, inv.slave, ?_, inv.written⟩
    cases s.isSlaveFree <;> trivial
  | empty hworker =>
    refine ⟨inv.master, inv.slave, ?_, inv.written⟩
    cases hslave : s.slave with
    | nil => trivial
    | cons x xs => exact List.cons_ne_nil _ _
  | size hworker =>
    rw [hworker] at worker
    exact ⟨inv.master, inv.slave, ⟨worker, rfl⟩, inv.written⟩
  | write sized hworker =>
    rw [hworker] at worker
    obtain ⟨filled, rfl⟩ := worker
    refine ⟨inv.master, inv.slave, filled, ?_⟩
    intro c hc
    rcases List.mem_append.mp hc with old | new
    · exact inv.written c old
    · obtain rfl := List.mem_singleton.mp new
      exact ⟨rfl, inv.slave⟩
  | clear hworker => exact ⟨inv.master, selfContained_nil, trivial, inv.written⟩

theorem inFrames_step (encrypts : E.Encrypts) {s next : Sink T (Encoder E.z) Bytes Item Keys}
    {a : Label T Bytes} (inv : InFrames stream s) (guard : SwapOutsideLog s a)
    (h : step .effective (encoding E pubKey) s a = some next) : InFrames stream next := by
  cases a with
  | log t m =>
    obtain ⟨-, -, rfl⟩ := enter_cases h
    exact inv.goto t rfl
  | flush t =>
    obtain ⟨-, -, rfl⟩ := enter_cases h
    exact inv.goto t rfl
  | thread t filled => exact thread_inFrames encrypts inv guard h
  | worker => exact worker_inFrames inv h

theorem initial_inFrames (stream : E.z.Stream) (t : T) {masterFile slaveFile : List Item}
    (hmaster : ItemStream.SelfContained E masterFile)
    (hslave : ItemStream.SelfContained E slaveFile) (before : ∀ x ∈ masterFile, x.resets = 0) :
    InFrames stream (initial (η := Keys) .effective t (Encoder.new E) masterFile slaveFile) where
  master := by
    rintro (filled | ⟨u, hu⟩)
    · exact ready_new hmaster filled before
    · simp only [initial, Function.update_apply] at hu
      split at hu <;> cases hu
  slave := hslave
  worker := trivial
  written := nofun

/-- With any number of threads, every chunk decodes on its own as long as no exchange takes the
master buffer away between the `Empty` test of a `Log` and its push. -/
theorem chunks_selfContained (E : Env) (stream : E.z.Stream) (encrypts : E.Encrypts)
    (pubKey : Bytes) (t : T) (masterFile slaveFile : List Item)
    (hmaster : ItemStream.SelfContained E masterFile)
    (hslave : ItemStream.SelfContained E slaveFile) (before : ∀ x ∈ masterFile, x.resets = 0)
    (as : List (Label T Bytes)) (s : Sink T (Encoder E.z) Bytes Item Keys)
    (hrun : run (step .effective (encoding E pubKey))
      (initial .effective t (Encoder.new E) masterFile slaveFile) as = some s)
    (hmeets : Meets (step .effective (encoding E pubKey)) SwapOutsideLog
      (initial .effective t (Encoder.new E) masterFile slaveFile) as) :
    ∀ c ∈ s.written, c.SelfContained E := by
  have preserved : ∀ (s : Sink T (Encoder E.z) Bytes Item Keys) (a : Label T Bytes) next,
      InFrames stream s → SwapOutsideLog s a →
        step .effective (encoding E pubKey) s a = some next → InFrames stream next :=
    fun _ _ _ inv guard hstep => inFrames_step encrypts inv guard hstep
  exact (run_invariant preserved (initial_inFrames stream t hmaster hslave before) hmeets
    hrun).written

/-- Raw blocks, and a cipher that marks its output with key and vector. -/
def storedEnv : Env where
  impl := .libstdcxx
  z := Stored.zstd
  lib := Crypto.tagged
  crypto := ⟨List.replicate 32 1, List.replicate 32 2⟩

theorem storedEnv_encrypts : storedEnv.Encrypts := by
  intro data hdata
  exact List.append_ne_nil_of_right_ne_nil _ hdata

/-- Thread 1 pushes before thread 0 exchanges the buffers, and both items go out in one chunk. -/
def exchangeOutsideLog : List (Label (Fin 2) Bytes) :=
  let t0 := Label.thread 0 true
  let t1 := Label.thread 1 false
  let w := Label.worker
  [t0, t0, .log 0 [1], t0, .log 1 [2], t1, t0, t1, t1, t0, t0, t0, t0, t0,
    w, w, w, w, w, w, w]

theorem chunks_selfContained_outside :
    ∃ s, run (step .effective (encoding storedEnv []))
        (initial .effective 0 (Encoder.new storedEnv) [] []) exchangeOutsideLog = some s ∧
      s.written.map (fun c => c.payload.map Item.text) = [[[1], [2]]] ∧
        ∀ c ∈ s.written, c.SelfContained storedEnv := by
  obtain ⟨s, hrun, htexts⟩ := Option.map_eq_some_iff.mp (show
    (run (step .effective (encoding storedEnv []))
      (initial .effective 0 (Encoder.new storedEnv) [] []) exchangeOutsideLog).map
        (fun s => s.written.map (fun c => c.payload.map Item.text)) = some [[[1], [2]]] by
          decide +kernel)
  exact ⟨s, hrun, htexts, chunks_selfContained storedEnv Stored.stream storedEnv_encrypts []
    (0 : Fin 2) [] [] selfContained_nil selfContained_nil nofun exchangeOutsideLog s hrun
    (by decide +kernel)⟩

/-- Thread 1 has found items in the master buffer when thread 0 exchanges it; the item of thread
1 is the first of the next chunk. -/
def exchangeInsideLog : List (Label (Fin 2) Bytes) :=
  let t0 := Label.thread 0 true
  let t1 := Label.thread 1 true
  let w := Label.worker
  [t0, t0, .log 0 [1], t0, t0, .thread 0 false, .log 1 [2], t1,
    .log 0 [3], t0, t0, t0, t0, t0, t0, t0, w, w, w, w, w, w, w,
    t1, t1, t1, t1, t1, t1, w, w, w, w, w]

theorem exchangeInsideLog_splits_frame :
    ¬ ∀ (as : List (Label (Fin 2) Bytes)) (s : Sink (Fin 2) (Encoder storedEnv.z) Bytes Item Keys),
      run (step .effective (encoding storedEnv []))
          (initial .effective 0 (Encoder.new storedEnv) [] []) as = some s →
        ∀ c ∈ s.written, c.SelfContained storedEnv := by
  intro always
  obtain ⟨s, hrun, hfresh⟩ := Option.map_eq_some_iff.mp (show
    (run (step .effective (encoding storedEnv []))
      (initial .effective 0 (Encoder.new storedEnv) [] []) exchangeInsideLog).map
        (fun s => s.written.map (fun c => c.payload.head?.map Item.fresh)) =
          some [some true, some false] by decide +kernel)
  obtain ⟨c, hc, hhead⟩ : ∃ c ∈ s.written, c.payload.head?.map Item.fresh = some false := by
    have hmem : some false ∈ s.written.map (fun c => c.payload.head?.map Item.fresh) := by
      rw [hfresh]
      exact List.mem_cons_of_mem _ List.mem_cons_self
    exact List.mem_map.mp hmem
  obtain ⟨x, hx, split⟩ := Option.map_eq_some_iff.mp hhead
  have fresh := (always exchangeInsideLog s hrun c hc).items.first x hx
  rw [split] at fresh
  cases fresh

end FlashLog.Sinks.DoubleBuffer
