import FlashLog.Sinks.Conservation

/-!
Process lifetimes of `EffectiveSink` on one directory. A lifetime constructs the sink,
takes any steps of the double-buffer protocol and ends at any point, the one between the
two `Push` of `WriteToCache_` included; the files `master_mmap` and `slave_mmap` keep what
the buffers held. Which buffer lies in which file follows the exchanges of the pointers.
-/

set_option autoImplicit false
set_option relaxedAutoImplicit false

namespace FlashLog.Sinks

open FlashLog.Support
open FlashLog.Support.Machine (run Meets meets_of_invariant)

namespace DoubleBuffer

variable {T σ μ ι η : Type}

def emission (P : Pipeline σ μ ι η) (s : Sink T σ μ ι η) : Label T μ → Option (Chunk ι η)
  | .worker =>
    match s.worker with
    | .write sized => some ⟨P.keys, sized, s.slave⟩
    | _ => none
  | _ => none

def Sink.pushing (P : Pipeline σ μ ι η) (s : Sink T σ μ ι η) (t : T) : Option ι :=
  match s.pc t with
  | .push m => (P.encode s.stream m).2
  | _ => none

def Sink.items (s : Sink T σ μ ι η) : List ι := s.slave ++ s.master

def Sink.masterFile (s : Sink T σ μ ι η) : List ι :=
  if s.swapped then s.slave else s.master

def Sink.slaveFile (s : Sink T σ μ ι η) : List ι :=
  if s.swapped then s.master else s.slave

theorem mem_items_of_mem_files {s : Sink T σ μ ι η} {x : ι}
    (hx : x ∈ s.slaveFile ++ s.masterFile) : x ∈ s.items := by
  cases hswapped : s.swapped
  · simpa [Sink.slaveFile, Sink.masterFile, Sink.items, hswapped] using hx
  · simpa [Sink.slaveFile, Sink.masterFile, Sink.items, hswapped, or_comm] using hx

theorem encode_of_pushing {P : Pipeline σ μ ι η} {s : Sink T σ μ ι η} {t : T} {x : ι}
    (h : s.pushing P t = some x) : ∃ m, (P.encode s.stream m).2 = some x := by
  unfold Sink.pushing at h
  split at h
  · exact ⟨_, h⟩
  · cases h

/-- `CacheToFile_` has read `Size()` and not written yet. -/
def WorkerPc.isSized : WorkerPc ι → Bool
  | .write _ => true
  | _ => false

/-- No thread exchanges the buffers between `Size()` and the write of `CacheToFile_`. -/
def SwapOutsideSized (s : Sink T σ μ ι η) : Label T μ → Prop
  | .thread t _ => (s.pc t).isSwap = true → s.worker.isSized = false
  | _ => True

instance (s : Sink T σ μ ι η) : ∀ a : Label T μ, Decidable (SwapOutsideSized s a)
  | .thread t _ => inferInstanceAs (Decidable ((s.pc t).isSwap = true → s.worker.isSized = false))
  | .log _ _ | .flush _ | .worker => inferInstanceAs (Decidable True)

section Steps

variable [DecidableEq T]

private theorem thread_written {P : Pipeline σ μ ι η} {s next : Sink T σ μ ι η} {t : T}
    {filled : Bool} (h : threadStep P s t filled = some next) : next.written = s.written := by
  cases threadStep_cases h with
  | ctorMaster => split <;> rfl
  | _ => rfl

private theorem worker_written {P : Pipeline σ μ ι η} {s next : Sink T σ μ ι η}
    (h : workerStep P s = some next) :
    next.written = s.written ++ (emission (T := T) P s .worker).toList := by
  cases workerStep_cases h with
  | take queue hworker | wake t queue hworker | load hworker | empty hworker | size hworker
  | write sized hworker | clear hworker | store hworker => simp [emission, hworker]

theorem written_step {kind : Kind} {P : Pipeline σ μ ι η} {s next : Sink T σ μ ι η}
    {a : Label T μ} (h : step kind P s a = some next) :
    next.written = s.written ++ (emission P s a).toList := by
  have unchanged : next.written = s.written → next.written = s.written ++ [] := by
    intro same
    rw [same, List.append_nil]
  cases a with
  | log t m =>
    obtain ⟨-, -, rfl⟩ := enter_cases h
    exact unchanged rfl
  | flush t =>
    obtain ⟨-, -, rfl⟩ := enter_cases h
    exact unchanged rfl
  | thread t filled => exact unchanged (thread_written h)
  | worker => exact worker_written h

theorem whole_step {kind : Kind} {P : Pipeline σ μ ι η} {s next : Sink T σ μ ι η} {a : Label T μ}
    (whole : s.view.Whole) (guard : SwapOutsideSized s a) (h : step kind P s a = some next) :
    next.view.Whole := by
  have shown := simulates_handoff kind P s a next h
  cases hmove : move P s a with
  | none =>
    rw [hmove] at shown
    have same : next.view = s.view := shown
    rwa [same]
  | some m =>
    rw [hmove] at shown
    refine Handoff.whole_step whole ?_ shown
    cases m with
    | exchange =>
      obtain ⟨t, filled, rfl, swapping⟩ := swap_of_exchange hmove
      have unsized : s.worker.isSized = false := guard swapping
      intro seen hseen
      cases hworker : s.worker with
      | write sized =>
        rw [hworker] at unsized
        cases unsized
      | _ => simp [Sink.view, WorkerPc.phase, hworker] at hseen
    | _ => trivial

theorem items_step {kind : Kind} {P : Pipeline σ μ ι η} {s next : Sink T σ μ ι η}
    {a : Label T μ} (h : step kind P s a = some next) {x : ι} (hx : x ∈ next.items) :
    x ∈ s.items ∨ ∃ m, (P.encode s.stream m).2 = some x := by
  have shown := simulates_handoff kind P s a next h
  cases hmove : move P s a with
  | none =>
    rw [hmove] at shown
    have same : next.view = s.view := shown
    have hback : next.slave = s.slave := congrArg Handoff.State.back same
    have hfront : next.master = s.master := congrArg Handoff.State.front same
    rw [Sink.items, hback, hfront] at hx
    exact Or.inl hx
  | some move' =>
    rw [hmove] at shown
    rcases Handoff.mem_buffers_step shown hx with old | rfl
    · exact Or.inl old
    · right
      cases a with
      | log t m => cases hmove
      | flush t => cases hmove
      | worker => cases hworker : s.worker <;> simp [move, hworker] at hmove
      | thread t filled =>
        cases hpc : s.pc t <;> simp [move, hpc] at hmove
        exact ⟨_, hmove⟩

end Steps

end DoubleBuffer

namespace Lifetimes

variable {T σ μ ι η : Type}

/-- A running process: the number of its construction, what the constructor set up, and the
sink. -/
structure Process (T σ μ ι η : Type) where
  lifetime : Nat
  pipeline : DoubleBuffer.Pipeline σ μ ι η
  sink : DoubleBuffer.Sink T σ μ ι η

/-- The directory between the steps of its processes, one at a time. -/
structure Directory (T σ μ ι η : Type) where
  lifetimes : Nat
  /-- what `master_mmap` and `slave_mmap` hold while no process runs -/
  masterFile : List ι
  slaveFile : List ι
  process : Option (Process T σ μ ι η)
  /-- the chunks of earlier lifetimes -/
  past : List (DoubleBuffer.Chunk ι η)

inductive Label (T μ : Type)
  | construct (t : T)
  | act (a : DoubleBuffer.Label T μ)
  /-- a crash or a destruction; neither touches the mapped files -/
  | exit
  /-- a crash of thread `t` between the two `Push` of `WriteToCache_` -/
  | crashInPush (t : T)
  deriving DecidableEq

def Directory.fresh : Directory T σ μ ι η := ⟨0, [], [], none, []⟩

def Directory.chunks (d : Directory T σ μ ι η) : List (DoubleBuffer.Chunk ι η) :=
  d.past ++ (d.process.map fun p => p.sink.written).getD []

def Directory.items (d : Directory T σ μ ι η) : List ι :=
  match d.process with
  | some p => p.sink.items
  | none => d.slaveFile ++ d.masterFile

def emission (d : Directory T σ μ ι η) : Label T μ → Option (DoubleBuffer.Chunk ι η)
  | .act a => d.process.bind fun p => DoubleBuffer.emission p.pipeline p.sink a
  | _ => none

/-- No thread of the running process exchanges the buffers between `Size()` and the write. -/
def SwapOutsideSized (d : Directory T σ μ ι η) : Label T μ → Prop
  | .act a => ∀ p ∈ d.process, DoubleBuffer.SwapOutsideSized p.sink a
  | _ => True

instance (d : Directory T σ μ ι η) : ∀ a : Label T μ, Decidable (SwapOutsideSized d a)
  | .act a => inferInstanceAs (Decidable (∀ p ∈ d.process, DoubleBuffer.SwapOutsideSized p.sink a))
  | .construct _ | .exit | .crashInPush _ => inferInstanceAs (Decidable True)

/-- Every chunk has its own size, and the running process has that of the buffer it will write. -/
structure Directory.Whole (d : Directory T σ μ ι η) : Prop where
  process : ∀ p ∈ d.process, p.sink.view.Whole
  past : ∀ c ∈ d.past, c.Whole

theorem fresh_whole : (.fresh : Directory T σ μ ι η).Whole :=
  ⟨fun _ hp => (by cases hp), fun _ hc => (by cases hc)⟩

theorem Directory.Whole.chunks {d : Directory T σ μ ι η} (whole : d.Whole) :
    ∀ c ∈ d.chunks, c.Whole := by
  intro c hc
  rcases List.mem_append.mp hc with old | new
  · exact whole.past c old
  · cases hprocess : d.process with
    | none => simp [hprocess] at new
    | some p =>
      rw [hprocess] at new
      exact DoubleBuffer.view_whole (whole.process p hprocess) c new

theorem emission_spec {d : Directory T σ μ ι η} {a : Label T μ}
    {c : DoubleBuffer.Chunk ι η} (h : emission d a = some c) :
    ∃ p ∈ d.process, c.keys = p.pipeline.keys ∧ c.payload = p.sink.slave := by
  cases a with
  | construct t => cases h
  | exit => cases h
  | crashInPush t => cases h
  | act a =>
    obtain ⟨p, hprocess, hwrite⟩ := Option.bind_eq_some_iff.mp h
    refine ⟨p, hprocess, ?_⟩
    cases a with
    | worker =>
      cases hworker : p.sink.worker <;> simp only [DoubleBuffer.emission, hworker] at hwrite
      case write sized =>
        obtain rfl := Option.some.inj hwrite
        exact ⟨rfl, rfl⟩
      all_goals cases hwrite
    | log t m | flush t | thread t filled => cases hwrite

/-- The directory that a process leaves behind. -/
def Directory.leave (d : Directory T σ μ ι η) (sink : DoubleBuffer.Sink T σ μ ι η) :
    Directory T σ μ ι η :=
  { d with
    masterFile := sink.masterFile
    slaveFile := sink.slaveFile
    process := none
    past := d.past ++ sink.written }

section Steps

variable [DecidableEq T] (setUp : Nat → Option (DoubleBuffer.Pipeline σ μ ι η)) (stream : σ)
  (tear : ι → ι)

/-- `setUp n` is what construction number `n` makes of its random values, `none` when it
throws, which it does before it opens a mapped file; `stream` is a new compressor; `tear`
is what a buffer holds of an item whose header alone is pushed. -/
def step (d : Directory T σ μ ι η) : Label T μ → Option (Directory T σ μ ι η)
  | .construct t =>
    match d.process with
    | some _ => none
    | none =>
      some { d with
        lifetimes := d.lifetimes + 1
        process := (setUp d.lifetimes).map fun pipeline =>
          ⟨d.lifetimes, pipeline,
            DoubleBuffer.initial .effective t stream d.masterFile d.slaveFile⟩ }
  | .act a =>
    d.process.bind fun p =>
      (DoubleBuffer.step .effective p.pipeline p.sink a).map fun sink =>
        { d with process := some { p with sink } }
  | .exit => d.process.map fun p => d.leave p.sink
  | .crashInPush t =>
    d.process.bind fun p =>
      (p.sink.pushing p.pipeline t).map fun x =>
        d.leave { p.sink with master := p.sink.master ++ [tear x] }

inductive Outcome (d next : Directory T σ μ ι η) : Label T μ → Prop
  | started (t : T) : d.process = none →
      next = { d with
        lifetimes := d.lifetimes + 1
        process := (setUp d.lifetimes).map fun pipeline =>
          ⟨d.lifetimes, pipeline,
            DoubleBuffer.initial .effective t stream d.masterFile d.slaveFile⟩ } →
      Outcome d next (.construct t)
  | acted (a : DoubleBuffer.Label T μ) (p : Process T σ μ ι η)
      (sink : DoubleBuffer.Sink T σ μ ι η) :
      d.process = some p → DoubleBuffer.step .effective p.pipeline p.sink a = some sink →
      next = { d with process := some { p with sink } } → Outcome d next (.act a)
  | ended (p : Process T σ μ ι η) : d.process = some p → next = d.leave p.sink →
      Outcome d next .exit
  | torn (t : T) (p : Process T σ μ ι η) (x : ι) :
      d.process = some p → p.sink.pushing p.pipeline t = some x →
      next = d.leave { p.sink with master := p.sink.master ++ [tear x] } →
      Outcome d next (.crashInPush t)

variable {setUp stream tear}

theorem outcome_of_step {d next : Directory T σ μ ι η} {a : Label T μ}
    (h : step setUp stream tear d a = some next) : Outcome setUp stream tear d next a := by
  cases a with
  | construct t =>
    cases hprocess : d.process with
    | some p => simp [step, hprocess] at h
    | none =>
      simp only [step, hprocess] at h
      exact .started t hprocess (Option.some.inj h).symm
  | act a =>
    obtain ⟨p, hprocess, hact⟩ := Option.bind_eq_some_iff.mp h
    obtain ⟨sink, hsink, rfl⟩ := Option.map_eq_some_iff.mp hact
    exact .acted a p sink hprocess hsink rfl
  | exit =>
    obtain ⟨p, hprocess, rfl⟩ := Option.map_eq_some_iff.mp h
    exact .ended p hprocess rfl
  | crashInPush t =>
    obtain ⟨p, hprocess, hcrash⟩ := Option.bind_eq_some_iff.mp h
    obtain ⟨x, hpushing, rfl⟩ := Option.map_eq_some_iff.mp hcrash
    exact .torn t p x hprocess hpushing rfl

theorem chunks_step {d next : Directory T σ μ ι η} {a : Label T μ}
    (h : step setUp stream tear d a = some next) :
    next.chunks = d.chunks ++ (emission d a).toList := by
  cases outcome_of_step h with
  | started t hprocess hnext =>
    subst hnext
    simp only [Directory.chunks, hprocess, emission]
    cases setUp d.lifetimes <;> simp [DoubleBuffer.initial]
  | acted a p sink hprocess hsink hnext =>
    subst hnext
    have hwritten := DoubleBuffer.written_step hsink
    simp [Directory.chunks, hprocess, emission, hwritten]
  | ended p hprocess hnext =>
    subst hnext
    simp [Directory.chunks, Directory.leave, hprocess, emission]
  | torn t p x hprocess hpushing hnext =>
    subst hnext
    simp [Directory.chunks, Directory.leave, hprocess, emission]

theorem items_step {d next : Directory T σ μ ι η} {a : Label T μ}
    (h : step setUp stream tear d a = some next) {x : ι} (hx : x ∈ next.items) :
    x ∈ d.items ∨ ∃ p ∈ d.process, ∃ st m y, (p.pipeline.encode st m).2 = some y ∧
      (x = y ∨ x = tear y ∧ next.process = none) := by
  cases outcome_of_step h with
  | started t hprocess hnext =>
    subst hnext
    left
    cases hsetUp : setUp d.lifetimes with
    | none => simpa [Directory.items, hprocess, hsetUp] using hx
    | some pipeline =>
      simpa [Directory.items, hprocess, hsetUp, DoubleBuffer.Sink.items, DoubleBuffer.initial]
        using hx
  | acted a p sink hprocess hsink hnext =>
    subst hnext
    rcases DoubleBuffer.items_step hsink hx with old | ⟨m, hm⟩
    · left
      rwa [Directory.items, hprocess]
    · exact Or.inr ⟨p, hprocess, _, m, x, hm, Or.inl rfl⟩
  | ended p hprocess hnext =>
    subst hnext
    left
    rw [Directory.items, hprocess]
    exact DoubleBuffer.mem_items_of_mem_files hx
  | torn t p y hprocess hpushing hnext =>
    subst hnext
    have held := DoubleBuffer.mem_items_of_mem_files hx
    simp only [DoubleBuffer.Sink.items, List.mem_append, List.mem_singleton] at held
    obtain ⟨m, hm⟩ := DoubleBuffer.encode_of_pushing hpushing
    rcases held with back | front | rfl
    · left
      rw [Directory.items, hprocess]
      exact List.mem_append_left _ back
    · left
      rw [Directory.items, hprocess]
      exact List.mem_append_right _ front
    · exact Or.inr ⟨p, hprocess, _, m, y, hm, Or.inr ⟨rfl, rfl⟩⟩

theorem whole_step {d next : Directory T σ μ ι η} {a : Label T μ} (whole : d.Whole)
    (guard : SwapOutsideSized d a) (h : step setUp stream tear d a = some next) : next.Whole := by
  cases outcome_of_step h with
  | started t hprocess hnext =>
    subst hnext
    refine ⟨fun p hp => ?_, whole.past⟩
    obtain ⟨pipeline, -, rfl⟩ := Option.map_eq_some_iff.mp hp
    exact (DoubleBuffer.initial_ordered .effective t stream d.masterFile d.slaveFile).whole
  | acted a p sink hprocess hsink hnext =>
    subst hnext
    refine ⟨fun q hq => ?_, whole.past⟩
    obtain rfl := Option.some.inj hq
    exact DoubleBuffer.whole_step (whole.process p hprocess) (guard p hprocess) hsink
  | ended p hprocess hnext | torn t p x hprocess hpushing hnext =>
    subst hnext
    refine ⟨fun q hq => (by cases hq), fun c hc => ?_⟩
    rcases List.mem_append.mp hc with old | new
    · exact whole.past c old
    · exact DoubleBuffer.view_whole (whole.process p hprocess) c new

theorem run_whole {d : Directory T σ μ ι η} {as : List (Label T μ)}
    (outside : Meets (step setUp stream tear) SwapOutsideSized .fresh as)
    (hrun : run (step setUp stream tear) .fresh as = some d) : ∀ c ∈ d.chunks, c.Whole :=
  have preserved : ∀ (d : Directory T σ μ ι η) (a : Label T μ) (next : Directory T σ μ ι η),
      d.Whole → SwapOutsideSized d a → step setUp stream tear d a = some next → next.Whole :=
    fun _ _ _ whole guard h => whole_step whole guard h
  (Machine.run_invariant preserved fresh_whole outside hrun).chunks

theorem lifetimes_step {d next : Directory T σ μ ι η} {a : Label T μ}
    (h : step setUp stream tear d a = some next) : d.lifetimes ≤ next.lifetimes := by
  cases outcome_of_step h with
  | started t hprocess hnext =>
    subst hnext
    exact Nat.le_succ _
  | acted a p sink hprocess hsink hnext | ended p hprocess hnext
  | torn t p x hprocess hpushing hnext =>
    subst hnext
    exact Nat.le_refl _

theorem process_step {d next : Directory T σ μ ι η} {a : Label T μ}
    (h : step setUp stream tear d a = some next) {p : Process T σ μ ι η}
    (hp : p ∈ next.process) :
    (∃ before ∈ d.process, p.lifetime = before.lifetime ∧ p.pipeline = before.pipeline) ∨
      d.lifetimes ≤ p.lifetime ∧ p.lifetime < next.lifetimes ∧
        setUp p.lifetime = some p.pipeline := by
  cases outcome_of_step h with
  | started t hprocess hnext =>
    subst hnext
    obtain ⟨pipeline, hsetUp, rfl⟩ := Option.map_eq_some_iff.mp hp
    exact Or.inr ⟨Nat.le_refl _, Nat.lt_succ_self _, hsetUp⟩
  | acted a before sink hprocess hsink hnext =>
    subst hnext
    obtain rfl := Option.some.inj hp
    exact Or.inl ⟨before, hprocess, rfl, rfl⟩
  | ended before hprocess hnext | torn t before x hprocess hpushing hnext =>
    subst hnext
    cases hp

/-- Every construction finds the mapped files empty. -/
def FindsEmptyFiles (d : Directory T σ μ ι η) : Label T μ → Prop
  | .construct _ => d.items = []
  | _ => True

def Own (d : Directory T σ μ ι η) : Prop :=
  ∀ p ∈ d.process, ∀ x ∈ d.items, ∃ st m, (p.pipeline.encode st m).2 = some x

theorem own_step {d next : Directory T σ μ ι η} {a : Label T μ} (inv : Own d)
    (guard : FindsEmptyFiles d a) (h : step setUp stream tear d a = some next) : Own next := by
  intro p hp x hx
  have origin := items_step h hx
  cases outcome_of_step h with
  | started t hprocess hnext =>
    have hempty : d.items = [] := guard
    rw [hempty] at origin
    rcases origin with old | ⟨before, hbefore, -⟩
    · cases old
    · rw [hprocess] at hbefore
      cases hbefore
  | acted a before sink hprocess hsink hnext =>
    subst hnext
    obtain rfl := Option.some.inj hp
    rcases origin with old | ⟨p', hp', encoded⟩
    · exact inv before hprocess x old
    · obtain rfl := Option.some.inj (hprocess.symm.trans hp')
      obtain ⟨st, m, y, hencode, rfl | ⟨-, ended⟩⟩ := encoded
      · exact ⟨st, m, hencode⟩
      · cases ended
  | ended before hprocess hnext | torn t before y hprocess hpushing hnext =>
    subst hnext
    cases hp

end Steps

end Lifetimes

end FlashLog.Sinks
