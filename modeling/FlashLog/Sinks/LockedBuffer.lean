import Mathlib.Logic.Function.Basic
import FlashLog.Support.Handoff

/-!
The single-buffer protocol of `MMapSink`: `WriteToCache_`, `NeedWriteToFile_` and
`CacheToFile_` each hold `mtx_`, and the calling thread itself writes the chunk. One label
is one short `mtx_` section, or one access of `CacheToFile_` to the buffer while it holds
the lock. The buffer is the list of the items pushed, as `MMapAux` keeps them; `MemoryBuffer::Push`
leaves zeros in their place, so for `SimpleSink`, `ProtobufSink` and `CryptoSink` the items say
only how many bytes there are.
-/

set_option autoImplicit false
set_option relaxedAutoImplicit false

namespace FlashLog.Sinks.LockedBuffer

open FlashLog.Support
open FlashLog.Support.Machine (Shows Simulates)

inductive Pc (ι : Type)
  | idle
  | push (x : ι)
  | needWrite
  | lock
  | inside

inductive Critical (ι : Type)
  | size
  | write (sized : List ι)
  | clear

structure Sink (T ι : Type) where
  buffer : List ι
  /-- the thread inside `CacheToFile_` -/
  owner : Option (T × Critical ι)
  pc : T → Pc ι
  constructed : Bool
  written : List (Handoff.Emission ι)
  /-- every item `WriteToCache_` pushed, leftovers of an earlier process first -/
  pushed : List ι

inductive Label (T ι : Type)
  | log (t : T) (x : ι)
  | flush (t : T)
  | thread (t : T) (filled : Bool)

variable {T ι : Type} [DecidableEq T]

/-- The state in which thread `t` has mapped the file; leftovers are written first. -/
def initial (t : T) (file : List ι) : Sink T ι :=
  { buffer := file, owner := none
    pc := Function.update (fun _ => .idle) t (if file.isEmpty then .idle else .lock)
    constructed := file.isEmpty, written := [], pushed := file }

def Sink.goto (s : Sink T ι) (t : T) (pc : Pc ι) : Sink T ι :=
  { s with pc := Function.update s.pc t pc }

def criticalStep (s : Sink T ι) (t : T) : Critical ι → Sink T ι
  | .size => { s with owner := some (t, .write s.buffer) }
  | .write sized =>
    { s with written := s.written ++ [⟨sized, s.buffer⟩], owner := some (t, .clear) }
  | .clear => { s with buffer := [], owner := none, constructed := true }.goto t .idle

def threadStep (s : Sink T ι) (t : T) (filled : Bool) : Option (Sink T ι) :=
  match s.pc t, s.owner with
  | .push x, none =>
    some ({ s with buffer := s.buffer ++ [x], pushed := s.pushed ++ [x] }.goto t .needWrite)
  | .needWrite, none => some (s.goto t (if filled then .lock else .idle))
  | .lock, none => some ({ s with owner := some (t, .size) }.goto t .inside)
  | .inside, some (t', c) => if t' = t then some (criticalStep s t c) else none
  | _, _ => none

def enter (s : Sink T ι) (t : T) (pc : Pc ι) : Option (Sink T ι) :=
  match s.pc t with
  | .idle => if s.constructed then some (s.goto t pc) else none
  | _ => none

def step (s : Sink T ι) : Label T ι → Option (Sink T ι)
  | .log t x => enter s t (.push x)
  | .flush t => enter s t .lock
  | .thread t filled => threadStep s t filled

section View

def Critical.phase : Critical ι → Handoff.Phase ι
  | .size => .rest
  | .write sized => .measured sized
  | .clear => .emitted

/-- The buffer as a two-buffer hand-over: it is the back while `CacheToFile_` holds the
lock, and the front otherwise. -/
def Sink.view (s : Sink T ι) : Handoff.State ι :=
  match s.owner with
  | none => ⟨s.buffer, [], .rest, s.written, s.pushed⟩
  | some (_, c) => ⟨[], s.buffer, c.phase, s.written, s.pushed⟩

def move (s : Sink T ι) : Label T ι → Option (Handoff.Move ι)
  | .thread t _ =>
    match s.pc t, s.owner with
    | .push x, none => some (.push x)
    | .lock, none => some .exchange
    | .inside, some (_, .size) => some .measure
    | .inside, some (_, .write _) => some .emit
    | .inside, some (_, .clear) => some .discard
    | _, _ => none
  | _ => none

private theorem enter_view {s next : Sink T ι} {t : T} {pc : Pc ι}
    (h : enter s t pc = some next) : next.view = s.view := by
  unfold enter at h
  split at h
  · split at h
    · obtain rfl := Option.some.inj h
      rfl
    · cases h
  · cases h

private theorem critical_view {s : Sink T ι} {t t' : T} {c : Critical ι}
    (howner : s.owner = some (t', c)) (hpc : s.pc t = .inside) (filled : Bool) :
    Shows Handoff.step s.view (criticalStep s t c).view (move s (.thread t filled)) := by
  cases c <;> simp [move, hpc, howner, Shows, Sink.view, Handoff.step, Critical.phase,
    criticalStep, Sink.goto]

private theorem thread_view {s next : Sink T ι} {t : T} {filled : Bool}
    (h : threadStep s t filled = some next) :
    Shows Handoff.step s.view next.view (move s (.thread t filled)) := by
  unfold threadStep at h
  split at h
  · rename_i x hpc howner
    obtain rfl := Option.some.inj h
    simp [move, hpc, howner, Shows, Sink.view, Handoff.step, Sink.goto]
  · rename_i hpc howner
    obtain rfl := Option.some.inj h
    simp [move, hpc, howner, Shows, Sink.view, Sink.goto]
  · rename_i hpc howner
    obtain rfl := Option.some.inj h
    simp [move, hpc, howner, Shows, Sink.view, Handoff.step, Critical.phase, Sink.goto]
  · rename_i t' c hpc howner
    split at h
    · obtain rfl := Option.some.inj h
      exact critical_view howner hpc filled
    · cases h
  · cases h

/-- The protocol refines the two-buffer hand-over. -/
theorem simulates_handoff : Simulates (step (T := T) (ι := ι)) Handoff.step Sink.view move := by
  intro s a next h
  cases a with
  | log t x => exact enter_view h
  | flush t => exact enter_view h
  | thread t filled => exact thread_view h

omit [DecidableEq T] in
theorem ontoEmptyBack_of_move {s : Sink T ι} {a : Label T ι} {m : Handoff.Move ι}
    (h : move s a = some m) : Handoff.OntoEmptyBack s.view m := by
  cases m with
  | exchange =>
    cases howner : s.owner with
    | none => simp [Handoff.OntoEmptyBack, Sink.view, howner]
    | some owner =>
      obtain ⟨t', c⟩ := owner
      cases a with
      | log t x => cases h
      | flush t => cases h
      | thread t filled => cases hpc : s.pc t <;> cases c <;> simp [move, hpc, howner] at h
  | _ => trivial

theorem initial_ordered (t : T) (file : List ι) : (initial t file).view.Ordered := by
  constructor
  · simp [Handoff.State.Whole, Sink.view, initial]
  · simp [Handoff.State.held, Handoff.State.emittedItems, Handoff.State.waiting, Sink.view, initial]

end View

section Items

def emission (s : Sink T ι) : Label T ι → Option (Handoff.Emission ι)
  | .thread t _ =>
    match s.pc t, s.owner with
    | .inside, some (t', .write sized) => if t' = t then some ⟨sized, s.buffer⟩ else none
    | _, _ => none
  | _ => none

theorem written_step {s next : Sink T ι} {a : Label T ι} (h : step s a = some next) :
    next.written = s.written ++ (emission s a).toList := by
  have entered : ∀ {t : T} {pc : Pc ι}, enter s t pc = some next → next.written = s.written := by
    intro t pc h
    unfold enter at h
    split at h
    · obtain ⟨-, h⟩ := Option.ite_none_right_eq_some.mp h
      obtain rfl := Option.some.inj h
      rfl
    · cases h
  cases a with
  | log t x | flush t =>
    show next.written = s.written ++ []
    rw [entered h, List.append_nil]
  | thread t filled =>
    simp only [step, threadStep] at h
    split at h
    · rename_i x hpc howner
      obtain rfl := Option.some.inj h
      simp [emission, hpc, howner, Sink.goto]
    · rename_i hpc howner
      obtain rfl := Option.some.inj h
      simp [emission, hpc, howner, Sink.goto]
    · rename_i hpc howner
      obtain rfl := Option.some.inj h
      simp [emission, hpc, howner, Sink.goto]
    · rename_i t' c hpc howner
      obtain ⟨same, h⟩ := Option.ite_none_right_eq_some.mp h
      obtain rfl := Option.some.inj h
      cases c <;> simp [emission, hpc, howner, same, criticalStep, Sink.goto]
    · cases h

def Sink.All (s : Sink T ι) (P : ι → Prop) : Prop :=
  (∀ x ∈ s.buffer, P x) ∧ ∀ t x, s.pc t = .push x → P x

theorem emission_all {s : Sink T ι} {P : ι → Prop} (inv : s.All P) {a : Label T ι}
    {e : Handoff.Emission ι} (h : emission s a = some e) : ∀ x ∈ e.payload, P x := by
  cases a with
  | log t x | flush t => cases h
  | thread t filled =>
    simp only [emission] at h
    split at h
    · obtain ⟨-, h⟩ := Option.ite_none_right_eq_some.mp h
      obtain rfl := Option.some.inj h
      exact inv.1
    · cases h

private theorem goto_pushes {s : Sink T ι} {P : ι → Prop} (inv : ∀ t x, s.pc t = .push x → P x)
    {t : T} {pc : Pc ι} (new : ∀ x, pc = .push x → P x) (u : T) (x : ι)
    (h : (s.goto t pc).pc u = .push x) : P x := by
  simp only [Sink.goto, Function.update_apply] at h
  split at h
  · exact new x h
  · exact inv u x h

theorem all_step {s next : Sink T ι} {P : ι → Prop} {a : Label T ι} (inv : s.All P)
    (logged : ∀ t x, a = .log t x → P x) (h : step s a = some next) : next.All P := by
  obtain ⟨buffer, pushes⟩ := inv
  have entered : ∀ {t : T} {pc : Pc ι}, (∀ x, pc = .push x → P x) → enter s t pc = some next →
      next.All P := by
    intro t pc new h
    unfold enter at h
    split at h
    · obtain ⟨-, h⟩ := Option.ite_none_right_eq_some.mp h
      obtain rfl := Option.some.inj h
      exact ⟨buffer, goto_pushes pushes new⟩
    · cases h
  cases a with
  | log t x =>
    refine entered ?_ h
    intro y hy
    obtain rfl := Pc.push.inj hy
    exact logged t x rfl
  | flush t => exact entered (by simp) h
  | thread t filled =>
    simp only [step, threadStep] at h
    split at h
    · rename_i x hpc howner
      obtain rfl := Option.some.inj h
      refine ⟨?_, goto_pushes pushes (by simp)⟩
      intro y hy
      rcases List.mem_append.mp hy with old | new
      · exact buffer y old
      · obtain rfl := List.mem_singleton.mp new
        exact pushes t y hpc
    · obtain rfl := Option.some.inj h
      refine ⟨buffer, goto_pushes pushes ?_⟩
      cases filled <;> simp
    · obtain rfl := Option.some.inj h
      exact ⟨buffer, goto_pushes pushes (by simp)⟩
    · rename_i t' c hpc howner
      obtain ⟨same, h⟩ := Option.ite_none_right_eq_some.mp h
      obtain rfl := Option.some.inj h
      cases c with
      | size | write sized => exact ⟨buffer, pushes⟩
      | clear => exact ⟨fun x hx => (by cases hx), goto_pushes pushes (by simp)⟩
    · cases h

end Items

end FlashLog.Sinks.LockedBuffer
