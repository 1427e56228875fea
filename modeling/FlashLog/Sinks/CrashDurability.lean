import FlashLog.Support.Spool
import FlashLog.Sinks.Conservation
import FlashLog.Sinks.LockedBuffer

/-!
A process crash while a mapped sink is running: the mapped buffers survive, and so do the
bytes that the log file's stream has handed to the operating system. The stream is not
flushed between the write of a chunk and the `Clear()` of its buffer.
-/

set_option autoImplicit false
set_option relaxedAutoImplicit false

namespace FlashLog.Sinks

open FlashLog.Support
open FlashLog.Support.Machine (run Meets Simulates)

namespace DoubleBuffer

variable {T σ μ ι η : Type}

def emits (s : Sink T σ μ ι η) : Label T μ → Bool
  | .worker =>
    match s.worker with
    | .write _ => true
    | _ => false
  | _ => false

def clears (s : Sink T σ μ ι η) : Label T μ → Bool
  | .worker =>
    match s.worker with
    | .clear => true
    | _ => false
  | _ => false

/-- Every pushed item is in a mapped buffer or handed to the operating system. -/
def Recoverable (s : Spool.State (Sink T σ μ ι η)) : Prop :=
  s.state.pushed.Subperm
    (s.state.writtenItems.take s.handed ++ (s.state.slave ++ s.state.master))

/-- The buffers are not exchanged inside a write, and `Clear()` runs only when the stream
has handed on everything it was given. -/
def FlushedClears (s : Spool.State (Sink T σ μ ι η)) (a : Label T μ × Nat) : Prop :=
  SwapOutsideWrite s.state a.1 ∧
    (clears s.state a.1 = true → s.state.writtenItems.length ≤ s.handed)

instance (s : Spool.State (Sink T σ μ ι η)) (a : Label T μ × Nat) :
    Decidable (FlushedClears s a) :=
  inferInstanceAs (Decidable (_ ∧ _))

private theorem emits_eq (P : Pipeline σ μ ι η) (s : Sink T σ μ ι η) (a : Label T μ) :
    emits s a = (move P s a).any (Spool.emits s.view) := by
  cases a with
  | log t m => rfl
  | flush t => rfl
  | thread t filled =>
    cases hpc : s.pc t with
    | push m =>
      cases hitem : (P.encode s.stream m).2 <;> simp [emits, move, hpc, hitem, Spool.emits]
    | _ => simp [emits, move, hpc, Spool.emits]
  | worker => cases hworker : s.worker <;> simp [emits, move, hworker, Spool.emits]

private theorem clears_of_discard {P : Pipeline σ μ ι η} {s : Sink T σ μ ι η} {a : Label T μ}
    (h : move P s a = some .discard) : clears s a = true := by
  cases a with
  | log t m => cases h
  | flush t => cases h
  | thread t filled => cases hpc : s.pc t <;> simp [move, hpc] at h
  | worker =>
    cases hworker : s.worker <;> simp [move, hworker] at h
    simp [clears, hworker]

private theorem flushedDiscards_of_flushedClears {P : Pipeline σ μ ι η}
    {s : Spool.State (Sink T σ μ ι η)} {a : Label T μ × Nat} {m : Handoff.Move ι × Nat}
    (guard : FlushedClears s a) (h : (move P s.state a.1).map (·, a.2) = some m) :
    Spool.FlushedDiscards ⟨s.state.view, s.handed⟩ m := by
  obtain ⟨move', hmove, rfl⟩ := Option.map_eq_some_iff.mp h
  refine ⟨outside_of_swapOutsideWrite guard.1 hmove, ?_⟩
  rintro rfl
  rw [view_emittedItems]
  exact guard.2 (clears_of_discard hmove)

private theorem recoverable_of_durable {s : Spool.State (Sink T σ μ ι η)}
    (h : Spool.Durable ⟨s.state.view, s.handed⟩) : Recoverable s := by
  have hitems := view_emittedItems s.state
  rw [Spool.Durable, hitems] at h
  exact h

section Threads

variable [DecidableEq T]

/-- `EffectiveSink` in front of its output stream. -/
def spooledStep (P : Pipeline σ μ ι η) :
    Spool.State (Sink T σ μ ι η) → Label T μ × Nat → Option (Spool.State (Sink T σ μ ι η)) :=
  Spool.handing (step .effective P) emits fun s => s.writtenItems.length

private theorem simulates_spool (P : Pipeline σ μ ι η) :
    Simulates (spooledStep (T := T) P) Spool.step (fun s => ⟨s.state.view, s.handed⟩)
      (fun s a => (move P s.state a.1).map (·, a.2)) :=
  Spool.handing_simulates (simulates_handoff .effective P) (emits_eq P)
    (fun s => by rw [view_emittedItems])

private theorem initial_caught (t : T) (stream : σ) (masterFile slaveFile : List ι) :
    Spool.Caught
      ⟨(initial (μ := μ) (η := η) .effective t stream masterFile slaveFile).view, 0⟩ := by
  refine ⟨initial_conserved .effective t stream masterFile slaveFile, ?_, ?_⟩
  · intro hphase
    cases hphase
  · intro _
    exact Nat.le_refl 0

end Threads

end DoubleBuffer

namespace LockedBuffer

variable {T ι : Type}

def Sink.writtenItems (s : Sink T ι) : List ι := s.written.flatMap Handoff.Emission.payload

def emits (s : Sink T ι) : Label T ι → Bool
  | .thread t _ =>
    match s.pc t, s.owner with
    | .inside, some (_, .write _) => true
    | _, _ => false
  | _ => false

def clears (s : Sink T ι) : Label T ι → Bool
  | .thread t _ =>
    match s.pc t, s.owner with
    | .inside, some (_, .clear) => true
    | _, _ => false
  | _ => false

/-- Every pushed item is in the mapped buffer or handed to the operating system. -/
def Recoverable (s : Spool.State (Sink T ι)) : Prop :=
  s.state.pushed.Subperm (s.state.writtenItems.take s.handed ++ s.state.buffer)

/-- `Clear()` runs only when the stream has handed on everything it was given. -/
def FlushedClears (s : Spool.State (Sink T ι)) (a : Label T ι × Nat) : Prop :=
  clears s.state a.1 = true → s.state.writtenItems.length ≤ s.handed

instance (s : Spool.State (Sink T ι)) (a : Label T ι × Nat) : Decidable (FlushedClears s a) :=
  inferInstanceAs (Decidable (_ → _))

theorem view_emittedItems (s : Sink T ι) : s.view.emittedItems = s.writtenItems := by
  cases howner : s.owner <;> simp [Handoff.State.emittedItems, Sink.view, Sink.writtenItems, howner]

private theorem emits_eq (s : Sink T ι) (a : Label T ι) :
    emits s a = (move s a).any (Spool.emits s.view) := by
  cases a with
  | log t x => rfl
  | flush t => rfl
  | thread t filled =>
    cases howner : s.owner with
    | none => cases hpc : s.pc t <;> simp [emits, move, hpc, howner, Spool.emits]
    | some owner =>
      obtain ⟨t', c⟩ := owner
      cases hpc : s.pc t <;> cases c <;> simp [emits, move, hpc, howner, Spool.emits]

private theorem clears_of_discard {s : Sink T ι} {a : Label T ι}
    (h : move s a = some .discard) : clears s a = true := by
  cases a with
  | log t x => cases h
  | flush t => cases h
  | thread t filled =>
    cases howner : s.owner with
    | none => cases hpc : s.pc t <;> simp [move, hpc, howner] at h
    | some owner =>
      obtain ⟨t', c⟩ := owner
      cases hpc : s.pc t <;> cases c <;> simp [move, hpc, howner] at h
      simp [clears, hpc, howner]

private theorem flushedDiscards_of_flushedClears {s : Spool.State (Sink T ι)}
    {a : Label T ι × Nat} {m : Handoff.Move ι × Nat} (guard : FlushedClears s a)
    (h : (move s.state a.1).map (·, a.2) = some m) :
    Spool.FlushedDiscards ⟨s.state.view, s.handed⟩ m := by
  obtain ⟨move', hmove, rfl⟩ := Option.map_eq_some_iff.mp h
  refine ⟨(ontoEmptyBack_of_move hmove).outside, ?_⟩
  rintro rfl
  rw [view_emittedItems]
  exact guard (clears_of_discard hmove)

private theorem recoverable_of_durable {s : Spool.State (Sink T ι)}
    (h : Spool.Durable ⟨s.state.view, s.handed⟩) : Recoverable s := by
  have hitems := view_emittedItems s.state
  rw [Spool.Durable, hitems] at h
  cases howner : s.state.owner <;> simpa [Recoverable, Sink.view, howner] using h

section Threads

variable [DecidableEq T]

/-- `MMapSink` in front of its output stream. -/
def spooledStep : Spool.State (Sink T ι) → Label T ι × Nat → Option (Spool.State (Sink T ι)) :=
  Spool.handing step emits fun s => s.writtenItems.length

private theorem simulates_spool :
    Simulates (spooledStep (T := T) (ι := ι)) Spool.step (fun s => ⟨s.state.view, s.handed⟩)
      (fun s a => (move s.state a.1).map (·, a.2)) :=
  Spool.handing_simulates simulates_handoff emits_eq (fun s => by rw [view_emittedItems])

private theorem initial_caught (t : T) (file : List ι) :
    Spool.Caught ⟨(initial t file).view, 0⟩ := by
  have ordered := initial_ordered t file
  refine ⟨⟨ordered.whole, by rw [ordered.inOrder]⟩, ?_, ?_⟩
  · intro hphase
    cases hphase
  · intro _
    exact Nat.le_refl 0

end Threads

end LockedBuffer

/-- Runs of `EffectiveSink` and `MMapSink` that clear a buffer only when the stream holds
nothing back keep every item through a crash, wherever they are cut off. -/
theorem flushedClears_recoverable {T σ μ ι η : Type} [DecidableEq T]
    (P : DoubleBuffer.Pipeline σ μ ι η) (t : T) (stream : σ)
    (masterFile slaveFile mmapFile : List ι) :
    (∀ (as : List (DoubleBuffer.Label T μ × Nat)) (s : Spool.State (DoubleBuffer.Sink T σ μ ι η)),
      run (DoubleBuffer.spooledStep P)
          ⟨DoubleBuffer.initial .effective t stream masterFile slaveFile, 0⟩ as = some s →
        Meets (DoubleBuffer.spooledStep P) DoubleBuffer.FlushedClears
          ⟨DoubleBuffer.initial .effective t stream masterFile slaveFile, 0⟩ as →
        DoubleBuffer.Recoverable s) ∧
    (∀ (as : List (LockedBuffer.Label T ι × Nat)) (s : Spool.State (LockedBuffer.Sink T ι)),
      run LockedBuffer.spooledStep ⟨LockedBuffer.initial t mmapFile, 0⟩ as = some s →
        Meets LockedBuffer.spooledStep LockedBuffer.FlushedClears
          ⟨LockedBuffer.initial t mmapFile, 0⟩ as →
        LockedBuffer.Recoverable s) := by
  constructor
  · intro as s hrun hmeets
    have guards : ∀ (s : Spool.State (DoubleBuffer.Sink T σ μ ι η))
        (a : DoubleBuffer.Label T μ × Nat) (m : Handoff.Move ι × Nat),
        DoubleBuffer.FlushedClears s a →
          (DoubleBuffer.move P s.state a.1).map (·, a.2) = some m →
            Spool.FlushedDiscards ⟨s.state.view, s.handed⟩ m :=
      fun _ _ _ guard h => DoubleBuffer.flushedDiscards_of_flushedClears guard h
    obtain ⟨ms, hmoves, hflushed⟩ := (DoubleBuffer.simulates_spool P).run guards hmeets hrun
    have start := DoubleBuffer.initial_caught (μ := μ) (η := η) t stream masterFile slaveFile
    exact DoubleBuffer.recoverable_of_durable (Spool.run_durable start hflushed hmoves)
  · intro as s hrun hmeets
    have guards : ∀ (s : Spool.State (LockedBuffer.Sink T ι)) (a : LockedBuffer.Label T ι × Nat)
        (m : Handoff.Move ι × Nat), LockedBuffer.FlushedClears s a →
          (LockedBuffer.move s.state a.1).map (·, a.2) = some m →
            Spool.FlushedDiscards ⟨s.state.view, s.handed⟩ m :=
      fun _ _ _ guard h => LockedBuffer.flushedDiscards_of_flushedClears guard h
    obtain ⟨ms, hmoves, hflushed⟩ := LockedBuffer.simulates_spool.run guards hmeets hrun
    have start := LockedBuffer.initial_caught t mmapFile
    exact LockedBuffer.recoverable_of_durable (Spool.run_durable start hflushed hmoves)

def spooledFlush (handed : Nat) : List (DoubleBuffer.Label Unit Nat × Nat) :=
  (DoubleBuffer.logThenFlush 7).map (·, handed)

def lockedFlush (handed : Nat) : List (LockedBuffer.Label Unit Nat × Nat) :=
  let caller := LockedBuffer.Label.thread () false
  [.log () 7, caller, caller, .flush (), caller, caller, caller, caller].map (·, handed)

theorem flushedClears_recoverable_flushed :
    (∃ s, run (DoubleBuffer.spooledStep (DoubleBuffer.plain Nat))
        ⟨DoubleBuffer.initial .effective () () [] [], 0⟩ (spooledFlush 1) = some s ∧
      DoubleBuffer.Recoverable s) ∧
    ∃ s, run LockedBuffer.spooledStep ⟨LockedBuffer.initial () [], 0⟩ (lockedFlush 1) = some s ∧
      LockedBuffer.Recoverable s := by
  constructor
  · obtain ⟨s, hs⟩ := Option.isSome_iff_exists.mp (show
      (run (DoubleBuffer.spooledStep (DoubleBuffer.plain Nat))
        ⟨DoubleBuffer.initial .effective () () [] [], 0⟩ (spooledFlush 1)).isSome = true by decide)
    exact ⟨s, hs, (flushedClears_recoverable (DoubleBuffer.plain Nat) () () [] [] []).1 _ s hs
      (by decide)⟩
  · obtain ⟨s, hs⟩ := Option.isSome_iff_exists.mp (show
      (run LockedBuffer.spooledStep ⟨LockedBuffer.initial () [], 0⟩ (lockedFlush 1)).isSome =
        true by decide)
    exact ⟨s, hs, (flushedClears_recoverable (DoubleBuffer.plain Nat) () () [] [] []).2 _ s hs
      (by decide)⟩

/-- The stream keeps the chunk to itself while the buffer is cleared: after `Log` and `Flush`
have returned, a crash loses the item. -/
theorem unflushedClear_loses_item :
    (∃ s, run (DoubleBuffer.spooledStep (DoubleBuffer.plain Nat))
        ⟨DoubleBuffer.initial .effective () () [] [], 0⟩ (spooledFlush 0) = some s ∧
      s.state.pushed = [7] ∧ ¬ DoubleBuffer.Recoverable s) ∧
    ∃ s, run LockedBuffer.spooledStep ⟨LockedBuffer.initial () [], 0⟩ (lockedFlush 0) = some s ∧
      s.state.pushed = [7] ∧ ¬ LockedBuffer.Recoverable s := by
  constructor
  · obtain ⟨s, hrun, hitems⟩ := Option.map_eq_some_iff.mp (show
      (run (DoubleBuffer.spooledStep (DoubleBuffer.plain Nat))
        ⟨DoubleBuffer.initial .effective () () [] [], 0⟩ (spooledFlush 0)).map (fun s =>
          (s.state.pushed,
            s.state.writtenItems.take s.handed ++ (s.state.slave ++ s.state.master))) =
        some ([7], []) by decide)
    obtain ⟨hpushed, hkept⟩ := Prod.mk.inj hitems
    refine ⟨s, hrun, hpushed, ?_⟩
    intro recoverable
    rw [DoubleBuffer.Recoverable, hpushed, hkept] at recoverable
    exact absurd recoverable.length_le (by decide)
  · obtain ⟨s, hrun, hitems⟩ := Option.map_eq_some_iff.mp (show
      (run LockedBuffer.spooledStep ⟨LockedBuffer.initial () [], 0⟩ (lockedFlush 0)).map (fun s =>
          (s.state.pushed, s.state.writtenItems.take s.handed ++ s.state.buffer)) =
        some ([7], []) by decide)
    obtain ⟨hpushed, hkept⟩ := Prod.mk.inj hitems
    refine ⟨s, hrun, hpushed, ?_⟩
    intro recoverable
    rw [LockedBuffer.Recoverable, hpushed, hkept] at recoverable
    exact absurd recoverable.length_le (by decide)

end FlashLog.Sinks
