import Mathlib.Tactic.FinCases
import FlashLog.Sinks.DoubleBuffer

/-!
No loss, no duplication and no torn chunk in the double-buffer protocol with any
number of calling threads. `SwapCache_` tests the flag and exchanges the buffers in
separate steps, so a second thread may exchange them while `CacheToFile_` is between
`Size()` and `Clear()`; without such an exchange every item is kept exactly once.
-/

set_option autoImplicit false
set_option relaxedAutoImplicit false

namespace FlashLog.Sinks.DoubleBuffer

open FlashLog.Support
open FlashLog.Support.Machine (run Meets run_cons meets_of_invariant run_invariant)

variable {T σ μ ι η : Type}

def Sink.writtenItems (s : Sink T σ μ ι η) : List ι := s.written.flatMap Chunk.payload

/-- The slave buffer, unless it has just been written and is about to be cleared. -/
def Sink.unwritten (s : Sink T σ μ ι η) : List ι :=
  match s.worker with
  | .clear => []
  | _ => s.slave

def Sink.NothingLost (s : Sink T σ μ ι η) : Prop :=
  s.pushed.Perm (s.writtenItems ++ s.unwritten ++ s.master)

/-- The size in the header and the payload come from the same buffer contents. -/
def Chunk.Whole (c : Chunk ι η) : Prop := c.sized = c.payload

def Pc.isSwap : Pc μ → Bool
  | .swap _ => true
  | _ => false

/-- `CacheToFile_` has read `Size()` and has not called `Clear()` yet. -/
def WorkerPc.isWriting : WorkerPc ι → Bool
  | .write _ => true
  | .clear => true
  | _ => false

/-- No thread exchanges the buffers between `Size()` and `Clear()` of `CacheToFile_`. -/
def SwapOutsideWrite (s : Sink T σ μ ι η) : Label T μ → Prop
  | .thread t _ => (s.pc t).isSwap = true → s.worker.isWriting = false
  | _ => True

instance (s : Sink T σ μ ι η) : ∀ a : Label T μ, Decidable (SwapOutsideWrite s a)
  | .thread t _ => inferInstanceAs (Decidable ((s.pc t).isSwap = true → s.worker.isWriting = false))
  | .log _ _ | .flush _ | .worker => inferInstanceAs (Decidable True)

theorem phase_rest {w : WorkerPc ι} (h : w.isWriting = false) : w.phase = .rest := by
  cases w <;> first | rfl | cases h

theorem swap_of_exchange {P : Pipeline σ μ ι η} {s : Sink T σ μ ι η} {a : Label T μ}
    (h : move P s a = some .exchange) :
    ∃ t filled, a = .thread t filled ∧ (s.pc t).isSwap = true := by
  cases a with
  | log t m => cases h
  | flush t => cases h
  | worker => cases hworker : s.worker <;> simp [move, hworker] at h
  | thread t filled =>
    refine ⟨t, filled, rfl, ?_⟩
    cases hpc : s.pc t <;> first | rfl | skip
    all_goals simp [move, hpc] at h

theorem outside_of_swapOutsideWrite {P : Pipeline σ μ ι η} {s : Sink T σ μ ι η}
    {a : Label T μ} {m : Handoff.Move ι} (guard : SwapOutsideWrite s a)
    (h : move P s a = some m) : Handoff.OutsideEmission s.view m := by
  cases m with
  | exchange =>
    obtain ⟨t, filled, rfl, swapping⟩ := swap_of_exchange h
    exact phase_rest (guard swapping)
  | _ => trivial

@[simp] theorem view_emittedItems (s : Sink T σ μ ι η) :
    s.view.emittedItems = s.writtenItems := by
  simp only [Handoff.State.emittedItems, Sink.view, Sink.writtenItems, List.flatMap_map]

@[simp] theorem view_waiting (s : Sink T σ μ ι η) : s.view.waiting = s.unwritten := by
  cases hworker : s.worker <;>
    simp [Handoff.State.waiting, Sink.view, Sink.unwritten, WorkerPc.phase, hworker]

theorem view_held (s : Sink T σ μ ι η) :
    s.view.held = s.writtenItems ++ s.unwritten ++ s.master := by
  simp only [Handoff.State.held, view_emittedItems, view_waiting]
  rfl

theorem view_whole {s : Sink T σ μ ι η} (h : s.view.Whole) : ∀ c ∈ s.written, c.Whole := by
  intro c hc
  exact h.1 ⟨c.sized, c.payload⟩ (List.mem_map.mpr ⟨c, hc, rfl⟩)

section Threads

variable [DecidableEq T]

theorem initial_ordered (kind : Kind) (t : T) (stream : σ) (masterFile slaveFile : List ι) :
    (initial (μ := μ) (η := η) kind t stream masterFile slaveFile).view.Ordered := by
  cases kind <;> constructor
  all_goals simp [Handoff.State.Whole, Handoff.State.held, Handoff.State.emittedItems,
    Handoff.State.waiting, Sink.view, initial, WorkerPc.phase]

theorem initial_conserved (kind : Kind) (t : T) (stream : σ)
    (masterFile slaveFile : List ι) :
    (initial (μ := μ) (η := η) kind t stream masterFile slaveFile).view.Conserved := by
  have ordered := initial_ordered (μ := μ) (η := η) kind t stream masterFile slaveFile
  exact ⟨ordered.whole, by rw [ordered.inOrder]⟩

theorem swapOutsideWrite_keeps_items (kind : Kind) (P : Pipeline σ μ ι η) (t : T) (stream : σ)
    (masterFile slaveFile : List ι) (as : List (Label T μ)) (s : Sink T σ μ ι η)
    (hrun : run (step kind P) (initial kind t stream masterFile slaveFile) as = some s)
    (hmeets : Meets (step kind P) SwapOutsideWrite
      (initial kind t stream masterFile slaveFile) as) :
    s.NothingLost ∧ ∀ c ∈ s.written, c.Whole := by
  have guards : ∀ (s : Sink T σ μ ι η) (a : Label T μ) (m : Handoff.Move ι),
      SwapOutsideWrite s a → move P s a = some m → Handoff.OutsideEmission s.view m :=
    fun _ _ _ guard h => outside_of_swapOutsideWrite guard h
  obtain ⟨ms, hmoves, houtside⟩ := (simulates_handoff kind P).run guards hmeets hrun
  have conserved := Handoff.run_conserved
    (initial_conserved kind t stream masterFile slaveFile) houtside hmoves
  refine ⟨?_, view_whole conserved.whole⟩
  have kept := conserved.kept
  rw [view_held] at kept
  exact kept

end Threads

/-- Messages are stored as they are: neither compression nor encryption. -/
def plain (ι : Type) : Pipeline Unit ι ι Unit where
  resetStream := id
  encode _ m := ((), some m)
  keys := ()

/-- Construction, one `Log` and one `Flush` of a single thread, up to the return of `Flush`. -/
def logThenFlush (m : Nat) : List (Label Unit Nat) :=
  let caller := Label.thread () false
  [caller, caller, .log () m, caller, caller, caller, .flush (), caller, caller,
    .worker, .worker, .worker, caller, caller, caller, caller, caller, caller,
    .worker, .worker, .worker, .worker, .worker, .worker, .worker, .worker, caller]

theorem swapOutsideWrite_keeps_items_flushed :
    ∃ s, run (step .effective (plain Nat)) (initial .effective () () [] []) (logThenFlush 7) =
        some s ∧ s.NothingLost ∧ ∀ c ∈ s.written, c.Whole := by
  obtain ⟨s, hs⟩ := Option.isSome_iff_exists.mp (show (run (step .effective (plain Nat))
    (initial .effective () () [] []) (logThenFlush 7)).isSome = true by decide)
  exact ⟨s, hs, swapOutsideWrite_keeps_items .effective (plain Nat) () () [] [] _ s hs (by decide)⟩

/-- Threads 0 and 1 both flush and both find the flag free; thread 2 logs between their
two exchanges, and the second exchange falls between the write and `Clear()`. -/
def racingFlushes : List (Label (Fin 3) Nat) :=
  let t0 := Label.thread 0 false
  let t1 := Label.thread 1 false
  let t2 := Label.thread 2 false
  [t0, t0, .log 0 1, t0, t0, t0,
    .flush 0, t0, t0, .worker, .worker, .worker, t0,
    .flush 1, t1, t1, .worker, .worker, .worker, t1,
    t0, t1, t0, t0, t0, .log 2 2, t2, t2, t2,
    .worker, .worker, .worker, .worker, .worker, t1, t1, .worker]

theorem racingFlushes_lose_and_repeat :
    ¬ ∀ (as : List (Label (Fin 3) Nat)) (s : Sink (Fin 3) Unit Nat Nat Unit),
      run (step .effective (plain Nat)) (initial .effective 0 () [] []) as = some s →
        s.NothingLost ∧ ∀ c ∈ s.written, c.Whole := by
  intro always
  obtain ⟨s, hrun, hitems⟩ := Option.map_eq_some_iff.mp (show
    (run (step .effective (plain Nat)) (initial .effective 0 () [] []) racingFlushes).map
      (fun s => (s.pushed, s.writtenItems ++ s.unwritten ++ s.master)) =
        some ([1, 2], [1, 1]) by decide)
  obtain ⟨hpushed, hheld⟩ := Prod.mk.inj hitems
  have lost : s.NothingLost := (always racingFlushes s hrun).1
  rw [Sink.NothingLost, hpushed, hheld] at lost
  exact absurd lost (by decide)

end FlashLog.Sinks.DoubleBuffer
