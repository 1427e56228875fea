import Mathlib.Data.List.Perm.Basic
import FlashLog.Support.Machine

/-!
Two buffers that exchange places: values are pushed at the front, the back is
measured, emitted and then discarded. The three moves of one emission are
separate, so an exchange may fall between any two of them. Two disciplines on
exchanges are enough for the two guarantees: none inside an emission keeps every
value exactly once, and only with an empty resting back keeps the order.
-/

set_option autoImplicit false
set_option relaxedAutoImplicit false

namespace FlashLog.Support.Handoff

open FlashLog.Support.Machine

universe u

/-- How far the emission of the back buffer has come. -/
inductive Phase (ι : Type u)
  | rest
  | measured (seen : List ι)
  | emitted

/-- One emission: the contents that were measured and the contents that followed. -/
structure Emission (ι : Type u) where
  sized : List ι
  payload : List ι
  deriving DecidableEq

structure State (ι : Type u) where
  front : List ι
  back : List ι
  phase : Phase ι
  out : List (Emission ι)
  pushed : List ι

inductive Move (ι : Type u)
  | push (x : ι)
  | exchange
  | measure
  | emit
  | discard

variable {ι : Type u}

/-- Pushes and exchanges are always possible; an emission runs through its phases. -/
def step (h : State ι) : Move ι → Option (State ι)
  | .push x => some { h with front := h.front ++ [x], pushed := h.pushed ++ [x] }
  | .exchange => some { h with front := h.back, back := h.front }
  | .measure =>
    match h.phase with
    | .rest => some { h with phase := .measured h.back }
    | _ => none
  | .emit =>
    match h.phase with
    | .measured seen => some { h with phase := .emitted, out := h.out ++ [⟨seen, h.back⟩] }
    | _ => none
  | .discard =>
    match h.phase with
    | .emitted => some { h with phase := .rest, back := [] }
    | _ => none

def State.emittedItems (h : State ι) : List ι := h.out.flatMap Emission.payload

/-- The back buffer, unless its contents have just been emitted and not yet discarded. -/
def State.waiting (h : State ι) : List ι :=
  match h.phase with
  | .emitted => []
  | _ => h.back

/-- Everything still held or already emitted, an emission in progress counted once. -/
def State.held (h : State ι) : List ι := h.emittedItems ++ h.waiting ++ h.front

/-- Measure and payload of every emission come from the same contents. -/
def State.Whole (h : State ι) : Prop :=
  (∀ e ∈ h.out, e.sized = e.payload) ∧ ∀ seen, h.phase = .measured seen → seen = h.back

/-- Exchanges stay outside emissions. -/
def OutsideEmission (h : State ι) : Move ι → Prop
  | .exchange => h.phase = .rest
  | _ => True

/-- Exchanges meet an empty back buffer at rest. -/
def OntoEmptyBack (h : State ι) : Move ι → Prop
  | .exchange => h.phase = .rest ∧ h.back = []
  | _ => True

/-- Exchanges stay out of the time between the measurement and the emission. -/
def OutsideMeasured (h : State ι) : Move ι → Prop
  | .exchange => ∀ seen, h.phase ≠ .measured seen
  | _ => True

theorem OutsideEmission.measured {h : State ι} {m : Move ι} (guard : OutsideEmission h m) :
    OutsideMeasured h m := by
  cases m with
  | exchange =>
    intro seen hphase
    have resting : h.phase = .rest := guard
    rw [resting] at hphase
    cases hphase
  | _ => trivial

theorem OntoEmptyBack.outside {h : State ι} {m : Move ι} (guard : OntoEmptyBack h m) :
    OutsideEmission h m := by
  cases m <;> first | exact guard.1 | trivial

inductive Moved (h : State ι) : Move ι → State ι → Prop
  | push (x : ι) : Moved h (.push x) { h with front := h.front ++ [x], pushed := h.pushed ++ [x] }
  | exchange : Moved h .exchange { h with front := h.back, back := h.front }
  | measure : h.phase = .rest → Moved h .measure { h with phase := .measured h.back }
  | emit (seen : List ι) : h.phase = .measured seen →
      Moved h .emit { h with phase := .emitted, out := h.out ++ [⟨seen, h.back⟩] }
  | discard : h.phase = .emitted → Moved h .discard { h with phase := .rest, back := [] }

theorem moved_of_step {h next : State ι} {m : Move ι} (hstep : step h m = some next) :
    Moved h m next := by
  cases m with
  | push x =>
    obtain rfl := Option.some.inj hstep
    exact .push x
  | exchange =>
    obtain rfl := Option.some.inj hstep
    exact .exchange
  | measure =>
    cases hphase : h.phase <;> simp only [step, hphase, reduceCtorEq] at hstep
    obtain rfl := Option.some.inj hstep
    exact .measure hphase
  | emit =>
    cases hphase : h.phase <;> simp only [step, hphase, reduceCtorEq] at hstep
    obtain rfl := Option.some.inj hstep
    exact .emit _ hphase
  | discard =>
    cases hphase : h.phase <;> simp only [step, hphase, reduceCtorEq] at hstep
    obtain rfl := Option.some.inj hstep
    exact .discard hphase

theorem mem_buffers_step {h next : State ι} {m : Move ι} (hstep : step h m = some next) {x : ι}
    (hx : x ∈ next.back ++ next.front) : x ∈ h.back ++ h.front ∨ m = .push x := by
  cases moved_of_step hstep with
  | push y =>
    have cases' : x ∈ h.back ++ h.front ∨ x = y := by
      simpa only [List.append_assoc, List.mem_append, List.mem_singleton, or_assoc] using hx
    rcases cases' with old | rfl
    · exact Or.inl old
    · exact Or.inr rfl
  | exchange => exact Or.inl (List.mem_append.mpr (List.mem_append.mp hx).symm)
  | measure | emit => exact Or.inl hx
  | discard => exact Or.inl (List.mem_append_right _ hx)

theorem whole_step {h next : State ι} {m : Move ι} (whole : h.Whole)
    (guard : OutsideMeasured h m) (hstep : step h m = some next) : next.Whole := by
  obtain ⟨emissions, measured⟩ := whole
  cases moved_of_step hstep with
  | push x => exact ⟨emissions, measured⟩
  | exchange => exact ⟨emissions, fun seen hseen => absurd hseen (guard seen)⟩
  | measure hphase =>
    refine ⟨emissions, fun seen hseen => ?_⟩
    exact (Phase.measured.inj hseen).symm
  | emit seen hphase =>
    refine ⟨fun e he => ?_, fun _ hseen => by cases hseen⟩
    rcases List.mem_append.mp he with he | he
    · exact emissions e he
    · obtain rfl := List.mem_singleton.mp he
      exact measured seen hphase
  | discard hphase => exact ⟨emissions, fun _ hseen => by cases hseen⟩

/-- What the moves do to the held values: a push adds one, an exchange outside emissions turns
the buffers round, and the moves of an emission change nothing. -/
private theorem held_step {h next : State ι} {m : Move ι} (guard : OutsideEmission h m)
    (hstep : step h m = some next) :
    (∃ x, next.held = h.held ++ [x] ∧ next.pushed = h.pushed ++ [x]) ∨
      (m = .exchange ∧ h.held = h.emittedItems ++ h.back ++ h.front ∧
        next.held = h.emittedItems ++ h.front ++ h.back ∧ next.pushed = h.pushed) ∨
      (next.held = h.held ∧ next.pushed = h.pushed) := by
  cases moved_of_step hstep with
  | push x =>
    refine Or.inl ⟨x, ?_, rfl⟩
    simp [State.held, State.emittedItems, State.waiting]
  | exchange =>
    have resting : h.phase = .rest := guard
    refine Or.inr (Or.inl ⟨rfl, ?_, ?_, rfl⟩)
    · simp [State.held, State.waiting, resting]
    · simp [State.held, State.emittedItems, State.waiting, resting]
  | measure hphase | emit seen hphase | discard hphase =>
    refine Or.inr (Or.inr ⟨?_, rfl⟩)
    simp [State.held, State.emittedItems, State.waiting, hphase]

/-- Everything pushed is held exactly once. -/
structure State.Conserved (h : State ι) : Prop where
  whole : h.Whole
  kept : h.pushed.Perm h.held

private theorem perm_step {h next : State ι} {m : Move ι} (kept : h.pushed.Perm h.held)
    (guard : OutsideEmission h m) (hstep : step h m = some next) :
    next.pushed.Perm next.held := by
  rcases held_step guard hstep with ⟨x, hheld, hpushed⟩ | ⟨-, before, after, hpushed⟩ |
    ⟨hheld, hpushed⟩
  · rw [hheld, hpushed]
    exact kept.append_right [x]
  · have turned : (h.emittedItems ++ h.back ++ h.front).Perm
        (h.emittedItems ++ h.front ++ h.back) := by
      simpa only [List.append_assoc] using
        List.Perm.append_left h.emittedItems List.perm_append_comm
    rw [before] at kept
    rw [after, hpushed]
    exact kept.trans turned
  · rw [hheld, hpushed]
    exact kept

theorem step_conserved {h next : State ι} {m : Move ι} (inv : h.Conserved)
    (guard : OutsideEmission h m) (hstep : step h m = some next) : next.Conserved :=
  ⟨whole_step inv.whole guard.measured hstep, perm_step inv.kept guard hstep⟩

/-- Runs whose exchanges stay outside emissions lose and repeat nothing. -/
theorem run_conserved {h next : State ι} {ms : List (Move ι)} (start : h.Conserved)
    (meets : Meets step OutsideEmission h ms) (hrun : run step h ms = some next) :
    next.Conserved :=
  run_invariant (fun _ _ _ inv guard hstep => step_conserved inv guard hstep) start meets hrun

/-- Everything pushed is held in the order of the pushes. -/
structure State.Ordered (h : State ι) : Prop where
  whole : h.Whole
  inOrder : h.held = h.pushed

private theorem order_step {h next : State ι} {m : Move ι} (inOrder : h.held = h.pushed)
    (guard : OntoEmptyBack h m) (hstep : step h m = some next) : next.held = next.pushed := by
  rcases held_step guard.outside hstep with ⟨x, hheld, hpushed⟩ | ⟨rfl, before, after, hpushed⟩ |
    ⟨hheld, hpushed⟩
  · rw [hheld, hpushed, inOrder]
  · have emptied : h.back = [] := guard.2
    -- the front moves behind everything emitted, where the back was
    rw [hpushed, ← inOrder, before, after, emptied, List.append_nil, List.append_nil]
  · rw [hheld, hpushed, inOrder]

/-- Runs whose exchanges meet an empty resting back keep the order of the pushes. -/
theorem run_ordered {h next : State ι} {ms : List (Move ι)} (start : h.Ordered)
    (meets : Meets step OntoEmptyBack h ms) (hrun : run step h ms = some next) :
    next.Ordered :=
  run_invariant
    (fun _ _ _ inv guard hstep =>
      ⟨whole_step inv.whole guard.outside.measured hstep, order_step inv.inOrder guard hstep⟩)
    start meets hrun

/-- Between emission and discard the back holds what has been emitted last. -/
def State.Repeats (h : State ι) : Prop :=
  h.phase = .emitted → ∃ out seen, h.out = out ++ [⟨seen, h.back⟩]

private theorem repeats_step {h next : State ι} {m : Move ι} (repeats : h.Repeats)
    (guard : OutsideEmission h m) (hstep : step h m = some next) : next.Repeats := by
  cases moved_of_step hstep with
  | push x => exact repeats
  | exchange =>
    intro hemitted
    have resting : h.phase = .rest := guard
    rw [resting] at hemitted
    cases hemitted
  | emit seen hphase => exact fun _ => ⟨h.out, seen, rfl⟩
  | measure hphase | discard hphase =>
    intro hemitted
    cases hemitted

theorem run_repeats {h next : State ι} {ms : List (Move ι)} (start : h.Repeats)
    (meets : Meets step OutsideEmission h ms) (hrun : run step h ms = some next) :
    next.Repeats :=
  run_invariant (fun _ _ _ repeats guard hstep => repeats_step repeats guard hstep) start meets hrun

theorem State.Ordered.suffix {h : State ι} (ordered : h.Ordered) (repeats : h.Repeats) :
    h.back ++ h.front <:+ h.pushed := by
  rw [← ordered.inOrder]
  cases hphase : h.phase with
  | rest | measured =>
    simp only [State.held, State.waiting, hphase, List.append_assoc]
    exact List.suffix_append _ _
  | emitted =>
    obtain ⟨out, seen, hout⟩ := repeats hphase
    simp only [State.held, State.waiting, State.emittedItems, hphase, hout, List.flatMap_append,
      List.flatMap_singleton, List.append_nil, List.append_assoc]
    exact List.suffix_append _ _

end FlashLog.Support.Handoff
