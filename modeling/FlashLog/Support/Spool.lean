import Mathlib.Data.List.Perm.Subperm
import FlashLog.Support.Handoff

/-!
A stream behind a machine: what the machine emits goes into a stream, which hands it on
in order, at times of its own, but holds back an arbitrary suffix. A crash loses what
is held back. A hand-over whose buffers survive a crash keeps every value if it
discards a buffer only when the stream holds nothing back.
-/

set_option autoImplicit false
set_option relaxedAutoImplicit false

namespace FlashLog.Support.Spool

open FlashLog.Support.Machine

universe u v w x

/-- A machine's state, and how many of the values it has emitted the stream has handed on. -/
structure State (σ : Type u) where
  state : σ
  handed : Nat

section Handing

variable {σ : Type u} {α : Type v}

/-- While the machine emits, the stream may hand on more, up to all it has been given. -/
def handing (step : σ → α → Option σ) (emits : σ → α → Bool) (total : σ → Nat) (s : State σ)
    (a : α × Nat) : Option (State σ) :=
  (step s.state a.1).bind fun next =>
    if emits s.state a.1 then
      if s.handed ≤ a.2 ∧ a.2 ≤ total next then some ⟨next, a.2⟩ else none
    else some ⟨next, s.handed⟩

variable {step : σ → α → Option σ} {emits : σ → α → Bool} {total : σ → Nat}

theorem step_of_handing {s next : State σ} {a : α × Nat}
    (h : handing step emits total s a = some next) :
    step s.state a.1 = some next.state ∧
      (emits s.state a.1 = true → s.handed ≤ next.handed) ∧
      (emits s.state a.1 = false → next.handed = s.handed) := by
  obtain ⟨mid, hmid, hnext⟩ := Option.bind_eq_some_iff.mp h
  by_cases hemits : emits s.state a.1 = true
  · rw [if_pos hemits] at hnext
    split at hnext
    · rename_i hbounds
      obtain rfl := Option.some.inj hnext
      refine ⟨hmid, fun _ => hbounds.1, fun hno => ?_⟩
      rw [hemits] at hno
      cases hno
    · cases hnext
  · rw [if_neg hemits] at hnext
    obtain rfl := Option.some.inj hnext
    exact ⟨hmid, fun hyes => absurd hyes hemits, fun _ => rfl⟩

variable {τ : Type w} {β : Type x} {abstractStep : τ → β → Option τ}
variable {abstractEmits : τ → β → Bool} {abstractTotal : τ → Nat}
variable {view : σ → τ} {label : σ → α → Option β}

theorem handing_simulates (sim : Simulates step abstractStep view label)
    (hemits : ∀ s a, emits s a = (label s a).any (abstractEmits (view s)))
    (htotal : ∀ s, total s = abstractTotal (view s)) :
    Simulates (handing step emits total) (handing abstractStep abstractEmits abstractTotal)
      (fun s => ⟨view s.state, s.handed⟩) (fun s a => (label s.state a.1).map (·, a.2)) := by
  intro s a next h
  obtain ⟨mid, hmid, hnext⟩ := Option.bind_eq_some_iff.mp h
  have shown := sim s.state a.1 mid hmid
  rw [hemits, htotal] at hnext
  cases hlabel : label s.state a.1 with
  | none =>
    rw [hlabel] at shown hnext
    obtain rfl := Option.some.inj hnext
    simp only [hlabel, Option.map_none]
    exact congrArg (fun t => State.mk t s.handed) shown
  | some b =>
    rw [hlabel] at shown hnext
    simp only [hlabel, Option.map_some]
    show handing abstractStep abstractEmits abstractTotal ⟨view s.state, s.handed⟩ (b, a.2) = _
    have hb : abstractStep (view s.state) b = some (view mid) := shown
    rw [Option.any_some] at hnext
    simp only [handing, hb, Option.bind_some]
    split at hnext
    · rename_i hemit
      rw [if_pos hemit]
      split at hnext
      · rename_i hbounds
        obtain rfl := Option.some.inj hnext
        rw [if_pos hbounds]
      · cases hnext
    · rename_i hquiet
      obtain rfl := Option.some.inj hnext
      rw [if_neg hquiet]

end Handing

section Durability

variable {ι : Type u}

open Handoff (Move Phase)

def emits : Handoff.State ι → Move ι → Bool
  | _, .emit => true
  | _, _ => false

def step : State (Handoff.State ι) → Move ι × Nat → Option (State (Handoff.State ι)) :=
  handing Handoff.step emits fun h => h.emittedItems.length

/-- Exchanges stay outside emissions, and nothing is discarded while the stream holds
anything back. -/
def FlushedDiscards (s : State (Handoff.State ι)) (m : Move ι × Nat) : Prop :=
  Handoff.OutsideEmission s.state m.1 ∧ (m.1 = .discard → s.state.emittedItems.length ≤ s.handed)

/-- Every pushed value is in a buffer or handed on. -/
def Durable (s : State (Handoff.State ι)) : Prop :=
  s.state.pushed.Subperm
    (s.state.emittedItems.take s.handed ++ (s.state.back ++ s.state.front))

/-- Only an emission that is about to be discarded may be held back. -/
structure Caught (s : State (Handoff.State ι)) : Prop where
  conserved : s.state.Conserved
  emitting : s.state.phase = .emitted →
    ∃ before, s.state.emittedItems = before ++ s.state.back ∧ before.length ≤ s.handed
  resting : s.state.phase ≠ .emitted → s.state.emittedItems.length ≤ s.handed

theorem Caught.durable {s : State (Handoff.State ι)} (h : Caught s) : Durable s := by
  refine h.conserved.kept.subperm.trans ?_
  by_cases hphase : s.state.phase = .emitted
  · obtain ⟨before, hitems, hle⟩ := h.emitting hphase
    have hheld : s.state.held = before ++ (s.state.back ++ s.state.front) := by
      simp [Handoff.State.held, Handoff.State.waiting, hphase, hitems]
    have htake : before <+: s.state.emittedItems.take s.handed := by
      rw [List.prefix_take_iff, hitems]
      exact ⟨List.prefix_append _ _, hle⟩
    rw [hheld]
    exact (htake.sublist.append_right _).subperm
  · have hall : s.state.emittedItems.take s.handed = s.state.emittedItems :=
      List.take_of_length_le (h.resting hphase)
    have hwaiting : s.state.waiting = s.state.back := by
      rw [Handoff.State.waiting]
      split
      · rename_i hemitted
        exact absurd hemitted hphase
      · rfl
    rw [hall, Handoff.State.held, hwaiting, List.append_assoc]

theorem caught_step (s : State (Handoff.State ι)) (m : Move ι × Nat)
    (next : State (Handoff.State ι)) (inv : Caught s) (guard : FlushedDiscards s m)
    (h : step s m = some next) : Caught next := by
  obtain ⟨hstep, hemit, hsame⟩ := step_of_handing h
  have conserved := Handoff.step_conserved inv.conserved guard.1 hstep
  have outside : Handoff.OutsideEmission s.state m.1 := guard.1
  obtain ⟨before, handed⟩ := s
  obtain ⟨after, handed'⟩ := next
  obtain ⟨move, chosen⟩ := m
  have moved := Handoff.moved_of_step hstep
  simp only at moved hemit hsame outside
  cases moved with
  | push x =>
    obtain rfl := hsame rfl
    exact ⟨conserved, inv.emitting, inv.resting⟩
  | exchange =>
    obtain rfl := hsame rfl
    have resting : before.phase = .rest := outside
    refine ⟨conserved, ?_, inv.resting⟩
    intro hphase
    simp only [resting, reduceCtorEq] at hphase
  | measure hphase =>
    obtain rfl := hsame rfl
    refine ⟨conserved, ?_, fun _ => ?_⟩
    · intro hnext
      cases hnext
    · exact inv.resting (by simp only [hphase, ne_eq, reduceCtorEq, not_false_eq_true])
  | emit seen hphase =>
    -- what was handed on before the emission stays handed on
    have hresting := inv.resting (by simp only [hphase, ne_eq, reduceCtorEq, not_false_eq_true])
    refine ⟨conserved, fun _ => ⟨before.emittedItems, ?_, ?_⟩, fun hnext => absurd rfl hnext⟩
    · simp [Handoff.State.emittedItems]
    · exact Nat.le_trans hresting (hemit rfl)
  | discard hphase =>
    obtain rfl := hsame rfl
    refine ⟨conserved, ?_, fun _ => guard.2 rfl⟩
    intro hnext
    cases hnext

/-- Runs that discard only what the stream has handed on keep every value, wherever they
are cut off. -/
theorem run_durable {s next : State (Handoff.State ι)} {ms : List (Move ι × Nat)}
    (start : Caught s) (meets : Meets step FlushedDiscards s ms)
    (hrun : run step s ms = some next) :
    Durable next :=
  (run_invariant caught_step start meets hrun).durable

end Durability

end FlashLog.Support.Spool
