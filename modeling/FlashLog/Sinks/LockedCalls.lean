import FlashLog.Sinks.CrashDurability

/-!
What a call of `Log` or `Flush` does to a sink with one lock and one buffer, for the programs that
hold such a sink: the steps of one thread, and the places that a call of it can have reached.
-/

set_option autoImplicit false
set_option relaxedAutoImplicit false

namespace FlashLog.Sinks.LockedBuffer

open FlashLog.Support
open FlashLog.Support.Machine (Simulates)

variable {T ι : Type} [DecidableEq T]

inductive Threaded (s : Sink T ι) (t : T) : Sink T ι → Prop
  | push (x : ι) : s.pc t = .push x → s.owner = none →
      Threaded s t ({ s with buffer := s.buffer ++ [x], pushed := s.pushed ++ [x] }.goto t
        .needWrite)
  | needWrite (filled : Bool) : s.pc t = .needWrite → s.owner = none →
      Threaded s t (s.goto t (if filled then .lock else .idle))
  | lock : s.pc t = .lock → s.owner = none →
      Threaded s t ({ s with owner := some (t, .size) }.goto t .inside)
  | critical (c : Critical ι) : s.pc t = .inside → s.owner = some (t, c) →
      Threaded s t (criticalStep s t c)

theorem threaded_of_step {s next : Sink T ι} {t : T} {filled : Bool}
    (h : step s (.thread t filled) = some next) : Threaded s t next := by
  simp only [step, threadStep] at h
  split at h
  · rename_i x hpc howner
    obtain rfl := Option.some.inj h
    exact .push x hpc howner
  · rename_i hpc howner
    obtain rfl := Option.some.inj h
    exact .needWrite filled hpc howner
  · rename_i hpc howner
    obtain rfl := Option.some.inj h
    exact .lock hpc howner
  · rename_i t' c hpc howner
    obtain ⟨rfl, h⟩ := Option.ite_none_right_eq_some.mp h
    obtain rfl := Option.some.inj h
    exact .critical c hpc howner
  · cases h

namespace Threaded

variable {s next : Sink T ι} {t : T}

theorem others (h : Threaded s t next) (u : T) (hu : u ≠ t) : next.pc u = s.pc u := by
  cases h with
  | push | needWrite | lock => simp [Sink.goto, hu]
  | critical c => cases c <;> simp [criticalStep, Sink.goto, hu]

theorem not_push (h : Threaded s t next) (x : ι) : next.pc t ≠ .push x := by
  cases h with
  | push | lock => simp [Sink.goto]
  | needWrite filled => cases filled <;> simp [Sink.goto]
  | critical c hpc => cases c <;> simp [criticalStep, Sink.goto, hpc]

theorem pushed (h : Threaded s t next) :
    (∃ x, s.pc t = .push x ∧ next.pushed = s.pushed ++ [x]) ∨
      (∀ x, s.pc t ≠ .push x) ∧ next.pushed = s.pushed := by
  cases h with
  | push x hpc => exact Or.inl ⟨x, hpc, rfl⟩
  | needWrite filled hpc | lock hpc => exact Or.inr ⟨by simp [hpc], rfl⟩
  | critical c hpc => cases c <;> exact Or.inr ⟨by simp [hpc], rfl⟩

end Threaded

theorem enter_of_step {s next : Sink T ι} {t : T} {pc : Pc ι} (h : enter s t pc = some next) :
    s.pc t = .idle ∧ s.constructed = true ∧ next = s.goto t pc := by
  unfold enter at h
  split at h
  · rename_i hpc
    obtain ⟨constructed, h⟩ := Option.ite_none_right_eq_some.mp h
    exact ⟨hpc, constructed, (Option.some.inj h).symm⟩
  · cases h

/-- The buffer, without what has just been written and is still to be cleared. -/
def Sink.unwritten (s : Sink T ι) : List ι :=
  match s.owner with
  | some (_, .clear) => []
  | _ => s.buffer

omit [DecidableEq T] in
theorem held_view (s : Sink T ι) : s.view.held = s.writtenItems ++ s.unwritten := by
  cases howner : s.owner with
  | none =>
    simp [Handoff.State.held, Handoff.State.emittedItems, Handoff.State.waiting, Sink.view,
      Sink.writtenItems, Sink.unwritten, howner]
  | some owner =>
    obtain ⟨t, c⟩ := owner
    cases c <;> simp [Handoff.State.held, Handoff.State.emittedItems, Handoff.State.waiting,
      Sink.view, Sink.writtenItems, Sink.unwritten, Critical.phase, howner]

omit [DecidableEq T] in
@[simp] theorem view_pushed (s : Sink T ι) : s.view.pushed = s.pushed := by
  cases howner : s.owner <;> simp [Sink.view, howner]

omit [DecidableEq T] in
@[simp] theorem view_out (s : Sink T ι) : s.view.out = s.written := by
  cases howner : s.owner <;> simp [Sink.view, howner]

omit [DecidableEq T] in
theorem items_of_ordered {s : Sink T ι} (inv : s.view.Ordered) :
    s.writtenItems ++ s.unwritten = s.pushed := by
  rw [← held_view, inv.inOrder, view_pushed]

omit [DecidableEq T] in
theorem written_of_clear {s : Sink T ι} {t : T} (inv : s.view.Ordered)
    (h : s.owner = some (t, .clear)) : s.writtenItems = s.pushed := by
  simpa [Sink.unwritten, h] using items_of_ordered inv

omit [DecidableEq T] in
theorem sized_of_ordered {s : Sink T ι} (inv : s.view.Ordered) :
    ∀ e ∈ s.written, e.sized = e.payload := by
  rw [← view_out]
  exact inv.whole.1

theorem ordered_step {s next : Sink T ι} {a : Label T ι} (inv : s.view.Ordered)
    (h : step s a = some next) : next.view.Ordered := by
  have shown := simulates_handoff s a next h
  cases hmove : move s a with
  | none =>
    rw [hmove] at shown
    have same : next.view = s.view := shown
    rw [same]
    exact inv
  | some m =>
    rw [hmove] at shown
    have moved : Handoff.step s.view m = some next.view := shown
    have last : Machine.run Handoff.step s.view [m] = some next.view := by
      rw [Machine.run_cons, moved]
      rfl
    have meets : Machine.Meets Handoff.step Handoff.OntoEmptyBack s.view [m] :=
      ⟨ontoEmptyBack_of_move hmove, fun _ _ => trivial⟩
    exact Handoff.run_ordered inv meets last

structure Sink.Grows (s next : Sink T ι) : Prop where
  ordered : s.view.Ordered → next.view.Ordered
  pushed : s.pushed <+: next.pushed
  written : s.writtenItems <+: next.writtenItems

omit [DecidableEq T] in
theorem Sink.Grows.refl (s : Sink T ι) : s.Grows s :=
  ⟨id, List.prefix_refl _, List.prefix_refl _⟩

theorem grows_goto (s : Sink T ι) (t : T) (pc : Pc ι) : s.Grows (s.goto t pc) :=
  ⟨id, List.prefix_refl _, List.prefix_refl _⟩

theorem grows_step {s next : Sink T ι} {t : T} {filled : Bool}
    (h : step s (.thread t filled) = some next) : s.Grows next := by
  refine ⟨fun inv => ordered_step inv h, ?_, ?_⟩
  · rcases (threaded_of_step h).pushed with ⟨x, -, hpushed⟩ | ⟨-, hpushed⟩
    · exact hpushed ▸ List.prefix_append _ _
    · exact hpushed ▸ List.prefix_refl _
  · rw [Sink.writtenItems, Sink.writtenItems, written_step h, List.flatMap_append]
    exact List.prefix_append _ _

structure Sink.AtRest (s : Sink T ι) : Prop where
  constructed : s.constructed = true
  free : s.owner = none
  idle : ∀ t, s.pc t = .idle
  ordered : s.view.Ordered

end FlashLog.Sinks.LockedBuffer
