import Mathlib.Algebra.GroupWithZero.Nat
import Mathlib.Data.Option.Basic

/-!
Labelled machines as partial step functions. A run is a list of labels, so a
concrete run can be evaluated; a guarded run asks every label to meet a
condition in the state it is taken in.
-/

set_option autoImplicit false
set_option relaxedAutoImplicit false

namespace FlashLog.Support.Machine

universe u v w x

section Runs

variable {σ : Type u} {α : Type v} (step : σ → α → Option σ)

/-- Take the labels in order; a label that is not enabled ends the run in `none`. -/
def run : σ → List α → Option σ
  | s, [] => some s
  | s, a :: as => (step s a).bind fun next => run next as

/-- Every label of the run meets `ok` in the state it is taken in. -/
def Meets (ok : σ → α → Prop) : σ → List α → Prop
  | _, [] => True
  | s, a :: as => ok s a ∧ ∀ next ∈ step s a, Meets ok next as

instance Meets.decidable (ok : σ → α → Prop) [∀ s a, Decidable (ok s a)] :
    ∀ s as, Decidable (Meets step ok s as)
  | _, [] => inferInstanceAs (Decidable True)
  | s, a :: as =>
    haveI : ∀ next, Decidable (Meets step ok next as) := fun next => decidable ok next as
    inferInstanceAs (Decidable (ok s a ∧ ∀ next ∈ step s a, Meets step ok next as))

@[simp] theorem run_nil (s : σ) : run step s [] = some s := rfl

@[simp] theorem run_cons (s : σ) (a : α) (as : List α) :
    run step s (a :: as) = (step s a).bind fun next => run step next as := rfl

theorem run_append (s : σ) (as bs : List α) :
    run step s (as ++ bs) = (run step s as).bind fun next => run step next bs := by
  induction as generalizing s with
  | nil => rfl
  | cons a as ih =>
    simp only [List.cons_append, run_cons, Option.bind_assoc, ih]

@[simp] theorem meets_nil (ok : σ → α → Prop) (s : σ) : Meets step ok s [] := trivial

theorem meets_cons (ok : σ → α → Prop) (s : σ) (a : α) (as : List α) :
    Meets step ok s (a :: as) ↔ ok s a ∧ ∀ next ∈ step s a, Meets step ok next as :=
  Iff.rfl

theorem meets_append (ok : σ → α → Prop) (s : σ) (as bs : List α) :
    Meets step ok s (as ++ bs) ↔
      Meets step ok s as ∧ ∀ t ∈ run step s as, Meets step ok t bs := by
  induction as generalizing s with
  | nil => simp
  | cons a as ih =>
    simp only [List.cons_append, meets_cons, ih, run_cons, Option.mem_def,
      Option.bind_eq_some_iff]
    constructor
    · rintro ⟨guard, rest⟩
      exact ⟨⟨guard, fun next hnext => (rest next hnext).1⟩,
        fun t ⟨next, hnext, ht⟩ => (rest next hnext).2 t ht⟩
    · rintro ⟨⟨guard, rest⟩, last⟩
      exact ⟨guard, fun next hnext =>
        ⟨rest next hnext, fun t ht => last t ⟨next, hnext, ht⟩⟩⟩

theorem meets_true (s : σ) (as : List α) : Meets step (fun _ _ => True) s as := by
  induction as generalizing s with
  | nil => trivial
  | cons a as ih => exact ⟨trivial, fun next _ => ih next⟩

variable {step}

theorem meets_of_forall {ok : α → Prop} {s : σ} {as : List α} (h : ∀ a ∈ as, ok a) :
    Meets step (fun _ a => ok a) s as := by
  induction as generalizing s with
  | nil => trivial
  | cons a as ih =>
    exact ⟨h a List.mem_cons_self, fun next _ => ih fun b hb => h b (List.mem_cons_of_mem _ hb)⟩

theorem Meets.imp {ok ok' : σ → α → Prop} (h : ∀ s a, ok s a → ok' s a) {s : σ} {as : List α}
    (meets : Meets step ok s as) : Meets step ok' s as := by
  induction as generalizing s with
  | nil => trivial
  | cons a as ih => exact ⟨h s a meets.1, fun next hnext => ih (meets.2 next hnext)⟩

theorem Meets.and {ok ok' : σ → α → Prop} {s : σ} {as : List α} (meets : Meets step ok s as)
    (meets' : Meets step ok' s as) : Meets step (fun s a => ok s a ∧ ok' s a) s as := by
  induction as generalizing s with
  | nil => trivial
  | cons a as ih =>
    exact ⟨⟨meets.1, meets'.1⟩, fun next hnext => ih (meets.2 next hnext) (meets'.2 next hnext)⟩

theorem Meets.cons {ok : σ → α → Prop} {s next : σ} {a : α} {as : List α} (guard : ok s a)
    (h : step s a = some next) (rest : Meets step ok next as) : Meets step ok s (a :: as) := by
  refine ⟨guard, ?_⟩
  intro next' hnext'
  obtain rfl := Option.some.inj (h.symm.trans hnext')
  exact rest

theorem run_cons_some {s t : σ} {a : α} {as : List α} (h : run step s (a :: as) = some t) :
    ∃ next, step s a = some next ∧ run step next as = some t :=
  Option.bind_eq_some_iff.mp h

theorem run_invariant {ok : σ → α → Prop} {I : σ → Prop}
    (preserved : ∀ s a next, I s → ok s a → step s a = some next → I next)
    {s t : σ} {as : List α} (start : I s) (meets : Meets step ok s as)
    (h : run step s as = some t) : I t := by
  induction as generalizing s with
  | nil =>
    obtain rfl : s = t := by simpa using h
    exact start
  | cons a as ih =>
    obtain ⟨next, hstep, hrun⟩ := run_cons_some h
    exact ih (preserved s a next start meets.1 hstep) (meets.2 next hstep) hrun

/-- Steps that each cost one unit of a potential, but for what their labels bring in, make runs
no longer than the potential and what was brought in. -/
theorem run_length_le {ok : σ → α → Prop} {I : σ → Prop} (potential : σ → Nat) (gain : α → Nat)
    (preserved : ∀ s a next, I s → ok s a → step s a = some next → I next)
    (descends : ∀ s a next, I s → ok s a → step s a = some next →
      potential next + 1 ≤ potential s + gain a)
    {s t : σ} {as : List α} (start : I s) (meets : Meets step ok s as)
    (h : run step s as = some t) : as.length + potential t ≤ potential s + (as.map gain).sum := by
  induction as generalizing s with
  | nil =>
    obtain rfl : s = t := by simpa using h
    simp
  | cons a as ih =>
    obtain ⟨next, hstep, hrun⟩ := run_cons_some h
    have rest := ih (preserved s a next start meets.1 hstep) (meets.2 next hstep) hrun
    have first := descends s a next start meets.1 hstep
    rw [List.length_cons, List.map_cons, List.sum_cons]
    omega

theorem run_defined {ok : σ → α → Prop} {I : σ → Prop}
    (progress : ∀ s a, I s → ok s a → ∃ next, step s a = some next ∧ I next) {s : σ} {as : List α}
    (start : I s) (meets : Meets step ok s as) : ∃ t, run step s as = some t ∧ I t := by
  induction as generalizing s with
  | nil => exact ⟨s, rfl, start⟩
  | cons a as ih =>
    obtain ⟨next, hstep, inv⟩ := progress s a start meets.1
    obtain ⟨t, hrun, last⟩ := ih inv (meets.2 next hstep)
    exact ⟨t, by rw [run_cons, hstep, Option.bind_some, hrun], last⟩

theorem run_preserves (I : σ → Prop)
    (preserved : ∀ s a next, I s → step s a = some next → I next)
    {s t : σ} {as : List α} (start : I s) (h : run step s as = some t) : I t :=
  have kept : ∀ s a next, I s → True → step s a = some next → I next :=
    fun s a next inv _ hstep => preserved s a next inv hstep
  run_invariant kept start (meets_true step s as) h

theorem meets_of_invariant {ok ok' : σ → α → Prop} {I : σ → Prop}
    (preserved : ∀ s a next, I s → ok s a → step s a = some next → I next)
    (guards : ∀ s a, I s → ok s a → (step s a).isSome → ok' s a)
    {s t : σ} {as : List α} (start : I s) (meets : Meets step ok s as)
    (h : run step s as = some t) : Meets step ok' s as := by
  induction as generalizing s with
  | nil => trivial
  | cons a as ih =>
    obtain ⟨next, hstep, hrun⟩ := run_cons_some h
    refine ⟨guards s a start meets.1 (by simp [hstep]), ?_⟩
    intro next' hnext'
    obtain rfl : next = next' := Option.some.inj (hstep.symm.trans hnext')
    exact ih (preserved s a next start meets.1 hstep) (meets.2 next hstep) hrun

/-- A property that each guarded step keeps exactly when its label meets a condition holds at the
end of a guarded run exactly when the whole run meets the condition. -/
theorem guarded_run_iff_meets {ok ok' : σ → α → Prop} {I G : σ → Prop}
    (preserved : ∀ s a next, I s → ok s a → step s a = some next → I next)
    (kept_iff : ∀ s a next, I s → ok s a → step s a = some next → (G next ↔ G s ∧ ok' s a))
    {s t : σ} {as : List α} (start : I s) (meets : Meets step ok s as)
    (h : run step s as = some t) : G t ↔ G s ∧ Meets step ok' s as := by
  induction as generalizing s with
  | nil =>
    obtain rfl : s = t := by simpa using h
    exact ⟨fun hs => ⟨hs, trivial⟩, And.left⟩
  | cons a as ih =>
    obtain ⟨next, hstep, hrun⟩ := run_cons_some h
    rw [ih (preserved s a next start meets.1 hstep) (meets.2 next hstep) hrun,
      kept_iff s a next start meets.1 hstep, and_assoc]
    refine and_congr_right fun _ => and_congr_right fun _ => ?_
    constructor
    · intro rest next' hnext'
      obtain rfl : next = next' := Option.some.inj (hstep.symm.trans hnext')
      exact rest
    · intro rest
      exact rest next hstep

theorem run_iff_meets {ok : σ → α → Prop} {I G : σ → Prop}
    (preserved : ∀ s a next, I s → step s a = some next → I next)
    (kept_iff : ∀ s a next, I s → step s a = some next → (G next ↔ G s ∧ ok s a))
    {s t : σ} {as : List α} (start : I s) (h : run step s as = some t) :
    G t ↔ G s ∧ Meets step ok s as :=
  have kept : ∀ s a next, I s → True → step s a = some next → I next :=
    fun s a next inv _ hstep => preserved s a next inv hstep
  have exact_iff : ∀ s a next, I s → True → step s a = some next → (G next ↔ G s ∧ ok s a) :=
    fun s a next inv _ hstep => kept_iff s a next inv hstep
  guarded_run_iff_meets kept exact_iff start (meets_true step s as) h

def Passes (step : σ → α → Option σ) (P : σ → α → σ → Prop) : σ → List α → Prop
  | _, [] => True
  | s, a :: as => ∃ next, step s a = some next ∧ P s a next ∧ Passes step P next as

theorem passes_iff_meets {ok : σ → α → Prop} {P : σ → α → σ → Prop} {I : σ → Prop}
    (preserved : ∀ s a next, I s → step s a = some next → P s a next → I next)
    (passes_iff : ∀ s a, I s → ((∃ next, step s a = some next ∧ P s a next) ↔ ok s a))
    {s : σ} (start : I s) (as : List α) : Passes step P s as ↔ Meets step ok s as := by
  induction as generalizing s with
  | nil => exact Iff.rfl
  | cons a as ih =>
    rw [Passes, meets_cons, ← passes_iff s a start]
    constructor
    · rintro ⟨next, hstep, hP, rest⟩
      refine ⟨⟨next, hstep, hP⟩, ?_⟩
      intro next' hnext'
      obtain rfl : next = next' := Option.some.inj (hstep.symm.trans hnext')
      exact (ih (preserved s a next start hstep hP)).mp rest
    · rintro ⟨⟨next, hstep, hP⟩, rest⟩
      exact ⟨next, hstep, hP, (ih (preserved s a next start hstep hP)).mpr (rest next hstep)⟩

theorem run_passes_iff_meets {ok : σ → α → Prop} {P : σ → α → σ → Prop} {I : σ → Prop}
    (preserved : ∀ s a next, I s → step s a = some next → P s a next → I next)
    (kept_iff : ∀ s a next, I s → step s a = some next → (P s a next ↔ ok s a))
    {s t : σ} {as : List α} (start : I s) (h : run step s as = some t) :
    Passes step P s as ↔ Meets step ok s as := by
  induction as generalizing s with
  | nil => exact Iff.rfl
  | cons a as ih =>
    obtain ⟨next, hstep, hrun⟩ := run_cons_some h
    have same : ∀ next', step s a = some next' → next' = next :=
      fun next' hnext' => Option.some.inj (hnext'.symm.trans hstep)
    rw [Passes, meets_cons, ← kept_iff s a next start hstep]
    constructor
    · rintro ⟨next', hstep', hP, rest⟩
      obtain rfl := same next' hstep'
      refine ⟨hP, fun other hother => ?_⟩
      obtain rfl := same other hother
      exact (ih (preserved s a _ start hstep hP) hrun).mp rest
    · rintro ⟨hP, rest⟩
      exact ⟨next, hstep, hP, (ih (preserved s a next start hstep hP) hrun).mpr (rest next hstep)⟩

def outputs {β : Type w} (step : σ → α → Option σ) (out : σ → α → Option β) :
    σ → List α → List β
  | _, [] => []
  | s, a :: as =>
    (out s a).toList ++ match step s a with
      | some next => outputs step out next as
      | none => []

theorem run_invariant_outputs {β : Type w} (out : σ → α → Option β) {ok : σ → α → Prop}
    {I : σ → List β → Prop}
    (preserved : ∀ s bs a next, I s bs → ok s a → step s a = some next →
      I next (bs ++ (out s a).toList))
    {s t : σ} {as : List α} {bs : List β} (start : I s bs) (meets : Meets step ok s as)
    (h : run step s as = some t) : I t (bs ++ outputs step out s as) := by
  induction as generalizing s bs with
  | nil =>
    obtain rfl : s = t := by simpa using h
    simpa [outputs] using start
  | cons a as ih =>
    obtain ⟨next, hstep, hrun⟩ := run_cons_some h
    have rest := ih (preserved s bs a next start meets.1 hstep) (meets.2 next hstep) hrun
    simpa [outputs, hstep] using rest

theorem outputs_of_run {β : Type w} (out : α → Option β) {s t : σ} {as : List α}
    (h : run step s as = some t) : outputs step (fun _ a => out a) s as = as.filterMap out := by
  induction as generalizing s with
  | nil => rfl
  | cons a as ih =>
    obtain ⟨next, hstep, hrun⟩ := run_cons_some h
    rw [outputs, hstep, List.filterMap_cons]
    simp only [ih hrun]
    cases out a <;> rfl

def Reaches (step : σ → α → Option σ) (s t : σ) : Prop := ∃ as, run step s as = some t

theorem Reaches.refl (s : σ) : Reaches step s s := ⟨[], rfl⟩

theorem Reaches.single {s t : σ} {a : α} (h : step s a = some t) : Reaches step s t :=
  ⟨[a], by rw [run_cons, h]; rfl⟩

theorem Reaches.trans {s t u : σ} (h : Reaches step s t) (h' : Reaches step t u) :
    Reaches step s u := by
  obtain ⟨as, has⟩ := h
  obtain ⟨bs, hbs⟩ := h'
  refine ⟨as ++ bs, ?_⟩
  rw [run_append, has]
  exact hbs

/-- Some run whose labels show `bs` leads from one state to the other. -/
def ReachesBy {β : Type w} (step : σ → α → Option σ) (seen : α → Option β) (s : σ) (bs : List β)
    (t : σ) : Prop :=
  ∃ as, run step s as = some t ∧ as.filterMap seen = bs

section ReachesBy

variable {β : Type w} {seen : α → Option β}

theorem ReachesBy.refl (s : σ) : ReachesBy step seen s [] s := ⟨[], rfl, rfl⟩

theorem ReachesBy.single {s t : σ} {a : α} (h : step s a = some t) :
    ReachesBy step seen s (seen a).toList t := by
  refine ⟨[a], by rw [run_cons, h]; rfl, ?_⟩
  rw [List.filterMap_cons]
  cases seen a <;> rfl

theorem ReachesBy.trans {s t u : σ} {bs cs : List β} (h : ReachesBy step seen s bs t)
    (h' : ReachesBy step seen t cs u) : ReachesBy step seen s (bs ++ cs) u := by
  obtain ⟨as, has, hbs⟩ := h
  obtain ⟨as', has', hcs⟩ := h'
  refine ⟨as ++ as', ?_, ?_⟩
  · rw [run_append, has]
    exact has'
  · rw [List.filterMap_append, hbs, hcs]

end ReachesBy

end Runs

section Simulation

variable {σ : Type u} {α : Type v} {τ : Type w} {β : Type x}
variable {step : σ → α → Option σ} {abstractStep : τ → β → Option τ}

/-- At most one abstract step leads from `before` to `after`. -/
def Shows (abstractStep : τ → β → Option τ) (before after : τ) : Option β → Prop
  | none => after = before
  | some b => abstractStep before b = some after

/-- Every concrete step shows, through `view`, as at most one abstract step. -/
def Simulates (step : σ → α → Option σ) (abstractStep : τ → β → Option τ)
    (view : σ → τ) (label : σ → α → Option β) : Prop :=
  ∀ s a next, step s a = some next → Shows abstractStep (view s) (view next) (label s a)

/-- Guarded concrete runs show as guarded abstract runs. -/
theorem Simulates.run {view : σ → τ} {label : σ → α → Option β}
    (sim : Simulates step abstractStep view label)
    {ok : σ → α → Prop} {ok' : τ → β → Prop}
    (guards : ∀ s a b, ok s a → label s a = some b → ok' (view s) b)
    {s t : σ} {as : List α} (meets : Meets step ok s as) (h : run step s as = some t) :
    ∃ bs, Machine.run abstractStep (view s) bs = some (view t) ∧
      Meets abstractStep ok' (view s) bs := by
  induction as generalizing s with
  | nil =>
    obtain rfl : s = t := by simpa using h
    exact ⟨[], rfl, trivial⟩
  | cons a as ih =>
    obtain ⟨next, hstep, hrun⟩ := run_cons_some h
    obtain ⟨bs, hbs, hmeets⟩ := ih (meets.2 next hstep) hrun
    have shown := sim s a next hstep
    cases hlabel : label s a with
    | none =>
      rw [hlabel] at shown
      have same : view next = view s := shown
      exact ⟨bs, same ▸ hbs, same ▸ hmeets⟩
    | some b =>
      rw [hlabel] at shown
      have hb : abstractStep (view s) b = some (view next) := shown
      refine ⟨b :: bs, ?_, guards s a b meets.1 hlabel, ?_⟩
      · simp [hb, hbs]
      · intro next' hnext'
        obtain rfl : view next = next' := Option.some.inj (hb.symm.trans hnext')
        exact hmeets

theorem Simulates.run_of_run {view : σ → τ} {label : σ → α → Option β}
    (sim : Simulates step abstractStep view label) {s t : σ} {as : List α}
    (h : Machine.run step s as = some t) :
    ∃ bs, Machine.run abstractStep (view s) bs = some (view t) := by
  obtain ⟨bs, hbs, -⟩ : ∃ bs, Machine.run abstractStep (view s) bs = some (view t) ∧
      Meets abstractStep (fun _ _ => True) (view s) bs :=
    sim.run (fun _ _ _ _ _ => trivial) (meets_true step s as) h
  exact ⟨bs, hbs⟩

/-- A relation in which every guarded concrete step is answered by a guarded run of abstract steps
that shows the same: concrete runs are answered by abstract runs. -/
theorem run_related_meets {γ : Type*} {R : σ → τ → Prop} {seen : α → Option γ}
    {seen' : β → Option γ} {ok : σ → α → Prop} {ok' : τ → β → Prop}
    (answered : ∀ s s' a next, R s s' → ok s a → step s a = some next →
      ∃ bs next', Machine.run abstractStep s' bs = some next' ∧ Meets abstractStep ok' s' bs ∧
        R next next' ∧ bs.filterMap seen' = (seen a).toList)
    {s t : σ} {s' : τ} {as : List α} (start : R s s') (meets : Meets step ok s as)
    (h : Machine.run step s as = some t) :
    ∃ bs t', Machine.run abstractStep s' bs = some t' ∧ Meets abstractStep ok' s' bs ∧ R t t' ∧
      bs.filterMap seen' = as.filterMap seen := by
  induction as generalizing s s' with
  | nil =>
    obtain rfl : s = t := by simpa using h
    exact ⟨[], s', rfl, trivial, start, rfl⟩
  | cons a as ih =>
    obtain ⟨next, hstep, hrun⟩ := run_cons_some h
    obtain ⟨bs, next', hbs, first, related, shown⟩ := answered s s' a next start meets.1 hstep
    obtain ⟨cs, t', hcs, rest, last, shown'⟩ := ih related (meets.2 next hstep) hrun
    refine ⟨bs ++ cs, t', ?_, ?_, last, ?_⟩
    · rw [run_append, hbs]
      exact hcs
    · refine (meets_append _ _ _ _ _).mpr ⟨first, ?_⟩
      intro u hu
      obtain rfl := Option.some.inj (hbs.symm.trans hu)
      exact rest
    · rw [List.filterMap_append, shown, shown', List.filterMap_cons]
      cases seen a <;> rfl

end Simulation

end FlashLog.Support.Machine
