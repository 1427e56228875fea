import FlashLog.Support.Machine

/-!
Two runs of one machine. Every label comes with a part that is not the program's own (the
contents of uninitialised memory, a secret); the outputs of a run are determined by the rest
if they are the same whatever those parts are.
-/

set_option autoImplicit false
set_option relaxedAutoImplicit false

namespace FlashLog.Support.Machine

universe u v w x

variable {σ : Type u} {α : Type v} {ω : Type w} {β : Type x} (step : σ → α × ω → Option σ)
  (out : σ → α × ω → Option β)

/-- Two runs with the same labels and any two lists of hidden parts put out the same. -/
def Determined (s : σ) (as : List α) : Prop :=
  ∀ ws ws' : List ω, ws.length = as.length → ws'.length = as.length →
    outputs step out s (as.zip ws) = outputs step out s (as.zip ws')

variable {step out}

theorem Determined.tail {s next : σ} {a : α} {w : ω} {as : List α}
    (h : Determined step out s (a :: as)) (hstep : step s (a, w) = some next) :
    Determined step out next as := by
  intro ws ws' hws hws'
  have both := h (w :: ws) (w :: ws') (by rw [List.length_cons, hws, List.length_cons])
    (by rw [List.length_cons, hws', List.length_cons])
  simp only [List.zip_cons_cons, outputs, hstep] at both
  exact List.append_cancel_left both

/-- Where a step hides its part exactly when its label meets a condition, the outputs of a run
are determined exactly when all its labels meet the condition. -/
theorem determined_iff_meets {ok : σ → α → Prop}
    (blind : ∀ s a w w', ok s a → step s (a, w) = step s (a, w') ∧ out s (a, w) = out s (a, w'))
    (shows : ∀ s a, ¬ ok s a →
      ∃ w w' b b', out s (a, w) = some b ∧ out s (a, w') = some b' ∧ b ≠ b')
    (s : σ) (as : List α) :
    Determined step out s as ↔
      ∀ ws : List ω, ws.length = as.length →
        Meets step (fun s label => ok s label.1) s (as.zip ws) := by
  induction as generalizing s with
  | nil =>
    constructor
    · exact fun _ ws _ => trivial
    · exact fun _ ws ws' _ _ => rfl
  | cons a as ih =>
    constructor
    · intro determined ws hws
      cases ws with
      | nil => trivial
      | cons w ws =>
        have hlen : ws.length = as.length := Nat.succ.inj hws
        refine ⟨?_, fun next hstep => (ih next).mp (determined.tail hstep) ws hlen⟩
        by_contra seen
        obtain ⟨w, w', b, b', hb, hb', differ⟩ := shows s a seen
        have both := determined (w :: ws) (w' :: ws) hws hws
        simp only [List.zip_cons_cons, outputs, hb, hb', Option.toList_some,
          List.singleton_append] at both
        exact differ (List.cons.inj both).1
    · intro meets ws ws' hws hws'
      cases ws with
      | nil => cases hws
      | cons w ws =>
        cases ws' with
        | nil => cases hws'
        | cons w' ws' =>
          obtain ⟨guard, -⟩ := meets (w :: ws) hws
          obtain ⟨same_step, same_out⟩ := blind s a w w' guard
          simp only [List.zip_cons_cons, outputs, same_out]
          rw [← same_step]
          cases hstep : step s (a, w) with
          | none => rfl
          | some next =>
            have later : Determined step out next as := by
              refine (ih next).mpr fun vs hvs => ?_
              exact (meets (w :: vs) (congrArg Nat.succ hvs)).2 next hstep
            exact congrArg _ (later ws ws' (Nat.succ.inj hws) (Nat.succ.inj hws'))

end FlashLog.Support.Machine
