import FlashLog.Scheduler.RepeatedRuns

/-!
`CancelRepeatedTask` takes the id out of `repeated_set_`, which `PostRepeatedTask_` looks at
before each run. It looks with the lock held and calls the task with the lock released, so that a
cancellation between the two comes too late for that run; so does one that falls between
`GetNextRepeatedTaskId_` and the insertion of the id, for every run.
-/

set_option autoImplicit false
set_option relaxedAutoImplicit false

namespace FlashLog.Scheduler.Timer

open FlashLog.Support.Machine (run Meets meets_append run_append meets_of_invariant)

variable {A τ : Type}

/-- The user's task that a step calls, whether or not it throws. -/
def State.starts (s : State A τ) : Label A τ → Option τ
  | .throws a =>
    match s.pc a with
    | .post _ (.call r) => some r.task
    | _ => none
  | l => s.runs l

/-- No other call posts the task, and its id is registered for no other task. -/
def Reserved (x : τ) (id : RepeatedTaskId) (s : State A τ) : Label A τ → Prop
  | .call _ k => k.user ≠ some x
  | .thread a => ∀ inRun r, s.pc a = .post inRun (.insert r) → r.id = id → r.task = x
  | _ => True

/-- A thread has found the id of the task and not yet called it, or is about to register it for
the runs to come. -/
def State.Evades (s : State A τ) (x : τ) : Prop :=
  ∃ a inRun r, r.task = x ∧
    (s.pc a = .post inRun (.call r) ∨ s.pc a = .post inRun (.insert r) ∧ r.repeatNum ≠ 0)

/-- Whatever is left of the task is not called again: no run remains, or its id is not in
`repeated_set_` and nobody goes on without looking. -/
structure State.Halted (s : State A τ) (x : τ) (id : RepeatedTaskId) : Prop where
  repeats : ∀ p, s.At x p → ∃ r, s.Has r p
  halted : (∀ p r, s.Has r p → r.task = x → r.repeatNum = 0) ∨
    id ∉ s.repeatedSet ∧ (∀ p r, s.Has r p → r.task = x → r.id = id) ∧
      ∀ a inRun r, r.task = x →
        s.pc a ≠ .post inRun (.call r) ∧ s.pc a ≠ .post inRun (.insert r)

theorem State.starts_eq_some {s : State A τ} {l : Label A τ} {x : τ} (h : s.starts l = some x) :
    ∃ a, s.At x (.thread a) ∧
      ((∃ inRun r, s.pc a = .post inRun (.call r)) ∨
        ∃ e task, s.pc a = .run (.call e) ∧ e.task = .posted task) := by
  cases l with
  | throws a =>
    simp only [State.starts] at h
    split at h
    · rename_i inRun r hpc
      obtain rfl := Option.some.inj h
      exact ⟨a, by simp [State.At, hpc, Pc.user], Or.inl ⟨inRun, r, hpc⟩⟩
    · cases h
  | thread a =>
    have hruns : s.runs (.thread a) = some x := h
    obtain ⟨b, hb, there⟩ := State.At.of_runs hruns
    obtain rfl := Label.thread.inj hb
    refine ⟨a, there, ?_⟩
    simp only [State.runs] at hruns
    split at hruns
    · rename_i e hpc
      split at hruns
      · rename_i task htask
        exact Or.inr ⟨e, task, hpc, htask⟩
      · cases hruns
    · rename_i inRun r hpc
      exact Or.inl ⟨inRun, r, hpc⟩
    · cases hruns
  | _ => cases h

theorem State.Halted.not_starts {s : State A τ} {x : τ} {id : RepeatedTaskId} {l : Label A τ}
    (inv : s.Halted x id) (counting : ∀ a, (s.pc a).Counting) : s.starts l ≠ some x := by
  intro starts
  obtain ⟨a, there, ⟨inRun, r, hpc⟩ | ⟨e, task, hpc, htask⟩⟩ := State.starts_eq_some starts
  · have has : s.Has r (.thread a) := by simp [State.Has, hpc, Pc.repetition]
    have same : r.task = x := by simpa [State.At, hpc, Pc.user] using there
    rcases inv.halted with spent | ⟨-, -, away⟩
    · have due : r.repeatNum ≠ 0 := by simpa [hpc, Pc.Counting] using counting a
      exact due (spent _ r has same)
    · exact (away a inRun r same).1 hpc
  · obtain ⟨r, has⟩ := inv.repeats _ there
    simp [State.Has, hpc, Pc.repetition, htask, Task.repetition] at has

variable [DecidableEq A] [DecidableEq τ]

theorem step_calls {s next : State A τ} {l : Label A τ} (h : step s l = some next) {b : A}
    {inRun : Bool} {r : Repeated τ} (hb : next.pc b = .post inRun (.call r)) :
    s.pc b = .post inRun (.call r) ∨ s.pc b = .post inRun (.find r) ∧ r.id ∈ s.repeatedSet := by
  rcases step_to_post h hb with
    same | ⟨inRun', pc, hpc, moved⟩ | ⟨k, entry⟩ | ⟨r', clash⟩ | ⟨_, _, clash⟩
  · exact Or.inl same
  · right
    cases moved with
    | find r' free found =>
      obtain ⟨rfl, rfl⟩ : inRun' = inRun ∧ r' = r := by simpa [State.goto_pc] using hb
      exact ⟨hpc, found⟩
    | unlock | canceled r' free missing | erase id free =>
      simp [State.unlocked, State.goto_pc, returned_ne_post] at hb
    | _ => simp [State.goto_pc] at hb
  · cases k <;> cases entry
  · cases clash
  · cases clash

theorem step_inserts {s next : State A τ} {l : Label A τ} (h : step s l = some next) {b : A}
    {inRun : Bool} {r : Repeated τ} (hb : next.pc b = .post inRun (.insert r)) :
    s.pc b = .post inRun (.insert r) ∨
      ∃ delta repeatNum, s.pc b = .post inRun (.nextId r.task delta repeatNum) := by
  rcases step_to_post h hb with
    same | ⟨inRun', pc, hpc, moved⟩ | ⟨k, entry⟩ | ⟨r', clash⟩ | ⟨_, _, clash⟩
  · exact Or.inl same
  · right
    cases moved with
    | nextId task delta repeatNum =>
      obtain ⟨rfl, rfl⟩ : inRun' = inRun ∧ ⟨task, delta, s.repeatedTaskId, repeatNum⟩ = r := by
        simpa [State.goto_pc] using hb
      exact ⟨delta, repeatNum, hpc⟩
    | unlock | canceled r' free missing | erase id free =>
      simp [State.unlocked, State.goto_pc, returned_ne_post] at hb
    | _ => simp [State.goto_pc] at hb
  · cases k <;> cases entry
  · cases clash
  · cases clash

omit [DecidableEq A] [DecidableEq τ] in
theorem State.At.unique {s : State A τ} {x y : τ} {p : Place A τ} (h : s.At x p)
    (h' : s.At y p) : x = y := by
  cases p with
  | queued e => exact h.2.symm.trans h'.2
  | thread a =>
    have here : (s.pc a).user = some x := h
    exact Option.some.inj (here.symm.trans h')

/-- A repeated task that is still in the timer after a step is the one it was, with one run less
if it has been called. -/
theorem step_repeats {s next : State A τ} {l : Label A τ} {p : Place A τ} {r : Repeated τ}
    (has : s.Has r p) (h : step s l = some next) (there : next.At r.task (p.after s l)) :
    ∃ r', next.Has r' (p.after s l) ∧ r'.id = r.id ∧
      (r' = r ∨ ∃ a inRun, s.pc a = .post inRun (.call r)) := by
  cases step_fate has h with
  | kept stays _ => exact ⟨r, stays, rfl, Or.inl rfl⟩
  | ran a inRun hp hl hpc has' =>
    subst hp hl
    rw [Place.after_of_stays (by simp [State.moves, hpc])]
    exact ⟨_, has', rfl, Or.inr ⟨a, inRun, hpc⟩⟩
  | ended a inRun hp hl hpc zero erases =>
    subst hp hl
    rw [Place.after_of_stays (by simp [State.moves, hpc])] at there
    simp [State.At, erases, Pc.user] at there
  | canceled a inRun hp hl hpc missing returns =>
    subst hp hl returns
    rw [Place.after_of_stays (by simp [State.moves, hpc])] at there
    simp [State.At, State.goto_pc, returned_user] at there
  | threw a inRun hp hl hpc returns =>
    subst hp hl returns
    rw [Place.after_of_stays rfl] at there
    simp [State.At, State.goto_pc, returned_user] at there

theorem step_halted {s next : State A τ} {l : Label A τ} {x : τ} {id : RepeatedTaskId}
    (orderly : s.Orderly) (counting : ∀ a, (s.pc a).Counting) (inv : s.Halted x id)
    (guard : Reserved x id s l) (h : step s l = some next) : next.Halted x id := by
  have follows : s.Follows next l x := by
    refine step_follows orderly h ?_
    rintro a k rfl
    exact guard
  -- whatever has the task after the step had it before
  have before : ∀ q, next.At x q → ∃ p r r', s.Has r p ∧ r.task = x ∧ next.Has r' q ∧
      r'.id = r.id ∧ (r' = r ∨ ∃ a inRun, s.pc a = .post inRun (.call r)) := by
    intro q hq
    obtain ⟨p, hp, rfl⟩ := follows q hq
    obtain ⟨r, has⟩ := inv.repeats p hp
    obtain rfl := has.at.unique hp
    obtain ⟨r', has', same, counted⟩ := step_repeats has h hq
    exact ⟨p, r, r', has, rfl, has', same, counted⟩
  refine ⟨fun q hq => ?_, ?_⟩
  · obtain ⟨p, r, r', -, -, has', -⟩ := before q hq
    exact ⟨r', has'⟩
  rcases inv.halted with spent | ⟨missing, named, away⟩
  · left
    rintro q r₁ has₁ rfl
    obtain ⟨p, r, r', has, task, has', -, rfl | ⟨a, inRun, hpc⟩⟩ := before q has₁.at
    · rw [has₁.unique has']
      exact spent p r' has task
    · have due : r.repeatNum ≠ 0 := by simpa [hpc, Pc.Counting] using counting a
      exact absurd (spent p r has task) due
  · right
    refine ⟨fun found => ?_, ?_, ?_⟩
    · rcases step_set_new h found with old | ⟨a, inRun, r, rfl, hpc, same, -⟩
      · exact missing old
      · exact (away a inRun r (guard inRun r hpc same)).2 hpc
    · rintro q r₁ has₁ rfl
      obtain ⟨p, r, r', has, task, has', same, -⟩ := before q has₁.at
      rw [has₁.unique has', same]
      exact named p r has task
    · rintro a inRun r rfl
      refine ⟨fun calls => ?_, fun inserts => ?_⟩
      · rcases step_calls h calls with same | ⟨finds, found⟩
        · exact (away a inRun r rfl).1 same
        · have has : s.Has r (.thread a) := by simp [State.Has, finds, Pc.repetition]
          exact missing (named _ r has rfl ▸ found)
      · rcases step_inserts h inserts with same | ⟨delta, repeatNum, takes⟩
        · exact (away a inRun r rfl).2 same
        · obtain ⟨r', has'⟩ := inv.repeats (.thread a) (by simp [State.At, takes, Pc.user])
          simp [State.Has, takes, Pc.repetition] at has'

omit [DecidableEq τ] in
private theorem erase_halted {s : State A τ} {a : A} {inRun : Bool} {p : Place A τ}
    {r : Repeated τ} (has : s.Has r p) (sole : ∀ q, s.At r.task q → q = p)
    (hpc : s.pc a = .post inRun (.erase r.id)) (caught : ¬ s.Evades r.task) :
    State.Halted ({ s with repeatedSet := s.repeatedSet.erase r.id }.goto a (returned inRun))
      r.task r.id := by
  have old : ∀ q, State.At ({ s with repeatedSet := s.repeatedSet.erase r.id }.goto a
      (returned inRun)) r.task q → s.At r.task q := fun q hq =>
    State.At.of_goto (s := { s with repeatedSet := s.repeatedSet.erase r.id }) hq
      (by simp [returned_user])
  have still : State.Has ({ s with repeatedSet := s.repeatedSet.erase r.id }.goto a
      (returned inRun)) r p := by
    cases p with
    | queued e => exact has
    | thread b =>
      have hba : b ≠ a := by
        rintro rfl
        simp [State.Has, hpc, Pc.repetition] at has
      simpa [State.Has, State.goto_pc, hba] using has
  have only : ∀ q r', State.Has ({ s with repeatedSet := s.repeatedSet.erase r.id }.goto a
      (returned inRun)) r' q → r'.task = r.task → q = p ∧ r' = r := by
    intro q r' has' task
    obtain rfl := sole q (old q (task ▸ has'.at))
    exact ⟨rfl, has'.unique still⟩
  refine ⟨fun q hq => ?_, ?_⟩
  · rw [sole q (old q hq)]
    exact ⟨r, still⟩
  by_cases spent : r.repeatNum = 0
  · left
    intro q r' has' task
    rw [(only q r' has' task).2, spent]
  · right
    refine ⟨Finset.notMem_erase r.id _, fun q r' has' task => by rw [(only q r' has' task).2], ?_⟩
    intro b inRun' r' task
    have there : ∀ pc, (Pc.post inRun' pc).repetition = some r' →
        (State.goto { s with repeatedSet := s.repeatedSet.erase r.id } a (returned inRun)).pc b =
          .post inRun' pc → r' = r ∧ s.pc b = .post inRun' pc := by
      intro pc repeats hb
      refine ⟨(only (.thread b) r' ?_ task).2, ?_⟩
      · show (_ : Option (Repeated τ)) = some r'
        rw [hb, repeats]
      · exact State.goto_pc_other (s := { s with repeatedSet := _ }) hb
          (returned_ne_post inRun inRun' pc).symm
    constructor
    · intro calls
      obtain ⟨rfl, before⟩ := there (.call r') rfl calls
      exact caught ⟨b, inRun', r', rfl, Or.inl before⟩
    · intro inserts
      obtain ⟨rfl, before⟩ := there (.insert r') rfl inserts
      exact caught ⟨b, inRun', r', rfl, Or.inr ⟨before, spent⟩⟩

private theorem insert_then_call {s : State A τ} {b : A} {inRun : Bool} {r : Repeated τ}
    (free : s.mtx = none) (hpc : s.pc b = .post inRun (.insert r)) (due : r.repeatNum ≠ 0) :
    ∃ t, run step s [.thread b, .thread b, .thread b] = some t ∧
      t.pc b = .post inRun (.call r) ∧
      Meets step (Reserved r.task r.id) s [.thread b, .thread b, .thread b] := by
  let registered := { s with repeatedSet := insert r.id s.repeatedSet }
  let reposting := registered.goto b (.post inRun (.repost r))
  let finding := reposting.goto b (.post inRun (.find r))
  let calling := finding.goto b (.post inRun (.call r))
  have inserts : step s (.thread b) = some reposting := by
    simp [step, hpc, postStep, State.inSet, free, reposting, registered]
  have reposts : step reposting (.thread b) = some finding := by
    simp [step, State.goto_pc, postStep, due, reposting, finding]
  have finds : step finding (.thread b) = some calling := by
    simp [step, State.goto, postStep, State.inSet, free, finding, reposting, registered, calling]
  refine ⟨calling, by simp [inserts, reposts, finds], by simp [State.goto_pc, calling], ?_⟩
  refine .cons ?_ inserts (.cons ?_ reposts (.cons ?_ finds trivial))
  · rintro inRun' r' same -
    obtain ⟨-, rfl⟩ : inRun = inRun' ∧ r = r' := by simpa [hpc] using same
    rfl
  · intro inRun' r' clash
    simp [State.goto_pc, reposting] at clash
  · intro inRun' r' clash
    simp [State.goto_pc, finding] at clash

private theorem call_starts {s : State A τ} {b : A} {inRun : Bool} {r : Repeated τ}
    (hpc : s.pc b = .post inRun (.call r)) :
    (∃ t, step s (.thread b) = some t) ∧ s.starts (.thread b) = some r.task ∧
      ∀ x id, Reserved x id s (.thread b) := by
  refine ⟨?_, by simp [State.starts, State.runs, hpc], fun x id inRun' r' clash => ?_⟩
  · simp only [step, hpc, postStep]
    exact ⟨_, rfl⟩
  · simp [hpc] at clash

private theorem evading_starts {s : State A τ} {b : A} {inRun : Bool} {r : Repeated τ}
    (free : s.mtx = none)
    (evades : s.pc b = .post inRun (.call r) ∨
      s.pc b = .post inRun (.insert r) ∧ r.repeatNum ≠ 0) :
    ∃ after t, run step s after = some t ∧ Meets step (Reserved r.task r.id) s after ∧
      ¬ Meets step (fun s l => s.starts l ≠ some r.task) s after := by
  rcases evades with calls | ⟨inserts, due⟩
  · obtain ⟨⟨t, ht⟩, starts, quiet⟩ := call_starts calls
    exact ⟨[.thread b], t, by simp [ht], .cons (quiet _ _) ht trivial,
      fun refused => refused.1 starts⟩
  · obtain ⟨t, ht, calls, meets⟩ := insert_then_call free inserts due
    obtain ⟨⟨u, hu⟩, starts, quiet⟩ := call_starts calls
    refine ⟨[.thread b, .thread b, .thread b] ++ [.thread b], u, ?_, ?_, fun refused => ?_⟩
    · rw [run_append, ht]
      simp [hu]
    · refine (meets_append step _ _ _ _).mpr ⟨meets, fun t' ht' => ?_⟩
      obtain rfl := Option.some.inj (ht.symm.trans ht')
      exact .cons (quiet _ _) hu trivial
    · exact (((meets_append step _ _ _ _).mp refused).2 t ht).1 starts

/-- No run of a task can start after its cancellation exactly when, as `CancelRepeatedTask` erases
the id, no thread has already found it and not yet called the task, or has taken the id and not yet
put it in `repeated_set_` for at least one run. -/
theorem cancel_effective_iff {before : List (Label A τ)} {s next : State A τ} {a : A}
    {inRun : Bool} {p : Place A τ} {r : Repeated τ}
    (hbefore : run step initial before = some s)
    (hcancel : s.pc a = .post inRun (.erase r.id)) (hhas : s.Has r p)
    (hsole : ∀ q, s.At r.task q → q = p) (hstep : step s (.thread a) = some next) :
    (∀ after t, run step next after = some t → Meets step (Reserved r.task r.id) next after →
        Meets step (fun s l => s.starts l ≠ some r.task) next after) ↔
      ¬ s.Evades r.task := by
  have orderly : s.Orderly := run_orderly hbefore
  have counting : ∀ b, (s.pc b).Counting := run_counting hbefore
  have stepped : s.mtx = none ∧
      next = { s with repeatedSet := s.repeatedSet.erase r.id }.goto a (returned inRun) := by
    simp only [step, hcancel, postStep] at hstep
    exact State.inSet_eq_some hstep
  obtain ⟨free, hnext⟩ := stepped
  constructor
  · rintro effective ⟨b, inRun', r', task, evades⟩
    have hba : b ≠ a := by
      rintro rfl
      simp [hcancel] at evades
    have has : s.Has r' (.thread b) := by
      rcases evades with calls | ⟨inserts, -⟩
      · simp [State.Has, calls, Pc.repetition]
      · simp [State.Has, inserts, Pc.repetition]
    obtain rfl := hsole _ (task ▸ has.at)
    obtain rfl := has.unique hhas
    have still : next.pc b = s.pc b := by
      rw [hnext]
      simp [State.goto_pc, hba]
    rw [← still] at evades
    have unlocked : next.mtx = none := by
      rw [hnext]
      exact free
    obtain ⟨after, t, hrun, reserved, starts⟩ := evading_starts unlocked evades
    exact starts (effective after t hrun reserved)
  · intro caught after t hrun meets
    have halted : next.Halted r.task r.id := by
      rw [hnext]
      exact erase_halted hhas hsole hcancel caught
    refine meets_of_invariant
      (I := fun s => s.Orderly ∧ (∀ b, (s.pc b).Counting) ∧ s.Halted r.task r.id) ?_ ?_
      ⟨step_orderly orderly hstep, step_counting counting hstep, halted⟩ meets hrun
    · rintro s l next ⟨orderly, counting, halted⟩ guard hstep
      exact ⟨step_orderly orderly hstep, step_counting counting hstep,
        step_halted orderly counting halted guard hstep⟩
    · rintro s l ⟨-, counting, halted⟩ - -
      exact halted.not_starts counting

/-- `PostRepeatedTask` for two runs, of which the caller does the first. -/
def repostOnce : List (Label Bool Nat) :=
  [.call true (.postRepeatedTask 7 5 2), .thread true, .thread true, .thread true, .thread true,
    .thread true, .clock true 0, .thread true, .thread true, .thread true, .thread true]

theorem cancel_effective_iff_queued :
    ∃ s next : State Bool Nat,
      run step initial (repostOnce ++ [.call true (.cancelRepeatedTask 0)]) = some s ∧
        step s (.thread true) = some next ∧ next.timerQueue ≠ [] ∧
        ∀ after t, run step next after = some t → Meets step (Reserved 7 0) next after →
          Meets step (fun s l => s.starts l ≠ some 7) next after := by
  obtain ⟨s, next, hs, hstep, queue, queued, erasing, idle⟩ : ∃ s next : State Bool Nat,
      run step initial (repostOnce ++ [.call true (.cancelRepeatedTask 0)]) = some s ∧
        step s (.thread true) = some next ∧ next.timerQueue = [⟨0, .forward ⟨7, 5, 0, 1⟩, 5000⟩] ∧
        s.timerQueue = [⟨0, .forward ⟨7, 5, 0, 1⟩, 5000⟩] ∧
        s.pc true = .post false (.erase 0) ∧ s.pc false = .idle :=
    ⟨_, _, rfl, rfl, rfl, rfl, rfl, rfl⟩
  have has : s.Has ⟨7, 5, 0, 1⟩ (.queued ⟨0, .forward ⟨7, 5, 0, 1⟩, 5000⟩) :=
    ⟨by simp [queued], rfl⟩
  have sole : ∀ q, s.At 7 q → q = .queued ⟨0, .forward ⟨7, 5, 0, 1⟩, 5000⟩ := by
    rintro (e | _ | _) hq
    · exact congrArg _ (List.mem_singleton.mp (queued ▸ hq.1))
    · simp [State.At, idle, Pc.user] at hq
    · simp [State.At, erasing, Pc.user] at hq
  refine ⟨s, next, hs, hstep, by simp [queue], ?_⟩
  refine (cancel_effective_iff hs erasing has sole hstep).mpr ?_
  rintro ⟨_ | _, inRun, r, -, clash⟩
  · simp [idle] at clash
  · simp [erasing] at clash

def findAgain : List (Label Bool Nat) :=
  repostOnce ++ [.outside (.enter false), .outside (.store true), .thread false, .thread false,
    .thread false, .top false ⟨0, .forward ⟨7, 5, 0, 1⟩, 5000⟩, .clock false 5000, .thread false,
    .thread false, .thread false, .thread false, .thread false]

theorem cancelledTask_starts :
    ∃ s next t : State Bool Nat,
      run step initial (findAgain ++ [.call true (.cancelRepeatedTask 0)]) = some s ∧
        s.pc true = .post false (.erase 0) ∧ step s (.thread true) = some next ∧
        next.pc true = .idle ∧ 0 ∉ next.repeatedSet ∧
        next.starts (.thread false) = some 7 ∧ step next (.thread false) = some t :=
  ⟨_, _, _, rfl, rfl, rfl, rfl, by decide, rfl, rfl⟩

end FlashLog.Scheduler.Timer
