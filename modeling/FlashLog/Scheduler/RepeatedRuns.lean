import FlashLog.Scheduler.TimerPositions

/-!
A repeated task is in one place at a time, in an entry of the queue or in the hands of a thread,
with the number of runs that remain. A task that is not cancelled and does not throw is run as
often as `PostRepeatedTask` was asked for, and its id is then taken out of `repeated_set_`.
-/

set_option autoImplicit false
set_option relaxedAutoImplicit false

namespace FlashLog.Scheduler.Timer

open FlashLog.Support.Machine (run Meets outputs run_preserves run_cons_some meets_append
  run_invariant_outputs)

variable {A τ : Type}

section Places

def Task.repetition : Task τ → Option (Repeated τ)
  | .posted _ => none
  | .forward r => some r

def Pc.repetition : Pc τ → Option (Repeated τ)
  | .run (.unlock e) | .run (.call e) => e.task.repetition
  | .post _ (.now task _) | .post _ (.lock task _) | .post _ (.push task _) => task.repetition
  | .post _ (.insert r) | .post _ (.repost r) | .post _ (.find r) | .post _ (.call r) => some r
  | _ => none

/-- A repeated task is pending in an entry, or a thread is at a step of its chain. -/
def State.Has (s : State A τ) (r : Repeated τ) : Place A τ → Prop
  | .queued e => e ∈ s.timerQueue ∧ e.task = .forward r
  | .thread a => (s.pc a).repetition = some r

/-- Something for the id is pending or in progress. -/
def State.Busy (s : State A τ) (id : RepeatedTaskId) : Prop :=
  (∃ p r, s.Has r p ∧ r.id = id) ∨ ∃ a inRun, s.pc a = .post inRun (.erase id)

theorem Task.repetition_eq_some {task : Task τ} {r : Repeated τ} :
    task.repetition = some r ↔ task = .forward r := by
  cases task <;> simp [Task.repetition]

theorem Pc.user_of_repetition {pc : Pc τ} {r : Repeated τ} (h : pc.repetition = some r) :
    pc.user = some r.task := by
  cases pc with
  | idle => cases h
  | run pc =>
    cases pc with
    | unlock e | call e => simp [Pc.user, Task.repetition_eq_some.mp h, Task.user]
    | _ => cases h
  | post inRun pc =>
    cases pc with
    | now task delta | lock task timePoint | push task timePoint =>
      simp [Pc.user, Task.repetition_eq_some.mp h, Task.user]
    | insert r' | repost r' | find r' | call r' =>
      obtain rfl := Option.some.inj h
      rfl
    | _ => cases h

theorem State.Has.at {s : State A τ} {p : Place A τ} {r : Repeated τ} (h : s.Has r p) :
    s.At r.task p := by
  cases p with
  | queued e => exact ⟨h.1, by rw [h.2]; rfl⟩
  | thread a => exact Pc.user_of_repetition h

theorem toNat_pred {n : UInt64} (due : n ≠ 0) : (n - 1).toNat + 1 = n.toNat := by
  have pos : n.toNat ≠ 0 := fun zero => due (UInt64.toNat_inj.mp zero)
  have small : n.toNat < 2 ^ 64 := n.toNat_lt
  rw [UInt64.toNat_sub]
  simp only [UInt64.reduceToNat]
  omega

/-- A run is still due where the id is looked up, and where the task is called. -/
def Pc.Counting : Pc τ → Prop
  | .post _ (.find r) | .post _ (.call r) => r.repeatNum ≠ 0
  | _ => True

end Places

variable [DecidableEq A] [DecidableEq τ]

theorem Place.after_thread {s : State A τ} {l : Label A τ} {a : A} (other : l.actor ≠ some a) :
    (Place.thread a).after s l = .thread a := by
  unfold Place.after
  split
  · rename_i source target moved
    refine if_neg fun same => other ?_
    cases l with
    | thread b =>
      simp only [State.moves] at moved
      split at moved
      · cases moved
        cases same
      · cases moved
        cases same
        rfl
      · cases moved
    | _ => cases moved
  · rfl

/-- What a step does with a repeated task that is at a place. -/
inductive Fate (s : State A τ) (l : Label A τ) (next : State A τ) (p : Place A τ)
    (r : Repeated τ) : Prop
  | kept : next.Has r (p.after s l) → (∀ a, p = .thread a → l = .thread a → s.runs l = none) →
      Fate s l next p r
  | ran (a : A) (inRun : Bool) : p = .thread a → l = .thread a →
      s.pc a = .post inRun (.call r) →
      next.Has { r with repeatNum := r.repeatNum - 1 } (.thread a) → Fate s l next p r
  | ended (a : A) (inRun : Bool) : p = .thread a → l = .thread a →
      s.pc a = .post inRun (.repost r) → r.repeatNum = 0 →
      next.pc a = .post inRun (.erase r.id) → Fate s l next p r
  | canceled (a : A) (inRun : Bool) : p = .thread a → l = .thread a →
      s.pc a = .post inRun (.find r) → r.id ∉ s.repeatedSet →
      next = s.goto a (returned inRun) → Fate s l next p r
  | threw (a : A) (inRun : Bool) : p = .thread a → l = .throws a →
      s.pc a = .post inRun (.call r) → next = s.goto a (returned inRun) → Fate s l next p r

omit [DecidableEq τ] in
theorem State.goto_has_self {s : State A τ} {a : A} {pc : Pc τ} {r : Repeated τ}
    (h : pc.repetition = some r) : (s.goto a pc).Has r (.thread a) := by
  simpa [State.Has, State.goto_pc] using h

private theorem run_fate {s next : State A τ} {a : A} {pc : RunPc τ} {r : Repeated τ}
    (hpc : s.pc a = .run pc) (has : (Pc.run pc).repetition = some r) (h : RunStep s a pc next) :
    Fate s (.thread a) next (.thread a) r := by
  have stays : s.moves (.thread a) = none := by
    cases pc with
    | pop e now => cases has
    | _ => simp [State.moves, hpc]
  cases h with
  | unlock e =>
    refine .kept ?_ (fun _ _ _ => by simp [State.runs, hpc])
    rw [Place.after_of_stays stays]
    exact State.goto_has_self has
  | callPosted e task htask => simp [Pc.repetition, htask, Task.repetition] at has
  | callForward e r' htask =>
    obtain rfl : r' = r := by simpa [Pc.repetition, htask, Task.repetition] using has
    refine .kept ?_ (fun _ _ _ => by simp [State.runs, hpc, htask])
    rw [Place.after_of_stays stays]
    exact State.goto_has_self rfl
  | _ => cases has

private theorem post_fate {s next : State A τ} {a : A} {inRun : Bool} {pc : PostPc τ}
    {r : Repeated τ} (hpc : s.pc a = .post inRun pc)
    (has : (Pc.post inRun pc).repetition = some r) (h : PostStep s a inRun pc next) :
    Fate s (.thread a) next (.thread a) r := by
  -- the thread goes on to a position with the same repeated task
  have goes : s.moves (.thread a) = none → s.runs (.thread a) = none →
      next.Has r (.thread a) → Fate s (.thread a) next (.thread a) r := by
    intro stays silent there
    refine .kept ?_ (fun _ _ _ => silent)
    rwa [Place.after_of_stays stays]
  cases h with
  | lock task timePoint free | insert r' free | repost r' more | find r' free found =>
    exact goes (by simp [State.moves, hpc]) (by simp [State.runs, hpc]) (State.goto_has_self has)
  | push task timePoint =>
    refine .kept ?_ (fun _ _ _ => by simp [State.runs, hpc])
    have moved : s.moves (.thread a) = some (.thread a, .queued (s.entry task timePoint)) := by
      simp [State.moves, hpc]
    simp only [Place.after, moved, if_true]
    exact ⟨List.mem_append_right _ List.mem_cons_self, Task.repetition_eq_some.mp has⟩
  | ended r' zero =>
    obtain rfl := Option.some.inj has
    exact .ended a inRun rfl rfl hpc zero (by simp [State.goto_pc])
  | canceled r' free missing =>
    obtain rfl := Option.some.inj has
    exact .canceled a inRun rfl rfl hpc missing rfl
  | call r' =>
    obtain rfl := Option.some.inj has
    exact .ran a inRun rfl rfl hpc (State.goto_has_self rfl)
  | _ => cases has

private theorem holder_fate {s next : State A τ} {l : Label A τ} {a : A} {r : Repeated τ}
    (has : (s.pc a).repetition = some r) (h : step s l = some next) (acts : l.actor = some a) :
    Fate s l next (.thread a) r := by
  cases step_cases h with
  | store running | notifyAll => cases acts
  | run b pc hpc h =>
    obtain rfl := Option.some.inj acts
    exact run_fate hpc (hpc ▸ has) h
  | post b inRun pc hpc h =>
    obtain rfl := Option.some.inj acts
    exact post_fate hpc (hpc ▸ has) h
  | date b inRun task delta now hpc =>
    obtain rfl := Option.some.inj acts
    rw [hpc] at has
    exact .kept (State.goto_has_self has) (fun _ _ hl => by cases hl)
  | throws b inRun r' hpc =>
    obtain rfl := Option.some.inj acts
    rw [hpc] at has
    obtain rfl := Option.some.inj has
    exact .threw b inRun rfl rfl hpc rfl
  | enter b hpc | call b k hpc | top b e hpc top | early b e now hpc early | due b e now hpc due
  | spuriousWait b hpc | spuriousWaitFor b e hpc | timeout b e hpc =>
    obtain rfl := Option.some.inj acts
    rw [hpc] at has
    cases has

private theorem queued_fate {s next : State A τ} {l : Label A τ} {e : InternalS τ}
    {r : Repeated τ} (has : s.Has r (.queued e)) (h : step s l = some next) :
    Fate s l next (.queued e) r := by
  refine .kept ?_ (fun _ hp _ => by cases hp)
  obtain ⟨queued, forward⟩ := has
  have still : s.moves l = none → next.timerQueue = s.timerQueue →
      next.Has r ((Place.queued e).after s l) := by
    intro stays same
    rw [Place.after_of_stays stays]
    exact ⟨same ▸ queued, forward⟩
  cases step_cases h with
  | run a pc hpc h =>
    cases h with
    | pop x now =>
      have moved : s.moves (.thread a) = some (.queued x, .thread a) := by
        simp [State.moves, hpc]
      by_cases hex : e = x
      · simp only [Place.after, moved, hex, if_true]
        refine State.goto_has_self ?_
        rw [← hex]
        exact Task.repetition_eq_some.mpr forward
      · simp only [Place.after, moved, Place.queued.injEq, hex, if_false]
        exact ⟨(List.mem_erase_of_ne hex).mpr queued, forward⟩
    | _ => exact still (by simp [State.moves, hpc]) rfl
  | post a inRun pc hpc h =>
    cases h with
    | push task timePoint =>
      have moved : s.moves (.thread a) = some (.thread a, .queued (s.entry task timePoint)) := by
        simp [State.moves, hpc]
      simp only [Place.after, moved, reduceCtorEq, if_false]
      exact ⟨List.mem_append_left _ queued, forward⟩
    | _ => exact still (by simp [State.moves, hpc]) rfl
  | _ => exact still rfl rfl

theorem step_fate {s next : State A τ} {l : Label A τ} {p : Place A τ} {r : Repeated τ}
    (has : s.Has r p) (h : step s l = some next) : Fate s l next p r := by
  cases p with
  | queued e => exact queued_fate has h
  | thread a =>
    by_cases acts : l.actor = some a
    · exact holder_fate has h acts
    · have there : (s.pc a).repetition = some r := has
      have same : next.pc a = s.pc a :=
        step_pc_kept h rfl (Pc.notified_eq (Pc.user_of_repetition there)) acts
      refine .kept ?_ ?_
      · rw [Place.after_thread acts]
        show (next.pc a).repetition = some r
        rw [same, there]
      · rintro b hb rfl
        obtain rfl := Place.thread.inj hb
        exact absurd rfl acts

theorem step_counting {s next : State A τ} {l : Label A τ} (inv : ∀ a, (s.pc a).Counting)
    (h : step s l = some next) (b : A) : (next.pc b).Counting := by
  cases hb : next.pc b with
  | idle | run pc => trivial
  | post inRun q =>
    rcases step_to_post h hb with
      same | ⟨inRun', pc, hpc, moved⟩ | ⟨k, rfl⟩ | ⟨r, rfl⟩ | ⟨task, timePoint, rfl⟩
    · exact same ▸ inv b
    · have before := inv b
      rw [hpc] at before
      rw [← hb]
      cases moved with
      | repost r more => simpa [State.goto_pc, Pc.Counting] using more
      | find r free found =>
        have more : r.repeatNum ≠ 0 := before
        simpa [State.goto_pc, Pc.Counting] using more
      | unlock | canceled r free missing | erase id free =>
        simp [State.unlocked, State.goto_pc, returned_ne_post] at hb
      | _ => simp [State.goto_pc, Pc.Counting]
    · cases k <;> trivial
    · trivial
    · trivial

theorem run_counting {s : State A τ} {ls : List (Label A τ)} (h : run step initial ls = some s) :
    ∀ a, (s.pc a).Counting :=
  run_preserves (fun s => ∀ a, (s.pc a).Counting) (fun _ _ _ inv hstep => step_counting inv hstep)
    (fun _ => trivial) h

section Set

/-- Only `CancelRepeatedTask` takes an id out of `repeated_set_`. -/
theorem step_set_kept {s next : State A τ} {l : Label A τ} (h : step s l = some next)
    {id : RepeatedTaskId} (found : id ∈ s.repeatedSet) :
    id ∈ next.repeatedSet ∨ ∃ a inRun, l = .thread a ∧ s.pc a = .post inRun (.erase id) := by
  cases step_cases h with
  | run a pc hpc h =>
    left
    cases h <;> exact found
  | post a inRun pc hpc h =>
    cases h with
    | insert r free => exact Or.inl (Finset.mem_insert_of_mem found)
    | erase i free =>
      by_cases same : id = i
      · exact Or.inr ⟨a, inRun, rfl, same ▸ hpc⟩
      · exact Or.inl (Finset.mem_erase_of_ne_of_mem same found)
    | _ => exact Or.inl found
  | _ => exact Or.inl found

theorem step_set_new {s next : State A τ} {l : Label A τ} (h : step s l = some next)
    {id : RepeatedTaskId} (found : id ∈ next.repeatedSet) :
    id ∈ s.repeatedSet ∨ ∃ a inRun r, l = .thread a ∧ s.pc a = .post inRun (.insert r) ∧
      r.id = id ∧ next.Has r (.thread a) := by
  cases step_cases h with
  | run a pc hpc h =>
    left
    cases h <;> exact found
  | post a inRun pc hpc h =>
    cases h with
    | insert r free =>
      rcases Finset.mem_insert.mp found with same | before
      · exact Or.inr ⟨a, inRun, r, rfl, hpc, same.symm, State.goto_has_self rfl⟩
      · exact Or.inl before
    | erase i free => exact Or.inl (Finset.mem_of_mem_erase found)
    | _ => exact Or.inl found
  | _ => exact Or.inl found

end Set

/-- No other call posts the task, no task under its id throws, and nobody cancels its id while
it is pending or in progress. -/
def Undisturbed (x : τ) (id : RepeatedTaskId) (s : State A τ) : Label A τ → Prop
  | .call _ k => k.user ≠ some x
  | .throws a => ∀ inRun r, s.pc a = .post inRun (.call r) → r.id ≠ id
  | .thread a => ∀ inRun i, s.pc a = .post inRun (.erase i) →
      ∀ p r, s.Has r p → r.task = x → r.id ≠ i
  | _ => True

theorem step_busy {s next : State A τ} {l : Label A τ} {x : τ} {id : RepeatedTaskId}
    (h : step s l = some next) (guard : Undisturbed x id s l) (busy : s.Busy id) :
    id ∈ next.repeatedSet → next.Busy id := by
  intro found
  rcases busy with ⟨p, r, has, rfl⟩ | ⟨a, inRun, hpc⟩
  · cases step_fate has h with
    | kept there _ => exact Or.inl ⟨_, r, there, rfl⟩
    | ran a inRun hp hl hpc there => exact Or.inl ⟨_, _, there, rfl⟩
    | ended a inRun hp hl hpc zero erases => exact Or.inr ⟨a, inRun, erases⟩
    | canceled a inRun hp hl hpc missing returns =>
      subst returns
      exact absurd found missing
    | threw a inRun hp hl hpc returns =>
      subst hl
      exact absurd rfl (guard inRun r hpc)
  · by_cases acts : l.actor = some a
    · rcases step_post h hpc acts with erases | ⟨task, delta, clash⟩ | ⟨r, clash⟩
      · cases erases with
        | erase i free => exact absurd found (Finset.notMem_erase id _)
      · cases clash
      · cases clash
    · exact Or.inr ⟨a, inRun, step_pc_kept h hpc rfl acts⟩

/-- How far the chain of a task is after some runs: it is at one place, which has the runs that
remain, or it has come to its end. -/
inductive State.Stage (s : State A τ) (x : τ) (id : RepeatedTaskId) (n : UInt64) (runs : Nat) :
    Prop
  | underway (p : Place A τ) (r : Repeated τ) : s.Has r p → r.task = x → r.id = id →
      (∀ q, s.At x q → q = p) → runs + r.repeatNum.toNat = n.toNat →
      (id ∈ s.repeatedSet ∨ ∃ a inRun, p = .thread a ∧ s.pc a = .post inRun (.insert r)) →
      s.Stage x id n runs
  | finished : (∀ q, ¬ s.At x q) → runs = n.toNat → (id ∈ s.repeatedSet → s.Busy id) →
      s.Stage x id n runs

private theorem finished_step {s next : State A τ} {l : Label A τ} {x : τ} {id : RepeatedTaskId}
    {n : UInt64} (follows : s.Follows next l x) (guard : Undisturbed x id s l)
    (h : step s l = some next) (gone : ∀ q, ¬ s.At x q) (busy : id ∈ s.repeatedSet → s.Busy id) :
    next.Stage x id n n.toNat := by
  refine .finished ?_ rfl ?_
  · intro q hq
    obtain ⟨p, hp, -⟩ := follows q hq
    exact gone p hp
  · intro found
    rcases step_set_new h found with before | ⟨a, inRun, r, -, -, same, has⟩
    · exact step_busy h guard (busy before) found
    · exact Or.inl ⟨_, r, has, same⟩

private theorem registered_step {s next : State A τ} {l : Label A τ} {x : τ} {p : Place A τ}
    {r : Repeated τ} (has : s.Has r p) (task : r.task = x) (guard : Undisturbed x r.id s l)
    (h : step s l = some next)
    (registered : r.id ∈ s.repeatedSet ∨
      ∃ a inRun, p = .thread a ∧ s.pc a = .post inRun (.insert r)) :
    r.id ∈ next.repeatedSet ∨
      ∃ a inRun, p.after s l = .thread a ∧ next.pc a = .post inRun (.insert r) := by
  rcases registered with found | ⟨a, inRun, rfl, hpc⟩
  · rcases step_set_kept h found with still | ⟨a, inRun, rfl, hpc⟩
    · exact Or.inl still
    · exact absurd rfl (guard inRun r.id hpc p r has task)
  · by_cases acts : l.actor = some a
    · left
      rcases step_post h hpc acts with inserts | ⟨task, delta, clash⟩ | ⟨r', clash⟩
      · cases inserts with
        | insert r free => exact Finset.mem_insert_self r.id _
      · cases clash
      · cases clash
    · exact Or.inr ⟨a, inRun, Place.after_thread acts, step_pc_kept h hpc rfl acts⟩

private theorem underway_step {s next : State A τ} {l : Label A τ} {x : τ} {n : UInt64}
    {runs : Nat} {p : Place A τ} {r : Repeated τ} (counting : ∀ a, (s.pc a).Counting)
    (follows : s.Follows next l x) (guard : Undisturbed x r.id s l) (h : step s l = some next)
    (has : s.Has r p) (task : r.task = x) (sole : ∀ q, s.At x q → q = p)
    (conserved : runs + r.repeatNum.toNat = n.toNat)
    (registered : r.id ∈ s.repeatedSet ∨
      ∃ a inRun, p = .thread a ∧ s.pc a = .post inRun (.insert r)) :
    next.Stage x r.id n (runs + (s.runs l).toList.count x) := by
  have followed : ∀ q, next.At x q → q = p.after s l := by
    intro q hq
    obtain ⟨p', hp', rfl⟩ := follows q hq
    rw [sole p' hp']
  have still := registered_step has task guard h registered
  cases step_fate has h with
  | kept there silent =>
    have quiet : (s.runs l).toList.count x = 0 := by
      refine List.count_eq_zero.mpr fun hx => ?_
      have hruns : s.runs l = some x := Option.mem_toList.mp hx
      obtain ⟨a, hl, ha⟩ := State.At.of_runs hruns
      rw [silent a (sole _ ha).symm hl] at hruns
      cases hruns
    rw [quiet]
    exact .underway (p.after s l) r there task rfl followed conserved still
  | ran a inRun hp hl hpc there =>
    subst hp hl task
    have stays : s.moves (.thread a) = none := by simp [State.moves, hpc]
    have once : (s.runs (.thread a)).toList.count r.task = 1 := by simp [State.runs, hpc]
    have due : r.repeatNum ≠ 0 := by simpa [hpc, Pc.Counting] using counting a
    rw [Place.after_of_stays stays] at followed
    rw [once]
    refine .underway (.thread a) _ there rfl rfl followed ?_ (Or.inl ?_)
    · have down := toNat_pred due
      simp only
      omega
    · rcases registered with found | ⟨b, inRun', hb, hpc'⟩
      · rcases step_set_kept h found with kept | ⟨b, inRun', hb, hpc'⟩
        · exact kept
        · obtain rfl := Label.thread.inj hb
          rw [hpc] at hpc'
          cases hpc'
      · obtain rfl := Place.thread.inj hb
        rw [hpc] at hpc'
        cases hpc'
  | ended a inRun hp hl hpc zero erases =>
    subst hp hl task
    have stays : s.moves (.thread a) = none := by simp [State.moves, hpc]
    have quiet : (s.runs (.thread a)).toList.count r.task = 0 := by simp [State.runs, hpc]
    rw [Place.after_of_stays stays] at followed
    rw [quiet]
    refine .finished ?_ ?_ (fun _ => Or.inr ⟨a, inRun, erases⟩)
    · intro q hq
      obtain rfl := followed q hq
      simp [State.At, erases, Pc.user] at hq
    · simpa [zero] using conserved
  | canceled a inRun hp hl hpc missing returns =>
    rcases registered with found | ⟨b, inRun', hb, hpc'⟩
    · exact absurd found missing
    · obtain rfl := Place.thread.inj (hp.symm.trans hb)
      rw [hpc] at hpc'
      cases hpc'
  | threw a inRun hp hl hpc returns =>
    subst hl
    exact absurd rfl (guard inRun r hpc)

theorem step_stage {s next : State A τ} {l : Label A τ} {x : τ} {id : RepeatedTaskId} {n : UInt64}
    {runs : Nat} (orderly : s.Orderly) (counting : ∀ a, (s.pc a).Counting)
    (stage : s.Stage x id n runs) (guard : Undisturbed x id s l) (h : step s l = some next) :
    next.Stage x id n (runs + (s.runs l).toList.count x) := by
  have follows : s.Follows next l x := by
    refine step_follows orderly h ?_
    rintro a k rfl
    exact guard
  cases stage with
  | underway p r has task named sole conserved registered =>
    subst named
    exact underway_step counting follows guard h has task sole conserved registered
  | finished gone done busy =>
    have quiet : (s.runs l).toList.count x = 0 := by
      refine List.count_eq_zero.mpr fun hx => ?_
      obtain ⟨a, -, ha⟩ := State.At.of_runs (Option.mem_toList.mp hx)
      exact gone _ ha
    rw [quiet, Nat.add_zero, done]
    exact finished_step follows guard h gone busy

private theorem nextId_stage {s next : State A τ} {a : A} {inRun : Bool} {x : τ} {delta : Int}
    {n : UInt64} (hpc : s.pc a = .post inRun (.nextId x delta n))
    (sole : ∀ p, s.At x p → p = .thread a) (follows : s.Follows next (.thread a) x)
    (h : step s (.thread a) = some next) : next.Stage x s.repeatedTaskId n 0 := by
  simp only [step, hpc, postStep] at h
  obtain rfl := Option.some.inj h
  have stays : s.moves (.thread a) = none := by simp [State.moves, hpc]
  refine .underway (.thread a) ⟨x, delta, s.repeatedTaskId, n⟩ (State.goto_has_self rfl) rfl rfl
    ?_ (Nat.zero_add _) (Or.inr ⟨a, inRun, rfl, by simp [State.goto_pc]⟩)
  intro q hq
  obtain ⟨p, hp, rfl⟩ := follows q hq
  rw [sole p hp, Place.after_of_stays stays]

/-- The runs of a task done so far, against the number asked for. -/
structure State.Accounted (s : State A τ) (x : τ) (id : RepeatedTaskId) (n : UInt64) (runs : Nat) :
    Prop where
  single : ∀ p q r r', s.Has r p → r.task = x → s.Has r' q → r'.task = x → p = q
  named : ∀ p r, s.Has r p → r.task = x → r.id = id
  conserved : ∀ p r, s.Has r p → r.task = x → runs + r.repeatNum.toNat = n.toNat
  atMost : runs ≤ n.toNat
  lasts : (∀ p r, s.Has r p → r.task ≠ x) → runs = n.toNat
  ends : ¬ s.Busy id → runs = n.toNat ∧ id ∉ s.repeatedSet

omit [DecidableEq A] [DecidableEq τ] in
theorem State.Has.unique {s : State A τ} {p : Place A τ} {r r' : Repeated τ} (h : s.Has r p)
    (h' : s.Has r' p) : r = r' := by
  cases p with
  | queued e => exact Task.forward.inj (h.2.symm.trans h'.2)
  | thread a =>
    have here : (s.pc a).repetition = some r := h
    exact Option.some.inj (here.symm.trans h')

omit [DecidableEq A] [DecidableEq τ] in
theorem State.Stage.accounted {s : State A τ} {x : τ} {id : RepeatedTaskId} {n : UInt64}
    {runs : Nat} (stage : s.Stage x id n runs) : s.Accounted x id n runs := by
  cases stage with
  | underway p r has task named sole conserved registered =>
    have same : ∀ q r', s.Has r' q → r'.task = x → q = p ∧ r' = r := by
      rintro q r' has' rfl
      obtain rfl := sole q has'.at
      exact ⟨rfl, has'.unique has⟩
    constructor
    · intro q q' r₁ r₂ has₁ task₁ has₂ task₂
      rw [(same q r₁ has₁ task₁).1, (same q' r₂ has₂ task₂).1]
    · intro q r' has' task'
      rw [(same q r' has' task').2, named]
    · intro q r' has' task'
      rw [(same q r' has' task').2, conserved]
    · exact Nat.le.intro conserved
    · intro gone
      exact absurd task (gone p r has)
    · intro idle
      exact absurd (Or.inl ⟨p, r, has, named⟩) idle
  | finished gone done busy =>
    have nowhere : ∀ q r', s.Has r' q → r'.task ≠ x := by
      rintro q r' has' rfl
      exact gone q has'.at
    constructor
    · intro q q' r₁ r₂ has₁ task₁
      exact absurd task₁ (nowhere q r₁ has₁)
    · intro q r' has' task'
      exact absurd task' (nowhere q r' has')
    · intro q r' has' task'
      exact absurd task' (nowhere q r' has')
    · exact done.le
    · exact fun _ => done
    · exact fun idle => ⟨done, fun found => idle (busy found)⟩

/-- A task that is posted once, is not cancelled and does not throw: from the step on in which
`PostRepeatedTask` takes its id it is at one place at most, the runs done and those that remain
there are the number asked for, it is never run more often, and when nothing for its id is pending
or in progress it has been run that often and its id is out of `repeated_set_`. -/
theorem repeatedTask_accounted {before after : List (Label A τ)} {s₀ s : State A τ} {a : A}
    {inRun : Bool} {x : τ} {delta : Int} {n : UInt64}
    (hbefore : run step initial before = some s₀)
    (hcall : s₀.pc a = .post inRun (.nextId x delta n))
    (hsole : ∀ p, s₀.At x p → p = .thread a)
    (hguard : Meets step (Undisturbed x s₀.repeatedTaskId) s₀ (.thread a :: after))
    (hafter : run step s₀ (.thread a :: after) = some s) :
    s.Accounted x s₀.repeatedTaskId n
      ((outputs step State.runs s₀ (.thread a :: after)).count x) := by
  have orderly : s₀.Orderly := run_orderly hbefore
  have counting : ∀ b, (s₀.pc b).Counting := run_counting hbefore
  obtain ⟨s₁, hstep, hrun⟩ := run_cons_some hafter
  have follows : s₀.Follows s₁ (.thread a) x :=
    step_follows orderly hstep (fun _ _ hl => by cases hl)
  have start : s₁.Stage x s₀.repeatedTaskId n (([] : List τ).count x) :=
    nextId_stage hcall hsole follows hstep
  have reached := run_invariant_outputs State.runs
    (I := fun s runs => s.Orderly ∧ (∀ b, (s.pc b).Counting) ∧
      s.Stage x s₀.repeatedTaskId n (runs.count x)) ?_
    ⟨step_orderly orderly hstep, step_counting counting hstep, start⟩ (hguard.2 s₁ hstep) hrun
  · have silent : s₀.runs (.thread a) = none := by simp [State.runs, hcall]
    have same : outputs step State.runs s₀ (.thread a :: after) =
        [] ++ outputs step State.runs s₁ after := by
      simp [outputs, silent, hstep]
    rw [same]
    exact reached.2.2.accounted
  · rintro s runs l next ⟨orderly, counting, stage⟩ guard hstep
    refine ⟨step_orderly orderly hstep, step_counting counting hstep, ?_⟩
    rw [List.count_append]
    exact step_stage orderly counting stage guard hstep

/-- A step of which `Undisturbed` asks nothing. -/
private def State.quiet (s : State A τ) : Label A τ → Bool
  | .call _ _ | .throws _ => false
  | .thread a =>
    match s.pc a with
    | .post _ (.erase _) => false
    | _ => true
  | _ => true

omit [DecidableEq A] [DecidableEq τ] in
private theorem undisturbed_of_quiet {s : State A τ} {l : Label A τ} (x : τ) (id : RepeatedTaskId)
    (h : s.quiet l = true) : Undisturbed x id s l := by
  cases l with
  | call a k | throws a => cases h
  | thread a =>
    intro inRun i hpc
    simp [State.quiet, hpc] at h
  | _ => trivial

def repeatTwice : List (Label Bool Nat) :=
  [.thread true, .thread true, .thread true, .thread true, .clock true 0, .thread true,
    .thread true, .thread true, .thread true, .outside (.enter false), .outside (.store true),
    .thread false, .thread false, .thread false,
    .top false ⟨0, .forward ⟨7, 5, 0, 1⟩, 5000⟩, .clock false 5000, .thread false, .thread false,
    .thread false, .thread false, .thread false, .thread false, .clock false 5000, .thread false,
    .thread false, .thread false, .thread false, .thread false, .thread false, .thread false,
    .top false ⟨1, .forward ⟨7, 5, 0, 0⟩, 10000⟩, .clock false 10000, .thread false,
    .thread false, .thread false, .thread false]

def twiceAsked : State Bool Nat := initial.goto true (.post false (.nextId 7 5 2))

theorem repeatedTask_accounted_twice :
    ∃ s : State Bool Nat,
      run step twiceAsked (.thread true :: (repeatTwice ++ [.thread false])) = some s ∧
        (outputs step State.runs twiceAsked
          (.thread true :: (repeatTwice ++ [.thread false]))).count 7 = 2 ∧
        twiceAsked.repeatedTaskId ∉ s.repeatedSet := by
  obtain ⟨mid, hmid, emptied, erasing, idle⟩ : ∃ mid : State Bool Nat,
      run step twiceAsked (.thread true :: repeatTwice) = some mid ∧ mid.timerQueue = [] ∧
        mid.pc false = .post true (.erase 0) ∧ mid.pc true = .idle := ⟨_, rfl, rfl, rfl, rfl⟩
  obtain ⟨s, hs, empty, locks, rests⟩ : ∃ s : State Bool Nat,
      run step twiceAsked (.thread true :: (repeatTwice ++ [.thread false])) = some s ∧
        s.timerQueue = [] ∧ s.pc false = .run .lock ∧ s.pc true = .idle :=
    ⟨_, rfl, rfl, rfl, rfl⟩
  have sole : ∀ p, twiceAsked.At 7 p → p = .thread true := by
    rintro (e | _ | _) hp
    · cases hp.1
    · cases hp
    · rfl
  have guard : Meets step (Undisturbed 7 twiceAsked.repeatedTaskId) twiceAsked
      (.thread true :: (repeatTwice ++ [.thread false])) := by
    have quiet : Meets step (fun s l => s.quiet l = true) twiceAsked
        (.thread true :: repeatTwice) := by decide
    refine (meets_append step _ _ (.thread true :: repeatTwice) [.thread false]).mpr
      ⟨quiet.imp fun s l => undisturbed_of_quiet 7 _, ?_⟩
    rintro t ht
    obtain rfl := Option.some.inj (hmid.symm.trans ht)
    refine ⟨?_, fun _ _ => trivial⟩
    -- the chain erases its id when nothing of it is left
    rintro inRun i hpc (e | _ | _) r has
    · have queued := has.1
      rw [emptied] at queued
      cases queued
    · simp [State.Has, erasing, Pc.repetition] at has
    · simp [State.Has, idle, Pc.repetition] at has
  have asked : run step initial [.call true (.postRepeatedTask 7 5 2)] = some twiceAsked := rfl
  have accounted := repeatedTask_accounted asked rfl sole guard hs
  refine ⟨s, hs, accounted.ends ?_⟩
  rintro (⟨e | _ | _, r, has, -⟩ | ⟨_ | _, inRun, hpc⟩)
  · have queued := has.1
    rw [empty] at queued
    cases queued
  · simp [State.Has, locks, Pc.repetition] at has
  · simp [State.Has, rests, Pc.repetition] at has
  · simp [locks] at hpc
  · simp [rests] at hpc

end FlashLog.Scheduler.Timer
