import FlashLog.Scheduler.RepeatedRuns

/-!
`repeated_set_` against the chains of repeated tasks. An id is alive in one place while its chain
goes on, in an entry of the queue or at a step of a thread; a run that throws drops the chain and
leaves the id behind.
-/

set_option autoImplicit false
set_option relaxedAutoImplicit false

namespace FlashLog.Scheduler.Timer

open FlashLog.Support.Machine (run Meets Passes run_passes_iff_meets)

variable {A τ : Type}

section Places

/-- The chain that a thread is at a step of, once it is registered. A thread in
`CancelRepeatedTask` is at the end of a chain if `PostRepeatedTask_` has sent it there. -/
def Pc.chain (ending : Bool) : Pc τ → Option RepeatedTaskId
  | .run (.unlock e) | .run (.call e) => e.task.repetition.map Repeated.id
  | .post _ (.now task _) | .post _ (.lock task _) | .post _ (.push task _) =>
    task.repetition.map Repeated.id
  | .post _ (.repost r) | .post _ (.find r) | .post _ (.call r) => some r.id
  | .post _ (.erase id) => if ending then some id else none
  | _ => none

def Pc.endsChain : Pc τ → Bool
  | .post _ (.repost r) => r.repeatNum = 0
  | _ => false

structure Tracked (A τ : Type) where
  timer : State A τ
  ending : A → Bool

def Tracked.initial : Tracked A τ := ⟨Timer.initial, fun _ => false⟩

def Tracked.chain (t : Tracked A τ) (a : A) : Option RepeatedTaskId :=
  (t.timer.pc a).chain (t.ending a)

/-- The id has a pending entry in the queue, or a thread is at a step of its chain. -/
def Tracked.Live (t : Tracked A τ) (id : RepeatedTaskId) : Place A τ → Prop
  | .queued e => e ∈ t.timer.timerQueue ∧ e.task.repetition.map Repeated.id = some id
  | .thread a => t.chain a = some id

/-- Every id in `repeated_set_` is alive in exactly one place. -/
def Tracked.OnlyLive (t : Tracked A τ) : Prop := ∀ id ∈ t.timer.repeatedSet, ∃! p, t.Live id p

theorem Pc.notified_chain (pc : Pc τ) (ending : Bool) :
    pc.notified.chain ending = pc.chain ending := by
  cases pc with
  | run pc => cases pc <;> rfl
  | idle | post inRun pc => rfl

theorem returned_chain (inRun ending : Bool) : (returned inRun : Pc τ).chain ending = none := by
  cases inRun <;> rfl

theorem Call.entry_chain (k : Call τ) : (Pc.post false k.entry).chain false = none := by
  cases k <;> rfl

end Places

variable [DecidableEq A] [DecidableEq τ]

def Tracked.after (t : Tracked A τ) (l : Label A τ) (next : State A τ) : Tracked A τ :=
  ⟨next, fun a => if l.actor = some a then (t.timer.pc a).endsChain else t.ending a⟩

def Tracked.step (t : Tracked A τ) (l : Label A τ) : Option (Tracked A τ) :=
  (Timer.step t.timer l).map (t.after l)

/-- A throw drops no registered chain, and no id is registered while a chain has it. -/
def Spares (t : Tracked A τ) : Label A τ → Prop
  | .throws a => ∀ inRun r, t.timer.pc a = .post inRun (.call r) → r.id ∉ t.timer.repeatedSet
  | .thread a => ∀ inRun r, t.timer.pc a = .post inRun (.insert r) → ∀ p, ¬ t.Live r.id p
  | _ => True

inductive Effect (t : Tracked A τ) (l : Label A τ) (next : Tracked A τ) : Prop
  /-- The places stay or move, and the set may lose an id. -/
  | moved : Spares t l → next.timer.repeatedSet ⊆ t.timer.repeatedSet →
      (∀ id q, next.Live id q ↔ ∃ p, t.Live id p ∧ p.after t.timer l = q) → Effect t l next
  | inserted (a : A) (inRun : Bool) (r : Repeated τ) : l = .thread a →
      t.timer.pc a = .post inRun (.insert r) →
      next.timer.repeatedSet = insert r.id t.timer.repeatedSet →
      (∀ id q, next.Live id q ↔ t.Live id q ∨ q = .thread a ∧ id = r.id) → Effect t l next
  /-- A chain ends without its id in the set. -/
  | left (a : A) (id : RepeatedTaskId) : Spares t l → t.Live id (.thread a) →
      next.timer.repeatedSet ⊆ t.timer.repeatedSet → id ∉ next.timer.repeatedSet →
      (∀ id' q, next.Live id' q ↔ t.Live id' q ∧ q ≠ .thread a) → Effect t l next
  | threw (a : A) (inRun : Bool) (r : Repeated τ) : l = .throws a →
      t.timer.pc a = .post inRun (.call r) →
      next.timer.repeatedSet = t.timer.repeatedSet →
      (∀ id q, next.Live id q ↔ t.Live id q ∧ q ≠ .thread a) → Effect t l next

omit [DecidableEq A] [DecidableEq τ] in
private theorem onlyLive_of_left {t next : Tracked A τ} {a : A} {id : RepeatedTaskId}
    (inv : t.OnlyLive) (here : t.Live id (.thread a))
    (set : next.timer.repeatedSet ⊆ t.timer.repeatedSet) (gone : id ∉ next.timer.repeatedSet)
    (live : ∀ id' q, next.Live id' q ↔ t.Live id' q ∧ q ≠ .thread a) : next.OnlyLive := by
  intro id' hid
  obtain ⟨p, hp, sole⟩ := inv id' (set hid)
  have other : p ≠ .thread a := by
    rintro rfl
    obtain rfl : id = id' := Option.some.inj (here.symm.trans hp)
    exact gone hid
  exact ⟨p, (live id' p).mpr ⟨hp, other⟩, fun q hq => sole q ((live id' q).mp hq).1⟩

omit [DecidableEq A] [DecidableEq τ] in
private theorem onlyLive_of_inserted {t next : Tracked A τ} {a : A} {id₀ : RepeatedTaskId}
    (inv : t.OnlyLive) (bare : t.chain a = none)
    (set : next.timer.repeatedSet = insert id₀ t.timer.repeatedSet)
    (live : ∀ id q, next.Live id q ↔ t.Live id q ∨ q = .thread a ∧ id = id₀) :
    next.OnlyLive ↔ ∀ p, ¬ t.Live id₀ p := by
  have registered : next.Live id₀ (.thread a) := (live id₀ _).mpr (Or.inr ⟨rfl, rfl⟩)
  constructor
  · intro good p hp
    have found : id₀ ∈ next.timer.repeatedSet := by
      rw [set]
      exact Finset.mem_insert_self _ _
    obtain rfl : p = .thread a :=
      (good id₀ found).unique ((live id₀ p).mpr (Or.inl hp)) registered
    exact absurd (bare.symm.trans hp) nofun
  · intro unused id hid
    rw [set] at hid
    by_cases named : id = id₀
    · subst named
      refine ⟨.thread a, registered, ?_⟩
      intro q hq
      rcases (live _ q).mp hq with before | ⟨here, -⟩
      · exact absurd before (unused q)
      · exact here
    · obtain ⟨p, hp, sole⟩ := inv id (Finset.mem_of_mem_insert_of_ne hid named)
      refine ⟨p, (live id p).mpr (Or.inl hp), ?_⟩
      intro q hq
      rcases (live id q).mp hq with before | ⟨-, same⟩
      · exact sole q before
      · exact absurd same named

theorem Effect.onlyLive_iff {t next : Tracked A τ} {l : Label A τ} (effect : Effect t l next)
    (inv : t.OnlyLive) : next.OnlyLive ↔ Spares t l := by
  cases effect with
  | moved spares set live =>
    refine iff_of_true ?_ spares
    intro id hid
    obtain ⟨p, hp, sole⟩ := inv id (set hid)
    refine ⟨p.after t.timer l, (live id _).mpr ⟨p, hp, rfl⟩, ?_⟩
    intro q hq
    obtain ⟨p', hp', rfl⟩ := (live id q).mp hq
    rw [sole p' hp']
  | inserted a inRun r hl hpc set live =>
    subst hl
    have bare : t.chain a = none := by simp [Tracked.chain, hpc, Pc.chain]
    rw [onlyLive_of_inserted inv bare set live]
    constructor
    · intro unused inRun' r' hpc'
      rw [hpc] at hpc'
      obtain rfl : r = r' := PostPc.insert.inj (Pc.post.inj hpc').2
      exact unused
    · exact fun spares => spares inRun r hpc
  | left a id spares here set gone live =>
    exact iff_of_true (onlyLive_of_left inv here set gone live) spares
  | threw a inRun r hl hpc set live =>
    subst hl
    have here : t.Live r.id (.thread a) := by
      simp [Tracked.Live, Tracked.chain, hpc, Pc.chain]
    constructor
    · intro good inRun' r' hpc' found
      rw [hpc] at hpc'
      obtain rfl : r = r' := PostPc.call.inj (Pc.post.inj hpc').2
      obtain ⟨q, hq, -⟩ := good r.id (set ▸ found)
      obtain ⟨before, other⟩ := (live r.id q).mp hq
      exact other ((inv r.id found).unique before here)
    · intro spares
      have gone : r.id ∉ next.timer.repeatedSet := set ▸ spares inRun r hpc
      exact onlyLive_of_left inv here set.subset gone live

section Steps

variable {t : Tracked A τ} {l : Label A τ} {next : State A τ}

omit [DecidableEq τ] in
theorem after_chain_own {a : A} (acts : l.actor = some a) :
    (t.after l next).chain a = (next.pc a).chain (t.timer.pc a).endsChain := by
  simp only [Tracked.chain, Tracked.after, if_pos acts]

theorem after_chain_other (h : Timer.step t.timer l = some next) {a : A}
    (other : l.actor ≠ some a) : (t.after l next).chain a = t.chain a := by
  simp only [Tracked.chain, Tracked.after, if_neg other]
  rcases step_pc_other h other with same | notified
  · rw [same]
  · rw [notified, Pc.notified_chain]

private theorem effect_stays (h : Timer.step t.timer l = some next) (spares : Spares t l)
    (stays : t.timer.moves l = none) (queue : next.timerQueue = t.timer.timerQueue)
    (set : next.repeatedSet ⊆ t.timer.repeatedSet)
    (own : ∀ a, l.actor = some a → (next.pc a).chain (t.timer.pc a).endsChain = t.chain a) :
    Effect t l (t.after l next) := by
  have same : ∀ id q, (t.after l next).Live id q ↔ t.Live id q := by
    intro id q
    cases q with
    | queued e =>
      show e ∈ next.timerQueue ∧ _ ↔ _
      rw [queue]
      exact Iff.rfl
    | thread b =>
      show (t.after l next).chain b = some id ↔ t.chain b = some id
      by_cases acts : l.actor = some b
      · rw [after_chain_own acts, own b acts]
      · rw [after_chain_other h acts]
  refine .moved spares set fun id q => ?_
  simp only [Place.after_of_stays stays, same, exists_eq_right]

private theorem live_of_left (h : Timer.step t.timer l = some next) {a : A}
    (acts : l.actor = some a) (queue : next.timerQueue = t.timer.timerQueue)
    (none_left : (next.pc a).chain (t.timer.pc a).endsChain = none) (id : RepeatedTaskId)
    (q : Place A τ) : (t.after l next).Live id q ↔ t.Live id q ∧ q ≠ .thread a := by
  cases q with
  | queued e =>
    show e ∈ next.timerQueue ∧ _ ↔ (e ∈ t.timer.timerQueue ∧ _) ∧ _
    rw [queue]
    exact ⟨fun there => ⟨there, nofun⟩, And.left⟩
  | thread b =>
    show (t.after l next).chain b = some id ↔ t.chain b = some id ∧ _
    by_cases hba : b = a
    · subst hba
      rw [after_chain_own acts, none_left]
      exact ⟨fun there => (by cases there), fun there => absurd rfl there.2⟩
    · rw [after_chain_other h fun acts' => hba (Option.some.inj (acts'.symm.trans acts))]
      exact ⟨fun there => ⟨there, fun same => hba (Place.thread.inj same)⟩, And.left⟩

private theorem live_of_entered (h : Timer.step t.timer l = some next) {a : A}
    {id₀ : RepeatedTaskId} (acts : l.actor = some a)
    (queue : next.timerQueue = t.timer.timerQueue) (bare : t.chain a = none)
    (entered : (next.pc a).chain (t.timer.pc a).endsChain = some id₀) (id : RepeatedTaskId)
    (q : Place A τ) :
    (t.after l next).Live id q ↔ t.Live id q ∨ q = .thread a ∧ id = id₀ := by
  cases q with
  | queued e =>
    show e ∈ next.timerQueue ∧ _ ↔ (e ∈ t.timer.timerQueue ∧ _) ∨ _
    rw [queue]
    exact ⟨Or.inl, fun there => there.resolve_right fun here => nomatch here.1⟩
  | thread b =>
    show (t.after l next).chain b = some id ↔ t.chain b = some id ∨ _
    by_cases hba : b = a
    · subst hba
      rw [after_chain_own acts, entered, bare]
      exact ⟨fun same => Or.inr ⟨rfl, (Option.some.inj same).symm⟩,
        fun there => there.elim nofun fun here => congrArg some here.2.symm⟩
    · rw [after_chain_other h fun acts' => hba (Option.some.inj (acts'.symm.trans acts))]
      exact ⟨Or.inl, fun there => there.resolve_right fun here => hba (Place.thread.inj here.1)⟩

private theorem pop_effect {a : A} {e : InternalS τ} {now : Int} (orderly : t.timer.Orderly)
    (spares : Spares t (.thread a)) (hpc : t.timer.pc a = .run (.pop e now))
    (h : Timer.step t.timer (.thread a) = some next)
    (queue : next.timerQueue = t.timer.timerQueue.erase e)
    (set : next.repeatedSet = t.timer.repeatedSet) (own : next.pc a = .run (.unlock e)) :
    Effect t (.thread a) (t.after (.thread a) next) := by
  have moved : t.timer.moves (.thread a) = some (.queued e, .thread a) := by
    simp [State.moves, hpc]
  have bare : t.chain a = none := by simp [Tracked.chain, hpc, Pc.chain]
  have entered : (t.after (.thread a) next).chain a = e.task.repetition.map Repeated.id := by
    rw [after_chain_own rfl, own, Pc.chain]
  refine .moved spares set.subset fun id r => ?_
  rw [Place.exists_after_iff moved (t.Live id)]
  cases r with
  | queued y =>
    have here : (t.after (.thread a) next).Live id (.queued y) ↔
        (y ≠ e ∧ y ∈ t.timer.timerQueue) ∧ y.task.repetition.map Repeated.id = some id := by
      rw [← orderly.queue_nodup.mem_erase_iff, ← queue]
      exact Iff.rfl
    rw [here]
    simp [Tracked.Live, and_assoc]
  | thread b =>
    show (t.after (.thread a) next).chain b = some id ↔ _ ∧ t.chain b = some id ∨ _
    by_cases hba : b = a
    · subst hba
      rw [entered, bare]
      simp [Tracked.Live, orderly.pop_mem hpc]
    · rw [after_chain_other h fun same => hba (Option.some.inj same).symm]
      simp [hba]

private theorem push_effect {a : A} {inRun : Bool} {task : Task τ} {timePoint : Int}
    (spares : Spares t (.thread a)) (hpc : t.timer.pc a = .post inRun (.push task timePoint))
    (h : Timer.step t.timer (.thread a) = some next)
    (queue : next.timerQueue = t.timer.timerQueue ++ [t.timer.entry task timePoint])
    (set : next.repeatedSet = t.timer.repeatedSet) (own : next.pc a = .post inRun .notify) :
    Effect t (.thread a) (t.after (.thread a) next) := by
  have moved : t.timer.moves (.thread a) =
      some (.thread a, .queued (t.timer.entry task timePoint)) := by
    simp [State.moves, hpc]
  have before : t.chain a = task.repetition.map Repeated.id := by
    simp [Tracked.chain, hpc, Pc.chain]
  refine .moved spares set.subset fun id r => ?_
  rw [Place.exists_after_iff moved (t.Live id)]
  cases r with
  | queued y =>
    have here : (t.after (.thread a) next).Live id (.queued y) ↔
        (y ∈ t.timer.timerQueue ∨ y = t.timer.entry task timePoint) ∧
          y.task.repetition.map Repeated.id = some id := by
      rw [← List.mem_singleton, ← List.mem_append, ← queue]
      exact Iff.rfl
    have there : t.Live id (.thread a) ↔ task.repetition.map Repeated.id = some id := by
      rw [← before]
      exact Iff.rfl
    rw [here, there, or_and_right]
    refine or_congr (by simp [Tracked.Live]) ?_
    rw [Place.queued.injEq]
    refine and_congr_right fun same => ?_
    rw [same]
    exact Iff.rfl
  | thread b =>
    show (t.after (.thread a) next).chain b = some id ↔ _ ∧ t.chain b = some id ∨ _
    by_cases hba : b = a
    · subst hba
      rw [after_chain_own rfl, own]
      simp [Pc.chain]
    · rw [after_chain_other h fun same => hba (Option.some.inj same).symm]
      simp [hba]

private theorem run_effect {a : A} {pc : RunPc τ} (orderly : t.timer.Orderly)
    (h : Timer.step t.timer (.thread a) = some next) (hpc : t.timer.pc a = .run pc)
    (hrun : RunStep t.timer a pc next) : Effect t (.thread a) (t.after (.thread a) next) := by
  have spares : Spares t (.thread a) := by
    intro inRun r hpc'
    rw [hpc] at hpc'
    cases hpc'
  have stays : (∀ e now, pc ≠ .pop e now) → t.timer.moves (.thread a) = none := by
    intro other
    cases pc with
    | pop e now => exact absurd rfl (other e now)
    | _ => simp [State.moves, hpc]
  cases hrun with
  | pop e now => exact pop_effect orderly spares hpc h rfl rfl (if_pos rfl)
  | check =>
    refine effect_stays h spares (stays (by simp)) rfl (Finset.Subset.refl _) ?_
    intro b acts
    obtain rfl := Option.some.inj acts
    cases t.timer.isRunning <;> simp [Tracked.chain, hpc, State.goto_pc, Pc.chain]
  | callPosted e task htask | callForward e r htask =>
    refine effect_stays h spares (stays (by simp)) rfl (Finset.Subset.refl _) ?_
    intro b acts
    obtain rfl := Option.some.inj acts
    simp [Tracked.chain, hpc, State.goto_pc, Pc.chain, htask, Task.repetition]
  | _ =>
    refine effect_stays h spares (stays (by simp)) rfl (Finset.Subset.refl _) ?_
    intro b acts
    obtain rfl := Option.some.inj acts
    simp [Tracked.chain, hpc, State.unlocked, State.goto_pc, Pc.chain]

private theorem post_effect {a : A} {inRun : Bool} {pc : PostPc τ}
    (h : Timer.step t.timer (.thread a) = some next) (hpc : t.timer.pc a = .post inRun pc)
    (hpost : PostStep t.timer a inRun pc next) :
    Effect t (.thread a) (t.after (.thread a) next) := by
  have spares : (∀ r, pc ≠ .insert r) → Spares t (.thread a) := by
    intro other inRun' r hpc'
    rw [hpc] at hpc'
    exact absurd (Pc.post.inj hpc').2 (other r)
  have stays : (∀ task timePoint, pc ≠ .push task timePoint) →
      t.timer.moves (.thread a) = none := by
    intro other
    cases pc with
    | push task timePoint => exact absurd rfl (other task timePoint)
    | _ => simp [State.moves, hpc]
  cases hpost with
  | push task timePoint => exact push_effect (spares (by simp)) hpc h rfl rfl (if_pos rfl)
  | insert r free =>
    refine .inserted a inRun r rfl hpc rfl ?_
    refine live_of_entered h rfl rfl ?_ ?_
    · simp [Tracked.chain, hpc, Pc.chain]
    · rw [State.goto_pc, if_pos rfl, Pc.chain]
  | canceled r free missing =>
    refine .left a r.id (spares (by simp)) ?_ (Finset.Subset.refl _) missing ?_
    · simp [Tracked.Live, Tracked.chain, hpc, Pc.chain]
    · refine live_of_left h rfl rfl ?_
      rw [State.goto_pc, if_pos rfl, returned_chain]
  | erase id free =>
    have gone : ∀ ending, ((({ t.timer with
        repeatedSet := t.timer.repeatedSet.erase id } : State A τ).goto a (returned inRun)).pc
          a).chain ending = none := by
      intro ending
      rw [State.goto_pc, if_pos rfl, returned_chain]
    cases hending : t.ending a with
    | true =>
      refine .left a id (spares (by simp)) ?_ (Finset.erase_subset _ _)
        (Finset.notMem_erase _ _) (live_of_left h rfl rfl (gone _))
      simp [Tracked.Live, Tracked.chain, hpc, Pc.chain, hending]
    | false =>
      refine effect_stays h (spares (by simp)) (stays (by simp)) rfl (Finset.erase_subset _ _) ?_
      intro b acts
      obtain rfl := Option.some.inj acts
      rw [gone]
      simp [Tracked.chain, hpc, Pc.chain, hending]
  | unlock =>
    refine effect_stays h (spares (by simp)) (stays (by simp)) rfl (Finset.Subset.refl _) ?_
    intro b acts
    obtain rfl := Option.some.inj acts
    have bare : t.chain a = none := by simp [Tracked.chain, hpc, Pc.chain]
    rw [bare, State.unlocked, State.goto_pc, if_pos rfl, returned_chain]
  | ended r zero =>
    refine effect_stays h (spares (by simp)) (stays (by simp)) rfl (Finset.Subset.refl _) ?_
    intro b acts
    obtain rfl := Option.some.inj acts
    simp [Tracked.chain, hpc, State.goto_pc, Pc.chain, Pc.endsChain, zero]
  | _ =>
    refine effect_stays h (spares (by simp)) (stays (by simp)) rfl (Finset.Subset.refl _) ?_
    intro b acts
    obtain rfl := Option.some.inj acts
    simp [Tracked.chain, hpc, State.goto_pc, Pc.chain, Task.repetition]

theorem step_effect (orderly : t.timer.Orderly) (h : Timer.step t.timer l = some next) :
    Effect t l (t.after l next) := by
  cases step_cases h with
  | run a pc hpc hrun => exact run_effect orderly h hpc hrun
  | post a inRun pc hpc hpost => exact post_effect h hpc hpost
  | throws a inRun r hpc =>
    refine .threw a inRun r rfl hpc rfl (live_of_left h rfl rfl ?_)
    rw [State.goto_pc, if_pos rfl, returned_chain]
  | store running | notifyAll =>
    exact effect_stays h trivial rfl rfl (Finset.Subset.refl _) (fun _ acts => by cases acts)
  | call a k hpc =>
    refine effect_stays h trivial rfl rfl (Finset.Subset.refl _) ?_
    intro b acts
    obtain rfl := Option.some.inj acts
    have bare : t.chain a = none := by simp [Tracked.chain, hpc, Pc.chain]
    have entry := Call.entry_chain k
    rw [bare, State.goto_pc, if_pos rfl, hpc]
    exact entry
  | enter a hpc | top a e hpc top | early a e now hpc early | due a e now hpc due
  | date a inRun task delta now hpc | spuriousWait a hpc | spuriousWaitFor a e hpc
  | timeout a e hpc =>
    refine effect_stays h trivial rfl rfl (Finset.Subset.refl _) ?_
    intro b acts
    obtain rfl := Option.some.inj acts
    simp [Tracked.chain, hpc, State.goto_pc, Pc.chain]

end Steps

/-- In a run of the timer every id in `repeated_set_` is alive in exactly one place at all times
if and only if no run of a task throws while its id is in the set, and no id is put there while a
chain still has it. -/
theorem repeatedSet_live_iff (as : List (Label A τ)) (t : Tracked A τ)
    (hrun : run Tracked.step Tracked.initial as = some t) :
    (Tracked.initial : Tracked A τ).OnlyLive ∧
      (Passes Tracked.step (fun _ _ next => next.OnlyLive) Tracked.initial as ↔
        Meets Tracked.step Spares Tracked.initial as) := by
  have start : (Tracked.initial : Tracked A τ).OnlyLive :=
    fun id hid => absurd hid (Finset.notMem_empty id)
  refine ⟨start, ?_⟩
  refine run_passes_iff_meets (I := fun t => t.OnlyLive ∧ t.timer.Orderly) ?_ ?_
    ⟨start, initial_orderly⟩ hrun
  · rintro t l next ⟨-, orderly⟩ hstep live
    obtain ⟨timer, htimer, rfl⟩ := Option.map_eq_some_iff.mp hstep
    exact ⟨live, step_orderly orderly htimer⟩
  · rintro t l next ⟨live, orderly⟩ hstep
    obtain ⟨timer, htimer, rfl⟩ := Option.map_eq_some_iff.mp hstep
    exact (step_effect orderly htimer).onlyLive_iff live

def registered : List (Label Bool Nat) :=
  [.call true (.postRepeatedTask 7 5 2), .thread true, .thread true]

theorem repeatedSet_live_iff_registered :
    ∃ t : Tracked Bool Nat, run Tracked.step Tracked.initial registered = some t ∧
      t.timer.repeatedSet = {0} ∧
      Passes Tracked.step (fun _ _ next => next.OnlyLive) Tracked.initial registered := by
  obtain ⟨t, ht, set⟩ : ∃ t : Tracked Bool Nat,
      run Tracked.step Tracked.initial registered = some t ∧ t.timer.repeatedSet = {0} :=
    ⟨_, rfl, rfl⟩
  refine ⟨t, ht, set, (repeatedSet_live_iff registered t ht).2.mpr ⟨trivial, ?_⟩⟩
  intro called hcalled
  obtain rfl := Option.some.inj hcalled
  refine ⟨?_, ?_⟩
  · intro inRun r hpc
    have clash : Pc.post false (.nextId 7 5 2) = .post inRun (.insert r) := hpc
    cases clash
  · intro named hnamed
    obtain rfl := Option.some.inj hnamed
    refine ⟨?_, fun _ _ => trivial⟩
    rintro inRun r - (e | _ | _) live
    · exact absurd live.1 List.not_mem_nil
    all_goals
      have clash : (none : Option RepeatedTaskId) = some r.id := live
      cases clash

/-- The first run throws in the caller's hands. -/
def callerThrows : List (Label Bool Nat) :=
  registered ++ [.thread true, .thread true, .throws true]

/-- The first run is done and posted; the second one throws on the timer's thread. -/
def timerThrows : List (Label Bool Nat) :=
  registered ++ [.thread true, .thread true, .thread true, .clock true 0, .thread true,
    .thread true, .thread true, .thread true, .outside (.enter false), .outside (.store true),
    .thread false, .thread false, .thread false,
    .top false ⟨0, .forward ⟨7, 5, 0, 1⟩, 5000⟩, .clock false 5000, .thread false, .thread false,
    .thread false, .thread false, .thread false, .throws false]

/-- Behind either throw the id is in the set with nothing pending or in progress. -/
theorem throws_leave_id :
    (∃ t : Tracked Bool Nat, run Tracked.step Tracked.initial callerThrows = some t ∧
      0 ∈ t.timer.repeatedSet ∧ (∀ p, ¬ t.Live 0 p) ∧ ¬ t.OnlyLive) ∧
    ∃ t : Tracked Bool Nat, run Tracked.step Tracked.initial timerThrows = some t ∧
      0 ∈ t.timer.repeatedSet ∧ (∀ p, ¬ t.Live 0 p) ∧ ¬ t.OnlyLive := by
  have left_behind : ∀ t : Tracked Bool Nat, t.timer.timerQueue = [] → t.chain true = none →
      t.chain false = none → t.timer.repeatedSet = {0} →
      0 ∈ t.timer.repeatedSet ∧ (∀ p, ¬ t.Live 0 p) ∧ ¬ t.OnlyLive := by
    intro t empty caller timer set
    have here : 0 ∈ t.timer.repeatedSet := by
      rw [set]
      exact Finset.mem_singleton_self 0
    have nowhere : ∀ p, ¬ t.Live 0 p := by
      rintro (e | _ | _) live
      · rw [Tracked.Live, empty] at live
        cases live.1
      · exact absurd (timer.symm.trans live) nofun
      · exact absurd (caller.symm.trans live) nofun
    refine ⟨here, nowhere, fun good => ?_⟩
    obtain ⟨p, hp, -⟩ := good 0 here
    exact nowhere p hp
  constructor
  · obtain ⟨t, ht, empty, caller, timer, set⟩ : ∃ t : Tracked Bool Nat,
        run Tracked.step Tracked.initial callerThrows = some t ∧ t.timer.timerQueue = [] ∧
          t.chain true = none ∧ t.chain false = none ∧ t.timer.repeatedSet = {0} :=
      ⟨_, rfl, rfl, rfl, rfl, rfl⟩
    exact ⟨t, ht, left_behind t empty caller timer set⟩
  · obtain ⟨t, ht, empty, caller, timer, set⟩ : ∃ t : Tracked Bool Nat,
        run Tracked.step Tracked.initial timerThrows = some t ∧ t.timer.timerQueue = [] ∧
          t.chain true = none ∧ t.chain false = none ∧ t.timer.repeatedSet = {0} :=
      ⟨_, rfl, rfl, rfl, rfl, rfl⟩
    exact ⟨t, ht, left_behind t empty caller timer set⟩

end FlashLog.Scheduler.Timer
