import FlashLog.Scheduler.TimerQueue

/-!
Which tasks the timer still carries, in its queue or in the hands of a thread: only a call
brings a task into the timer, and only a task that the timer carries is run.
-/

set_option autoImplicit false
set_option relaxedAutoImplicit false

namespace FlashLog.Scheduler.Timer

variable {A τ : Type}

def Task.user : Task τ → τ
  | .posted task => task
  | .forward r => r.task

def Call.user : Call τ → Option τ
  | .postDelayedTask task _ | .postRepeatedTask task _ _ => some task
  | .cancelRepeatedTask _ => none

/-- The task that a thread is about to run or to post. The copies that `Run_` makes of the top
do not count: the entry is in the queue until it is popped. -/
def Pc.user : Pc τ → Option τ
  | .run (.unlock e) | .run (.call e) => some e.task.user
  | .post _ (.now task _) | .post _ (.lock task _) | .post _ (.push task _) => some task.user
  | .post _ (.nextId task _ _) => some task
  | .post _ (.insert r) | .post _ (.repost r) | .post _ (.find r) | .post _ (.call r) =>
    some r.task
  | _ => none

/-- The task may still be run by the timer, now or after any number of repetitions. -/
def State.Carries (s : State A τ) (x : τ) : Prop :=
  (∃ e ∈ s.timerQueue, e.task.user = x) ∨ ∃ a, (s.pc a).user = some x

def State.runs (s : State A τ) : Label A τ → Option τ
  | .thread a =>
    match s.pc a with
    | .run (.call e) =>
      match e.task with
      | .posted task => some task
      | .forward _ => none
    | .post _ (.call r) => some r.task
    | _ => none
  | _ => none

/-- Where a task can be: in an entry of the queue, or in the hands of a thread. -/
inductive Place (A τ : Type)
  | queued (e : InternalS τ)
  | thread (a : A)
  deriving DecidableEq

def State.At (s : State A τ) (x : τ) : Place A τ → Prop
  | .queued e => e ∈ s.timerQueue ∧ e.task.user = x
  | .thread a => (s.pc a).user = some x

theorem State.carries_iff {s : State A τ} {x : τ} : s.Carries x ↔ ∃ p, s.At x p := by
  constructor
  · rintro (⟨e, he⟩ | ⟨a, ha⟩)
    · exact ⟨.queued e, he⟩
    · exact ⟨.thread a, ha⟩
  · rintro ⟨p, hp⟩
    cases p with
    | queued e => exact Or.inl ⟨e, hp⟩
    | thread a => exact Or.inr ⟨a, hp⟩

theorem State.At.of_runs {s : State A τ} {l : Label A τ} {x : τ} (h : s.runs l = some x) :
    ∃ a, l = .thread a ∧ s.At x (.thread a) := by
  cases l with
  | thread a =>
    refine ⟨a, rfl, ?_⟩
    simp only [State.runs] at h
    split at h
    · rename_i e hpc
      split at h
      · rename_i task htask
        obtain rfl := Option.some.inj h
        simp [State.At, hpc, Pc.user, htask, Task.user]
      · cases h
    · rename_i r hpc
      obtain rfl := Option.some.inj h
      simp [State.At, hpc, Pc.user]
    · cases h
  | _ => cases h

theorem State.Carries.of_runs {s : State A τ} {l : Label A τ} {x : τ} (h : s.runs l = some x) :
    s.Carries x := by
  obtain ⟨a, -, ha⟩ := State.At.of_runs h
  exact State.carries_iff.mpr ⟨.thread a, ha⟩

/-- A step that pops or pushes an entry takes its task from one place to another. -/
def State.moves (s : State A τ) : Label A τ → Option (Place A τ × Place A τ)
  | .thread a =>
    match s.pc a with
    | .run (.pop e _) => some (.queued e, .thread a)
    | .post _ (.push task timePoint) => some (.thread a, .queued (s.entry task timePoint))
    | _ => none
  | _ => none

theorem Call.entry_user (k : Call τ) : (Pc.post false k.entry).user = k.user := by
  cases k <;> rfl

theorem returned_user (inRun : Bool) : (returned inRun : Pc τ).user = none := by
  cases inRun <;> rfl

theorem Pc.notified_user (pc : Pc τ) : pc.notified.user = pc.user := by
  cases pc with
  | run pc => cases pc <;> rfl
  | idle | post inRun pc => rfl

theorem State.At.of_notifyAll {s : State A τ} {x : τ} {q : Place A τ}
    (h : s.notifyAll.At x q) : s.At x q := by
  cases q with
  | queued e => exact h
  | thread a => exact (Pc.notified_user (s.pc a)).symm.trans h

variable [DecidableEq A]

theorem State.At.of_goto {s : State A τ} {a : A} {pc : Pc τ} {x : τ} {q : Place A τ}
    (h : (s.goto a pc).At x q) (new : pc.user = some x → (s.pc a).user = some x) : s.At x q := by
  cases q with
  | queued e => exact h
  | thread b =>
    have there : ((s.goto a pc).pc b).user = some x := h
    rw [State.goto_pc] at there
    split at there
    · rename_i hba
      rw [hba]
      exact new there
    · exact there

variable [DecidableEq τ]

def Place.after (s : State A τ) (l : Label A τ) (p : Place A τ) : Place A τ :=
  match s.moves l with
  | some (source, target) => if p = source then target else p
  | none => p

theorem Place.after_of_stays {s : State A τ} {l : Label A τ} (stays : s.moves l = none)
    (p : Place A τ) : p.after s l = p := by
  simp [Place.after, stays]

theorem Place.exists_after_iff {s : State A τ} {l : Label A τ} {source target : Place A τ}
    (moved : s.moves l = some (source, target)) (P : Place A τ → Prop) (q : Place A τ) :
    (∃ p, P p ∧ p.after s l = q) ↔ q ≠ source ∧ P q ∨ q = target ∧ P source := by
  constructor
  · rintro ⟨p, hp, rfl⟩
    by_cases moves : p = source
    · subst moves
      exact Or.inr ⟨by simp [Place.after, moved], hp⟩
    · have stays : p.after s l = p := by simp [Place.after, moved, moves]
      rw [stays]
      exact Or.inl ⟨moves, hp⟩
  · rintro (⟨other, hq⟩ | ⟨rfl, hsource⟩)
    · exact ⟨q, hq, by simp [Place.after, moved, other]⟩
    · exact ⟨source, hsource, by simp [Place.after, moved]⟩

/-- Every task in the timer after a step was in it before, and the step brought it there. -/
def State.Follows (s next : State A τ) (l : Label A τ) (x : τ) : Prop :=
  ∀ q, next.At x q → ∃ p, s.At x p ∧ p.after s l = q

theorem State.Follows.of_stays {s next : State A τ} {l : Label A τ} {x : τ}
    (stays : s.moves l = none) (h : ∀ q, next.At x q → s.At x q) : s.Follows next l x :=
  fun q hq => ⟨q, h q hq, Place.after_of_stays stays q⟩

private theorem pop_follows {s : State A τ} {a : A} {e : InternalS τ} {now : Int} {x : τ}
    {taken : List (Taken τ)} (inv : s.Orderly) (hpc : s.pc a = .run (.pop e now)) :
    s.Follows ({ s with timerQueue := s.timerQueue.erase e, taken := taken }.goto a
      (.run (.unlock e))) (.thread a) x := by
  intro q hq
  have moved : s.moves (.thread a) = some (.queued e, .thread a) := by simp [State.moves, hpc]
  rw [Place.exists_after_iff moved (s.At x)]
  cases q with
  | queued y =>
    obtain ⟨hy, named⟩ := hq
    obtain ⟨hne, queued⟩ := inv.queue_nodup.mem_erase_iff.mp hy
    exact Or.inl ⟨fun same => hne (Place.queued.inj same), queued, named⟩
  | thread b =>
    have hb : _ = some x := hq
    rw [State.goto_pc] at hb
    split at hb
    · rename_i hba
      exact Or.inr ⟨congrArg Place.thread hba, inv.pop_mem hpc, Option.some.inj hb⟩
    · exact Or.inl ⟨nofun, hb⟩

private theorem push_follows {s : State A τ} {a : A} {inRun : Bool} {task : Task τ}
    {timePoint : Int} {x : τ} {pushed : List (InternalS τ)}
    (hpc : s.pc a = .post inRun (.push task timePoint)) :
    s.Follows ({ s with
      timerQueue := s.timerQueue ++ [s.entry task timePoint], pushed := pushed }.goto a
        (.post inRun .notify)) (.thread a) x := by
  intro q hq
  have moved : s.moves (.thread a) = some (.thread a, .queued (s.entry task timePoint)) := by
    simp [State.moves, hpc]
  rw [Place.exists_after_iff moved (s.At x)]
  cases q with
  | queued y =>
    obtain ⟨hy, named⟩ := hq
    rcases List.mem_append.mp hy with old | new
    · exact Or.inl ⟨nofun, old, named⟩
    · obtain rfl := List.mem_singleton.mp new
      have named : task.user = x := named
      exact Or.inr ⟨rfl, by simp [State.At, hpc, Pc.user, named]⟩
  | thread b =>
    have hb : _ = some x := hq
    rw [State.goto_pc] at hb
    split at hb
    · cases hb
    · rename_i hba
      exact Or.inl ⟨fun same => hba (Place.thread.inj same), hb⟩

private theorem run_follows {s next : State A τ} {a : A} {pc : RunPc τ} {x : τ}
    (inv : s.Orderly) (hpc : s.pc a = .run pc) (h : RunStep s a pc next) :
    s.Follows next (.thread a) x := by
  cases h with
  | pop e now => exact pop_follows inv hpc
  | lock free | relock free =>
    refine .of_stays (by simp [State.moves, hpc]) fun q hq => ?_
    exact State.At.of_goto (s := { s with mtx := some a }) hq (by simp [Pc.user])
  | wait | waitFor e | endIteration | leave =>
    refine .of_stays (by simp [State.moves, hpc]) fun q hq => ?_
    exact State.At.of_goto (s := { s with mtx := none }) hq (by simp [Pc.user])
  | test wakes | fail sleeps =>
    exact .of_stays (by simp [State.moves, hpc]) fun q hq => hq.of_goto (by simp [Pc.user])
  | check =>
    refine .of_stays (by simp [State.moves, hpc]) fun q hq => hq.of_goto fun new => ?_
    cases hrun : s.isRunning <;> simp [hrun, Pc.user] at new
  | unlock e =>
    refine .of_stays (by simp [State.moves, hpc]) fun q hq => ?_
    exact State.At.of_goto (s := { s with mtx := none }) hq (by simp [hpc, Pc.user])
  | callPosted e task htask =>
    refine .of_stays (by simp [State.moves, hpc]) fun q hq => ?_
    exact State.At.of_goto (s := { s with ran := _ }) hq (by simp [Pc.user])
  | callForward e r htask =>
    refine .of_stays (by simp [State.moves, hpc]) fun q hq => ?_
    exact State.At.of_goto (s := { s with ran := _ }) hq
      (by simp [hpc, Pc.user, htask, Task.user])

private theorem post_follows {s next : State A τ} {a : A} {inRun : Bool} {pc : PostPc τ} {x : τ}
    (hpc : s.pc a = .post inRun pc) (h : PostStep s a inRun pc next) :
    s.Follows next (.thread a) x := by
  -- the new position has the task of the old one
  have same : ∀ {q : Pc τ}, q.user = (Pc.post inRun pc).user →
      q.user = some x → (s.pc a).user = some x := by
    intro q hq new
    rw [hpc, ← hq, new]
  have returns : (returned inRun : Pc τ).user = some x → (s.pc a).user = some x := by
    rw [returned_user]
    intro h
    cases h
  cases h with
  | push task timePoint => exact push_follows hpc
  | lock task timePoint free =>
    refine .of_stays (by simp [State.moves, hpc]) fun q hq => ?_
    exact State.At.of_goto (s := { s with mtx := some a }) hq (same rfl)
  | notify =>
    refine .of_stays (by simp [State.moves, hpc]) fun q hq => ?_
    exact (State.At.of_goto (s := s.notifyAll) hq (by simp [Pc.user])).of_notifyAll
  | unlock =>
    refine .of_stays (by simp [State.moves, hpc]) fun q hq => ?_
    exact State.At.of_goto (s := { s with mtx := none }) hq returns
  | nextId task delta repeatNum =>
    refine .of_stays (by simp [State.moves, hpc]) fun q hq => ?_
    exact State.At.of_goto (s := { s with repeatedTaskId := _ }) hq (same rfl)
  | insert r free =>
    refine .of_stays (by simp [State.moves, hpc]) fun q hq => ?_
    exact State.At.of_goto (s := { s with repeatedSet := _ }) hq (same rfl)
  | repost r more | find r free found | call r =>
    exact .of_stays (by simp [State.moves, hpc]) fun q hq => hq.of_goto (same rfl)
  | ended r zero =>
    exact .of_stays (by simp [State.moves, hpc]) fun q hq => hq.of_goto (by simp [Pc.user])
  | canceled r free missing =>
    exact .of_stays (by simp [State.moves, hpc]) fun q hq => hq.of_goto returns
  | erase id free =>
    refine .of_stays (by simp [State.moves, hpc]) fun q hq => ?_
    exact State.At.of_goto (s := { s with repeatedSet := _ }) hq returns

theorem step_follows {s next : State A τ} {l : Label A τ} {x : τ} (inv : s.Orderly)
    (h : step s l = some next) (notPosted : ∀ a k, l = .call a k → k.user ≠ some x) :
    s.Follows next l x := by
  cases step_cases h with
  | call a k hpc =>
    refine .of_stays rfl fun q hq => hq.of_goto fun new => ?_
    exact absurd ((Call.entry_user k).symm.trans new) (notPosted a k rfl)
  | store running => exact .of_stays rfl fun q hq => hq
  | notifyAll => exact .of_stays rfl fun q hq => hq.of_notifyAll
  | run a pc hpc h => exact run_follows inv hpc h
  | post a inRun pc hpc h => exact post_follows hpc h
  | throws a inRun r hpc =>
    refine .of_stays rfl fun q hq => hq.of_goto fun new => ?_
    rw [returned_user] at new
    cases new
  | date a inRun task delta now hpc =>
    refine .of_stays rfl fun q hq => hq.of_goto fun new => ?_
    rw [hpc, ← new]
    rfl
  | enter a hpc | top a e hpc top | early a e now hpc early | due a e now hpc due
  | spuriousWait a hpc | spuriousWaitFor a e hpc | timeout a e hpc =>
    exact .of_stays rfl fun q hq => hq.of_goto (by simp [Pc.user])

theorem step_carries {s next : State A τ} {l : Label A τ} {x : τ} (inv : s.Orderly)
    (h : step s l = some next) (carries : next.Carries x) :
    s.Carries x ∨ ∃ a k, l = .call a k ∧ k.user = some x := by
  by_cases posted : ∃ a k, l = .call a k ∧ k.user = some x
  · exact Or.inr posted
  · obtain ⟨q, hq⟩ := State.carries_iff.mp carries
    obtain ⟨p, hp, -⟩ :=
      step_follows inv h (fun a k hl brings => posted ⟨a, k, hl, brings⟩) q hq
    exact Or.inl (State.carries_iff.mpr ⟨p, hp⟩)

end FlashLog.Scheduler.Timer
