import Mathlib.Data.List.Range
import FlashLog.Scheduler.Timer

/-!
The timer queue: no entry is lost or taken twice, the entry taken is the earliest of all, taken
no sooner than one microsecond before its time, and a thread that sleeps in `wait_for` does not
sleep past an earlier entry unless it is about to be notified.
-/

set_option autoImplicit false
set_option relaxedAutoImplicit false

namespace FlashLog.Scheduler.Timer

open FlashLog.Support
open FlashLog.Support.Machine (run run_preserves)
open FlashLog.Support.LeastFirst (Least)

variable {A τ : Type}

def Pc.phase : Pc τ → LeastFirst.Phase (InternalS τ)
  | .run .test | .run .wait | .run .check | .run .top | .run .endIteration | .run (.unlock _)
  | .run .leave | .post _ (.push _ _) | .post _ .unlock => .inside
  | .post _ .notify => .owing
  | .run (.now e) | .run (.waitFor e) | .run (.pop e _) => .aiming e
  | .run (.timed e) => .dozing e
  | _ => .away

/-- The timer as a bag whose earliest entry is taken first. -/
def State.bag (s : State A τ) : LeastFirst.State A (InternalS τ) where
  holder := s.mtx
  phase := fun a => (s.pc a).phase
  queue := s.timerQueue
  added := s.pushed
  taken := s.taken.map fun r => (r.entry, r.queued)

def State.NotifyPending (s : State A τ) : Prop := ∃ a inRun, s.pc a = .post inRun .notify

theorem Pc.phase_eq_owing {pc : Pc τ} : pc.phase = .owing ↔ ∃ inRun, pc = .post inRun .notify := by
  cases pc with
  | idle => simp [Pc.phase]
  | run pc => cases pc <;> simp [Pc.phase]
  | post inRun pc => cases pc <;> simp [Pc.phase]

theorem Pc.notified_phase (pc : Pc τ) : pc.notified.phase = pc.phase.notified := by
  cases pc with
  | idle => rfl
  | run pc => cases pc <;> rfl
  | post inRun pc => cases pc <;> rfl

theorem returned_phase (inRun : Bool) : (returned inRun : Pc τ).phase = .away := by
  cases inRun <;> rfl

theorem Call.entry_phase (k : Call τ) : (Pc.post false k.entry).phase = .away := by
  cases k <;> rfl

theorem toMicroseconds_pos {diff : Int} : 0 < toMicroseconds diff ↔ 1000 ≤ diff := by
  unfold toMicroseconds
  rcases Int.le_total 0 diff with nonneg | neg
  · rw [Int.tdiv_eq_ediv_of_nonneg nonneg]
    omega
  · have truncated : 0 ≤ (-diff).tdiv 1000 := Int.tdiv_nonneg (by omega) (by decide)
    rw [Int.neg_tdiv] at truncated
    omega

def State.BagMoves [DecidableEq A] (s next : State A τ) : Prop :=
  next.bag = s.bag ∨ LeastFirst.Moved InternalS.timePoint s.bag next.bag

section Moves

variable [DecidableEq A]

theorem State.goto_bag (s : State A τ) (a : A) (pc : Pc τ) :
    (s.goto a pc).bag = s.bag.goto a pc.phase := by
  unfold State.goto State.bag LeastFirst.State.goto
  congr
  ext b
  by_cases hba : b = a
  · simp [hba]
  · simp [hba]

theorem State.goto_bag_same {s : State A τ} {a : A} {pc : Pc τ}
    (same : (s.pc a).phase = pc.phase) : (s.goto a pc).bag = s.bag := by
  rw [State.goto_bag, ← same]
  unfold LeastFirst.State.goto
  rw [show (s.pc a).phase = s.bag.phase a from rfl, Function.update_eq_self]

omit [DecidableEq A] in
theorem State.notifyAll_bag (s : State A τ) : s.notifyAll.bag = s.bag.announce := by
  unfold State.notifyAll State.bag LeastFirst.State.announce
  simp only [Pc.notified_phase]

private theorem run_bag [DecidableEq τ] {s next : State A τ} {a : A} {pc : RunPc τ}
    (sound : s.bag.Sound InternalS.timePoint) (hpc : s.pc a = .run pc) (h : RunStep s a pc next) :
    s.BagMoves next := by
  have at_a : (s.pc a).phase = (Pc.run pc).phase := by rw [hpc]
  cases h with
  | lock free | relock free =>
    right
    rw [State.goto_bag]
    exact .acquire a at_a free
  | wait | endIteration | unlock e | leave =>
    right
    rw [State.unlocked, State.goto_bag]
    exact .release a at_a
  | test wakes | fail sleeps => exact Or.inl (State.goto_bag_same at_a)
  | check =>
    left
    apply State.goto_bag_same
    rw [at_a]
    cases s.isRunning <;> rfl
  | waitFor e =>
    right
    rw [State.unlocked, State.goto_bag]
    exact .doze a e at_a
  | pop e now =>
    have queued : e ∈ s.timerQueue := (sound.aimed a e at_a).1
    obtain ⟨before, after, -, split, erased⟩ := List.exists_erase_eq queued
    right
    have popped : { s with
          timerQueue := s.timerQueue.erase e
          taken := s.taken ++ [Taken.mk e now s.timerQueue] }.bag =
        { s.bag with
          queue := before ++ after, taken := s.bag.taken ++ [(e, s.bag.queue)] } := by
      simp [State.bag, erased]
    rw [State.goto_bag, popped]
    exact .take a e before after at_a split
  | callPosted e task htask | callForward e r htask =>
    exact Or.inl (State.goto_bag_same (s := { s with ran := s.ran ++ [e] }) at_a)

private theorem post_bag {s next : State A τ} {a : A} {inRun : Bool} {pc : PostPc τ}
    (hpc : s.pc a = .post inRun pc) (h : PostStep s a inRun pc next) : s.BagMoves next := by
  have at_a : (s.pc a).phase = (Pc.post inRun pc).phase := by rw [hpc]
  cases h with
  | lock task timePoint free =>
    right
    rw [State.goto_bag]
    exact .acquire a at_a free
  | push task timePoint =>
    right
    rw [State.goto_bag]
    exact .add a (s.entry task timePoint) at_a
  | notify =>
    right
    rw [State.goto_bag, State.notifyAll_bag]
    exact .announce a at_a
  | unlock =>
    right
    rw [State.unlocked, State.goto_bag, returned_phase]
    exact .release a at_a
  | nextId task delta repeatNum =>
    exact Or.inl (State.goto_bag_same (s := { s with repeatedTaskId := _ }) at_a)
  | insert r free =>
    exact Or.inl (State.goto_bag_same (s := { s with repeatedSet := _ }) at_a)
  | erase id free =>
    left
    apply State.goto_bag_same (s := { s with repeatedSet := s.repeatedSet.erase id })
    rw [returned_phase]
    exact at_a
  | canceled r free missing =>
    left
    apply State.goto_bag_same
    rw [returned_phase]
    exact at_a
  | repost r more | ended r zero | find r free found | call r =>
    exact Or.inl (State.goto_bag_same at_a)

/-- The timer refines the bag whose least element is taken first. -/
theorem step_bag [DecidableEq τ] {s next : State A τ} {l : Label A τ}
    (sound : s.bag.Sound InternalS.timePoint) (h : step s l = some next) : s.BagMoves next := by
  cases step_cases h with
  | enter a hpc => exact Or.inl (State.goto_bag_same (by rw [hpc]; rfl))
  | call a k hpc =>
    left
    apply State.goto_bag_same
    rw [hpc, Call.entry_phase]
    rfl
  | store running => exact Or.inl rfl
  | notifyAll =>
    right
    rw [State.notifyAll_bag]
    exact .notify
  | run a pc hpc h => exact run_bag sound hpc h
  | post a inRun pc hpc h => exact post_bag hpc h
  | top a e hpc top =>
    right
    rw [State.goto_bag]
    refine .aim a e (by simp [State.bag, hpc, Pc.phase]) ⟨top.1, fun x hx => ?_⟩
    exact Int.not_lt.mp (top.2 x hx)
  | early a e now hpc early | due a e now hpc due | date a inRun task delta now hpc =>
    exact Or.inl (State.goto_bag_same (by rw [hpc]; rfl))
  | throws a inRun r hpc =>
    left
    apply State.goto_bag_same
    rw [hpc, returned_phase]
    rfl
  | spuriousWait a hpc => exact Or.inl (State.goto_bag_same (by rw [hpc]; rfl))
  | spuriousWaitFor a e hpc | timeout a e hpc =>
    right
    rw [State.goto_bag]
    exact .wake a e (by simp [State.bag, hpc, Pc.phase])

end Moves

/-- What a step adds to the histories. -/
inductive Recorded (s next : State A τ) : Prop
  | same : next.pushed = s.pushed → next.taken = s.taken → next.ran = s.ran → Recorded s next
  | pushed (task : Task τ) (timePoint : Int) : next.pushed = s.pushed ++ [s.entry task timePoint] →
      next.taken = s.taken → next.ran = s.ran → Recorded s next
  | took (a : A) (e : InternalS τ) (now : Int) : s.pc a = .run (.pop e now) →
      next.pushed = s.pushed → next.taken = s.taken ++ [⟨e, now, s.timerQueue⟩] →
      next.ran = s.ran → Recorded s next
  | ran (a : A) (e : InternalS τ) : s.pc a = .run (.call e) → next.pushed = s.pushed →
      next.taken = s.taken → next.ran = s.ran ++ [e] → Recorded s next

def Pc.inHand : Pc τ → Option (InternalS τ)
  | .run (.unlock e) | .run (.call e) => some e
  | _ => none

theorem Pc.notified_eq_pop {pc : Pc τ} {e : InternalS τ} {now : Int}
    (h : pc.notified = .run (.pop e now)) : pc = .run (.pop e now) := by
  cases pc with
  | run pc => cases pc <;> simp_all [Pc.notified]
  | idle | post inRun pc => exact h

theorem Pc.notified_inHand (pc : Pc τ) : pc.notified.inHand = pc.inHand := by
  cases pc with
  | run pc => cases pc <;> rfl
  | idle | post inRun pc => rfl

theorem returned_inHand (inRun : Bool) : (returned inRun : Pc τ).inHand = none := by
  cases inRun <;> rfl

theorem returned_ne_pop (inRun : Bool) (e : InternalS τ) (now : Int) :
    .run (.pop e now) ≠ (returned inRun : Pc τ) := by
  cases inRun <;> simp [returned]

section Kept

variable [DecidableEq A]

theorem State.goto_pc (s : State A τ) (a b : A) (pc : Pc τ) :
    (s.goto a pc).pc b = if b = a then pc else s.pc b := by
  simp [State.goto, Function.update_apply]

theorem State.goto_pc_other {s : State A τ} {a b : A} {pc q : Pc τ}
    (h : (s.goto a pc).pc b = q) (other : q ≠ pc) : s.pc b = q := by
  rw [State.goto_pc] at h
  split at h
  · exact absurd h.symm other
  · exact h

theorem State.goto_inHand_other {s : State A τ} {a b : A} {pc : Pc τ} {e : InternalS τ}
    (h : ((s.goto a pc).pc b).inHand = some e) (none : pc.inHand = none) :
    (s.pc b).inHand = some e := by
  rw [State.goto_pc] at h
  split at h
  · rw [none] at h
    cases h
  · exact h

variable [DecidableEq τ]

theorem step_recorded {s next : State A τ} {l : Label A τ} (h : step s l = some next) :
    Recorded s next := by
  cases step_cases h with
  | run a pc hpc h =>
    cases h with
    | pop e now => exact .took a e now hpc rfl rfl rfl
    | callPosted e task htask | callForward e r htask => exact .ran a e hpc rfl rfl rfl
    | _ => exact .same rfl rfl rfl
  | post a inRun pc hpc h =>
    cases h with
    | push task timePoint => exact .pushed task timePoint rfl rfl rfl
    | _ => exact .same rfl rfl rfl
  | _ => exact .same rfl rfl rfl

theorem step_pops {s next : State A τ} {l : Label A τ} (h : step s l = some next) {b : A}
    {e : InternalS τ} {now : Int} (hb : next.pc b = .run (.pop e now)) :
    s.pc b = .run (.pop e now) ∨ toMicroseconds (e.timePoint - now) ≤ 0 := by
  cases step_cases h with
  | store running => exact Or.inl hb
  | notifyAll => exact Or.inl (Pc.notified_eq_pop hb)
  | due a x now' hpc due =>
    by_cases hba : b = a
    · have popped : Pc.run (.pop x now') = .run (.pop e now) := by
        simpa [State.goto_pc, hba] using hb
      simp only [Pc.run.injEq, RunPc.pop.injEq] at popped
      obtain ⟨rfl, rfl⟩ := popped
      exact Or.inr due
    · left
      simpa [State.goto_pc, hba] using hb
  | throws a inRun r hpc => exact Or.inl (State.goto_pc_other hb (returned_ne_pop inRun e now))
  | run a pc hpc h =>
    left
    cases h with
    | check =>
      refine State.goto_pc_other hb ?_
      cases s.isRunning <;> simp
    | _ => exact State.goto_pc_other hb (by simp)
  | post a inRun pc hpc h =>
    left
    cases h with
    | unlock | canceled r free missing | erase id free =>
      exact State.goto_pc_other hb (returned_ne_pop inRun e now)
    | notify => exact Pc.notified_eq_pop (State.goto_pc_other hb (by simp))
    | _ => exact State.goto_pc_other hb (by simp)
  | _ => exact Or.inl (State.goto_pc_other hb (by simp))

theorem step_inHand {s next : State A τ} {l : Label A τ} (h : step s l = some next) {b : A}
    {e : InternalS τ} (hb : (next.pc b).inHand = some e) :
    (s.pc b).inHand = some e ∨ ∃ r ∈ next.taken, r.entry = e := by
  cases step_cases h with
  | store running => exact Or.inl hb
  | notifyAll => exact Or.inl ((Pc.notified_inHand (s.pc b)).symm.trans hb)
  | throws a inRun r hpc => exact Or.inl (State.goto_inHand_other hb (returned_inHand inRun))
  | run a pc hpc h =>
    cases h with
    | pop x now =>
      by_cases hba : b = a
      · have got : some x = some e := by simpa [State.goto_pc, hba, Pc.inHand] using hb
        obtain rfl := Option.some.inj got
        exact Or.inr ⟨⟨x, now, s.timerQueue⟩, List.mem_append_right _ List.mem_cons_self, rfl⟩
      · left
        simpa [State.goto_pc, hba] using hb
    | unlock x =>
      left
      by_cases hba : b = a
      · subst hba
        simpa [State.unlocked, State.goto_pc, hpc, Pc.inHand] using hb
      · simpa [State.unlocked, State.goto_pc, hba] using hb
    | check =>
      refine Or.inl (State.goto_inHand_other hb ?_)
      cases s.isRunning <;> rfl
    | _ => exact Or.inl (State.goto_inHand_other hb rfl)
  | post a inRun pc hpc h =>
    left
    cases h with
    | unlock | canceled r free missing | erase id free =>
      exact State.goto_inHand_other hb (returned_inHand inRun)
    | notify =>
      have before : (s.pc b).notified.inHand = some e := State.goto_inHand_other hb rfl
      exact (Pc.notified_inHand (s.pc b)).symm.trans before
    | _ => exact State.goto_inHand_other hb rfl
  | call a k hpc =>
    refine Or.inl (State.goto_inHand_other hb ?_)
    cases k <;> rfl
  | _ => exact Or.inl (State.goto_inHand_other hb rfl)

end Kept

/-- Entries are taken in the order of the bag, after a reading of the clock later than one
microsecond before their time, and only entries that were taken are run. -/
structure State.Kept (s : State A τ) : Prop where
  tickets : s.pushed.map InternalS.ticket = List.range s.pushed.length
  read : ∀ a e now, s.pc a = .run (.pop e now) → e.timePoint - 1000 < now
  punctual : ∀ r ∈ s.taken, r.entry.timePoint - 1000 < r.clock
  inHand : ∀ a e, (s.pc a).inHand = some e → ∃ r ∈ s.taken, r.entry = e
  ran : ∀ e ∈ s.ran, ∃ r ∈ s.taken, r.entry = e

theorem initial_kept : (initial : State A τ).Kept := by
  refine ⟨rfl, ?_, ?_, ?_, ?_⟩
  · intro a e now h
    cases h
  · intro r hr
    cases hr
  · intro a e h
    cases h
  · intro e he
    cases he

theorem Recorded.taken_subset {s next : State A τ} (h : Recorded s next) :
    s.taken ⊆ next.taken := by
  cases h with
  | same _ taken _ | pushed _ _ _ taken _ | ran _ _ _ _ taken _ =>
    rw [taken]
    exact List.Subset.refl _
  | took a e now hpc _ taken _ =>
    rw [taken]
    exact List.subset_append_left _ _

variable [DecidableEq A] [DecidableEq τ]

theorem step_kept {s next : State A τ} {l : Label A τ} (inv : s.Kept)
    (h : step s l = some next) : next.Kept := by
  have recorded := step_recorded h
  have grown := recorded.taken_subset
  refine ⟨?_, ?_, ?_, ?_, ?_⟩
  · cases recorded with
    | same pushed _ _ | took _ _ _ _ pushed _ _ | ran _ _ _ pushed _ _ =>
      rw [pushed]
      exact inv.tickets
    | pushed task timePoint pushed _ _ =>
      rw [pushed, List.map_append, inv.tickets, List.length_append, List.length_singleton,
        List.range_succ]
      rfl
  · intro a e now hpc
    rcases step_pops h hpc with before | due
    · exact inv.read a e now before
    · by_contra early
      have wide : 1000 ≤ e.timePoint - now := by omega
      exact absurd (toMicroseconds_pos.mpr wide) (Int.not_lt.mpr due)
  · intro r hr
    cases recorded with
    | same _ taken _ | pushed _ _ _ taken _ | ran _ _ _ _ taken _ =>
      exact inv.punctual r (taken ▸ hr)
    | took a e now hpc _ taken _ =>
      rw [taken] at hr
      rcases List.mem_append.mp hr with old | new
      · exact inv.punctual r old
      · obtain rfl := List.mem_singleton.mp new
        exact inv.read a e now hpc
  · intro a e hand
    rcases step_inHand h hand with before | took
    · obtain ⟨r, hr, same⟩ := inv.inHand a e before
      exact ⟨r, grown hr, same⟩
    · exact took
  · intro e he
    have old : e ∈ s.ran → ∃ r ∈ next.taken, r.entry = e := by
      intro he
      obtain ⟨r, hr, same⟩ := inv.ran e he
      exact ⟨r, grown hr, same⟩
    cases recorded with
    | same _ _ ran | pushed _ _ _ _ ran | took _ _ _ _ _ _ ran => exact old (ran ▸ he)
    | ran a x hpc _ _ ran =>
      rw [ran] at he
      rcases List.mem_append.mp he with before | new
      · exact old before
      · obtain rfl := List.mem_singleton.mp new
        obtain ⟨r, hr, same⟩ := inv.inHand a e (by simp [hpc, Pc.inHand])
        exact ⟨r, grown hr, same⟩

structure State.Orderly (s : State A τ) : Prop where
  sound : s.bag.Sound InternalS.timePoint
  kept : s.Kept

omit [DecidableEq A] [DecidableEq τ] in
theorem initial_orderly : (initial : State A τ).Orderly :=
  ⟨LeastFirst.empty_sound InternalS.timePoint, initial_kept⟩

theorem step_orderly {s next : State A τ} {l : Label A τ} (inv : s.Orderly)
    (h : step s l = some next) : next.Orderly := by
  refine ⟨?_, step_kept inv.kept h⟩
  rcases step_bag inv.sound h with same | moved
  · rw [same]
    exact inv.sound
  · exact LeastFirst.moved_sound inv.sound moved

theorem run_orderly {s : State A τ} {ls : List (Label A τ)} (h : run step initial ls = some s) :
    s.Orderly :=
  run_preserves State.Orderly (fun _ _ _ inv hstep => step_orderly inv hstep) initial_orderly h

omit [DecidableEq A] [DecidableEq τ] in
theorem State.Kept.pushed_nodup {s : State A τ} (kept : s.Kept) : s.pushed.Nodup := by
  apply List.Nodup.of_map InternalS.ticket
  rw [kept.tickets]
  exact List.nodup_range

omit [DecidableEq A] [DecidableEq τ] in
theorem State.Orderly.conserved {s : State A τ} (inv : s.Orderly) :
    s.pushed.Perm (s.taken.map Taken.entry ++ s.timerQueue) := by
  simpa [State.bag, Function.comp_def] using inv.sound.conserved

omit [DecidableEq A] [DecidableEq τ] in
theorem State.Orderly.queue_nodup {s : State A τ} (inv : s.Orderly) : s.timerQueue.Nodup :=
  (inv.conserved.nodup_iff.mp inv.kept.pushed_nodup).of_append_right

omit [DecidableEq A] [DecidableEq τ] in
theorem State.Orderly.pop_mem {s : State A τ} (inv : s.Orderly) {a : A} {e : InternalS τ}
    {now : Int} (hpc : s.pc a = .run (.pop e now)) : e ∈ s.timerQueue :=
  (inv.sound.aimed a e (by simp [State.bag, hpc, Pc.phase])).1

/-- In every run the entries pushed are those taken, each once, and those queued; an entry is
taken, and run, after a reading of the clock later than one microsecond before its time, and is
then the earliest queued; and no entry is due before the one a thread sleeps for in `wait_for`
unless a notification is pending. -/
theorem timerQueue_correct (ls : List (Label A τ)) (s : State A τ)
    (hrun : run step initial ls = some s) :
    s.pushed.Nodup ∧ (s.taken.map Taken.entry).Nodup ∧
      s.pushed.Perm (s.taken.map Taken.entry ++ s.timerQueue) ∧
      (∀ e ∈ s.ran, ∃ r ∈ s.taken, r.entry = e) ∧
      (∀ r ∈ s.taken, r.entry.timePoint - 1000 < r.clock ∧ r.entry ∈ r.queued ∧
        ∀ x ∈ r.queued, r.entry.timePoint ≤ x.timePoint) ∧
      ∀ a e, s.pc a = .run (.timed e) → ¬ s.NotifyPending →
        ∀ x ∈ s.timerQueue, e.timePoint ≤ x.timePoint := by
  have orderly : s.Orderly := run_orderly hrun
  have conserved : s.pushed.Perm (s.taken.map Taken.entry ++ s.timerQueue) := orderly.conserved
  obtain ⟨sound, kept⟩ := orderly
  have nodup : s.pushed.Nodup := kept.pushed_nodup
  have taken : (s.taken.map Taken.entry).Nodup :=
    (List.nodup_append.mp (conserved.nodup_iff.mp nodup)).1
  refine ⟨nodup, taken, conserved, kept.ran, ?_, ?_⟩
  · intro r hr
    exact ⟨kept.punctual r hr, sound.least (r.entry, r.queued) (List.mem_map_of_mem hr)⟩
  · intro a e hpc quiet
    have dozing : s.bag.phase a = .dozing e := by simp [State.bag, hpc, Pc.phase]
    rcases sound.dozed a e dozing with ⟨b, owing⟩ | least
    · obtain ⟨inRun, hb⟩ := Pc.phase_eq_owing.mp owing
      exact absurd ⟨b, inRun, hb⟩ quiet
    · exact least

/-- A thread takes an entry that is due, then sleeps for the earlier of two later ones. -/
def takeThenSleep : List (Label Bool Nat) :=
  [.call true (.postDelayedTask 7 0), .clock true 0, .thread true, .thread true, .thread true,
    .thread true, .outside (.enter false), .outside (.store true), .thread false, .thread false,
    .thread false, .top false ⟨0, .posted 7, 0⟩, .clock false 0, .thread false, .thread false,
    .thread false, .call true (.postDelayedTask 8 9), .clock true 0, .thread true, .thread true,
    .thread true, .thread true, .call true (.postDelayedTask 9 5), .clock true 0, .thread true,
    .thread true, .thread true, .thread true, .thread false, .thread false, .thread false,
    .top false ⟨2, .posted 9, 5000⟩, .clock false 10, .thread false]

theorem timerQueue_correct_takeThenSleep :
    ∃ s : State Bool Nat, run step initial takeThenSleep = some s ∧
      s.ran = [⟨0, .posted 7, 0⟩] ∧ s.pc false = .run (.timed ⟨2, .posted 9, 5000⟩) ∧
      s.pushed.Perm (s.taken.map Taken.entry ++ s.timerQueue) ∧
      ∀ x ∈ s.timerQueue, 5000 ≤ x.timePoint := by
  obtain ⟨s, hs, ran, sleeps, idle⟩ : ∃ s : State Bool Nat,
      run step initial takeThenSleep = some s ∧ s.ran = [⟨0, .posted 7, 0⟩] ∧
        s.pc false = .run (.timed ⟨2, .posted 9, 5000⟩) ∧ s.pc true = .idle :=
    ⟨_, rfl, rfl, rfl, rfl⟩
  obtain ⟨-, -, conserved, -, -, least⟩ := timerQueue_correct takeThenSleep s hs
  refine ⟨s, hs, ran, sleeps, conserved, least false ⟨2, .posted 9, 5000⟩ sleeps ?_⟩
  rintro ⟨a, inRun, hpc⟩
  cases a with
  | true => simp [idle] at hpc
  | false => simp [sleeps] at hpc

end FlashLog.Scheduler.Timer
