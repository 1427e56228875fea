import FlashLog.Scheduler.TaskExecutor

/-!
The tags `NewTaskExecutor` hands out. The search for a free tag runs under `mtx_`, so the
registered tags stand still around it; the counter wraps past the largest tag and comes by
every tag within 2^64 rounds.
-/

set_option autoImplicit false
set_option relaxedAutoImplicit false

namespace FlashLog.TaskExecutor

open FlashLog.Support.Machine (run run_cons_some run_preserves outputs Reaches run_invariant_outputs
  meets_true)
open FlashLog.Scheduler
open FlashLog.Scheduler.ThreadPool (Pool initial)

/-- No calls yet; the executors in `dirc` were registered before. -/
def quiet {C τ : Type} (dirc : ExecutorTag → Option (Pool C τ)) : Scheduler C τ :=
  { mtx := none, executorDirc := dirc, pc := fun _ => .idle }

/-- `tag + k` is the first unused tag at or cyclically after `tag`. -/
def FirstFree {ε : Type} (dirc : ExecutorTag → Option ε) (tag : ExecutorTag) (k : Nat) : Prop :=
  dirc (tag + UInt64.ofNat k) = none ∧ ∀ j < k, dirc (tag + UInt64.ofNat j) ≠ none

theorem exists_firstFree {ε : Type} {dirc : ExecutorTag → Option ε} (free : ∃ e, dirc e = none)
    (tag : ExecutorTag) : ∃ k < 2 ^ 64, FirstFree dirc tag k := by
  obtain ⟨e, he⟩ := free
  have reached : dirc (tag + UInt64.ofNat (e - tag).toNat) = none := by
    rw [UInt64.ofNat_toNat, add_sub_cancel]
    exact he
  have some : ∃ k, dirc (tag + UInt64.ofNat k) = none := ⟨_, reached⟩
  classical
  refine ⟨Nat.find some, ?_, Nat.find_spec some, fun j hj => Nat.find_min some hj⟩
  exact Nat.lt_of_le_of_lt (Nat.find_min' some reached) (e - tag).toNat_lt

section Tags

variable {C τ : Type}

/-- The steps of `NewTaskExecutor` between locking and unlocking `mtx_`. -/
def Pc.Locked : Pc τ → Prop
  | .search _ _ | .start _ | .starting _ => True
  | .idle | .newTaskExecutor _ _ | .getExecutorByTag _ _ | .inPool _ => False

/-- `mtx_` belongs to the thread that is in `NewTaskExecutor`. -/
def Scheduler.Exclusive (s : Scheduler C τ) : Prop := ∀ c, (s.pc c).Locked ↔ s.mtx = some c

def SameTags (before after : ExecutorTag → Option (Pool C τ)) : Prop :=
  ∀ e, after e = none ↔ before e = none

/-- Every registered executor is still there under its tag, and has only run. -/
def Keeps [DecidableEq C] (before after : ExecutorTag → Option (Pool C τ)) : Prop :=
  ∀ e p, before e = some p → ∃ q, after e = some q ∧ Reaches ThreadPool.step p q

theorem SameTags.refl (dirc : ExecutorTag → Option (Pool C τ)) : SameTags dirc dirc :=
  fun _ => Iff.rfl

theorem SameTags.trans {first second third : ExecutorTag → Option (Pool C τ)}
    (h : SameTags first second) (h' : SameTags second third) : SameTags first third :=
  fun e => (h' e).trans (h e)

theorem SameTags.firstFree {before after : ExecutorTag → Option (Pool C τ)}
    (same : SameTags before after) {tag : ExecutorTag} {k : Nat} (h : FirstFree before tag k) :
    FirstFree after tag k :=
  ⟨(same _).mpr h.1, fun j hj taken => h.2 j hj ((same _).mp taken)⟩

variable [DecidableEq C]

theorem Keeps.refl (dirc : ExecutorTag → Option (Pool C τ)) : Keeps dirc dirc :=
  fun _ p hp => ⟨p, hp, .refl p⟩

theorem Keeps.trans {first second third : ExecutorTag → Option (Pool C τ)}
    (h : Keeps first second) (h' : Keeps second third) : Keeps first third := by
  intro e p hp
  obtain ⟨q, hq, reach⟩ := h e p hp
  obtain ⟨r, hr, reach'⟩ := h' e q hq
  exact ⟨r, hr, reach.trans reach'⟩

theorem Keeps.ne_none {before after : ExecutorTag → Option (Pool C τ)} (h : Keeps before after)
    {e : ExecutorTag} (registered : before e ≠ none) : after e ≠ none := by
  obtain ⟨p, hp⟩ := Option.ne_none_iff_exists'.mp registered
  obtain ⟨q, hq, -⟩ := h e p hp
  rw [hq]
  exact Option.some_ne_none q

theorem Directed.keeps {before after : ExecutorTag → Option (Pool C τ)}
    (h : Directed before after) : Keeps before after := by
  intro e p hp
  cases h with
  | same heq => exact ⟨p, heq ▸ hp, .refl p⟩
  | made tag threadCount free heq =>
    have other : e ≠ tag := by
      rintro rfl
      rw [free] at hp
      cases hp
    refine ⟨p, ?_, .refl p⟩
    rw [heq, Function.update_of_ne other]
    exact hp
  | ran tag p' next a hp' hstep heq =>
    by_cases at_tag : e = tag
    · subst at_tag
      obtain rfl := Option.some.inj (hp.symm.trans hp')
      exact ⟨next, by rw [heq, Function.update_self], .single hstep⟩
    · refine ⟨p, ?_, .refl p⟩
      rw [heq, Function.update_of_ne at_tag]
      exact hp

theorem step_keeps {s next : Scheduler C τ} {a : Label C τ} (h : step s a = some next) :
    Keeps s.executorDirc next.executorDirc :=
  (step_directed h).keeps

theorem run_keeps {s t : Scheduler C τ} {as : List (Label C τ)} (h : run step s as = some t) :
    Keeps s.executorDirc t.executorDirc :=
  run_preserves (fun u => Keeps s.executorDirc u.executorDirc)
    (fun _ _ _ kept hstep => kept.trans (step_keeps hstep)) (Keeps.refl s.executorDirc) h

theorem inExecutor_some {s : Scheduler C τ} {tag : ExecutorTag} {a : ThreadPool.Label C τ}
    {r : Pool C τ × Scheduler C τ} (h : inExecutor s tag a = some r) :
    s.executorDirc tag ≠ none ∧ r.2 = s.setExecutor tag r.1 := by
  obtain ⟨p, hp, hr⟩ := Option.bind_eq_some_iff.mp h
  obtain ⟨next, -, rfl⟩ := Option.map_eq_some_iff.mp hr
  exact ⟨by rw [hp]; exact Option.some_ne_none p, rfl⟩

omit [DecidableEq C] in
theorem sameTags_setExecutor {s : Scheduler C τ} {tag : ExecutorTag} (p : Pool C τ)
    (h : s.executorDirc tag ≠ none) :
    SameTags s.executorDirc (s.setExecutor tag p).executorDirc := by
  intro e
  show Function.update s.executorDirc tag (some p) e = none ↔ _
  rw [Function.update_apply]
  split
  · rename_i at_tag
    subst at_tag
    exact ⟨fun h => absurd h (Option.some_ne_none p), fun free => absurd free h⟩
  · exact Iff.rfl

def returned (s : Scheduler C τ) : Label C τ → Option (C × ExecutorTag)
  | .thread c =>
    match s.pc c with
    | .starting tag =>
      (s.executorDirc tag).bind fun p =>
        match p.owner with
        | .idle => some (c, tag)
        | _ => none
    | _ => none
  | _ => none

omit [DecidableEq C] in
theorem returned_some {s : Scheduler C τ} {a : Label C τ} {r : C × ExecutorTag}
    (h : returned s a = some r) : a = .thread r.1 ∧ s.pc r.1 = .starting r.2 := by
  cases a with
  | thread c =>
    simp only [returned] at h
    split at h
    · rename_i tag hpc
      obtain ⟨p, -, h⟩ := Option.bind_eq_some_iff.mp h
      split at h
      · obtain rfl := Option.some.inj h
        exact ⟨rfl, hpc⟩
      · cases h
    · cases h
  | newTaskExecutor c tag threadCount | post c tag k | worker tag i | spurious tag i => cases h

omit [DecidableEq C] in
theorem returned_none {s : Scheduler C τ} {c : C} (h : ∀ tag, s.pc c ≠ .starting tag) :
    returned s (.thread c) = none := by
  cases hr : returned s (.thread c) with
  | none => rfl
  | some r =>
    obtain ⟨ha, hpc⟩ := returned_some hr
    obtain rfl := Label.thread.inj ha
    exact absurd hpc (h r.2)

inductive Moved (s : Scheduler C τ) : Label C τ → Scheduler C τ → Prop
  | locks {c : C} {tag : ExecutorTag} {threadCount : Nat} :
      s.pc c = .newTaskExecutor tag threadCount → s.mtx = none →
      Moved s (.thread c) ({ s with mtx := some c }.goto c (.search tag threadCount))
  | skips {c : C} {tag : ExecutorTag} {threadCount : Nat} :
      s.pc c = .search tag threadCount → s.executorDirc tag ≠ none →
      Moved s (.thread c) (s.goto c (.search (getNextExecutorTag tag) threadCount))
  | makes {c : C} {tag : ExecutorTag} {threadCount : Nat} :
      s.pc c = .search tag threadCount → s.executorDirc tag = none →
      Moved s (.thread c) ((s.setExecutor tag (initial threadCount)).goto c (.start tag))
  | starts {c : C} {tag : ExecutorTag} {p : Pool C τ} :
      s.pc c = .start tag → s.executorDirc tag ≠ none →
      Moved s (.thread c) ((s.setExecutor tag p).goto c (.starting tag))
  | starting {c : C} {tag : ExecutorTag} {p : Pool C τ} :
      s.pc c = .starting tag → s.executorDirc tag ≠ none → returned s (.thread c) = none →
      Moved s (.thread c) (s.setExecutor tag p)
  | returns {c : C} {tag : ExecutorTag} :
      s.pc c = .starting tag → returned s (.thread c) = some (c, tag) →
      Moved s (.thread c) ({ s with mtx := none }.goto c .idle)
  /-- A step of a thread that is not in `NewTaskExecutor`. -/
  | outside {a : Label C τ} {c : C} {pc : Pc τ} {next : Scheduler C τ} :
      (∀ d, a = .thread d → d = c) → ¬ (s.pc c).Locked → ¬ pc.Locked →
      next.mtx = s.mtx → next.pc = Function.update s.pc c pc →
      SameTags s.executorDirc next.executorDirc → Moved s a next
  | pool {a : Label C τ} {next : Scheduler C τ} :
      (∀ d, a ≠ .thread d) → next.mtx = s.mtx → next.pc = s.pc →
      SameTags s.executorDirc next.executorDirc → Moved s a next

omit [DecidableEq C] in
theorem not_locked_afterCall (p : Pool C τ) (c : C) (tag : ExecutorTag) :
    ¬ (afterCall p c tag : Pc τ).Locked := by
  rw [afterCall]
  split <;> exact id

theorem threadStep_moved {s next : Scheduler C τ} {c : C} (h : threadStep s c = some next) :
    Moved s (.thread c) next := by
  have own : ∀ d, Label.thread c = (Label.thread d : Label C τ) → d = c :=
    fun d hd => (Label.thread.inj hd).symm
  cases hpc : s.pc c with
  | idle => simp [threadStep, hpc] at h
  | newTaskExecutor tag threadCount =>
    simp only [threadStep, hpc] at h
    split at h
    · rename_i unlocked
      obtain rfl := Option.some.inj h
      exact .locks hpc unlocked
    · cases h
  | search tag threadCount =>
    simp only [threadStep, hpc] at h
    split at h
    · rename_i p taken
      obtain rfl := Option.some.inj h
      exact .skips hpc (by rw [taken]; exact Option.some_ne_none p)
    · rename_i free
      obtain rfl := Option.some.inj h
      exact .makes hpc free
  | start tag =>
    simp only [threadStep, hpc] at h
    obtain ⟨r, hr, rfl⟩ := Option.map_eq_some_iff.mp h
    obtain ⟨registered, heq⟩ := inExecutor_some hr
    rw [heq]
    exact .starts hpc registered
  | starting tag =>
    simp only [threadStep, hpc] at h
    obtain ⟨p, hp, h⟩ := Option.bind_eq_some_iff.mp h
    split at h
    · rename_i done
      obtain rfl := Option.some.inj h
      exact .returns hpc (by simp only [returned, hpc, hp, Option.bind_some, done])
    · rename_i busy
      obtain ⟨r, hr, rfl⟩ := Option.map_eq_some_iff.mp h
      obtain ⟨registered, heq⟩ := inExecutor_some hr
      rw [heq]
      refine .starting hpc registered ?_
      simp only [returned, hpc, hp, Option.bind_some]
  | getExecutorByTag tag k =>
    have unlocked : ¬ (s.pc c).Locked := by rw [hpc]; exact id
    simp only [threadStep, hpc] at h
    split at h
    · cases h
    · split at h
      · obtain rfl := Option.some.inj h
        exact .outside own unlocked (show ¬ (Pc.idle : Pc τ).Locked from id) rfl rfl (.refl _)
      · obtain ⟨r, hr, rfl⟩ := Option.map_eq_some_iff.mp h
        obtain ⟨registered, heq⟩ := inExecutor_some hr
        rw [heq]
        exact .outside own unlocked (show ¬ (Pc.inPool tag : Pc τ).Locked from id) rfl rfl
          (sameTags_setExecutor r.1 registered)
  | inPool tag =>
    have unlocked : ¬ (s.pc c).Locked := by rw [hpc]; exact id
    simp only [threadStep, hpc] at h
    obtain ⟨r, hr, rfl⟩ := Option.map_eq_some_iff.mp h
    obtain ⟨registered, heq⟩ := inExecutor_some hr
    rw [heq]
    exact .outside own unlocked (not_locked_afterCall r.1 c tag) rfl rfl
      (sameTags_setExecutor r.1 registered)

theorem step_moved {s next : Scheduler C τ} {a : Label C τ} (h : step s a = some next) :
    Moved s a next := by
  cases a with
  | newTaskExecutor c tag threadCount | post c tag k =>
    simp only [step] at h
    split at h
    · rename_i idle
      obtain rfl := Option.some.inj h
      exact .outside (fun d hd => by cases hd) (by rw [idle]; exact id) id rfl rfl (.refl _)
    · cases h
  | thread c => exact threadStep_moved h
  | worker tag i | spurious tag i =>
    obtain ⟨r, hr, rfl⟩ := Option.map_eq_some_iff.mp h
    obtain ⟨registered, heq⟩ := inExecutor_some hr
    rw [heq]
    exact .pool (fun d hd => by cases hd) rfl rfl (sameTags_setExecutor r.1 registered)

omit [DecidableEq C] in
theorem Scheduler.Exclusive.unique {s : Scheduler C τ} (inv : s.Exclusive) {c d : C}
    (hc : (s.pc c).Locked) (hd : (s.pc d).Locked) : d = c :=
  Option.some.inj (((inv d).mp hd).symm.trans ((inv c).mp hc))

private theorem Scheduler.Exclusive.kept {s next : Scheduler C τ} (inv : s.Exclusive) {c : C}
    {pc : Pc τ} (hmtx : next.mtx = s.mtx) (hpc : next.pc = Function.update s.pc c pc)
    (same : pc.Locked ↔ (s.pc c).Locked) : next.Exclusive := by
  intro d
  rw [hmtx, hpc, Function.update_apply]
  split
  · rename_i at_c
    subst at_c
    exact same.trans (inv d)
  · exact inv d

theorem step_exclusive {s next : Scheduler C τ} {a : Label C τ} (inv : s.Exclusive)
    (h : step s a = some next) : next.Exclusive := by
  cases step_moved h with
  | @locks c tag threadCount hpc unlocked =>
    intro d
    show (Function.update s.pc c _ d).Locked ↔ some c = some d
    rw [Function.update_apply]
    split
    · rename_i at_c
      exact ⟨fun _ => congrArg some at_c.symm, fun _ => trivial⟩
    · rename_i other
      rw [inv d, unlocked]
      exact ⟨fun hd => (by cases hd), fun hd => absurd (Option.some.inj hd).symm other⟩
  | skips hpc taken | makes hpc free | starts hpc registered =>
    exact inv.kept rfl rfl (by rw [hpc]; exact Iff.rfl)
  | starting hpc registered running => exact inv
  | @returns c tag hpc done =>
    have mine : s.mtx = some c := (inv c).mp (by rw [hpc]; trivial)
    intro d
    show (Function.update s.pc c _ d).Locked ↔ none = some d
    rw [Function.update_apply]
    split
    · exact ⟨False.elim, fun hd => by cases hd⟩
    · rename_i other
      rw [inv d, mine]
      exact ⟨fun hd => absurd (Option.some.inj hd).symm other, fun hd => by cases hd⟩
  | outside own before after hmtx hpc same =>
    have never := iff_of_false after before
    exact inv.kept hmtx hpc never
  | pool own hmtx hpc same =>
    intro d
    rw [hmtx, hpc]
    exact inv d

omit [DecidableEq C] in
theorem quiet_exclusive (dirc : ExecutorTag → Option (Pool C τ)) : (quiet dirc).Exclusive :=
  fun _ => ⟨False.elim, fun h => by cases h⟩

def isStepOf (c : C) : Label C τ → Bool
  | .thread d => d = c
  | _ => false

def ownSteps (c : C) (as : List (Label C τ)) : Nat := as.countP (isStepOf c)

theorem isStepOf_iff {c : C} {a : Label C τ} : isStepOf c a = true ↔ a = .thread c := by
  cases a with
  | thread d =>
    show decide (d = c) = true ↔ _
    rw [decide_eq_true_iff]
    exact ⟨congrArg Label.thread, Label.thread.inj⟩
  | newTaskExecutor d tag threadCount | post d tag k | worker tag i | spurious tag i =>
    constructor <;> intro h <;> cases h

theorem step_other {s next : Scheduler C τ} {a : Label C τ} {c : C} (inv : s.Exclusive)
    (locked : (s.pc c).Locked) (h : step s a = some next) (other : a ≠ .thread c) :
    next.pc c = s.pc c ∧ SameTags s.executorDirc next.executorDirc := by
  have alone : ∀ {d : C}, (s.pc d).Locked → a ≠ .thread d := by
    rintro d hd rfl
    exact other (congrArg Label.thread (inv.unique locked hd))
  cases step_moved h with
  | @locks d tag threadCount hpc unlocked =>
    have mine := (inv c).mp locked
    rw [unlocked] at mine
    cases mine
  | skips hpc taken | makes hpc free | starts hpc registered | starting hpc registered running
  | returns hpc done => exact absurd rfl (alone (by rw [hpc]; trivial))
  | @outside _ d pc _ own before after hmtx hpc same =>
    refine ⟨?_, same⟩
    rw [hpc, Function.update_of_ne]
    rintro rfl
    exact before locked
  | pool own hmtx hpc same => exact ⟨congrFun hpc c, same⟩

theorem ownSteps_own (c : C) (as : List (Label C τ)) :
    ownSteps c (.thread c :: as) = ownSteps c as + 1 :=
  List.countP_cons_of_pos (isStepOf_iff.mpr rfl)

theorem ownSteps_other {c : C} {a : Label C τ} (other : a ≠ .thread c) (as : List (Label C τ)) :
    ownSteps c (a :: as) = ownSteps c as :=
  List.countP_cons_of_neg fun own => other (isStepOf_iff.mp own)

def Pc.made : Pc τ → Option ExecutorTag
  | .start tag | .starting tag => some tag
  | _ => none

theorem Pc.locked_of_made {pc : Pc τ} {tag : ExecutorTag} (h : pc.made = some tag) :
    pc.Locked := by
  cases pc <;> trivial

def returnsTo (c : C) (s : Scheduler C τ) (as : List (Label C τ)) : List ExecutorTag :=
  ((outputs step returned s as).filter (·.1 = c)).map Prod.snd

theorem returnsTo_cons {c : C} {s next : Scheduler C τ} {a : Label C τ} (h : step s a = some next)
    (none_yet : ∀ r, returned s a = some r → r.1 ≠ c) (as : List (Label C τ)) :
    returnsTo c s (a :: as) = returnsTo c next as := by
  simp only [returnsTo, outputs, h]
  cases hr : returned s a with
  | none => rfl
  | some r =>
    rw [Option.toList_some, List.singleton_append, List.filter_cons, if_neg]
    rw [decide_eq_true_iff]
    exact none_yet r hr

theorem made_run {s t : Scheduler C τ} {c : C} {tag : ExecutorTag} {as : List (Label C τ)}
    (inv : s.Exclusive) (made : (s.pc c).made = some tag) (h : run step s as = some t) :
    ∀ first ∈ (returnsTo c s as).head?, first = tag := by
  induction as generalizing s with
  | nil => exact fun first hfirst => by cases hfirst
  | cons a as ih =>
    obtain ⟨next, hstep, hrun⟩ := run_cons_some h
    have locked := Pc.locked_of_made made
    by_cases own : a = .thread c
    · subst own
      cases hr : returned s (.thread c) with
      | some r =>
        obtain ⟨ha, hpc⟩ := returned_some hr
        obtain hc : c = r.1 := Label.thread.inj ha
        rw [← hc] at hpc
        rw [hpc] at made
        have at_head : (returnsTo c s (.thread c :: as)).head? = some r.2 := by
          simp only [returnsTo, outputs, hr, Option.toList_some, List.singleton_append]
          rw [List.filter_cons, if_pos (decide_eq_true hc.symm), List.map_cons, List.head?_cons]
        intro first hfirst
        rw [at_head] at hfirst
        exact (Option.some.inj hfirst).symm.trans (Option.some.inj made)
      | none =>
        rw [returnsTo_cons hstep (fun r hr' => by rw [hr] at hr'; cases hr')]
        refine ih (step_exclusive inv hstep) ?_ hrun
        cases step_moved hstep with
        | locks hpc | skips hpc | makes hpc => rw [hpc] at made; cases made
        | starts hpc registered =>
          rw [hpc] at made
          show (Function.update s.pc c _ c).made = _
          rw [Function.update_self]
          exact made
        | starting hpc registered running => exact made
        | returns hpc done => rw [hr] at done; cases done
        | outside own before after hmtx hpc same =>
          obtain rfl := own c rfl
          exact absurd locked before
        | pool own hmtx hpc same => exact absurd rfl (own c)
    · obtain ⟨hpc, -⟩ := step_other inv locked hstep own
      have elsewhere : ∀ r, returned s a = some r → r.1 ≠ c := by
        rintro r hr rfl
        exact own (returned_some hr).1
      rw [returnsTo_cons hstep elsewhere]
      exact ih (step_exclusive inv hstep) (hpc ▸ made) hrun

/-- Where a search from `tag` stands after a run: it has looked at one tag for each step of its
own, and the step after the last taken tag makes the executor. -/
structure Searched (dirc : ExecutorTag → Option (Pool C τ)) (c : C) (tag : ExecutorTag)
    (threadCount k looked : Nat) (given : List ExecutorTag) (t : Scheduler C τ) : Prop where
  looks : looked ≤ k → t.pc c = .search (tag + UInt64.ofNat looked) threadCount ∧
    SameTags dirc t.executorDirc
  makes : k < looked → ∃ p, t.executorDirc (tag + UInt64.ofNat k) = some p ∧
    Reaches ThreadPool.step (initial threadCount) p
  gives : ∀ first ∈ given.head?, first = tag + UInt64.ofNat k

theorem nextTag_add (tag : ExecutorTag) (j : Nat) :
    getNextExecutorTag (tag + UInt64.ofNat j) = tag + UInt64.ofNat (j + 1) := by
  rw [getNextExecutorTag, UInt64.ofNat_add, ← add_assoc]
  rfl

theorem search_run {s t : Scheduler C τ} {c : C} {tag : ExecutorTag} {threadCount k j : Nat}
    {as : List (Label C τ)} (inv : s.Exclusive) (free : FirstFree s.executorDirc tag k)
    (hj : j ≤ k) (hpc : s.pc c = .search (tag + UInt64.ofNat j) threadCount)
    (h : run step s as = some t) :
    Searched s.executorDirc c tag threadCount k (j + ownSteps c as) (returnsTo c s as) t := by
  induction as generalizing s j with
  | nil =>
    obtain rfl : s = t := by simpa using h
    exact ⟨fun _ => ⟨hpc, .refl _⟩, fun past => absurd hj (Nat.not_le_of_lt past),
      fun first hfirst => by cases hfirst⟩
  | cons a as ih =>
    obtain ⟨next, hstep, hrun⟩ := run_cons_some h
    have silent : ∀ r, returned s a = some r → r.1 ≠ c := by
      rintro r hr rfl
      have hstarting := (returned_some hr).2
      rw [hpc] at hstarting
      cases hstarting
    rw [returnsTo_cons hstep silent]
    by_cases own : a = .thread c
    · subst own
      rw [ownSteps_own, ← Nat.add_assoc, Nat.add_right_comm]
      have kept := step_exclusive inv hstep
      cases step_moved hstep with
      | locks hpc' | starts hpc' | starting hpc' | returns hpc' => rw [hpc] at hpc'; cases hpc'
      | skips hpc' taken =>
        obtain ⟨rfl, rfl⟩ := Pc.search.inj (hpc.symm.trans hpc')
        have more : j < k := by
          refine Nat.lt_of_le_of_ne hj ?_
          rintro rfl
          exact taken free.1
        refine ih kept free more ?_ hrun
        show Function.update s.pc c _ c = _
        rw [Function.update_self, nextTag_add]
      | makes hpc' unused =>
        obtain ⟨rfl, rfl⟩ := Pc.search.inj (hpc.symm.trans hpc')
        obtain rfl : j = k := by
          refine Nat.le_antisymm hj (Nat.le_of_not_lt fun less => ?_)
          exact free.2 j less unused
        have here : (s.setExecutor (tag + UInt64.ofNat j) (initial threadCount)).executorDirc
            (tag + UInt64.ofNat j) = some (initial threadCount) := Function.update_self ..
        refine ⟨fun within => absurd within (by omega), fun _ => ?_, ?_⟩
        · exact run_keeps hrun _ _ here
        · refine made_run kept ?_ hrun
          show (Function.update s.pc c _ c).made = _
          rw [Function.update_self, Pc.made]
      | outside own before after hmtx hpc' same =>
        obtain rfl := own c rfl
        rw [hpc] at before
        exact absurd trivial before
      | pool own hmtx hpc' same => exact absurd rfl (own c)
    · obtain ⟨hpc', same⟩ := step_other inv (by rw [hpc]; trivial) hstep own
      rw [ownSteps_other own]
      obtain ⟨looks, makes, gives⟩ := ih (step_exclusive inv hstep) (same.firstFree free) hj
        (hpc'.trans hpc) hrun
      refine ⟨fun within => ?_, makes, gives⟩
      exact ⟨(looks within).1, same.trans (looks within).2⟩

/-- The tags handed out so far: none twice and none that was registered before. -/
structure Given (dirc : ExecutorTag → Option (Pool C τ)) (s : Scheduler C τ)
    (given : List (C × ExecutorTag)) : Prop where
  exclusive : s.Exclusive
  keeps : Keeps dirc s.executorDirc
  nodup : (given.map Prod.snd).Nodup
  fresh : ∀ r ∈ given, dirc r.2 = none ∧ s.executorDirc r.2 ≠ none
  pending : ∀ c tag, (s.pc c).made = some tag →
    dirc tag = none ∧ s.executorDirc tag ≠ none ∧ ∀ r ∈ given, r.2 ≠ tag

theorem made_update {s : Scheduler C τ} {c d : C} {pc : Pc τ} {tag : ExecutorTag}
    (h : (Function.update s.pc c pc d).made = some tag) :
    d = c ∧ pc.made = some tag ∨ (s.pc d).made = some tag := by
  rw [Function.update_apply] at h
  split at h
  · rename_i at_c
    exact Or.inl ⟨at_c, h⟩
  · exact Or.inr h

section StepGiven

variable {dirc : ExecutorTag → Option (Pool C τ)} {s next : Scheduler C τ}
variable {given : List (C × ExecutorTag)} {a : Label C τ}

theorem Given.fresh_step (inv : Given dirc s given) (h : step s a = some next)
    {r : C × ExecutorTag} (hr : r ∈ given) : dirc r.2 = none ∧ next.executorDirc r.2 ≠ none := by
  obtain ⟨unused, there⟩ := inv.fresh r hr
  exact ⟨unused, (step_keeps h).ne_none there⟩

theorem Given.pending_step (inv : Given dirc s given) (h : step s a = some next) {c : C}
    {tag : ExecutorTag} (made : (s.pc c).made = some tag) :
    dirc tag = none ∧ next.executorDirc tag ≠ none ∧ ∀ r ∈ given, r.2 ≠ tag := by
  obtain ⟨unused, there, other⟩ := inv.pending c tag made
  exact ⟨unused, (step_keeps h).ne_none there, other⟩

theorem Given.silent (inv : Given dirc s given) (h : step s a = some next)
    (none_returned : returned s a = none)
    (made : ∀ c tag, (next.pc c).made = some tag → (s.pc c).made = some tag ∨
      s.executorDirc tag = none ∧ next.executorDirc tag ≠ none) :
    Given dirc next (given ++ (returned s a).toList) := by
  rw [none_returned, Option.toList_none, List.append_nil]
  refine ⟨step_exclusive inv.exclusive h, inv.keeps.trans (step_keeps h), inv.nodup,
    fun r hr => inv.fresh_step h hr, ?_⟩
  intro c tag hmade
  rcases made c tag hmade with before | ⟨free, there⟩
  · exact inv.pending_step h before
  · refine ⟨?_, there, ?_⟩
    · by_contra used
      exact inv.keeps.ne_none used free
    · rintro r hr rfl
      exact (inv.fresh r hr).2 free

theorem Given.returns {c : C} {tag : ExecutorTag} (inv : Given dirc s given)
    (h : step s a = some next) (done : returned s a = some (c, tag))
    (made : (s.pc c).made = some tag) (moves : next.pc = Function.update s.pc c .idle) :
    Given dirc next (given ++ (returned s a).toList) := by
  obtain ⟨unused, there, other⟩ := inv.pending_step h made
  rw [done, Option.toList_some]
  refine ⟨step_exclusive inv.exclusive h, inv.keeps.trans (step_keeps h), ?_, ?_, ?_⟩
  · rw [List.map_append, List.nodup_append]
    refine ⟨inv.nodup, List.nodup_singleton tag, ?_⟩
    rintro _ htag _ hthis rfl
    obtain ⟨r, hr, rfl⟩ := List.mem_map.mp htag
    exact other r hr (List.mem_singleton.mp hthis)
  · intro r hr
    rcases List.mem_append.mp hr with before | this
    · exact inv.fresh_step h before
    · obtain rfl := List.mem_singleton.mp this
      exact ⟨unused, there⟩
  · intro d tag' made'
    -- only one thread is in `NewTaskExecutor`, and that is the one that returns
    exfalso
    have at_d := congrFun moves d ▸ made'
    rcases made_update at_d with ⟨-, idle⟩ | before
    · cases idle
    · obtain rfl := inv.exclusive.unique (Pc.locked_of_made made) (Pc.locked_of_made before)
      rw [Function.update_self] at at_d
      cases at_d

theorem step_given (inv : Given dirc s given) (h : step s a = some next) :
    Given dirc next (given ++ (returned s a).toList) := by
  cases step_moved h with
  | locks hpc unlocked | skips hpc taken =>
    refine inv.silent h (returned_none (by simp [hpc])) fun d tag made => ?_
    rcases made_update made with ⟨-, none_made⟩ | before
    · cases none_made
    · exact Or.inl before
  | @makes c tag threadCount hpc free =>
    refine inv.silent h (returned_none (by simp [hpc])) fun d tag' made => ?_
    rcases made_update made with ⟨-, this⟩ | before
    · obtain rfl := Option.some.inj this
      refine Or.inr ⟨free, ?_⟩
      show Function.update s.executorDirc tag _ tag ≠ none
      rw [Function.update_self]
      exact Option.some_ne_none _
    · exact Or.inl before
  | starts hpc there =>
    refine inv.silent h (returned_none (by simp [hpc])) fun d tag' made => ?_
    rcases made_update made with ⟨rfl, this⟩ | before
    · exact Or.inl (by rw [hpc]; exact this)
    · exact Or.inl before
  | starting hpc there running => exact inv.silent h running fun _ _ made => Or.inl made
  | returns hpc done => exact inv.returns h done (by rw [hpc]; rfl) rfl
  | @outside _ c pc _ own before after hmtx hpc same =>
    have none_returned : returned s a = none := by
      by_contra some_returned
      obtain ⟨r, hr⟩ := Option.ne_none_iff_exists'.mp some_returned
      obtain ⟨rfl, hstarting⟩ := returned_some hr
      obtain rfl := own _ rfl
      rw [hstarting] at before
      exact before trivial
    refine inv.silent h none_returned fun d tag made => ?_
    rw [hpc] at made
    rcases made_update made with ⟨-, this⟩ | earlier
    · exact absurd (Pc.locked_of_made this) after
    · exact Or.inl earlier
  | pool own hmtx hpc same =>
    have none_returned : returned s a = none := by
      by_contra some_returned
      obtain ⟨r, hr⟩ := Option.ne_none_iff_exists'.mp some_returned
      exact own r.1 (returned_some hr).1
    exact inv.silent h none_returned fun d tag made => Or.inl (hpc ▸ made)

end StepGiven

theorem run_given {dirc : ExecutorTag → Option (Pool C τ)} {s : Scheduler C τ}
    {as : List (Label C τ)} (h : run step (quiet dirc) as = some s) :
    Given dirc s (outputs step returned (quiet dirc) as) := by
  have start : Given dirc (quiet dirc) ([] : List (C × ExecutorTag)) :=
    ⟨quiet_exclusive dirc, .refl dirc, List.nodup_nil, fun _ hr => absurd hr List.not_mem_nil,
      fun _ _ made => by cases made⟩
  exact run_invariant_outputs returned
    (fun u given a next inv _ hstep => step_given inv hstep) start (meets_true step _ as) h

/-- From the moment a call of `NewTaskExecutor` has the lock, it looks at one tag after the other
and makes its executor under the first unused one, whatever the other threads do; executors that
were registered stay under their tags, and no two calls are given the same tag. -/
theorem newTaskExecutor_tags (dirc : ExecutorTag → Option (Pool C τ)) (as : List (Label C τ))
    (s : Scheduler C τ) (hrun : run step (quiet dirc) as = some s) :
    (∀ c tag threadCount next, s.pc c = .newTaskExecutor tag threadCount →
      step s (.thread c) = some next → (∃ e, s.executorDirc e = none) →
      ∃ k < 2 ^ 64, FirstFree s.executorDirc tag k ∧
        ∀ bs t, run step next bs = some t →
          Searched s.executorDirc c tag threadCount k (ownSteps c bs) (returnsTo c next bs) t ∧
          (ownSteps c bs ≤ k → (step t (.thread c)).isSome) ∧
          Keeps s.executorDirc t.executorDirc) ∧
    ((outputs step returned (quiet dirc) as).map Prod.snd).Nodup ∧
    ∀ r ∈ outputs step returned (quiet dirc) as,
      dirc r.2 = none ∧ s.executorDirc r.2 ≠ none := by
  have given := run_given hrun
  refine ⟨?_, given.nodup, given.fresh⟩
  intro c tag threadCount next hpc hstep free
  obtain ⟨k, hk, first⟩ := exists_firstFree free tag
  refine ⟨k, hk, first, ?_⟩
  intro bs t hbs
  have same : next.executorDirc = s.executorDirc ∧ next.pc c = .search tag threadCount := by
    simp only [step, threadStep, hpc] at hstep
    split at hstep
    · obtain rfl := Option.some.inj hstep
      exact ⟨rfl, Function.update_self ..⟩
    · cases hstep
  have start : next.pc c = .search (tag + UInt64.ofNat 0) threadCount := by
    rw [same.2]
    exact congrArg (Pc.search · threadCount) (add_zero tag).symm
  have searched := search_run (step_exclusive given.exclusive hstep) (same.1 ▸ first)
    (Nat.zero_le k) start hbs
  rw [same.1, Nat.zero_add] at searched
  refine ⟨searched, fun within => ?_, same.1 ▸ run_keeps hbs⟩
  have looking := (searched.looks within).1
  simp only [step, threadStep, looking]
  split <;> rfl

end Tags

/-- A sink has been given the largest tag, and a second one asks for the same. -/
def sameTagTwice : List (Label Bool Nat) :=
  newStrandExecutor true 18446744073709551615 :: List.replicate 7 (.thread true) ++
    [newStrandExecutor false 18446744073709551615]

/-- The second search wraps to zero. -/
example : outputs step returned (quiet fun _ => none)
    (sameTagTwice ++ List.replicate 8 (.thread false)) =
      [(true, 18446744073709551615), (false, 0)] := by decide

theorem newTaskExecutor_tags_sameTagTwice :
    ∃ s next : Scheduler Bool Nat, run step (quiet fun _ => none) sameTagTwice = some s ∧
      s.executorDirc 18446744073709551615 ≠ none ∧ step s (.thread false) = some next ∧
      (∃ k < 2 ^ 64, FirstFree s.executorDirc 18446744073709551615 k ∧
        ∀ bs t, run step next bs = some t →
          Searched s.executorDirc false 18446744073709551615 1 k (ownSteps false bs)
            (returnsTo false next bs) t ∧
          (ownSteps false bs ≤ k → (step t (.thread false)).isSome) ∧
          Keeps s.executorDirc t.executorDirc) ∧
      ((outputs step returned (quiet fun _ => none) sameTagTwice).map Prod.snd).Nodup := by
  obtain ⟨s, next, hs, taken, hpc, hnext, free⟩ :
      ∃ s next : Scheduler Bool Nat, run step (quiet fun _ => none) sameTagTwice = some s ∧
        (s.executorDirc 18446744073709551615).isSome = true ∧
        s.pc false = .newTaskExecutor 18446744073709551615 1 ∧
        step s (.thread false) = some next ∧ s.executorDirc 0 = none :=
    ⟨_, _, rfl, rfl, rfl, rfl, rfl⟩
  obtain ⟨searches, nodup, -⟩ := newTaskExecutor_tags (fun _ => none) sameTagTwice s hs
  exact ⟨s, next, hs, Option.isSome_iff_ne_none.mp taken, hnext,
    searches false 18446744073709551615 1 next hpc hnext ⟨0, free⟩, nodup⟩

end FlashLog.TaskExecutor
