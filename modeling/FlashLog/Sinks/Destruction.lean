import FlashLog.Support.Strand
import FlashLog.Scheduler.TimerTasks
import FlashLog.Sinks.DoubleBuffer

/-!
Construction and destruction of `EffectiveSink` and `AsyncSink` objects, with the tasks that
capture them: `CacheToFile_` on the strand of the sink, and the repeated `EliminateFiles_`, which
the timer posts to that strand again and again. A destructor flushes and closes `ofs_` and waits
for nothing, so a task that is still queued runs on a sink that is gone.

Every sink has an executor of its own from `NEW_STRAND_EXECUTOR`, which runs as a strand. The
calls of a live sink that end in `AsyncCacheToFile_` may come at any time.
-/

set_option autoImplicit false
set_option relaxedAutoImplicit false

namespace FlashLog.Sinks.Destruction

open FlashLog.Support
open FlashLog.Support.Machine (run Meets run_invariant)
open FlashLog.Scheduler
open FlashLog.Sinks.DoubleBuffer (Kind)

/-- The tasks that capture a sink. -/
inductive Work
  | cacheToFile
  | eliminateFiles
  deriving DecidableEq

inductive Life (A : Type)
  | unborn
  | constructing (a : A)
  | registering (a : A)
  | alive
  | destroyed
  deriving DecidableEq

/-- The timer's tasks are known by the sink whose `EliminateFiles_` they post. -/
structure System (A S : Type) where
  timer : Timer.State A S
  strand : S → Strand.State Work
  life : S → Life A
  /-- the scheduler's destructor has stopped the executors -/
  stopped : Bool

inductive Label (A S : Type)
  | construct (a : A) (k : S)
  | postRepeatedTask (a : A) (k : S)
  | constructed (a : A) (k : S)
  | asyncCacheToFile (k : S)
  | timer (l : Timer.Label A S)
  | start (k : S)
  | finish (k : S)
  | destroy (k : S)
  | stopExecutors

variable {A S : Type}

def initial : System A S := ⟨Timer.initial, fun _ => Strand.empty, fun _ => .unborn, false⟩

variable [DecidableEq A] [DecidableEq S]

def System.setLife (s : System A S) (k : S) (life : Life A) : System A S :=
  { s with life := Function.update s.life k life }

def System.setStrand (s : System A S) (k : S) (strand : Strand.State Work) : System A S :=
  { s with strand := Function.update s.strand k strand }

/-- `POST_TASK` on the executor of sink `k`. -/
def System.post (s : System A S) (k : S) (work : Work) : System A S :=
  s.setStrand k ((s.strand k).post work)

/-- The repeated task that the constructor of `EffectiveSink` posts; `interval` is in minutes,
and -1 becomes the largest count. -/
def eliminateRepeatedly (interval : S → Int) (k : S) : Timer.Call S :=
  .postRepeatedTask k (60000000 * interval k) (0 - 1)

/-- A step of the timer posts `EliminateFiles_` when it runs the task of a sink. -/
def timerStep (s : System A S) (l : Timer.Label A S) : Option (System A S) :=
  (Timer.step s.timer l).map fun timer =>
    match s.timer.runs l with
    | some k => { s with timer := timer }.post k .eliminateFiles
    | none => { s with timer := timer }

def step (kind : S → Kind) (interval : S → Int) (s : System A S) :
    Label A S → Option (System A S)
  | .construct a k =>
    match s.life k with
    | .unborn => some (s.setLife k (.constructing a))
    | _ => none
  | .postRepeatedTask a k =>
    if s.life k = .constructing a ∧ kind k = .effective then
      (Timer.step s.timer (.call a (eliminateRepeatedly interval k))).map fun timer =>
        { s with timer := timer }.setLife k (.registering a)
    else none
  | .constructed a k =>
    if s.life k = .constructing a ∧ kind k = .async ∨
        s.life k = .registering a ∧ s.timer.pc a = .idle then some (s.setLife k .alive)
    else none
  | .asyncCacheToFile k =>
    match s.life k with
    | .constructing _ | .alive => some (s.post k .cacheToFile)
    | _ => none
  | .timer l =>
    match l with
    -- tasks that capture a sink come from its constructor
    | .call a (.cancelRepeatedTask id) => timerStep s (.call a (.cancelRepeatedTask id))
    | .call _ _ => none
    | l => timerStep s l
  | .start k => if s.stopped then none else (s.strand k).start.map (s.setStrand k)
  | .finish k => (s.strand k).finish.map (s.setStrand k)
  | .destroy k =>
    match s.life k with
    | .alive => some (s.setLife k .destroyed)
    | _ => none
  | .stopExecutors => some { s with stopped := true }

def System.Safe (s : System A S) : Prop :=
  ∀ k work, (s.strand k).current = some work → s.life k ≠ .destroyed

/-- No task of the sink runs, and none will: its strand's queue and the timer have none left, or
the executors have been stopped. -/
def System.Finished (s : System A S) (k : S) : Prop :=
  (s.strand k).current = none ∧
    (s.stopped = true ∨ (s.strand k).queue = [] ∧ ¬ s.timer.Carries k)

/-- A sink is destroyed only when no task that captured it is left. -/
def DestroysFinished (s : System A S) : Label A S → Prop
  | .destroy k => s.Finished k
  | _ => True

theorem timerStep_cases {s next : System A S} {l : Timer.Label A S}
    (h : timerStep s l = some next) :
    Timer.step s.timer l = some next.timer ∧ next.life = s.life ∧ next.stopped = s.stopped ∧
      ∀ k, next.strand k = s.strand k ∨
        s.timer.Carries k ∧ next.strand k = (s.strand k).post .eliminateFiles := by
  obtain ⟨timer, htimer, h⟩ := Option.map_eq_some_iff.mp h
  split at h
  · rename_i j hruns
    subst h
    refine ⟨htimer, rfl, rfl, fun k => ?_⟩
    by_cases same : k = j
    · subst same
      right
      exact ⟨Timer.State.Carries.of_runs hruns, by simp [System.post, System.setStrand]⟩
    · left
      simp [System.post, System.setStrand, same]
  · subst h
    exact ⟨htimer, rfl, rfl, fun k => Or.inl rfl⟩

structure System.Tidy (s : System A S) : Prop where
  orderly : s.timer.Orderly
  finished : ∀ k, s.life k = .destroyed → s.Finished k

omit [DecidableEq A] [DecidableEq S] in
theorem initial_tidy : (initial : System A S).Tidy :=
  ⟨Timer.initial_orderly, fun _ h => by cases h⟩

omit [DecidableEq A] [DecidableEq S] in
theorem System.Finished.congr {s next : System A S} {k : S} (h : s.Finished k)
    (strand : next.strand k = s.strand k) (stopped : next.stopped = s.stopped)
    (carries : next.timer.Carries k → s.timer.Carries k) : next.Finished k := by
  unfold System.Finished at h ⊢
  rw [strand, stopped]
  exact ⟨h.1, h.2.imp_right fun rest => ⟨rest.1, fun later => rest.2 (carries later)⟩⟩

omit [DecidableEq A] in
theorem setLife_destroyed {s : System A S} {j k : S} {life : Life A}
    (notDestroyed : life ≠ .destroyed) (h : (s.setLife j life).life k = .destroyed) :
    s.life k = .destroyed ∧ k ≠ j := by
  by_cases same : k = j
  · subst same
    exact absurd (by simpa [System.setLife] using h) notDestroyed
  · exact ⟨by simpa [System.setLife, same] using h, same⟩

omit [DecidableEq A] in
theorem setStrand_other {s : System A S} {j k : S} {strand : Strand.State Work} (other : k ≠ j) :
    (s.setStrand j strand).strand k = s.strand k := by
  simp [System.setStrand, other]

theorem timerStep_tidy {s next : System A S} {l : Timer.Label A S} (inv : s.Tidy)
    (brings : ∀ a k x, l = .call a k → k.user ≠ some x) (h : timerStep s l = some next) :
    next.Tidy := by
  obtain ⟨moved, life, stopped, strand⟩ := timerStep_cases h
  refine ⟨Timer.step_orderly inv.orderly moved, fun k destroyed => ?_⟩
  have finished := inv.finished k (life ▸ destroyed)
  have carries : next.timer.Carries k → s.timer.Carries k := by
    intro later
    rcases Timer.step_carries inv.orderly moved later with before | ⟨a, call, hl, user⟩
    · exact before
    · exact absurd user (brings a call k hl)
  rcases strand k with same | ⟨carried, posted⟩
  · exact finished.congr same stopped carries
  · -- only after the executors have been stopped does the timer still carry its task
    obtain ⟨idle, closed | ⟨-, gone⟩⟩ := finished
    · exact ⟨by rw [posted]; exact idle, Or.inl (stopped.trans closed)⟩
    · exact absurd carried gone

omit [DecidableEq A] in
theorem System.Tidy.setLife {s : System A S} (inv : s.Tidy) {j : S} {life : Life A}
    (notDestroyed : life ≠ .destroyed) : (s.setLife j life).Tidy := by
  refine ⟨inv.orderly, fun k destroyed => ?_⟩
  exact (inv.finished k (setLife_destroyed notDestroyed destroyed).1).congr rfl rfl id

omit [DecidableEq A] in
theorem System.Tidy.setStrand {s : System A S} (inv : s.Tidy) {j : S}
    {strand : Strand.State Work} (notDestroyed : s.life j ≠ .destroyed) :
    (s.setStrand j strand).Tidy := by
  refine ⟨inv.orderly, fun k destroyed => ?_⟩
  have other : k ≠ j := by
    rintro rfl
    exact notDestroyed destroyed
  exact (inv.finished k destroyed).congr (setStrand_other other) rfl id

theorem step_tidy {kind : S → Kind} {interval : S → Int} {s next : System A S} {a : Label A S}
    (inv : s.Tidy) (guard : DestroysFinished s a) (h : step kind interval s a = some next) :
    next.Tidy := by
  cases a with
  | construct a j =>
    simp only [step] at h
    split at h
    · obtain rfl := Option.some.inj h
      exact inv.setLife (by simp)
    · cases h
  | postRepeatedTask a j =>
    simp only [step] at h
    obtain ⟨-, h⟩ := Option.ite_none_right_eq_some.mp h
    obtain ⟨timer, moved, rfl⟩ := Option.map_eq_some_iff.mp h
    refine ⟨Timer.step_orderly inv.orderly moved, fun k destroyed => ?_⟩
    obtain ⟨before, other⟩ := setLife_destroyed (by simp) destroyed
    refine (inv.finished k before).congr rfl rfl fun later => ?_
    rcases Timer.step_carries inv.orderly moved later with carried | ⟨b, call, same, user⟩
    · exact carried
    · cases same
      exact absurd (Option.some.inj user).symm other
  | constructed a j =>
    simp only [step] at h
    obtain ⟨-, h⟩ := Option.ite_none_right_eq_some.mp h
    obtain rfl := Option.some.inj h
    exact inv.setLife (by simp)
  | asyncCacheToFile j =>
    have living : s.life j ≠ .destroyed ∧ next = s.post j .cacheToFile := by
      simp only [step] at h
      split at h
      · rename_i hlife
        exact ⟨by simp [hlife], (Option.some.inj h).symm⟩
      · rename_i hlife
        exact ⟨by simp [hlife], (Option.some.inj h).symm⟩
      · cases h
    obtain ⟨notDestroyed, rfl⟩ := living
    exact inv.setStrand notDestroyed
  | timer l =>
    cases l with
    | call b call =>
      cases call with
      | cancelRepeatedTask id =>
        refine timerStep_tidy inv ?_ h
        rintro b' call x same user
        cases same
        cases user
      | postDelayedTask task delta | postRepeatedTask task delta repeatNum => cases h
    | outside o | thread b | top b e | clock b now | throws b | spurious b | timeout b =>
      exact timerStep_tidy inv (fun _ _ _ same => by cases same) h
  | start j =>
    simp only [step] at h
    split at h
    · cases h
    · rename_i running
      obtain ⟨strand, started, rfl⟩ := Option.map_eq_some_iff.mp h
      refine inv.setStrand fun destroyed => ?_
      obtain ⟨-, closed | ⟨empty, -⟩⟩ := inv.finished j destroyed
      · exact running closed
      · simp [Strand.State.start, empty] at started
  | finish j =>
    simp only [step] at h
    obtain ⟨strand, ended, rfl⟩ := Option.map_eq_some_iff.mp h
    refine inv.setStrand fun destroyed => ?_
    simp [Strand.State.finish, (inv.finished j destroyed).1] at ended
  | destroy j =>
    simp only [step] at h
    split at h
    · obtain rfl := Option.some.inj h
      refine ⟨inv.orderly, fun k destroyed => ?_⟩
      by_cases same : k = j
      · subst same
        exact System.Finished.congr guard rfl rfl id
      · have before : s.life k = .destroyed := by
          simpa [System.setLife, same] using destroyed
        exact (inv.finished k before).congr rfl rfl id
    · cases h
  | stopExecutors =>
    obtain rfl := Option.some.inj h
    refine ⟨inv.orderly, fun k destroyed => ?_⟩
    exact ⟨(inv.finished k destroyed).1, Or.inl rfl⟩

/-- In a run that destroys a sink only when no task that captured it is left, no task ever runs
on a destroyed sink. -/
theorem destroysFinished_safe (kind : S → Kind) (interval : S → Int) (as : List (Label A S))
    (s : System A S) (meets : Meets (step kind interval) DestroysFinished initial as)
    (hrun : run (step kind interval) initial as = some s) : s.Safe := by
  have tidy : s.Tidy :=
    run_invariant (fun _ _ _ inv guard hstep => step_tidy inv guard hstep) initial_tidy meets hrun
  intro k work runs destroyed
  rw [(tidy.finished k destroyed).1] at runs
  cases runs

def asyncSinkGone : List (Label Bool Unit) :=
  [.construct true (), .constructed true (), .asyncCacheToFile (), .start (), .finish (),
    .destroy ()]

theorem destroysFinished_safe_asyncSinkGone :
    ∃ s : System Bool Unit, run (step (fun _ => .async) (fun _ => 5)) initial asyncSinkGone =
      some s ∧ s.life () = .destroyed ∧ s.Safe := by
  obtain ⟨s, hs, gone⟩ : ∃ s : System Bool Unit,
      run (step (fun _ => .async) (fun _ => 5)) initial asyncSinkGone = some s ∧
        s.life () = .destroyed := ⟨_, rfl, rfl⟩
  have nothing : ∀ k, ¬ (initial : System Bool Unit).timer.Carries k := by
    rintro k (⟨e, he, -⟩ | ⟨a, ha⟩)
    · cases he
    · cases ha
  have meets : Meets (step (fun _ => .async) (fun _ => 5)) DestroysFinished
      (initial : System Bool Unit) asyncSinkGone := by
    refine .cons trivial rfl (.cons trivial rfl (.cons trivial rfl (.cons trivial rfl ?_)))
    exact .cons trivial rfl (.cons ⟨rfl, Or.inr ⟨rfl, nothing ()⟩⟩ rfl trivial)
  exact ⟨s, hs, gone, destroysFinished_safe _ _ asyncSinkGone s meets hs⟩

/-- An `EffectiveSink` is destroyed with nothing on its strand; then the timer posts its
`EliminateFiles_` again, and the strand runs it. -/
def eliminateAfterDestruction : List (Label Bool Unit) :=
  [.timer (.outside (.store true)), .timer (.outside (.enter false)), .construct true (),
    .postRepeatedTask true (), .timer (.thread true), .timer (.thread true),
    .timer (.thread true), .timer (.thread true), .timer (.thread true), .timer (.clock true 0),
    .timer (.thread true), .timer (.thread true), .timer (.thread true), .timer (.thread true),
    .constructed true (), .start (), .finish (), .destroy (), .timer (.thread false),
    .timer (.thread false), .timer (.thread false),
    .timer (.top false ⟨0, .forward ⟨(), 300000000, 0, 0 - 1 - 1⟩, 300000000000⟩),
    .timer (.clock false 300000000000), .timer (.thread false), .timer (.thread false),
    .timer (.thread false), .timer (.thread false), .timer (.thread false),
    .timer (.thread false), .start ()]

theorem eliminateAfterDestruction_unsafe :
    ¬ ∀ (as : List (Label Bool Unit)) (s : System Bool Unit),
      run (step (fun _ => .effective) (fun _ => 5)) initial as = some s → s.Safe := by
  intro always
  obtain ⟨s, hs, runs, gone⟩ : ∃ s : System Bool Unit,
      run (step (fun _ => .effective) (fun _ => 5)) initial eliminateAfterDestruction = some s ∧
        (s.strand ()).current = some .eliminateFiles ∧ s.life () = .destroyed :=
    ⟨_, rfl, rfl, rfl⟩
  exact always eliminateAfterDestruction s hs () .eliminateFiles runs gone

end FlashLog.Sinks.Destruction
