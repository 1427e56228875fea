import Mathlib.Data.UInt
import Mathlib.Data.Finset.Basic
import FlashLog.Support.LeastFirst
import FlashLog.Support.Machine

/-!
`Scheduler::Timer`: callers put entries in `timer_queue_` under `mtx_` and notify `cv_` before
they release it; a thread in `Run_` takes the entry that is due first, or waits for it with the
lock released. One label is one load or store, one operation on the mutex or the condition
variable, one reading of the clock, one access to the queue, or one critical section on
`repeated_set_`.

Any number of threads may be in `Run_`. Among entries with one time point the priority queue
may have any on top, clock readings are arbitrary, and waits may end for no reason.
-/

set_option autoImplicit false
set_option relaxedAutoImplicit false

namespace FlashLog.Scheduler.Timer

open FlashLog.Support
open FlashLog.Support.Machine (run run_preserves)

abbrev RepeatedTaskId := UInt64

/-- A task with the arguments of `PostRepeatedTask_`; `delta` counts microseconds. -/
structure Repeated (τ : Type) where
  task : τ
  delta : Int
  id : RepeatedTaskId
  repeatNum : UInt64
  deriving DecidableEq

/-- A task as it was posted, or `PostRepeatedTaskForward_` bound to its arguments. -/
inductive Task (τ : Type)
  | posted (task : τ)
  | forward (r : Repeated τ)
  deriving DecidableEq

/-- The ticket counts the entries pushed before; time points count nanoseconds. -/
structure InternalS (τ : Type) where
  ticket : Nat
  task : Task τ
  timePoint : Int
  deriving DecidableEq

/-- `InternalS::operator<`, which puts the earliest entry on top of the priority queue. -/
def InternalS.less {τ : Type} (x y : InternalS τ) : Prop := y.timePoint < x.timePoint

instance {τ : Type} (x y : InternalS τ) : Decidable (x.less y) :=
  inferInstanceAs (Decidable (_ < _))

/-- `duration_cast<microseconds>(diff).count()`, which truncates towards zero. -/
def toMicroseconds (diff : Int) : Int := diff.tdiv 1000

inductive RunPc (τ : Type)
  | lock
  | test
  | wait
  | asleep
  | check
  | top
  | now (s : InternalS τ)
  | waitFor (s : InternalS τ)
  | timed (s : InternalS τ)
  | relock
  | endIteration
  | pop (s : InternalS τ) (now : Int)
  | unlock (s : InternalS τ)
  | call (s : InternalS τ)
  | leave
  deriving DecidableEq

inductive PostPc (τ : Type)
  | now (task : Task τ) (delta : Int)
  | lock (task : Task τ) (timePoint : Int)
  | push (task : Task τ) (timePoint : Int)
  | notify
  | unlock
  | nextId (task : τ) (delta : Int) (repeatNum : UInt64)
  | insert (r : Repeated τ)
  | repost (r : Repeated τ)
  | find (r : Repeated τ)
  | call (r : Repeated τ)
  | erase (id : RepeatedTaskId)
  deriving DecidableEq

/-- A thread in `Run_` may be inside `PostRepeatedTask_` too. -/
inductive Pc (τ : Type)
  | idle
  | run (pc : RunPc τ)
  | post (inRun : Bool) (pc : PostPc τ)
  deriving DecidableEq

inductive Call (τ : Type)
  | postDelayedTask (task : τ) (delta : Int)
  | postRepeatedTask (task : τ) (delta : Int) (repeatNum : UInt64)
  | cancelRepeatedTask (id : RepeatedTaskId)
  deriving DecidableEq

def Call.entry {τ : Type} : Call τ → PostPc τ
  | .postDelayedTask task delta => .now (.posted task) delta
  | .postRepeatedTask task delta repeatNum => .nextId task delta repeatNum
  | .cancelRepeatedTask id => .erase id

/-- One entry taken out of the queue: the clock read just before, and the queue at that moment. -/
structure Taken (τ : Type) where
  entry : InternalS τ
  clock : Int
  queued : List (InternalS τ)

structure State (A τ : Type) where
  isRunning : Bool
  mtx : Option A
  timerQueue : List (InternalS τ)
  repeatedTaskId : RepeatedTaskId
  repeatedSet : Finset RepeatedTaskId
  pc : A → Pc τ
  pushed : List (InternalS τ)
  taken : List (Taken τ)
  ran : List (InternalS τ)

/-- What is done to the timer from outside: its executor enters `Run_` on a thread, `Start` and
`Stop` store to `is_running_`, and `Stop` notifies. -/
inductive Outside (A : Type)
  | enter (a : A)
  | store (running : Bool)
  | notifyAll

inductive Label (A τ : Type)
  | outside (o : Outside A)
  | call (a : A) (k : Call τ)
  | thread (a : A)
  | top (a : A) (s : InternalS τ)
  | clock (a : A) (now : Int)
  | throws (a : A)
  | spurious (a : A)
  | timeout (a : A)

variable {A τ : Type}

def initial : State A τ :=
  { isRunning := false, mtx := none, timerQueue := [], repeatedTaskId := 0, repeatedSet := ∅
    pc := fun _ => .idle, pushed := [], taken := [], ran := [] }

/-- `notify_all` on a thread; it takes the mutex again before it goes on. -/
def Pc.notified : Pc τ → Pc τ
  | .run .asleep => .run .lock
  | .run (.timed _) => .run .relock
  | pc => pc

def returned (inRun : Bool) : Pc τ := if inRun then .run .lock else .idle

def State.notifyAll (s : State A τ) : State A τ :=
  { s with pc := fun a => (s.pc a).notified }

/-- The predicate of `cv_.wait`. -/
def State.wakes (s : State A τ) : Bool := !s.timerQueue.isEmpty || !s.isRunning

def State.entry (s : State A τ) (task : Task τ) (timePoint : Int) : InternalS τ :=
  ⟨s.pushed.length, task, timePoint⟩

/-- `timer_queue_.top()` may be this entry: no other one is greater. -/
def State.IsTop (s : State A τ) (e : InternalS τ) : Prop :=
  e ∈ s.timerQueue ∧ ∀ x ∈ s.timerQueue, ¬ e.less x

variable [DecidableEq A] [DecidableEq τ]

instance (s : State A τ) (e : InternalS τ) : Decidable (s.IsTop e) :=
  inferInstanceAs (Decidable (_ ∧ _))

def State.goto (s : State A τ) (a : A) (pc : Pc τ) : State A τ :=
  { s with pc := Function.update s.pc a pc }

def State.locked (s : State A τ) (a : A) (pc : Pc τ) : Option (State A τ) :=
  if s.mtx.isNone then some ({ s with mtx := some a }.goto a pc) else none

def State.unlocked (s : State A τ) (a : A) (pc : Pc τ) : State A τ :=
  { s with mtx := none }.goto a pc

def runStep (s : State A τ) (a : A) : RunPc τ → Option (State A τ)
  | .lock => s.locked a (.run .test)
  | .test => some (s.goto a (.run (if s.wakes then .check else .wait)))
  | .wait => some (s.unlocked a (.run .asleep))
  | .asleep => none
  | .check => some (s.goto a (.run (if s.isRunning then .top else .leave)))
  | .top => none
  | .now _ => none
  | .waitFor e => some (s.unlocked a (.run (.timed e)))
  | .timed _ => none
  | .relock => s.locked a (.run .endIteration)
  | .endIteration => some (s.unlocked a (.run .lock))
  | .pop e now =>
    some ({ s with
      timerQueue := s.timerQueue.erase e
      taken := s.taken ++ [Taken.mk e now s.timerQueue] }.goto a (.run (.unlock e)))
  | .unlock e => some (s.unlocked a (.run (.call e)))
  | .call e =>
    some ({ s with ran := s.ran ++ [e] }.goto a
      (match e.task with
        | .posted _ => .run .lock
        | .forward r => .post true (.repost r)))
  | .leave => some (s.unlocked a .idle)

/-- A critical section that only looks at or changes `repeated_set_`. -/
def State.inSet (s : State A τ) (set : Finset RepeatedTaskId) (a : A) (pc : Pc τ) :
    Option (State A τ) :=
  if s.mtx.isNone then some ({ s with repeatedSet := set }.goto a pc) else none

def postStep (s : State A τ) (a : A) (inRun : Bool) : PostPc τ → Option (State A τ)
  | .now _ _ => none
  | .lock task timePoint => s.locked a (.post inRun (.push task timePoint))
  | .push task timePoint =>
    some ({ s with
      timerQueue := s.timerQueue ++ [s.entry task timePoint]
      pushed := s.pushed ++ [s.entry task timePoint] }.goto a (.post inRun .notify))
  | .notify => some (s.notifyAll.goto a (.post inRun .unlock))
  | .unlock => some (s.unlocked a (returned inRun))
  | .nextId task delta repeatNum =>
    some ({ s with repeatedTaskId := s.repeatedTaskId + 1 }.goto a
      (.post inRun (.insert ⟨task, delta, s.repeatedTaskId, repeatNum⟩)))
  | .insert r => s.inSet (insert r.id s.repeatedSet) a (.post inRun (.repost r))
  | .repost r =>
    some (s.goto a (.post inRun (if r.repeatNum = 0 then .erase r.id else .find r)))
  | .find r =>
    s.inSet s.repeatedSet a
      (if r.id ∈ s.repeatedSet then .post inRun (.call r) else returned inRun)
  | .call r =>
    some (s.goto a (.post inRun (.now (.forward { r with repeatNum := r.repeatNum - 1 }) r.delta)))
  | .erase id => s.inSet (s.repeatedSet.erase id) a (returned inRun)

def outsideStep (s : State A τ) : Outside A → Option (State A τ)
  | .enter a =>
    match s.pc a with
    | .idle => some (s.goto a (.run .lock))
    | _ => none
  | .store running => some { s with isRunning := running }
  | .notifyAll => some s.notifyAll

def clockStep (s : State A τ) (a : A) (now : Int) : Option (State A τ) :=
  match s.pc a with
  | .run (.now e) =>
    some (s.goto a (.run (if 0 < toMicroseconds (e.timePoint - now) then .waitFor e
      else .pop e now)))
  | .post inRun (.now task delta) =>
    some (s.goto a (.post inRun (.lock task (now + 1000 * delta))))
  | _ => none

def step (s : State A τ) : Label A τ → Option (State A τ)
  | .outside o => outsideStep s o
  | .call a k =>
    match s.pc a with
    | .idle => some (s.goto a (.post false k.entry))
    | _ => none
  | .thread a =>
    match s.pc a with
    | .idle => none
    | .run pc => runStep s a pc
    | .post inRun pc => postStep s a inRun pc
  | .top a e =>
    match s.pc a with
    | .run .top => if s.IsTop e then some (s.goto a (.run (.now e))) else none
    | _ => none
  | .clock a now => clockStep s a now
  -- the task of a repeated entry throws: `Run_` catches, a caller unwinds
  | .throws a =>
    match s.pc a with
    | .post inRun (.call _) => some (s.goto a (returned inRun))
    | _ => none
  | .spurious a =>
    match s.pc a with
    | .run .asleep => some (s.goto a (.run .lock))
    | .run (.timed _) => some (s.goto a (.run .relock))
    | _ => none
  | .timeout a =>
    match s.pc a with
    | .run (.timed _) => some (s.goto a (.run .relock))
    | _ => none

/-- What a step of a thread in `Run_` does, by the position it is taken from. -/
inductive RunStep (s : State A τ) (a : A) : RunPc τ → State A τ → Prop
  | lock : s.mtx = none → RunStep s a .lock ({ s with mtx := some a }.goto a (.run .test))
  | test : s.wakes = true → RunStep s a .test (s.goto a (.run .check))
  | fail : s.wakes = false → RunStep s a .test (s.goto a (.run .wait))
  | wait : RunStep s a .wait (s.unlocked a (.run .asleep))
  | check : RunStep s a .check (s.goto a (.run (if s.isRunning then .top else .leave)))
  | waitFor (e : InternalS τ) : RunStep s a (.waitFor e) (s.unlocked a (.run (.timed e)))
  | relock : s.mtx = none →
      RunStep s a .relock ({ s with mtx := some a }.goto a (.run .endIteration))
  | endIteration : RunStep s a .endIteration (s.unlocked a (.run .lock))
  | pop (e : InternalS τ) (now : Int) :
      RunStep s a (.pop e now) ({ s with
        timerQueue := s.timerQueue.erase e
        taken := s.taken ++ [Taken.mk e now s.timerQueue] }.goto a (.run (.unlock e)))
  | unlock (e : InternalS τ) : RunStep s a (.unlock e) (s.unlocked a (.run (.call e)))
  | callPosted (e : InternalS τ) (task : τ) : e.task = .posted task →
      RunStep s a (.call e) ({ s with ran := s.ran ++ [e] }.goto a (.run .lock))
  | callForward (e : InternalS τ) (r : Repeated τ) : e.task = .forward r →
      RunStep s a (.call e) ({ s with ran := s.ran ++ [e] }.goto a (.post true (.repost r)))
  | leave : RunStep s a .leave (s.unlocked a .idle)

/-- What a step of a thread in a posting function does, by the position it is taken from. -/
inductive PostStep (s : State A τ) (a : A) (inRun : Bool) : PostPc τ → State A τ → Prop
  | lock (task : Task τ) (timePoint : Int) : s.mtx = none →
      PostStep s a inRun (.lock task timePoint)
        ({ s with mtx := some a }.goto a (.post inRun (.push task timePoint)))
  | push (task : Task τ) (timePoint : Int) :
      PostStep s a inRun (.push task timePoint) ({ s with
        timerQueue := s.timerQueue ++ [s.entry task timePoint]
        pushed := s.pushed ++ [s.entry task timePoint] }.goto a (.post inRun .notify))
  | notify : PostStep s a inRun .notify (s.notifyAll.goto a (.post inRun .unlock))
  | unlock : PostStep s a inRun .unlock (s.unlocked a (returned inRun))
  | nextId (task : τ) (delta : Int) (repeatNum : UInt64) :
      PostStep s a inRun (.nextId task delta repeatNum)
        ({ s with repeatedTaskId := s.repeatedTaskId + 1 }.goto a
          (.post inRun (.insert ⟨task, delta, s.repeatedTaskId, repeatNum⟩)))
  | insert (r : Repeated τ) : s.mtx = none →
      PostStep s a inRun (.insert r)
        ({ s with repeatedSet := insert r.id s.repeatedSet }.goto a (.post inRun (.repost r)))
  | repost (r : Repeated τ) : r.repeatNum ≠ 0 →
      PostStep s a inRun (.repost r) (s.goto a (.post inRun (.find r)))
  | ended (r : Repeated τ) : r.repeatNum = 0 →
      PostStep s a inRun (.repost r) (s.goto a (.post inRun (.erase r.id)))
  | find (r : Repeated τ) : s.mtx = none → r.id ∈ s.repeatedSet →
      PostStep s a inRun (.find r) (s.goto a (.post inRun (.call r)))
  | canceled (r : Repeated τ) : s.mtx = none → r.id ∉ s.repeatedSet →
      PostStep s a inRun (.find r) (s.goto a (returned inRun))
  | call (r : Repeated τ) :
      PostStep s a inRun (.call r) (s.goto a
        (.post inRun (.now (.forward { r with repeatNum := r.repeatNum - 1 }) r.delta)))
  | erase (id : RepeatedTaskId) : s.mtx = none →
      PostStep s a inRun (.erase id)
        ({ s with repeatedSet := s.repeatedSet.erase id }.goto a (returned inRun))

inductive Stepped (s : State A τ) : Label A τ → State A τ → Prop
  | enter (a : A) : s.pc a = .idle → Stepped s (.outside (.enter a)) (s.goto a (.run .lock))
  | store (running : Bool) :
      Stepped s (.outside (.store running)) { s with isRunning := running }
  | notifyAll : Stepped s (.outside .notifyAll) s.notifyAll
  | call (a : A) (k : Call τ) : s.pc a = .idle →
      Stepped s (.call a k) (s.goto a (.post false k.entry))
  | run (a : A) (pc : RunPc τ) {next : State A τ} : s.pc a = .run pc → RunStep s a pc next →
      Stepped s (.thread a) next
  | post (a : A) (inRun : Bool) (pc : PostPc τ) {next : State A τ} : s.pc a = .post inRun pc →
      PostStep s a inRun pc next → Stepped s (.thread a) next
  | top (a : A) (e : InternalS τ) : s.pc a = .run .top → s.IsTop e →
      Stepped s (.top a e) (s.goto a (.run (.now e)))
  | early (a : A) (e : InternalS τ) (now : Int) : s.pc a = .run (.now e) →
      0 < toMicroseconds (e.timePoint - now) →
      Stepped s (.clock a now) (s.goto a (.run (.waitFor e)))
  | due (a : A) (e : InternalS τ) (now : Int) : s.pc a = .run (.now e) →
      toMicroseconds (e.timePoint - now) ≤ 0 →
      Stepped s (.clock a now) (s.goto a (.run (.pop e now)))
  | date (a : A) (inRun : Bool) (task : Task τ) (delta now : Int) :
      s.pc a = .post inRun (.now task delta) →
      Stepped s (.clock a now) (s.goto a (.post inRun (.lock task (now + 1000 * delta))))
  | throws (a : A) (inRun : Bool) (r : Repeated τ) : s.pc a = .post inRun (.call r) →
      Stepped s (.throws a) (s.goto a (returned inRun))
  | spuriousWait (a : A) : s.pc a = .run .asleep →
      Stepped s (.spurious a) (s.goto a (.run .lock))
  | spuriousWaitFor (a : A) (e : InternalS τ) : s.pc a = .run (.timed e) →
      Stepped s (.spurious a) (s.goto a (.run .relock))
  | timeout (a : A) (e : InternalS τ) : s.pc a = .run (.timed e) →
      Stepped s (.timeout a) (s.goto a (.run .relock))

omit [DecidableEq τ] in
theorem State.locked_eq_some {s next : State A τ} {a : A} {pc : Pc τ}
    (h : s.locked a pc = some next) : s.mtx = none ∧ next = { s with mtx := some a }.goto a pc := by
  obtain ⟨free, h⟩ := Option.ite_none_right_eq_some.mp h
  exact ⟨Option.isNone_iff_eq_none.mp free, (Option.some.inj h).symm⟩

omit [DecidableEq τ] in
theorem State.inSet_eq_some {s next : State A τ} {set : Finset RepeatedTaskId} {a : A} {pc : Pc τ}
    (h : s.inSet set a pc = some next) :
    s.mtx = none ∧ next = { s with repeatedSet := set }.goto a pc := by
  obtain ⟨free, h⟩ := Option.ite_none_right_eq_some.mp h
  exact ⟨Option.isNone_iff_eq_none.mp free, (Option.some.inj h).symm⟩

theorem runStep_cases {s next : State A τ} {a : A} {pc : RunPc τ}
    (h : runStep s a pc = some next) : RunStep s a pc next := by
  cases pc with
  | asleep | top | now e | timed e => cases h
  | lock =>
    obtain ⟨free, rfl⟩ := State.locked_eq_some h
    exact .lock free
  | relock =>
    obtain ⟨free, rfl⟩ := State.locked_eq_some h
    exact .relock free
  | test =>
    obtain rfl := Option.some.inj h
    cases hwakes : s.wakes with
    | true => exact .test hwakes
    | false => exact .fail hwakes
  | call e =>
    obtain rfl := Option.some.inj h
    cases htask : e.task with
    | posted task => exact .callPosted e task htask
    | forward r => exact .callForward e r htask
  | _ =>
    obtain rfl := Option.some.inj h
    constructor

omit [DecidableEq τ] in
theorem postStep_cases {s next : State A τ} {a : A} {inRun : Bool} {pc : PostPc τ}
    (h : postStep s a inRun pc = some next) : PostStep s a inRun pc next := by
  cases pc with
  | now task delta => cases h
  | lock task timePoint =>
    obtain ⟨free, rfl⟩ := State.locked_eq_some h
    exact .lock task timePoint free
  | insert r =>
    obtain ⟨free, rfl⟩ := State.inSet_eq_some h
    exact .insert r free
  | erase id =>
    obtain ⟨free, rfl⟩ := State.inSet_eq_some h
    exact .erase id free
  | repost r =>
    obtain rfl := Option.some.inj h
    split
    · rename_i zero
      exact .ended r zero
    · rename_i more
      exact .repost r more
  | find r =>
    obtain ⟨free, rfl⟩ := State.inSet_eq_some h
    split
    · rename_i found
      exact .find r free found
    · rename_i missing
      exact .canceled r free missing
  | _ =>
    obtain rfl := Option.some.inj h
    constructor

theorem step_cases {s next : State A τ} {l : Label A τ} (h : step s l = some next) :
    Stepped s l next := by
  cases l with
  | outside o =>
    cases o with
    | enter a =>
      simp only [step, outsideStep] at h
      split at h
      · rename_i hpc
        obtain rfl := Option.some.inj h
        exact .enter a hpc
      · cases h
    | store running =>
      obtain rfl := Option.some.inj h
      exact .store running
    | notifyAll =>
      obtain rfl := Option.some.inj h
      exact .notifyAll
  | call a k =>
    simp only [step] at h
    split at h
    · rename_i hpc
      obtain rfl := Option.some.inj h
      exact .call a k hpc
    · cases h
  | thread a =>
    simp only [step] at h
    split at h
    · cases h
    · rename_i pc hpc
      exact .run a pc hpc (runStep_cases h)
    · rename_i inRun pc hpc
      exact .post a inRun pc hpc (postStep_cases h)
  | top a e =>
    simp only [step] at h
    split at h
    · rename_i hpc
      obtain ⟨top, h⟩ := Option.ite_none_right_eq_some.mp h
      obtain rfl := Option.some.inj h
      exact .top a e hpc top
    · cases h
  | clock a now =>
    simp only [step, clockStep] at h
    split at h
    · rename_i e hpc
      obtain rfl := Option.some.inj h
      split
      · rename_i early
        exact .early a e now hpc early
      · rename_i due
        exact .due a e now hpc (Int.not_lt.mp due)
    · rename_i inRun task delta hpc
      obtain rfl := Option.some.inj h
      exact .date a inRun task delta now hpc
    · cases h
  | throws a =>
    simp only [step] at h
    split at h
    · rename_i inRun r hpc
      obtain rfl := Option.some.inj h
      exact .throws a inRun r hpc
    · cases h
  | spurious a =>
    simp only [step] at h
    split at h
    · rename_i hpc
      obtain rfl := Option.some.inj h
      exact .spuriousWait a hpc
    · rename_i e hpc
      obtain rfl := Option.some.inj h
      exact .spuriousWaitFor a e hpc
    · cases h
  | timeout a =>
    simp only [step] at h
    split at h
    · rename_i e hpc
      obtain rfl := Option.some.inj h
      exact .timeout a e hpc
    · cases h

end FlashLog.Scheduler.Timer
