import FlashLog.Scheduler.ThreadPool
import FlashLog.Scheduler.TimerQueue

/-!
`Timer::Start` and `Timer::Stop` with the executor that runs `Run_`. `Stop` stores false to
`is_running_` and joins the executor's thread before it notifies `cv_`, so a thread that sleeps
on an empty queue is joined asleep; if no thread waits in `Run_` when the flag falls, or one that
will notify is on its way, `Stop` never joins a sleeper.

`Start` and `Stop` of the executor are not run by two threads at once.
-/

set_option autoImplicit false
set_option relaxedAutoImplicit false

namespace FlashLog.Scheduler.Timer

open FlashLog.Support
open FlashLog.Support.Machine (run Meets run_invariant)
open FlashLog.Scheduler.ThreadPool (Pool Agent)

inductive StartPc
  | idle
  | storeRunning
  | startExecutor
  | starting
  | addTask
  | adding
  deriving DecidableEq

inductive StopPc
  | idle
  | storeStopped
  | stopExecutor
  | stopping
  | notify
  deriving DecidableEq

/-- The timer with `timer_executor_`, whose only task is `Run_`. -/
structure Service (C τ : Type) where
  timer : State (Agent C) τ
  executor : Pool C Unit
  start : C → StartPc
  stop : StopPc

namespace Service

inductive Label (C τ : Type)
  | start (c : C)
  | starter (c : C)
  | stop
  | stopper
  | executor (l : ThreadPool.Label C Unit)
  | call (c : C) (k : Call τ)
  | timer (l : Timer.Label (Agent C) τ)

variable {C τ : Type}

/-- `Timer()`: one executor thread. -/
def initial : Service C τ := ⟨Timer.initial, ThreadPool.initial 1, fun _ => .idle, .idle⟩

def inside : Timer.Label (Agent C) τ → Bool
  | .outside _ | .call _ _ => false
  | _ => true

variable [DecidableEq C] [DecidableEq τ]

def ofTimer (s : Service C τ) (l : Timer.Label (Agent C) τ) : Option (Service C τ) :=
  (Timer.step s.timer l).map fun timer => { s with timer := timer }

def ofExecutor (s : Service C τ) (l : ThreadPool.Label C Unit) : Option (Service C τ) :=
  (ThreadPool.step s.executor l).map fun executor => { s with executor := executor }

def gotoStart (s : Service C τ) (c : C) (pc : StartPc) : Service C τ :=
  { s with start := Function.update s.start c pc }

def starterStep (s : Service C τ) (c : C) : Option (Service C τ) :=
  match s.start c with
  | .idle => none
  | .storeRunning =>
    (s.ofTimer (.outside (.store true))).map fun next => next.gotoStart c .startExecutor
  | .startExecutor => (s.ofExecutor .start).map fun next => next.gotoStart c .starting
  | .starting =>
    match s.executor.owner with
    | .idle => some (s.gotoStart c .addTask)
    | _ => none
  | .addTask => (s.ofExecutor (.call c (.addTask ()))).map fun next => next.gotoStart c .adding
  | .adding =>
    match s.executor.caller c with
    | .idle => some (s.gotoStart c .idle)
    | _ => none

def stopperStep (s : Service C τ) : Option (Service C τ) :=
  match s.stop with
  | .idle => none
  | .storeStopped =>
    (s.ofTimer (.outside (.store false))).map fun next => { next with stop := .stopExecutor }
  | .stopExecutor => (s.ofExecutor .stop).map fun next => { next with stop := .stopping }
  | .stopping =>
    match s.executor.owner with
    | .idle => some { s with stop := .notify }
    | _ => none
  | .notify => (s.ofTimer (.outside .notifyAll)).map fun next => { next with stop := .idle }

/-- A step of the executor's thread `i`: its task is `Run_`, and ends when `Run_` returns. -/
def workerStep (s : Service C τ) (i : Nat) : Option (Service C τ) :=
  match s.executor.worker i with
  | .start _ =>
    (s.ofExecutor (.worker i)).bind fun next => next.ofTimer (.outside (.enter (.worker i)))
  | .running _ =>
    match s.timer.pc (.worker i) with
    | .idle => s.ofExecutor (.worker i)
    | _ => none
  | _ => s.ofExecutor (.worker i)

def step (s : Service C τ) : Label C τ → Option (Service C τ)
  | .start c =>
    match s.start c, s.timer.pc (.caller c) with
    | .idle, .idle =>
      some (s.gotoStart c (if s.timer.isRunning then .idle else .storeRunning))
    | _, _ => none
  | .starter c => starterStep s c
  | .stop =>
    match s.stop with
    | .idle => some { s with stop := if s.timer.isRunning then .storeStopped else .idle }
    | _ => none
  | .stopper => stopperStep s
  | .executor l =>
    match l with
    | .worker i => workerStep s i
    | .owner | .caller _ | .spurious _ => s.ofExecutor l
    | .start | .stop | .call _ _ => none
  | .call c k =>
    match s.start c with
    | .idle => s.ofTimer (.call (.caller c) k)
    | _ => none
  | .timer l => if inside l then s.ofTimer l else none

end Service

section Waiters

variable {A τ : Type}

/-- A thread has failed the test of `cv_.wait` and not been woken since. -/
def Pc.Waiting (pc : Pc τ) : Prop := pc = .run .wait ∨ pc = .run .asleep

/-- A thread is about to push an entry, or to notify after it. -/
def Pc.willNotify : Pc τ → Bool
  | .post _ (.now _ _) | .post _ (.lock _ _) | .post _ (.push _ _) | .post _ .notify => true
  | _ => false

/-- No thread waits for an entry, or one is on its way with its notification. -/
def State.Heard (s : State A τ) : Prop :=
  (∀ a, ¬ (s.pc a).Waiting) ∨ ∃ a, (s.pc a).willNotify = true

theorem Pc.notified_waiting {pc : Pc τ} (h : pc.notified.Waiting) : pc = .run .wait := by
  rcases h with wait | asleep
  · cases pc with
    | run pc => cases pc <;> simp_all [Pc.notified]
    | idle | post inRun pc => cases wait
  · cases pc with
    | run pc => cases pc <;> simp [Pc.notified] at asleep
    | idle | post inRun pc => cases asleep

theorem Pc.notified_willNotify (pc : Pc τ) : pc.notified.willNotify = pc.willNotify := by
  cases pc with
  | run pc => cases pc <;> rfl
  | idle | post inRun pc => rfl

theorem returned_not_waiting (inRun : Bool) : ¬ (returned inRun : Pc τ).Waiting := by
  cases inRun <;> simp [returned, Pc.Waiting]

theorem State.Heard.announced {s : State A τ} (heard : s.Heard) : s.notifyAll.Heard := by
  rcases heard with awake | ⟨a, ha⟩
  · refine Or.inl fun a waiting => awake a (Or.inl ?_)
    exact Pc.notified_waiting waiting
  · exact Or.inr ⟨a, (Pc.notified_willNotify (s.pc a)).trans ha⟩

variable [DecidableEq A]

theorem State.Heard.goto {s : State A τ} {a : A} {pc : Pc τ} (heard : s.Heard)
    (waits : pc.Waiting → (s.pc a).Waiting)
    (notifies : (s.pc a).willNotify = true → pc.willNotify = true) : (s.goto a pc).Heard := by
  rcases heard with awake | ⟨b, hb⟩
  · refine Or.inl fun b waiting => ?_
    rw [State.goto_pc] at waiting
    split at waiting
    · exact awake a (waits waiting)
    · exact awake b waiting
  · refine Or.inr ⟨b, ?_⟩
    rw [State.goto_pc]
    split
    · rename_i hba
      exact notifies (hba ▸ hb)
    · exact hb

variable [DecidableEq τ]

private theorem run_heard {s next : State A τ} {a : A} {pc : RunPc τ} (heard : s.Heard)
    (stopped : s.isRunning = false) (hpc : s.pc a = .run pc) (h : RunStep s a pc next) :
    next.isRunning = false ∧ next.Heard := by
  have silent : (s.pc a).willNotify = true → ∀ {q : Pc τ}, q.willNotify = true := by
    rw [hpc]
    intro h
    cases h
  cases h with
  | lock free | relock free =>
    exact ⟨stopped, heard.goto (s := { s with mtx := some a }) (by simp [Pc.Waiting])
      (fun h => silent h)⟩
  | fail sleeps => simp [State.wakes, stopped] at sleeps
  | wait =>
    exact ⟨stopped, heard.goto (s := { s with mtx := none }) (fun _ => Or.inl hpc)
      (fun h => silent h)⟩
  | check =>
    refine ⟨stopped, heard.goto ?_ (fun h => silent h)⟩
    simp [stopped, Pc.Waiting]
  | test wakes =>
    exact ⟨stopped, heard.goto (by simp [Pc.Waiting]) (fun h => silent h)⟩
  | waitFor e | endIteration | unlock e | leave =>
    exact ⟨stopped, heard.goto (s := { s with mtx := none }) (by simp [Pc.Waiting])
      (fun h => silent h)⟩
  | pop e now =>
    exact ⟨stopped, heard.goto (s := { s with timerQueue := _, taken := _ })
      (by simp [Pc.Waiting]) (fun h => silent h)⟩
  | callPosted e task htask | callForward e r htask =>
    exact ⟨stopped, heard.goto (s := { s with ran := _ }) (by simp [Pc.Waiting])
      (fun h => silent h)⟩

omit [DecidableEq τ] in
private theorem post_heard {s next : State A τ} {a : A} {inRun : Bool} {pc : PostPc τ}
    (sound : s.bag.Sound InternalS.timePoint) (heard : s.Heard) (stopped : s.isRunning = false)
    (hpc : s.pc a = .post inRun pc) (h : PostStep s a inRun pc next) :
    next.isRunning = false ∧ next.Heard := by
  cases h with
  | lock task timePoint free =>
    exact ⟨stopped, heard.goto (s := { s with mtx := some a }) (by simp [Pc.Waiting])
      (fun _ => rfl)⟩
  | push task timePoint =>
    exact ⟨stopped, heard.goto (s := { s with timerQueue := _, pushed := _ })
      (by simp [Pc.Waiting]) (fun _ => rfl)⟩
  | notify =>
    refine ⟨stopped, Or.inl fun b waiting => ?_⟩
    rw [State.goto_pc] at waiting
    split at waiting
    · simp [Pc.Waiting] at waiting
    · rename_i hba
      -- a thread that is about to sleep has the lock, which the one that notifies holds
      have wait := Pc.notified_waiting waiting
      have holds_b : (s.bag.phase b).Holds := by simp [State.bag, wait, Pc.phase,
        LeastFirst.Phase.Holds]
      have holds_a : (s.bag.phase a).Holds := by simp [State.bag, hpc, Pc.phase,
        LeastFirst.Phase.Holds]
      exact hba (sound.eq_of_holds holds_a holds_b)
  | unlock =>
    exact ⟨stopped, heard.goto (s := { s with mtx := none })
      (fun h => absurd h (returned_not_waiting inRun)) (by simp [hpc, Pc.willNotify])⟩
  | canceled r free missing =>
    exact ⟨stopped, heard.goto (fun h => absurd h (returned_not_waiting inRun))
      (by simp [hpc, Pc.willNotify])⟩
  | erase id free =>
    exact ⟨stopped, heard.goto (s := { s with repeatedSet := _ })
      (fun h => absurd h (returned_not_waiting inRun)) (by simp [hpc, Pc.willNotify])⟩
  | nextId task delta repeatNum =>
    exact ⟨stopped, heard.goto (s := { s with repeatedTaskId := _ }) (by simp [Pc.Waiting])
      (by simp [hpc, Pc.willNotify])⟩
  | insert r free =>
    exact ⟨stopped, heard.goto (s := { s with repeatedSet := _ }) (by simp [Pc.Waiting])
      (by simp [hpc, Pc.willNotify])⟩
  | repost r more | ended r zero | find r free found | call r =>
    exact ⟨stopped, heard.goto (by simp [Pc.Waiting]) (by simp [hpc, Pc.willNotify])⟩

/-- Once the flag has fallen nobody starts to wait, and who waits will be notified. -/
theorem step_heard {s next : State A τ} {l : Label A τ}
    (sound : s.bag.Sound InternalS.timePoint) (heard : s.Heard) (stopped : s.isRunning = false)
    (notStarted : l ≠ .outside (.store true)) (h : step s l = some next) :
    next.isRunning = false ∧ next.Heard := by
  cases step_cases h with
  | store running =>
    cases running with
    | true => exact absurd rfl notStarted
    | false => exact ⟨rfl, heard⟩
  | notifyAll => exact ⟨stopped, heard.announced⟩
  | run a pc hpc h => exact run_heard heard stopped hpc h
  | post a inRun pc hpc h => exact post_heard sound heard stopped hpc h
  | throws a inRun r hpc =>
    exact ⟨stopped, heard.goto (fun h => absurd h (returned_not_waiting inRun))
      (by simp [hpc, Pc.willNotify])⟩
  | enter a hpc | call a k hpc | top a e hpc top | early a e now hpc early
  | due a e now hpc due | date a inRun task delta now hpc | spuriousWait a hpc
  | spuriousWaitFor a e hpc | timeout a e hpc =>
    exact ⟨stopped, heard.goto (by simp [Pc.Waiting]) (by simp [hpc, Pc.willNotify])⟩

end Waiters

namespace Service

variable {C τ : Type}

/-- `Stop` has stored false and not yet joined the executor. -/
def Stopping (s : Service C τ) : Prop := s.stop = .stopExecutor ∨ s.stop = .stopping

/-- `Stop` waits to join a thread that sleeps on an empty queue, and nobody is about to
notify it. -/
def Deadlocked (s : Service C τ) : Prop :=
  ∃ i, s.stop = .stopping ∧ s.executor.owner = .join i ∧
    s.timer.pc (.worker i) = .run .asleep ∧ s.timer.timerQueue = [] ∧
    ∀ a, (s.timer.pc a).willNotify = false

/-- When `Stop` stores false no thread waits for an entry that nobody is about to push, and no
`Start` stores true before `Stop` has joined the executor. -/
def StopsAwake (s : Service C τ) : Label C τ → Prop
  | .stopper => s.stop = .storeStopped → s.timer.Heard
  | .starter c => s.start c = .storeRunning → ¬ s.Stopping
  | _ => True

theorem initial_not_stopping : ¬ (initial : Service C τ).Stopping := by
  rintro (h | h) <;> cases h

variable [DecidableEq C] [DecidableEq τ]

/-- What a step does to the timer, and when `Start` and `Stop` store its flag. -/
inductive Served (s : Service C τ) : Label C τ → Service C τ → Prop
  | same (a : Label C τ) {next : Service C τ} : next.timer = s.timer →
      (next.Stopping → s.Stopping) → Served s a next
  | moved (a : Label C τ) (l : Timer.Label (Agent C) τ) {next : Service C τ} :
      Timer.step s.timer l = some next.timer → l ≠ .outside (.store true) →
      (next.Stopping → s.Stopping) → Served s a next
  | started (c : C) {next : Service C τ} : s.start c = .storeRunning →
      next.timer = { s.timer with isRunning := true } → next.stop = s.stop →
      Served s (.starter c) next
  | stopped {next : Service C τ} : s.stop = .storeStopped →
      next.timer = { s.timer with isRunning := false } → Served s .stopper next

omit [DecidableEq τ] in
theorem ofExecutor_eq_some {s next : Service C τ} {l : ThreadPool.Label C Unit}
    (h : s.ofExecutor l = some next) :
    next.timer = s.timer ∧ next.start = s.start ∧ next.stop = s.stop := by
  obtain ⟨executor, -, rfl⟩ := Option.map_eq_some_iff.mp h
  exact ⟨rfl, rfl, rfl⟩

theorem ofTimer_eq_some {s next : Service C τ} {l : Timer.Label (Agent C) τ}
    (h : s.ofTimer l = some next) :
    Timer.step s.timer l = some next.timer ∧ next.start = s.start ∧ next.stop = s.stop := by
  obtain ⟨timer, htimer, rfl⟩ := Option.map_eq_some_iff.mp h
  exact ⟨htimer, rfl, rfl⟩

omit [DecidableEq C] [DecidableEq τ] in
theorem stopping_congr {s next : Service C τ} (same : next.stop = s.stop)
    (h : next.Stopping) : s.Stopping := by
  unfold Stopping at h ⊢
  rwa [same] at h

theorem ofExecutor_served {s next : Service C τ} {l : ThreadPool.Label C Unit} (a : Label C τ)
    (h : s.ofExecutor l = some next) : Served s a next := by
  obtain ⟨timer, -, stop⟩ := ofExecutor_eq_some h
  exact .same a timer (stopping_congr stop)

private theorem starter_served {s next : Service C τ} {c : C} (h : starterStep s c = some next) :
    Served s (.starter c) next := by
  cases hpc : s.start c with
  | idle => simp [starterStep, hpc] at h
  | storeRunning =>
    simp only [starterStep, hpc] at h
    obtain ⟨mid, hmid, rfl⟩ := Option.map_eq_some_iff.mp h
    obtain ⟨timer, htimer, rfl⟩ := Option.map_eq_some_iff.mp hmid
    obtain rfl := Option.some.inj htimer
    exact .started c hpc rfl rfl
  | startExecutor | addTask =>
    simp only [starterStep, hpc] at h
    obtain ⟨mid, hmid, rfl⟩ := Option.map_eq_some_iff.mp h
    obtain ⟨timer, -, stop⟩ := ofExecutor_eq_some hmid
    exact .same _ timer (stopping_congr stop)
  | starting | adding =>
    simp only [starterStep, hpc] at h
    split at h
    · obtain rfl := Option.some.inj h
      exact .same _ rfl (stopping_congr rfl)
    · cases h

private theorem stopper_served {s next : Service C τ} (h : stopperStep s = some next) :
    Served s .stopper next := by
  cases hpc : s.stop with
  | idle => simp [stopperStep, hpc] at h
  | storeStopped =>
    simp only [stopperStep, hpc] at h
    obtain ⟨mid, hmid, rfl⟩ := Option.map_eq_some_iff.mp h
    obtain ⟨timer, htimer, rfl⟩ := Option.map_eq_some_iff.mp hmid
    obtain rfl := Option.some.inj htimer
    exact .stopped hpc rfl
  | stopExecutor =>
    simp only [stopperStep, hpc] at h
    obtain ⟨mid, hmid, rfl⟩ := Option.map_eq_some_iff.mp h
    exact .same _ (ofExecutor_eq_some hmid).1 (fun _ => Or.inl hpc)
  | stopping =>
    simp only [stopperStep, hpc] at h
    split at h
    · obtain rfl := Option.some.inj h
      exact .same _ rfl (fun _ => Or.inr hpc)
    · cases h
  | notify =>
    simp only [stopperStep, hpc] at h
    obtain ⟨mid, hmid, rfl⟩ := Option.map_eq_some_iff.mp h
    refine .moved _ (.outside .notifyAll) (ofTimer_eq_some hmid).1 (by simp) ?_
    rintro (stopping | stopping) <;> cases stopping

private theorem worker_served {s next : Service C τ} {i : Nat} (h : workerStep s i = some next) :
    Served s (.executor (.worker i)) next := by
  unfold workerStep at h
  split at h
  · obtain ⟨mid, hmid, h⟩ := Option.bind_eq_some_iff.mp h
    obtain ⟨timer, -, stop⟩ := ofExecutor_eq_some hmid
    obtain ⟨entered, -, stop'⟩ := ofTimer_eq_some h
    exact .moved _ _ (timer ▸ entered) (by simp) (stopping_congr (stop'.trans stop))
  · split at h
    · exact ofExecutor_served _ h
    · cases h
  · exact ofExecutor_served _ h

theorem step_served {s next : Service C τ} {a : Label C τ} (h : step s a = some next) :
    Served s a next := by
  cases a with
  | start c =>
    simp only [step] at h
    split at h
    · obtain rfl := Option.some.inj h
      exact .same _ rfl (stopping_congr rfl)
    · cases h
  | starter c => exact starter_served h
  | stop =>
    simp only [step] at h
    split at h
    · obtain rfl := Option.some.inj h
      refine .same _ rfl ?_
      rintro (stopping | stopping) <;> cases hrun : s.timer.isRunning <;> simp [hrun] at stopping
    · cases h
  | stopper => exact stopper_served h
  | executor l =>
    cases l with
    | worker i => exact worker_served h
    | owner | caller c | spurious i => exact ofExecutor_served _ h
    | start | stop | call c k => cases h
  | call c k =>
    simp only [step] at h
    split at h
    · obtain ⟨moved, -, stop⟩ := ofTimer_eq_some h
      exact .moved _ _ moved (by simp) (stopping_congr stop)
    · cases h
  | timer l =>
    simp only [step] at h
    obtain ⟨inside, h⟩ := Option.ite_none_right_eq_some.mp h
    obtain ⟨moved, -, stop⟩ := ofTimer_eq_some h
    refine .moved _ l moved ?_ (stopping_congr stop)
    rintro rfl
    cases inside

/-- While `Stop` waits for the executor, the flag is down and whoever waits will be notified. -/
structure Told (s : Service C τ) : Prop where
  orderly : s.timer.Orderly
  heard : s.Stopping → s.timer.isRunning = false ∧ s.timer.Heard

theorem step_told {s next : Service C τ} {a : Label C τ} (inv : s.Told) (guard : StopsAwake s a)
    (h : step s a = some next) : next.Told := by
  cases step_served h with
  | same a timer stop =>
    refine ⟨timer ▸ inv.orderly, fun stopping => ?_⟩
    rw [timer]
    exact inv.heard (stop stopping)
  | moved a l moved other stop =>
    refine ⟨step_orderly inv.orderly moved, fun stopping => ?_⟩
    obtain ⟨stopped, heard⟩ := inv.heard (stop stopping)
    exact step_heard inv.orderly.sound heard stopped other moved
  | started c hpc timer stop =>
    have stored : Timer.step s.timer (.outside (.store true)) = some next.timer := by
      rw [timer]
      rfl
    refine ⟨step_orderly inv.orderly stored, fun stopping => ?_⟩
    exact absurd (stopping_congr stop stopping) (guard hpc)
  | stopped hpc timer =>
    have stored : Timer.step s.timer (.outside (.store false)) = some next.timer := by
      rw [timer]
      rfl
    refine ⟨step_orderly inv.orderly stored, fun _ => ?_⟩
    rw [timer]
    exact ⟨rfl, guard hpc⟩

/-- If no thread waits for an entry when `Stop` stores false, or one that will notify is on its
way, then `Stop` never waits for a thread that sleeps on an empty queue. -/
theorem timerStop_wakes (as : List (Label C τ)) (s : Service C τ)
    (meets : Meets step StopsAwake initial as) (hrun : run step initial as = some s) :
    ¬ s.Deadlocked := by
  have start : (initial : Service C τ).Told :=
    ⟨initial_orderly, fun stopping => absurd stopping initial_not_stopping⟩
  have told : s.Told :=
    run_invariant (fun _ _ _ inv guard hstep => step_told inv guard hstep) start meets hrun
  rintro ⟨i, stopping, -, asleep, -, silent⟩
  rcases (told.heard (Or.inr stopping)).2 with awake | ⟨a, ha⟩
  · exact awake (.worker i) (Or.inr asleep)
  · rw [silent a] at ha
    cases ha

def startTimer : List (Label Unit Nat) :=
  [.start (), .starter (), .starter (), .executor .owner, .executor .owner, .executor .owner,
    .starter (), .starter (), .executor (.caller ()), .executor (.caller ()),
    .executor (.caller ()), .executor (.caller ()), .starter ()]

def stopTimer : List (Label Unit Nat) :=
  [.stop, .stopper, .stopper, .executor .owner, .executor .owner]

/-- `PostDelayedTask` of task 7, a second from a clock that reads 0. -/
def postTask : List (Label Unit Nat) :=
  .call () (.postDelayedTask 7 1000000) :: .timer (.clock (.caller ()) 0) ::
    List.replicate 4 (.timer (.thread (.caller ())))

def posted : InternalS Nat := ⟨0, .posted 7, 1000000000⟩

/-- The executor's thread enters `Run_`, finds the entry too early and waits for it. -/
def awaitTask : List (Label Unit Nat) :=
  List.replicate 6 (.executor (.worker 0)) ++ List.replicate 3 (.timer (.thread (.worker 0))) ++
    [.timer (.top (.worker 0) posted), .timer (.clock (.worker 0) 0),
      .timer (.thread (.worker 0))]

def Label.isStopper {C τ : Type} : Label C τ → Bool
  | .stopper => true
  | _ => false

theorem stopsAwake_before {C τ : Type} {s : Service C τ} {a : Label C τ}
    (h : s.stop = .idle ∧ a.isStopper = false) : StopsAwake s a := by
  obtain ⟨idle, other⟩ := h
  cases a with
  | stopper => cases other
  | starter c =>
    rintro - (stopping | stopping)
    · rw [idle] at stopping
      cases stopping
    · rw [idle] at stopping
      cases stopping
  | _ => trivial

theorem timerStop_wakes_awaiting :
    ∃ s : Service Unit Nat,
      run step initial (startTimer ++ postTask ++ awaitTask ++ stopTimer) = some s ∧
        s.executor.owner = .join 0 ∧ s.timer.pc (.worker 0) = .run (.timed posted) ∧
        ¬ s.Deadlocked := by
  obtain ⟨s, hs, joining, timed⟩ : ∃ s : Service Unit Nat,
      run step initial (startTimer ++ postTask ++ awaitTask ++ stopTimer) = some s ∧
        s.executor.owner = .join 0 ∧ s.timer.pc (.worker 0) = .run (.timed posted) :=
    ⟨_, rfl, rfl, rfl⟩
  have before : Meets step (fun (s : Service Unit Nat) a => s.stop = .idle ∧ a.isStopper = false)
      initial (startTimer ++ postTask ++ awaitTask) := by decide
  have meets : Meets step StopsAwake (initial : Service Unit Nat)
      (startTimer ++ postTask ++ awaitTask ++ stopTimer) := by
    refine (Machine.meets_append step _ _ _ _).mpr
      ⟨before.imp fun _ _ => stopsAwake_before, fun waiting hwaiting => ?_⟩
    obtain rfl := Option.some.inj hwaiting
    refine .cons trivial rfl (.cons (fun _ => Or.inl ?_) rfl (.cons (fun h => by cases h) rfl ?_))
    · rintro (i | c | _) (wait | asleep)
      · cases i <;> cases wait
      · cases i <;> cases asleep
      · cases wait
      · cases asleep
      · cases wait
      · cases asleep
    · exact .cons trivial rfl (.cons trivial rfl trivial)
  exact ⟨s, hs, joining, timed, timerStop_wakes _ s meets hs⟩

/-- The thread finds the queue empty and sleeps; then `Stop` stores false and joins it. -/
def sleepThenStopTimer : List (Label Unit Nat) :=
  startTimer ++ List.replicate 6 (.executor (.worker 0)) ++
    List.replicate 3 (.timer (.thread (.worker 0))) ++ stopTimer

theorem timerStop_deadlocks :
    ¬ ∀ (as : List (Label Unit Nat)) (s : Service Unit Nat),
      run step initial as = some s → ¬ s.Deadlocked := by
  intro always
  obtain ⟨s, hs, deadlocked⟩ : ∃ s : Service Unit Nat,
      run step initial sleepThenStopTimer = some s ∧ s.Deadlocked := by
    refine ⟨_, rfl, 0, rfl, rfl, rfl, rfl, ?_⟩
    intro a
    cases a with
    | worker i => cases i <;> rfl
    | caller c | owner => rfl
  exact always sleepThenStopTimer s hs deadlocked

end Service

end FlashLog.Scheduler.Timer
