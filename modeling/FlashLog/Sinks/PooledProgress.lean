import FlashLog.Support.Potential
import FlashLog.Scheduler.PoolProgress
import FlashLog.Sinks.PooledRefinement

/-!
On a running executor the calls of a sink return. Every step of a thread, of a call on the pool
and of the pool's thread uses up a part of the work that is left, and a state in which none of
them can take a step is at rest: no thread is in a call, no task is left, and no wait is in vain.
-/

set_option autoImplicit false
set_option relaxedAutoImplicit false

namespace FlashLog.Sinks.Pooled

open FlashLog.Support
open FlashLog.Support.Machine (run Meets meets_of_forall run_preserves run_invariant)
open FlashLog.Support.Potential (sum_move gain run_length_le_countP)
open FlashLog.Scheduler
open FlashLog.Scheduler.ThreadPool (Pool Call Entry CallerPc)
open FlashLog.Sinks.DoubleBuffer (Kind Pipeline Caller Chunk Wait Pc Sink afterPost afterWait plain)

variable {T σ μ ι η : Type}

section Work

/-- A bound on the steps of a call on the pool, with the round it brings to the pool's thread. -/
def callWork : CallerPc (Job T) → Nat
  | .idle => 0
  | .waiting _ => 1
  | .notify _ _ => 6
  | .unlock _ _ => 7
  | .enqueue _ => 22
  | .lock _ => 23

def swapWork : Caller → Nat
  | .ctor | .log => 24
  | .flush => 48

def pcWork : Pc μ → Nat
  | .idle | .wait _ => 0
  | .mark .second => 24
  | .post k => swapWork k
  | .swap k => swapWork k + 1
  | .storeBusy k => swapWork k + 2
  | .loadFree k => swapWork k + 3
  | .needWrite => 28
  | .push _ => 29
  | .resetIfEmpty _ => 30
  | .mark .ctor => 51
  | .ctorMaster => 52
  | .mark .first => 75
  | .ctorPost => 76
  | .ctorBusy => 77
  | .ctorSlave => 78
  | .flushPost => 99

def threadWork (pc : Pc μ) (caller : CallerPc (Job T)) : Nat :=
  match caller with
  | .idle => pcWork pc
  | caller => pcWork (afterCall pc) + callWork caller

def cacheWork : DoubleBuffer.WorkerPc ι → Nat
  | .idle => 0
  | .store => 1
  | .clear => 2
  | .write _ => 3
  | .size => 4
  | .empty => 5
  | .load => 6

def serveWork : ThreadPool.WorkerPc (Job T) → Nat
  | .unborn | .asleep | .exited => 0
  | .wait | .leave | .dequeue => 1
  | .check => 2
  | .test => 3
  | .lock => 4
  | .finish _ => 5
  | .running _ => 6
  | .start _ => 13
  | .unlock _ => 14

/-- The work that is left to the threads, the timer and the pool's thread. -/
def System.work [Fintype T] (s : System T σ μ ι η) : Nat :=
  ∑ t, threadWork (s.sink.pc t) (s.executor.caller (.caller t)) +
    callWork (s.executor.caller .timer) + serveWork (s.executor.worker 0) +
    cacheWork s.sink.worker + 14 * s.executor.taskQueue.length

theorem serveWork_notified (pc : ThreadPool.WorkerPc (Job T)) :
    serveWork pc.notified ≤ serveWork pc + 4 := by
  cases pc <;> simp [ThreadPool.WorkerPc.notified, serveWork]

theorem pcWork_afterCall {pc : Pc μ} {t : T} {k : Call (Job T)} (h : posts pc t = some k) :
    pcWork pc = pcWork (afterCall pc) + 24 := by
  cases pc with
  | post k => cases k <;> rfl
  | mark w => cases w <;> rfl
  | flushPost | ctorPost => rfl
  | _ => simp [posts] at h

theorem threadStep_pcWork_lt [DecidableEq T] {P : Pipeline σ μ ι η} {s next : Sink T σ μ ι η}
    {t : T} {filled : Bool} (quiet : posts (s.pc t) t = none) (apart : ∀ w, s.pc t ≠ .wait w)
    (h : DoubleBuffer.threadStep P s t filled = some next) :
    pcWork (next.pc t) < pcWork (s.pc t) := by
  cases DoubleBuffer.threadStep_cases h with
  | wait w hpc => exact absurd hpc (apart w)
  | mark w hpc | post k hpc | flushPost hpc | ctorPost hpc => simp [hpc, posts] at quiet
  | ctorMaster hpc => split <;> simp [Sink.goto, hpc, pcWork]
  | needWrite hpc | loadFree k hpc | ctorSlave hpc =>
    simp only [Sink.goto, Function.update_self, hpc]
    split <;> simp [pcWork, swapWork]
  | resetIfEmpty m hpc | fail m stream hpc | push m stream x hpc | storeBusy k hpc | swap k hpc
  | ctorBusy hpc => simp [Sink.goto, hpc, pcWork]

def posterWork (s : System T σ μ ι η) : Poster T → Nat
  | .caller t => threadWork (s.sink.pc t) (s.executor.caller (.caller t))
  | .timer => callWork (s.executor.caller .timer)

variable [DecidableEq T] [Fintype T]

theorem work_of_poster {s next : System T σ μ ι η} {p : Poster T}
    (others : ∀ q, q ≠ p → posterWork next q = posterWork s q)
    (worker : next.sink.worker = s.sink.worker) :
    next.work + posterWork s p + serveWork (s.executor.worker 0) +
        14 * s.executor.taskQueue.length =
      s.work + posterWork next p + serveWork (next.executor.worker 0) +
        14 * next.executor.taskQueue.length := by
  simp only [System.work, worker]
  cases p with
  | timer =>
    have threads : ∑ t, threadWork (next.sink.pc t) (next.executor.caller (.caller t)) =
        ∑ t, threadWork (s.sink.pc t) (s.executor.caller (.caller t)) :=
      Finset.sum_congr rfl fun t _ => others (.caller t) (by simp)
    simp only [posterWork]
    omega
  | caller t =>
    have timer : callWork (next.executor.caller .timer) = callWork (s.executor.caller .timer) :=
      others .timer (by simp)
    have threads := sum_move (f := fun t => posterWork s (.caller t))
      (g := fun t => posterWork next (.caller t)) (t := t)
      fun u hu => others (.caller u) (by simpa using hu)
    simp only [posterWork] at threads ⊢
    omega

omit [Fintype T] in
theorem posterStep_work {s : System T σ μ ι η} {p : Poster T} {pc : CallerPc (Job T)}
    {executor : Pool (Poster T) (Job T)} (busy : s.executor.caller p ≠ .idle)
    (caller : executor.caller = Function.update s.executor.caller p pc) :
    (∀ q, q ≠ p → posterWork { executor, sink := resumed s.sink p (executor.caller p) } q =
        posterWork s q) ∧
      posterWork { executor, sink := resumed s.sink p (executor.caller p) } p +
          callWork (s.executor.caller p) = posterWork s p + callWork pc := by
  have now : executor.caller p = pc := by rw [caller, Function.update_self]
  rw [now]
  refine ⟨?_, ?_⟩
  · intro q hq
    have same : executor.caller q = s.executor.caller q := by
      rw [caller, Function.update_of_ne hq]
    cases q with
    | timer => simp only [posterWork, same]
    | caller u =>
      have stays : (resumed s.sink p pc).pc u = s.sink.pc u := by
        unfold resumed
        split
        · exact Function.update_of_ne (fun h => hq (congrArg Poster.caller h)) _ _
        · rfl
      simp only [posterWork, same, stays]
  · cases p with
    | timer => simp only [posterWork, now]; omega
    | caller t =>
      have before : posterWork s (.caller t) =
          pcWork (afterCall (s.sink.pc t)) + callWork (s.executor.caller (.caller t)) := by
        rw [posterWork]
        cases hpc : s.executor.caller (.caller t) with
        | idle => exact absurd hpc busy
        | _ => rfl
      rw [before]
      cases pc with
      | idle =>
        have resumes : (returned s.sink t).pc t = afterCall (s.sink.pc t) :=
          Function.update_self ..
        simp only [posterWork, now, resumed, threadWork, resumes, callWork]
        omega
      | _ =>
        simp only [posterWork, now, resumed, threadWork]
        omega

theorem poster_work_lt {s next : System T σ μ ι η} {p : Poster T}
    (h : posterStep s p = some next) : next.work < s.work := by
  obtain ⟨executor, hstep, rfl⟩ := Option.map_eq_some_iff.mp h
  have worker : (resumed s.sink p (executor.caller p)).worker = s.sink.worker := by
    unfold resumed
    split <;> rfl
  have balance {pc : CallerPc (Job T)} (busy : s.executor.caller p ≠ .idle)
      (caller : executor.caller = Function.update s.executor.caller p pc) :
      System.work { executor, sink := resumed s.sink p (executor.caller p) } +
          callWork (s.executor.caller p) + serveWork (s.executor.worker 0) +
          14 * s.executor.taskQueue.length =
        s.work + callWork pc + serveWork (executor.worker 0) +
          14 * executor.taskQueue.length := by
    obtain ⟨others, own⟩ := posterStep_work busy caller
    have eq := work_of_poster others worker
    simp only at eq own
    omega
  cases ThreadPool.callerStep_cases hstep with
  | lock k hpc free =>
    have eq := balance (by simp [hpc]) rfl
    simp only [Pool.setCaller, hpc, callWork] at eq ⊢
    omega
  | enqueue k hpc =>
    have eq := balance (by simp [hpc]) rfl
    simp only [Pool.setCaller, hpc, callWork, List.length_append, List.length_singleton] at eq ⊢
    omega
  | unlock k n hpc =>
    have eq := balance (by simp [hpc]) rfl
    simp only [Pool.setCaller, hpc, callWork] at eq ⊢
    omega
  | waiting n hpc ready =>
    have eq := balance (by simp [hpc]) rfl
    simp only [Pool.setCaller, hpc, callWork] at eq ⊢
    omega
  | notify k n hpc =>
    have eq := balance (by simp [hpc]) rfl
    have woken := serveWork_notified (s.executor.worker 0)
    have after : callWork (k.after n) ≤ 1 := by
      cases k with
      | addTask task => exact Nat.zero_le 1
      | addReturnTask task waits => cases waits <;> simp [Call.after, callWork]
    have before : callWork (s.executor.caller p) = 6 := by rw [hpc]; rfl
    simp only [Pool.setCaller, Pool.notifyAll, before] at eq ⊢
    omega

theorem thread_work_lt {P : Pipeline σ μ ι η} {s next : System T σ μ ι η} {t : T} {filled : Bool}
    (linked : s.Linked) (h : threadStep P s t filled = some next) : next.work < s.work := by
  unfold threadStep at h
  split at h
  · rename_i k asked
    obtain ⟨executor, hstep, rfl⟩ := Option.map_eq_some_iff.mp h
    cases ThreadPool.step_cases hstep with
    | call p k hpc =>
      have others : ∀ q, q ≠ .caller t →
          posterWork { s with executor := s.executor.setCaller (.caller t) (.lock k) } q =
            posterWork s q := by
        intro q hq
        cases q with
        | timer => simp [posterWork, Pool.setCaller]
        | caller u => simp only [posterWork, Pool.setCaller, Function.update_of_ne hq]
      have eq := work_of_poster others rfl
      have price := pcWork_afterCall asked
      simp only [posterWork, Pool.setCaller, Function.update_self, hpc, threadWork, callWork]
        at eq ⊢
      omega
  · rename_i quiet
    obtain ⟨sink, hstep, rfl⟩ := Option.map_eq_some_iff.mp h
    obtain ⟨others, worker, -⟩ := threadStep_frame quiet (linked.apart t) hstep
    have less := threadStep_pcWork_lt quiet (linked.apart t) hstep
    have idle := linked.idle quiet
    have others' : ∀ q, q ≠ .caller t → posterWork { s with sink } q = posterWork s q := by
      intro q hq
      cases q with
      | timer => rfl
      | caller u =>
        have stays := others u (fun h => hq (congrArg Poster.caller h))
        simp only [posterWork, stays]
    have eq := work_of_poster others' worker
    simp only [posterWork, idle, threadWork] at eq
    omega

theorem worker_work_lt {P : Pipeline σ μ ι η} {s next : System T σ μ ι η}
    (h : workerStep P s = some next) : next.work < s.work := by
  unfold workerStep at h
  split at h
  · rename_i idle
    obtain ⟨executor, hstep, rfl⟩ := Option.map_eq_some_iff.mp h
    have begins : cacheWork (begun (s.executor.worker 0) : DoubleBuffer.WorkerPc ι) ≤ 6 := by
      rcases begun_eq_idle_or (ι := ι) (s.executor.worker 0) with quiet | ⟨quiet, -⟩ <;>
        rw [quiet] <;> simp [cacheWork]
    cases ThreadPool.workerStep_cases hstep with
    | start e hpc =>
      simp only [System.work, Pool.setWorker, hpc, Function.update_self, serveWork, idle, cacheWork]
        at begins ⊢
      omega
    | check hpc =>
      cases hrun : s.executor.isRunning <;>
        simp only [System.work, Pool.setWorker, hpc, Function.update_self, hrun, Bool.false_eq_true,
          if_true, if_false, begun, idle, serveWork, cacheWork] <;>
        omega
    | dequeue e rest hpc hqueue =>
      simp only [System.work, Pool.setWorker, hpc, Function.update_self, hqueue, List.length_cons,
        begun, idle, serveWork, cacheWork]
      omega
    | lock hpc | test hpc | fail hpc | wait hpc | leave hpc | unlock e hpc | running e hpc
    | finish e hpc =>
      simp only [System.work, Pool.setWorker, hpc, Function.update_self, begun, idle, serveWork,
        cacheWork]
      omega
  · rename_i busy
    obtain ⟨sink, hstep, rfl⟩ := Option.map_eq_some_iff.mp h
    simp only [System.work]
    cases DoubleBuffer.workerStep_cases hstep with
    | take queue idle => exact absurd idle busy
    | wake t queue idle => exact absurd idle busy
    | load hworker | empty hworker =>
      simp only [hworker]
      split <;> simp [cacheWork]
    | size hworker | write sized hworker | clear hworker | store hworker =>
      simp [hworker, cacheWork]

theorem spurious_work_le {s next : System T σ μ ι η} (h : poolStep s (.spurious 0) = some next) :
    next.work ≤ s.work + 4 := by
  obtain ⟨executor, hstep, rfl⟩ := Option.map_eq_some_iff.mp h
  cases ThreadPool.step_cases hstep with
  | spurious i hpc =>
    simp only [System.work, Pool.setWorker, hpc, Function.update_self, serveWork]
    omega

end Work

section Rest

variable [DecidableEq T]

def Label.Inner : Label T μ → Prop
  | .thread _ _ | .poster _ | .worker | .spurious => True
  | _ => False

instance Label.Inner.decidable : (a : Label T μ) → Decidable a.Inner
  | .thread _ _ | .poster _ | .worker | .spurious => isTrue trivial
  | .log _ _ | .flush _ | .eliminateFiles | .start | .stop | .owner => isFalse id

def Label.isSpurious : Label T μ → Bool
  | .spurious => true
  | _ => false

theorem step_executor {kind : Kind} {P : Pipeline σ μ ι η} {s next : System T σ μ ι η}
    {a : Label T μ} (h : step kind P s a = some next) :
    next.executor = s.executor ∨ ∃ b, ThreadPool.step s.executor b = some next.executor := by
  have ofPool {b : ThreadPool.Label (Poster T) (Job T)} {next : System T σ μ ι η}
      (h : poolStep s b = some next) : ThreadPool.step s.executor b = some next.executor := by
    obtain ⟨executor, hstep, rfl⟩ := Option.map_eq_some_iff.mp h
    exact hstep
  cases a with
  | log t m | flush t =>
    obtain ⟨sink, -, rfl⟩ := Option.map_eq_some_iff.mp h
    exact Or.inl rfl
  | thread t filled =>
    change threadStep P s t filled = some next at h
    unfold threadStep at h
    split at h
    · exact Or.inr ⟨_, ofPool h⟩
    · obtain ⟨sink, -, rfl⟩ := Option.map_eq_some_iff.mp h
      exact Or.inl rfl
  | poster p =>
    obtain ⟨executor, hstep, rfl⟩ := Option.map_eq_some_iff.mp h
    exact Or.inr ⟨.caller p, hstep⟩
  | eliminateFiles => exact Or.inr ⟨_, ofPool (Option.ite_none_right_eq_some.mp h).2⟩
  | worker =>
    change workerStep P s = some next at h
    unfold workerStep at h
    split at h
    · obtain ⟨executor, hstep, rfl⟩ := Option.map_eq_some_iff.mp h
      exact Or.inr ⟨.worker 0, hstep⟩
    · obtain ⟨sink, -, rfl⟩ := Option.map_eq_some_iff.mp h
      exact Or.inl rfl
  | spurious | start | stop | owner => exact Or.inr ⟨_, ofPool h⟩

structure System.Regular (s : System T σ μ ι η) : Prop where
  linked : s.Linked
  pool : s.executor.Regular

theorem step_regular {kind : Kind} {P : Pipeline σ μ ι η} (s : System T σ μ ι η) (a : Label T μ)
    (next : System T σ μ ι η) (inv : s.Regular) (h : step kind P s a = some next) :
    next.Regular := by
  refine ⟨step_linked inv.linked h, ?_⟩
  rcases step_executor h with same | ⟨b, hb⟩
  · rw [same]
    exact inv.pool
  · exact ThreadPool.step_regular inv.pool hb

theorem inner_running {kind : Kind} {P : Pipeline σ μ ι η} {s next : System T σ μ ι η}
    {a : Label T μ} (inner : a.Inner) (running : s.executor.Running)
    (h : step kind P s a = some next) : next.executor.Running := by
  suffices same : next.executor.isRunning = s.executor.isRunning ∧
      next.executor.owner = s.executor.owner by
    rw [Pool.Running, same.1, same.2]
    exact running
  cases a with
  | thread t filled =>
    change threadStep P s t filled = some next at h
    unfold threadStep at h
    split at h
    · obtain ⟨executor, hstep, rfl⟩ := Option.map_eq_some_iff.mp h
      cases ThreadPool.step_cases hstep
      exact ⟨rfl, rfl⟩
    · obtain ⟨sink, -, rfl⟩ := Option.map_eq_some_iff.mp h
      exact ⟨rfl, rfl⟩
  | poster p =>
    obtain ⟨executor, hstep, rfl⟩ := Option.map_eq_some_iff.mp h
    cases ThreadPool.callerStep_cases hstep <;> exact ⟨rfl, rfl⟩
  | worker =>
    change workerStep P s = some next at h
    unfold workerStep at h
    split at h
    · obtain ⟨executor, hstep, rfl⟩ := Option.map_eq_some_iff.mp h
      cases ThreadPool.workerStep_cases hstep <;> exact ⟨rfl, rfl⟩
    · obtain ⟨sink, -, rfl⟩ := Option.map_eq_some_iff.mp h
      exact ⟨rfl, rfl⟩
  | spurious =>
    obtain ⟨executor, hstep, rfl⟩ := Option.map_eq_some_iff.mp h
    cases ThreadPool.step_cases hstep
    exact ⟨rfl, rfl⟩
  | log t m | flush t | eliminateFiles | start | stop | owner => exact absurd inner id

/-- No thread is in a call on the sink, no task is left, and every task has run to its end. -/
structure System.AtRest (s : System T σ μ ι η) : Prop where
  returned : ∀ t, s.sink.pc t = .idle
  callers : ∀ p, s.executor.caller p = .idle
  worker : s.sink.worker = .idle
  empty : s.executor.taskQueue = []
  finished : ∀ e ∈ s.executor.enqueued, e ∈ s.executor.finished

def System.Stuck (kind : Kind) (P : Pipeline σ μ ι η) (s : System T σ μ ι η) : Prop :=
  ∀ a : Label T μ, a.Inner → step kind P s a = none

theorem threadStep_isSome (P : Pipeline σ μ ι η) {s : Sink T σ μ ι η} {t : T}
    (busy : s.pc t ≠ .idle) (apart : ∀ w, s.pc t ≠ .wait w) :
    (DoubleBuffer.threadStep P s t false).isSome := by
  cases hpc : s.pc t with
  | idle => exact absurd hpc busy
  | wait w => exact absurd hpc (apart w)
  | push m =>
    simp only [DoubleBuffer.threadStep, hpc]
    split <;> rfl
  | _ => simp [DoubleBuffer.threadStep, hpc]

theorem workerStep_isSome (P : Pipeline σ μ ι η) {s : Sink T σ μ ι η} (busy : s.worker ≠ .idle) :
    (DoubleBuffer.workerStep P s).isSome := by
  cases hworker : s.worker with
  | idle => exact absurd hworker busy
  | _ => simp [DoubleBuffer.workerStep, hworker]

theorem quiet_of_stuck {s : Pool (Poster T) (Job T)}
    (stuck : ∀ p, ThreadPool.callerStep s p = none) : s.Quiet := by
  intro p
  have none := stuck p
  cases hpc : s.caller p with
  | idle | lock k | waiting n => exact ⟨rfl, rfl⟩
  | enqueue k | unlock k n | notify k n => simp [ThreadPool.callerStep, hpc] at none

omit [DecidableEq T] in
theorem free_of_quiet {s : Pool (Poster T) (Job T)} (inv : s.Regular) (quiet : s.Quiet)
    (resting : ∀ i, s.worker i = .asleep ∨ s.worker i = .unborn) : s.mtx = none := by
  cases hmtx : s.mtx with
  | none => rfl
  | some a =>
    have held := inv.occupied a hmtx
    cases a with
    | worker i =>
      have away : s.view.phase (.worker i) = (s.worker i).phase := rfl
      rcases resting i with hpc | hpc <;> rw [away, hpc] at held <;>
        simp [ThreadPool.WorkerPc.phase] at held
    | caller p =>
      have away : s.view.phase (.caller p) = .away := (quiet p).1
      rw [away] at held
      simp at held
    | owner =>
      have away : s.view.phase .owner = .away := rfl
      rw [away] at held
      simp at held

theorem System.Regular.atRest {kind : Kind} {P : Pipeline σ μ ι η} {s : System T σ μ ι η}
    (inv : s.Regular) (running : s.executor.Running) (stuck : s.Stuck kind P) : s.AtRest := by
  have single := inv.linked.stranded.single
  have sinkIdle : s.sink.worker = .idle := by
    by_contra busy
    have halted : workerStep P s = none := stuck .worker trivial
    obtain ⟨sink, hsink⟩ := Option.isSome_iff_exists.mp (workerStep_isSome P busy)
    unfold workerStep at halted
    split at halted
    · rename_i idle
      exact busy idle
    · rw [hsink] at halted
      cases halted
  have calls : ∀ p, ThreadPool.callerStep s.executor p = none := fun p =>
    Option.map_eq_none_iff.mp (stuck (.poster p) trivial)
  have quiet := quiet_of_stuck calls
  have beyond : ∀ i, i ≠ 0 → s.executor.worker i = .unborn := fun i hi =>
    inv.linked.stranded.mustered.absent i (Or.inl (by omega))
  have poolStuck : ∀ i, ThreadPool.workerStep s.executor i = none := by
    intro i
    by_cases first : i = 0
    · subst first
      have halted : workerStep P s = none := stuck .worker trivial
      unfold workerStep at halted
      rw [sinkIdle] at halted
      exact Option.map_eq_none_iff.mp halted
    · simp [ThreadPool.workerStep, beyond i first]
  have asleep : s.executor.worker 0 = .asleep :=
    inv.pool.asleep running quiet poolStuck (by omega)
  obtain ⟨empty, finished⟩ := inv.pool.served running (by omega) quiet poolStuck
  have free : s.executor.mtx = none := by
    refine free_of_quiet inv.pool quiet fun i => ?_
    by_cases first : i = 0
    · exact Or.inl (first ▸ asleep)
    · exact Or.inr (beyond i first)
  have pending : s.executor.pending = [] := by
    rw [Pool.pending, asleep, empty]
    rfl
  have callers : ∀ p, s.executor.caller p = .idle := by
    intro p
    have halted := calls p
    cases hpc : s.executor.caller p with
    | idle => rfl
    | lock k => simp [ThreadPool.callerStep, hpc, free] at halted
    | enqueue k | unlock k n | notify k n => simp [ThreadPool.callerStep, hpc] at halted
    | waiting n =>
      -- the empty task it waits for is not pending, so its future is ready
      obtain ⟨t, w, rfl, hw⟩ := inv.linked.waits p n hpc
      obtain ⟨e, he, rfl, packaged, -⟩ := inv.linked.marked t w n hw (by rw [hpc]; rfl)
      have ready : e.ticket ∈ s.executor.ready :=
        (inv.linked.futures e he).mpr ⟨packaged, by simp [pending]⟩
      simp [ThreadPool.callerStep, hpc, ready] at halted
  refine ⟨?_, callers, sinkIdle, empty, finished⟩
  intro t
  by_contra busy
  have halted : threadStep P s t false = none := stuck (.thread t false) trivial
  unfold threadStep at halted
  split at halted
  · rename_i k asked
    have called : ThreadPool.step s.executor (.call (.caller t) k) = none :=
      Option.map_eq_none_iff.mp halted
    simp [ThreadPool.step, callers] at called
  · have goes := threadStep_isSome P busy (inv.linked.apart t)
    rw [Option.map_eq_none_iff.mp halted] at goes
    cases goes

theorem step_work_le [Fintype T] {kind : Kind} {P : Pipeline σ μ ι η} {s next : System T σ μ ι η}
    {a : Label T μ} (inv : s.Regular) (inner : a.Inner) (h : step kind P s a = some next) :
    next.work + 1 ≤ s.work + gain 5 Label.isSpurious a := by
  cases a with
  | thread t filled => exact thread_work_lt inv.linked h
  | poster p => exact poster_work_lt h
  | worker => exact worker_work_lt h
  | spurious => exact Nat.succ_le_succ (spurious_work_le h)
  | log t m | flush t | eliminateFiles | start | stop | owner => exact absurd inner id

/-- On a running executor the calls of a sink return. From any reachable state, however its
threads, the timer's call and the pool's thread take turns, they take no more steps than there is
work, five for each spurious wake-up apart; and when none of them can take a step, every call has
returned and every task has been run to its end. -/
theorem pooledSink_returns [Fintype T] (kind : Kind) (P : Pipeline σ μ ι η) (t : T) (stream : σ)
    (masterFile slaveFile : List ι) (as bs : List (Label T μ)) (s s' : System T σ μ ι η)
    (h : run (step kind P) (initial kind t stream masterFile slaveFile) as = some s)
    (running : s.executor.Running) (inner : ∀ b ∈ bs, b.Inner)
    (h' : run (step kind P) s bs = some s') :
    bs.length ≤ s.work + 5 * bs.countP Label.isSpurious ∧ (s'.Stuck kind P → s'.AtRest) := by
  have start : s.Regular :=
    run_preserves System.Regular step_regular
      ⟨initial_linked kind t stream masterFile slaveFile, ThreadPool.initial_regular 1⟩ h
  have meets : Meets (step kind P) (fun _ b => b.Inner) s bs := meets_of_forall inner
  have kept : ∀ (s : System T σ μ ι η) (b : Label T μ) (next : System T σ μ ι η),
      s.Regular ∧ s.executor.Running → b.Inner → step kind P s b = some next →
        next.Regular ∧ next.executor.Running :=
    fun s b next inv inner hstep =>
      ⟨step_regular s b next inv.1 hstep, inner_running inner inv.2 hstep⟩
  obtain ⟨regular, running'⟩ := run_invariant kept ⟨start, running⟩ meets h'
  refine ⟨?_, regular.atRest running'⟩
  exact run_length_le_countP System.work 5 Label.isSpurious kept
    (fun s b next inv inner hstep => step_work_le inv.1 inner hstep) ⟨start, running⟩ meets h'

theorem pooledSink_returns_flush :
    ∃ s s', run (step .effective (plain Nat)) (initial .effective () () [] []) flushCalled =
        some s ∧ s.executor.Running ∧ run (step .effective (plain Nat)) s flushSteps = some s' ∧
      flushSteps.length ≤ s.work + 5 * flushSteps.countP Label.isSpurious ∧
      (s'.Stuck .effective (plain Nat) → s'.AtRest) := by
  have called : (run (step .effective (plain Nat)) (initial .effective () () [] [])
      flushCalled).map (fun s => (s.executor.isRunning, decide (s.executor.owner = .idle),
        (run (step .effective (plain Nat)) s flushSteps).isSome)) = some (true, true, true) := by
    decide +kernel
  obtain ⟨s, hs, facts⟩ := Option.map_eq_some_iff.mp called
  obtain ⟨running, owner, returns⟩ : s.executor.isRunning = true ∧ s.executor.owner = .idle ∧
      (run (step .effective (plain Nat)) s flushSteps).isSome = true := by simpa using facts
  obtain ⟨s', hs'⟩ := Option.isSome_iff_exists.mp returns
  refine ⟨s, s', hs, ⟨running, owner⟩, hs', ?_⟩
  exact pooledSink_returns .effective (plain Nat) () () [] [] flushCalled flushSteps s s' hs
    ⟨running, owner⟩ (by decide) hs'

end Rest

end FlashLog.Sinks.Pooled
