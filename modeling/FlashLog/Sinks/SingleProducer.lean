import Mathlib.Data.Fintype.Basic
import FlashLog.Sinks.Conservation

/-!
The double-buffer protocol with one calling thread. Every `Log` above the ratio posts
a task, also when it did not swap, so a surplus `CacheToFile_` may run between the store
of `is_slave_free_` and the exchange of `SwapCache_`. It then finds the old slave empty
and frees a buffer that is about to be filled. Without such a test the flag is free only
over an empty slave, which is what order and flush completeness rest on.
-/

set_option autoImplicit false
set_option relaxedAutoImplicit false

namespace FlashLog.Sinks.DoubleBuffer

open FlashLog.Support
open FlashLog.Support.Machine (run Meets meets_of_invariant run_invariant run_append)

variable {σ μ ι η : Type}

def WorkerPc.isTesting : WorkerPc ι → Bool
  | .empty => true
  | _ => false

/-- No `CacheToFile_` makes its `Empty()` test between the store of `is_slave_free_` and
the exchange of a `SwapCache_`. -/
def EmptyTestOutsideSwap {T : Type} (s : Sink T σ μ ι η) : Label T μ → Prop
  | .worker => s.worker.isTesting = true → ∀ t, (s.pc t).isSwap = false
  | _ => True

instance {T : Type} [Fintype T] (s : Sink T σ μ ι η) :
    ∀ a : Label T μ, Decidable (EmptyTestOutsideSwap s a)
  | .worker => inferInstanceAs
    (Decidable (s.worker.isTesting = true → ∀ t, (s.pc t).isSwap = false))
  | .log _ _ | .flush _ | .thread _ _ => inferInstanceAs (Decidable True)

/-- What the worker's position says about the flag, the slave buffer and the caller. -/
def WorkerPace (s : Sink Unit σ μ ι η) : Prop :=
  match s.worker with
  | .idle | .load => True
  | .empty => s.isSlaveFree = false
  | .size | .write _ | .clear => s.isSlaveFree = false ∧ (s.pc ()).isSwap = false
  | .store => s.isSlaveFree = false ∧ s.slave = [] ∧ (s.pc ()).isSwap = false

def CallerPace (s : Sink Unit σ μ ι η) : Prop :=
  match s.pc () with
  | .storeBusy _ => s.isSlaveFree = true ∧ s.slave = []
  | .swap _ => s.isSlaveFree = false ∧ s.slave = []
  | .ctorSlave | .ctorBusy => s.isSlaveFree = true ∧ s.worker = .idle ∧ s.queue = []
  | _ => s.isSlaveFree = true → s.slave = []

structure Paced (s : Sink Unit σ μ ι η) : Prop where
  worker : WorkerPace s
  caller : CallerPace s

theorem initial_paced (kind : Kind) (stream : σ) (masterFile slaveFile : List ι) :
    Paced (initial (μ := μ) (η := η) kind () stream masterFile slaveFile) := by
  cases kind <;> constructor <;> simp [WorkerPace, CallerPace, initial]

private theorem WorkerPace.of_free {s : Sink Unit σ μ ι η} (h : WorkerPace s)
    (free : s.isSlaveFree = true) : s.worker = .idle ∨ s.worker = .load := by
  cases hworker : s.worker <;> simp_all [WorkerPace]

private theorem WorkerPace.of_swap {s : Sink Unit σ μ ι η} (h : WorkerPace s)
    (swapping : (s.pc ()).isSwap = true) :
    s.worker = .idle ∨ s.worker = .load ∨ s.worker = .empty := by
  cases hworker : s.worker <;> simp_all [WorkerPace]

private theorem WorkerPace.frame {s next : Sink Unit σ μ ι η} (h : WorkerPace s)
    (free : next.isSlaveFree = s.isSlaveFree) (slave : next.slave = s.slave)
    (worker : next.worker = s.worker) (outside : (next.pc ()).isSwap = false) :
    WorkerPace next := by
  unfold WorkerPace at h ⊢
  rw [worker, free, slave, outside]
  cases hworker : s.worker <;> simp_all

private theorem enter_paced (kind : Kind) {s next : Sink Unit σ μ ι η} {pc : Pc μ}
    (inv : Paced s) (entry : pc = .flushPost ∨ ∃ m, pc = beginLog kind m)
    (h : enter s () pc = some next) : Paced next := by
  obtain ⟨hpc, -, rfl⟩ := enter_cases h
  have free : s.isSlaveFree = true → s.slave = [] := by
    simpa [CallerPace, hpc] using inv.caller
  rcases entry with rfl | ⟨m, rfl⟩
  · exact ⟨inv.worker.frame rfl rfl rfl rfl, by simpa [CallerPace, Sink.goto] using free⟩
  · cases kind <;>
      exact ⟨inv.worker.frame rfl rfl rfl rfl, by
        simpa [CallerPace, Sink.goto, beginLog] using free⟩

private theorem caller_paced {P : Pipeline σ μ ι η} {s next : Sink Unit σ μ ι η} {filled : Bool}
    (inv : Paced s) (h : threadStep P s () filled = some next) : Paced next := by
  have caller := inv.caller
  cases threadStep_cases h with
  | storeBusy k hpc =>
    obtain ⟨free, emptied⟩ : s.isSlaveFree = true ∧ s.slave = [] := by
      simpa [CallerPace, hpc] using caller
    refine ⟨?_, by simpa [CallerPace, Sink.goto] using emptied⟩
    rcases inv.worker.of_free free with hworker | hworker <;>
      simp [WorkerPace, Sink.goto, hworker]
  | swap k hpc =>
    obtain ⟨busy, emptied⟩ : s.isSlaveFree = false ∧ s.slave = [] := by
      simpa [CallerPace, hpc] using caller
    refine ⟨?_, by simp [CallerPace, Sink.goto, busy]⟩
    rcases inv.worker.of_swap (by simp [hpc, Pc.isSwap]) with hworker | hworker | hworker <;>
      simp [WorkerPace, Sink.goto, hworker, busy]
  | loadFree k hpc =>
    have free : s.isSlaveFree = true → s.slave = [] := by simpa [CallerPace, hpc] using caller
    cases hfree : s.isSlaveFree with
    | true =>
      exact ⟨inv.worker.frame rfl rfl rfl rfl, by
        simpa [CallerPace, Sink.goto, hfree] using free hfree⟩
    | false => exact ⟨inv.worker.frame rfl rfl rfl rfl, by simp [CallerPace, Sink.goto, hfree]⟩
  | ctorBusy hpc =>
    obtain ⟨-, resting, -⟩ : s.isSlaveFree = true ∧ s.worker = .idle ∧ s.queue = [] := by
      simpa [CallerPace, hpc] using caller
    exact ⟨by simp [WorkerPace, Sink.goto, resting], by simp [CallerPace, Sink.goto]⟩
  | ctorSlave hpc =>
    obtain ⟨free, resting, queued⟩ : s.isSlaveFree = true ∧ s.worker = .idle ∧ s.queue = [] := by
      simpa [CallerPace, hpc] using caller
    refine ⟨by simp [WorkerPace, Sink.goto, resting], ?_⟩
    cases hslave : s.slave with
    | nil => simp [CallerPace, Sink.goto, hslave]
    | cons x xs => simp [CallerPace, Sink.goto, hslave, free, resting, queued]
  | needWrite hpc =>
    have free : s.isSlaveFree = true → s.slave = [] := by simpa [CallerPace, hpc] using caller
    cases filled <;>
      exact ⟨inv.worker.frame rfl rfl rfl rfl, by simpa [CallerPace, Sink.goto] using free⟩
  | post k hpc =>
    have free : s.isSlaveFree = true → s.slave = [] := by simpa [CallerPace, hpc] using caller
    cases k <;>
      exact ⟨inv.worker.frame rfl rfl rfl rfl, by
        simpa [CallerPace, Sink.goto, Sink.postTask, afterPost] using free⟩
  | wait w hpc woken =>
    have free : s.isSlaveFree = true → s.slave = [] := by simpa [CallerPace, hpc] using caller
    cases w <;>
      exact ⟨inv.worker.frame rfl rfl rfl rfl, by
        simpa [CallerPace, Sink.goto, afterWait] using free⟩
  | ctorMaster hpc =>
    have free : s.isSlaveFree = true → s.slave = [] := by simpa [CallerPace, hpc] using caller
    cases hmaster : s.master.isEmpty <;>
      exact ⟨inv.worker.frame rfl rfl rfl rfl, by simpa [CallerPace, Sink.goto] using free⟩
  | resetIfEmpty m hpc | fail m stream hpc | push m stream x hpc | flushPost hpc | mark w hpc
  | ctorPost hpc =>
    have free : s.isSlaveFree = true → s.slave = [] := by simpa [CallerPace, hpc] using caller
    exact ⟨inv.worker.frame rfl rfl rfl rfl, by
      simpa [CallerPace, Sink.goto, Sink.postTask] using free⟩

/-- Until the constructor has set the flag for a leftover slave, nothing is posted. -/
private def Pc.isRecovering : Pc μ → Bool
  | .ctorSlave => true
  | .ctorBusy => true
  | _ => false

private theorem CallerPace.not_recovering {P : Pipeline σ μ ι η} {s next : Sink Unit σ μ ι η}
    (h : CallerPace s) (hstep : workerStep P s = some next) :
    (s.pc ()).isRecovering = false := by
  cases hpc : s.pc () with
  | ctorSlave | ctorBusy =>
    obtain ⟨-, resting, queued⟩ : s.isSlaveFree = true ∧ s.worker = .idle ∧ s.queue = [] := by
      simpa [CallerPace, hpc] using h
    simp [workerStep, resting, queued] at hstep
  | _ => rfl

private theorem CallerPace.frame {s next : Sink Unit σ μ ι η} (h : CallerPace s)
    (free : next.isSlaveFree = s.isSlaveFree) (slave : next.slave = s.slave)
    (pc : next.pc = s.pc) (recovered : (s.pc ()).isRecovering = false) : CallerPace next := by
  unfold CallerPace at h ⊢
  rw [pc, free, slave]
  cases hpc : s.pc () <;> simp_all [Pc.isRecovering]

private theorem CallerPace.of_emptied {s next : Sink Unit σ μ ι η} (h : CallerPace s)
    (busy : s.isSlaveFree = false) (slave : next.slave = []) (pc : next.pc = s.pc)
    (_recovered : (s.pc ()).isRecovering = false) (outside : (s.pc ()).isSwap = false) :
    CallerPace next := by
  unfold CallerPace at h ⊢
  rw [pc, slave]
  cases hpc : s.pc () <;> simp_all [Pc.isRecovering, Pc.isSwap]

private theorem worker_paced {P : Pipeline σ μ ι η} {s next : Sink Unit σ μ ι η} (inv : Paced s)
    (guard : EmptyTestOutsideSwap s (.worker : Label Unit μ))
    (h : workerStep P s = some next) : Paced next := by
  have recovered := inv.caller.not_recovering h
  have worker := inv.worker
  cases workerStep_cases h with
  | take queue hworker hqueue => exact ⟨trivial, inv.caller.frame rfl rfl rfl recovered⟩
  | wake t queue hworker hqueue => exact ⟨trivial, inv.caller.frame rfl rfl rfl recovered⟩
  | load hworker =>
    refine ⟨?_, inv.caller.frame rfl rfl rfl recovered⟩
    cases s.isSlaveFree <;> simp [WorkerPace]
  | empty hworker =>
    have outside : (s.pc ()).isSwap = false := guard (by rw [hworker]; rfl) ()
    have busy : s.isSlaveFree = false := by simpa [WorkerPace, hworker] using worker
    refine ⟨?_, inv.caller.frame rfl rfl rfl recovered⟩
    cases s.slave <;> simp [WorkerPace, busy, outside]
  | size hworker | write sized hworker =>
    obtain ⟨busy, outside⟩ : s.isSlaveFree = false ∧ (s.pc ()).isSwap = false := by
      simpa [WorkerPace, hworker] using worker
    exact ⟨⟨busy, outside⟩, inv.caller.frame rfl rfl rfl recovered⟩
  | clear hworker =>
    obtain ⟨busy, outside⟩ : s.isSlaveFree = false ∧ (s.pc ()).isSwap = false := by
      simpa [WorkerPace, hworker] using worker
    exact ⟨⟨busy, rfl, outside⟩, inv.caller.of_emptied busy rfl rfl recovered outside⟩
  | store hworker =>
    obtain ⟨busy, emptied, outside⟩ :
        s.isSlaveFree = false ∧ s.slave = [] ∧ (s.pc ()).isSwap = false := by
      simpa [WorkerPace, hworker] using worker
    exact ⟨trivial, inv.caller.of_emptied busy emptied rfl recovered outside⟩

theorem paced_step {kind : Kind} {P : Pipeline σ μ ι η} (s : Sink Unit σ μ ι η)
    (a : Label Unit μ) (next : Sink Unit σ μ ι η) (inv : Paced s)
    (guard : EmptyTestOutsideSwap s a) (h : step kind P s a = some next) : Paced next := by
  cases a with
  | log t m => exact enter_paced kind inv (Or.inr ⟨m, rfl⟩) h
  | flush t => exact enter_paced kind inv (Or.inl rfl) h
  | thread t filled => exact caller_paced inv h
  | worker => exact worker_paced inv guard h

theorem Paced.swap {s : Sink Unit σ μ ι η} (inv : Paced s) (swapping : (s.pc ()).isSwap = true) :
    s.worker.isWriting = false ∧ s.slave = [] := by
  have position := inv.worker.of_swap swapping
  constructor
  · rcases position with hworker | hworker | hworker <;> rw [hworker] <;> rfl
  · have caller := inv.caller
    cases hpc : s.pc () <;> simp_all [Pc.isSwap, CallerPace]

private theorem Paced.exchange {P : Pipeline σ μ ι η} {s : Sink Unit σ μ ι η} (inv : Paced s)
    {a : Label Unit μ} {m : Handoff.Move ι} (h : move P s a = some m) :
    Handoff.OntoEmptyBack s.view m := by
  cases m with
  | exchange =>
    obtain ⟨t, filled, rfl, swapping⟩ := swap_of_exchange h
    obtain ⟨outside, emptied⟩ := inv.swap swapping
    exact ⟨phase_rest outside, emptied⟩
  | _ => trivial

theorem paced_run {kind : Kind} {P : Pipeline σ μ ι η} {stream : σ}
    {masterFile slaveFile : List ι} {as : List (Label Unit μ)} {s : Sink Unit σ μ ι η}
    (hrun : run (step kind P) (initial kind () stream masterFile slaveFile) as = some s)
    (hmeets : Meets (step kind P) EmptyTestOutsideSwap
      (initial kind () stream masterFile slaveFile) as) :
    Paced s ∧ s.view.Ordered := by
  have start := initial_paced (μ := μ) (η := η) kind stream masterFile slaveFile
  refine ⟨run_invariant paced_step start hmeets hrun, ?_⟩
  have paced : Meets (step kind P) (fun s _ => Paced s)
      (initial kind () stream masterFile slaveFile) as :=
    meets_of_invariant paced_step (fun _ _ inv _ _ => inv) start hmeets hrun
  have guards : ∀ (s : Sink Unit σ μ ι η) (a : Label Unit μ) (m : Handoff.Move ι),
      Paced s → move P s a = some m → Handoff.OntoEmptyBack s.view m :=
    fun _ _ _ inv h => inv.exchange h
  obtain ⟨ms, hmoves, honto⟩ := (simulates_handoff kind P).run guards paced hrun
  exact Handoff.run_ordered (initial_ordered kind () stream masterFile slaveFile) honto hmoves

def Sink.Quiet (s : Sink Unit σ μ ι η) : Prop :=
  (∀ k, s.pc () ≠ .storeBusy k ∧ s.pc () ≠ .swap k) ∧ s.worker = .idle

theorem emptyTestOutsideSwap_keeps_order (kind : Kind) (P : Pipeline σ μ ι η) (stream : σ)
    (masterFile slaveFile : List ι) (as : List (Label Unit μ)) (s : Sink Unit σ μ ι η)
    (hrun : run (step kind P) (initial kind () stream masterFile slaveFile) as = some s)
    (hmeets : Meets (step kind P) EmptyTestOutsideSwap
      (initial kind () stream masterFile slaveFile) as)
    (quiet : s.Quiet) :
    s.writtenItems ++ s.slave ++ s.master = s.pushed := by
  have inOrder : s.view.held = s.pushed := (paced_run hrun hmeets).2.inOrder
  rw [view_held] at inOrder
  simpa [Sink.unwritten, quiet.2] using inOrder

/-- Five `Log` calls: the first exchanges the buffers, the third finds the flag down while the
worker writes, the fourth exchanges them again, and its task is not yet run. -/
def logsDuringWrite : List (Label Unit Nat) :=
  let caller := Label.thread () true
  let log (m : Nat) := [Label.log () m, caller, caller, .thread () false]
  let logOver (m : Nat) := [Label.log () m, caller, caller, caller]
  [caller, caller] ++ logOver 1 ++ List.replicate 4 caller ++ List.replicate 3 .worker ++ log 2 ++
    [.worker] ++ logOver 3 ++ [.worker, caller, caller] ++ List.replicate 4 .worker ++
    logOver 4 ++ List.replicate 4 caller ++ log 5

theorem emptyTestOutsideSwap_keeps_order_logs :
    ∃ s, run (step .effective (plain Nat)) (initial .effective () () [] []) logsDuringWrite =
        some s ∧ s.writtenItems = [1] ∧ s.slave = [2, 3, 4] ∧ s.master = [5] ∧
        s.writtenItems ++ s.slave ++ s.master = s.pushed := by
  obtain ⟨s, hs, hpc, hworker, written, slave, master⟩ : ∃ s, run (step .effective (plain Nat))
      (initial .effective () () [] []) logsDuringWrite = some s ∧
        s.pc () = .idle ∧ s.worker = .idle ∧ s.writtenItems = [1] ∧ s.slave = [2, 3, 4] ∧
          s.master = [5] :=
    ⟨_, rfl, rfl, rfl, rfl, rfl, rfl⟩
  have quiet : s.Quiet := ⟨fun k => by simp [hpc], hworker⟩
  exact ⟨s, hs, written, slave, master,
    emptyTestOutsideSwap_keeps_order .effective (plain Nat) () [] [] _ s hs (by decide) quiet⟩

/-- Three `Log` calls over the ratio. The second does not swap and posts a surplus task;
that task runs between the store and the exchange of the third and frees the slave
buffer just before it is filled. -/
def surplusTask : List (Label Unit Nat) :=
  let caller := Label.thread () true
  [caller, caller,
    .log () 1, caller, caller, caller, caller, caller, caller, caller,
    .log () 2, caller, caller, caller, caller, caller,
    .worker, .worker, .worker, .worker, .worker, .worker, .worker,
    .log () 3, caller, caller, caller, caller, caller,
    .worker, .worker, .worker, .worker, caller, caller, .worker, .worker]

/-- A fourth `Log` exchanges the roles again while the slave still holds 2 and 3. -/
def reorderedLogs : List (Label Unit Nat) :=
  let caller := Label.thread () true
  surplusTask ++ [.log () 4, caller, caller, caller, caller, caller, caller, caller]

theorem reorderedLogs_lose_order :
    ¬ ∀ (as : List (Label Unit Nat)) (s : Sink Unit Unit Nat Nat Unit),
      run (step .effective (plain Nat)) (initial .effective () () [] []) as = some s →
        s.Quiet → s.writtenItems ++ s.slave ++ s.master = s.pushed := by
  intro always
  obtain ⟨s, hrun, hpc, hworker, hitems, hpushed⟩ : ∃ s, run (step .effective (plain Nat))
      (initial .effective () () [] []) reorderedLogs = some s ∧
        s.pc () = .idle ∧ s.worker = .idle ∧
          s.writtenItems ++ s.slave ++ s.master = [1, 4, 2, 3] ∧ s.pushed = [1, 2, 3, 4] :=
    ⟨_, rfl, rfl, rfl, rfl, rfl⟩
  have ordered := always reorderedLogs s hrun ⟨fun k => by simp [hpc], hworker⟩
  rw [hitems, hpushed] at ordered
  exact absurd ordered (by decide)

end FlashLog.Sinks.DoubleBuffer
