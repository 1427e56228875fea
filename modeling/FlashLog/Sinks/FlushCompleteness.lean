import FlashLog.Sinks.SingleProducer

/-!
`Flush` with one calling thread: post, wait, swap, post, wait. After each wait the
strand has no task left and the flag is free, because a `CacheToFile_` was posted before
the awaited task. The first round empties the slave, the swap moves the master there,
the second round writes it.
-/

set_option autoImplicit false
set_option relaxedAutoImplicit false

namespace FlashLog.Sinks.DoubleBuffer

open FlashLog.Support
open FlashLog.Support.Machine (run Meets run_invariant run_append meets_append Meets.imp)

variable {σ μ ι η : Type}

inductive StrandStep (s next : Sink Unit σ μ ι η) : Prop
  | goOn : s.worker ≠ .idle → next.queue = s.queue → next.notified = s.notified →
      next.isSlaveFree = true ∨ next.worker ≠ .idle → StrandStep s next
  | dequeue : s.worker = .idle → s.queue = .cacheToFile :: next.queue →
      next.notified = s.notified → next.worker ≠ .idle → StrandStep s next
  | wake : s.worker = .idle → s.queue = .notify () :: next.queue → next.notified () = true →
      next.worker = .idle → next.isSlaveFree = s.isSlaveFree → StrandStep s next

private theorem strandStep_of_worker {P : Pipeline σ μ ι η} {s next : Sink Unit σ μ ι η}
    (h : workerStep P s = some next) : StrandStep s next := by
  cases workerStep_cases h with
  | take queue hworker hqueue => exact .dequeue hworker hqueue rfl (by simp)
  | wake t queue hworker hqueue => exact .wake hworker hqueue (by simp) rfl rfl
  | load hworker =>
    refine .goOn (by simp [hworker]) rfl rfl ?_
    cases s.isSlaveFree <;> simp
  | empty hworker =>
    refine .goOn (by simp [hworker]) rfl rfl ?_
    cases s.slave <;> simp
  | size hworker | write sized hworker | clear hworker | store hworker =>
    exact .goOn (by simp [hworker]) rfl rfl (by simp)

def OnlyCache {T : Type} (queue : List (Task T)) : Prop := ∀ task ∈ queue, task = .cacheToFile

/-- The flag is free or a task that frees it is running or queued. -/
def Freeing (s : Sink Unit σ μ ι η) (queue : List (Task Unit)) : Prop :=
  s.isSlaveFree = true ∨ s.worker ≠ .idle ∨ queue ≠ []

def Settled (s : Sink Unit σ μ ι η) : Prop := s.queue = [] ∧ s.worker = .idle

/-- The awaited task is the last one queued, or it has run and the flag is free. -/
def Awaiting (s : Sink Unit σ μ ι η) : Prop :=
  (s.notified () = true ∧ Settled s ∧ s.isSlaveFree = true) ∨
    (s.notified () = false ∧
      ∃ queue, s.queue = queue ++ [.notify ()] ∧ OnlyCache queue ∧ Freeing s queue)

/-- The caller's position in the rounds of post and wait. -/
def Rounds (s : Sink Unit σ μ ι η) : Prop :=
  match s.pc () with
  | .ctorMaster | .mark _ => OnlyCache s.queue ∧ Freeing s s.queue
  | .wait _ => Awaiting s
  | .loadFree .ctor | .loadFree .flush | .storeBusy .ctor | .storeBusy .flush =>
    Settled s ∧ s.isSlaveFree = true
  | .swap .ctor | .swap .flush | .post .ctor | .post .flush | .ctorSlave | .ctorBusy
  | .ctorPost => Settled s
  | _ => OnlyCache s.queue

private theorem Settled.onlyCache {s : Sink Unit σ μ ι η} (h : Settled s) :
    OnlyCache s.queue := by
  intro task member
  rw [h.1] at member
  cases member

private theorem OnlyCache.post {queue : List (Task Unit)} (h : OnlyCache queue) :
    OnlyCache (queue ++ [.cacheToFile]) := by
  intro task member
  rcases List.mem_append.mp member with member | member
  · exact h task member
  · exact List.mem_singleton.mp member

private theorem initial_rounds (kind : Kind) (stream : σ) (masterFile slaveFile : List ι) :
    Rounds (initial (μ := μ) (η := η) kind () stream masterFile slaveFile) := by
  cases kind
  · exact ⟨rfl, rfl⟩
  · intro task member
    cases member

private theorem Settled.no_step {s next : Sink Unit σ μ ι η} (h : Settled s)
    (strand : StrandStep s next) : False := by
  obtain ⟨queued, resting⟩ := h
  cases strand with
  | goOn busy _ _ _ => exact busy resting
  | dequeue _ hqueue _ _ => rw [queued] at hqueue; cases hqueue
  | wake _ hqueue _ _ _ => rw [queued] at hqueue; cases hqueue

private theorem OnlyCache.strand {s next : Sink Unit σ μ ι η} (h : OnlyCache s.queue)
    (strand : StrandStep s next) : OnlyCache next.queue := by
  cases strand with
  | goOn _ hqueue _ _ => rwa [hqueue]
  | dequeue _ hqueue _ _ =>
    intro task member
    exact h task (by rw [hqueue]; exact List.mem_cons_of_mem _ member)
  | wake _ hqueue _ _ _ =>
    have absurd := h (.notify ()) (by rw [hqueue]; exact List.mem_cons_self)
    cases absurd

private theorem Freeing.strand {s next : Sink Unit σ μ ι η} (h : OnlyCache s.queue)
    (strand : StrandStep s next) : Freeing next next.queue := by
  cases strand with
  | goOn _ _ _ freed => exact freed.imp id Or.inl
  | dequeue _ _ _ busy => exact Or.inr (Or.inl busy)
  | wake _ hqueue _ _ _ =>
    have absurd := h (.notify ()) (by rw [hqueue]; exact List.mem_cons_self)
    cases absurd

private theorem Awaiting.strand {s next : Sink Unit σ μ ι η} (h : Awaiting s)
    (strand : StrandStep s next) : Awaiting next := by
  rcases h with ⟨_, settled, _⟩ | ⟨unnotified, queue, hqueue, only, freeing⟩
  · exact (settled.no_step strand).elim
  cases strand with
  | goOn _ same notified freed =>
    exact Or.inr ⟨by rw [notified, unnotified], queue, by rw [same, hqueue], only,
      freed.imp id Or.inl⟩
  | dequeue _ head notified busy =>
    cases queue with
    | nil => rw [hqueue] at head; cases head
    | cons first rest =>
      rw [hqueue, List.cons_append] at head
      refine Or.inr ⟨by rw [notified, unnotified], rest, (List.cons.inj head).2.symm, ?_,
        Or.inr (Or.inl busy)⟩
      exact fun task member => only task (List.mem_cons_of_mem _ member)
  | wake resting head woken nextResting sameFlag =>
    cases queue with
    | nil =>
      rw [hqueue, List.nil_append] at head
      refine Or.inl ⟨woken, ⟨(List.cons.inj head).2.symm, nextResting⟩, ?_⟩
      -- nothing was queued before the awaited task, so the flag is already free
      rcases freeing with free | busy | queued
      · rw [sameFlag, free]
      · exact absurd resting busy
      · exact absurd rfl queued
    | cons first rest =>
      rw [hqueue, List.cons_append] at head
      have absurd := only (.notify ()) (by
        rw [(List.cons.inj head).1]; exact List.mem_cons_self)
      cases absurd

private theorem Awaiting.of_woken {s : Sink Unit σ μ ι η} (h : Awaiting s)
    (woken : s.notified () = true) : Settled s ∧ s.isSlaveFree = true := by
  rcases h with ⟨_, settled, free⟩ | ⟨unnotified, _⟩
  · exact ⟨settled, free⟩
  · rw [unnotified] at woken
    cases woken

private theorem worker_pc {P : Pipeline σ μ ι η} {s next : Sink Unit σ μ ι η}
    (h : workerStep P s = some next) : next.pc = s.pc := by
  cases workerStep_cases h <;> rfl

private theorem worker_rounds {P : Pipeline σ μ ι η} {s next : Sink Unit σ μ ι η}
    (inv : Rounds s) (h : workerStep P s = some next) : Rounds next := by
  have strand := strandStep_of_worker h
  unfold Rounds at inv ⊢
  rw [worker_pc h]
  cases hpc : s.pc () with
  | ctorMaster | mark w =>
    simp only [hpc] at inv
    exact ⟨inv.1.strand strand, Freeing.strand inv.1 strand⟩
  | wait w =>
    simp only [hpc] at inv
    exact inv.strand strand
  | ctorSlave | ctorBusy | ctorPost =>
    simp only [hpc] at inv
    exact (inv.no_step strand).elim
  | loadFree k | storeBusy k =>
    cases k <;> simp only [hpc] at inv
    · exact (inv.1.no_step strand).elim
    · exact inv.strand strand
    · exact (inv.1.no_step strand).elim
  | swap k | post k =>
    cases k <;> simp only [hpc] at inv
    · exact (inv.no_step strand).elim
    · exact inv.strand strand
    · exact (inv.no_step strand).elim
  | _ =>
    simp only [hpc] at inv
    exact inv.strand strand

private theorem caller_rounds {P : Pipeline σ μ ι η} {s next : Sink Unit σ μ ι η} {filled : Bool}
    (paced : Paced s) (inv : Rounds s) (h : threadStep P s () filled = some next) :
    Rounds next := by
  unfold Rounds at inv
  cases threadStep_cases h with
  | resetIfEmpty m hpc | fail m stream hpc | push m stream x hpc =>
    simp only [hpc] at inv
    simpa [Rounds, Sink.goto] using inv
  | needWrite hpc =>
    simp only [hpc] at inv
    cases filled <;> simpa [Rounds, Sink.goto] using inv
  | loadFree k hpc =>
    cases k <;> simp only [hpc] at inv
    · simpa [Rounds, Sink.goto, inv.2, Settled] using inv.1
    · cases hfree : s.isSlaveFree <;> simpa [Rounds, Sink.goto, hfree] using inv
    · simpa [Rounds, Sink.goto, inv.2, Settled] using inv.1
  | storeBusy k hpc =>
    cases k <;> simp only [hpc] at inv
    · simpa [Rounds, Sink.goto, Settled] using inv.1
    · simpa [Rounds, Sink.goto] using inv
    · simpa [Rounds, Sink.goto, Settled] using inv.1
  | swap k hpc =>
    cases k <;> simp only [hpc] at inv <;> simpa [Rounds, Sink.goto, Settled] using inv
  | post k hpc =>
    cases k <;> simp only [hpc] at inv
    · simpa [Rounds, Sink.goto, Sink.postTask, afterPost] using inv.onlyCache.post
    · simpa [Rounds, Sink.goto, Sink.postTask, afterPost] using inv.post
    · simpa [Rounds, Sink.goto, Sink.postTask, afterPost, Freeing] using inv.onlyCache.post
  | flushPost hpc =>
    simp only [hpc] at inv
    simpa [Rounds, Sink.goto, Sink.postTask, Freeing] using inv.post
  | mark w hpc =>
    simp only [hpc] at inv
    have awaiting : Awaiting (({ s with
        notified := Function.update s.notified () false }.postTask (.notify ())).goto ()
          (.wait w)) :=
      Or.inr ⟨by simp [Sink.goto, Sink.postTask], s.queue, rfl, inv.1, inv.2⟩
    simpa [Rounds, Sink.goto] using awaiting
  | wait w hpc woken =>
    simp only [hpc] at inv
    obtain ⟨settled, free⟩ := inv.of_woken woken
    cases w
    · simpa [Rounds, Sink.goto, afterWait, Settled, free] using settled
    · simpa [Rounds, Sink.goto, afterWait, Settled, free] using settled
    · simpa [Rounds, Sink.goto, afterWait] using settled.onlyCache
  | ctorSlave hpc =>
    simp only [hpc] at inv
    have free : s.isSlaveFree = true := by
      have caller := paced.caller
      simp only [CallerPace, hpc] at caller
      exact caller.1
    cases hslave : s.slave with
    | nil => simpa [Rounds, Sink.goto, hslave, Freeing, free] using inv.onlyCache
    | cons x xs => simpa [Rounds, Sink.goto, hslave, Settled] using inv
  | ctorBusy hpc =>
    simp only [hpc] at inv
    simpa [Rounds, Sink.goto, Settled] using inv
  | ctorPost hpc =>
    simp only [hpc] at inv
    simpa [Rounds, Sink.goto, Sink.postTask, Freeing] using inv.onlyCache.post
  | ctorMaster hpc =>
    simp only [hpc] at inv
    cases hmaster : s.master with
    | nil => simpa [Rounds, Sink.goto, hmaster] using inv.1
    | cons x xs => simpa [Rounds, Sink.goto, hmaster, Freeing] using inv

private theorem enter_rounds (kind : Kind) {s next : Sink Unit σ μ ι η} {pc : Pc μ}
    (inv : Rounds s) (entry : pc = .flushPost ∨ ∃ m, pc = beginLog kind m)
    (h : enter s () pc = some next) : Rounds next := by
  obtain ⟨hpc, -, rfl⟩ := enter_cases h
  simp only [Rounds, hpc] at inv
  rcases entry with rfl | ⟨m, rfl⟩
  · simpa [Rounds, Sink.goto] using inv
  · cases kind <;> simpa [Rounds, Sink.goto, beginLog] using inv

private theorem rounds_step {kind : Kind} {P : Pipeline σ μ ι η} (s : Sink Unit σ μ ι η)
    (a : Label Unit μ) (next : Sink Unit σ μ ι η) (inv : Paced s ∧ Rounds s)
    (guard : EmptyTestOutsideSwap s a) (h : step kind P s a = some next) :
    Paced next ∧ Rounds next := by
  refine ⟨paced_step s a next inv.1 guard h, ?_⟩
  cases a with
  | log t m => exact enter_rounds kind inv.2 (Or.inr ⟨m, rfl⟩) h
  | flush t => exact enter_rounds kind inv.2 (Or.inl rfl) h
  | thread t filled => exact caller_rounds inv.1 inv.2 h
  | worker => exact worker_rounds inv.2 h

/-- The progress of a `Flush` that began with `pushed` items: the swap has emptied the
master, and after the second round the slave is empty as well. -/
def Flushing (pushed : List ι) (s : Sink Unit σ μ ι η) : Prop :=
  s.pushed = pushed ∧
    match s.pc () with
    | .flushPost | .mark .first | .wait .first | .loadFree .flush | .storeBusy .flush
    | .swap .flush => True
    | .post .flush | .mark .second | .wait .second => s.master = []
    | .idle => s.master = [] ∧ s.slave = []
    | _ => False

/-- The label begins no call. -/
def Label.GoesOn {T : Type} : Label T μ → Prop
  | .log _ _ => False
  | .flush _ => False
  | _ => True

instance {T : Type} : ∀ a : Label T μ, Decidable a.GoesOn
  | .log _ _ | .flush _ => inferInstanceAs (Decidable False)
  | .thread _ _ | .worker => inferInstanceAs (Decidable True)

private theorem worker_buffers {P : Pipeline σ μ ι η} {s next : Sink Unit σ μ ι η}
    (h : workerStep P s = some next) :
    next.pushed = s.pushed ∧ next.master = s.master ∧ (s.slave = [] → next.slave = []) := by
  cases workerStep_cases h with
  | clear => exact ⟨rfl, rfl, fun _ => rfl⟩
  | _ => exact ⟨rfl, rfl, id⟩

private theorem Flushing.worker {P : Pipeline σ μ ι η} {pushed : List ι}
    {s next : Sink Unit σ μ ι η} (inv : Flushing pushed s) (h : workerStep P s = some next) :
    Flushing pushed next := by
  obtain ⟨samePushed, sameMaster, stillEmpty⟩ := worker_buffers h
  obtain ⟨begun, position⟩ := inv
  refine ⟨samePushed.trans begun, ?_⟩
  rw [worker_pc h, sameMaster]
  split at position
  case h_10 =>
    exact ⟨position.1, stillEmpty position.2⟩
  all_goals simp_all

private theorem Flushing.caller {P : Pipeline σ μ ι η} {pushed : List ι}
    {s next : Sink Unit σ μ ι η} {filled : Bool} (paced : Paced s) (rounds : Rounds s)
    (inv : Flushing pushed s) (h : threadStep P s () filled = some next) :
    Flushing pushed next := by
  obtain ⟨begun, position⟩ := inv
  have pace := paced.caller
  unfold Rounds at rounds
  unfold CallerPace at pace
  cases threadStep_cases h with
  | flushPost hpc => exact ⟨begun, by simp [Sink.goto]⟩
  | mark w hpc =>
    cases w <;> simp only [hpc] at position
    · exact ⟨begun, by simp [Sink.goto]⟩
    · exact ⟨begun, by simpa [Sink.goto, Sink.postTask] using position⟩
  | wait w hpc woken =>
    simp only [hpc] at rounds pace
    cases w <;> simp only [hpc] at position
    · exact ⟨begun, by simp [Sink.goto, afterWait]⟩
    · have emptied : s.slave = [] := pace (rounds.of_woken woken).2
      exact ⟨begun, by simpa [Sink.goto, afterWait, emptied] using position⟩
  | loadFree k hpc =>
    cases k <;> simp only [hpc] at position rounds
    exact ⟨begun, by simp [Sink.goto, rounds.2]⟩
  | storeBusy k hpc =>
    cases k <;> simp only [hpc] at position
    exact ⟨begun, by simp [Sink.goto]⟩
  | swap k hpc =>
    simp only [hpc] at pace
    cases k <;> simp only [hpc] at position
    exact ⟨begun, by simpa [Sink.goto] using pace.2⟩
  | post k hpc =>
    cases k <;> simp only [hpc] at position
    exact ⟨begun, by simpa [Sink.goto, Sink.postTask, afterPost] using position⟩
  | resetIfEmpty m hpc | fail m stream hpc | push m stream x hpc | needWrite hpc | ctorSlave hpc
  | ctorBusy hpc | ctorPost hpc | ctorMaster hpc => simp only [hpc] at position

private theorem flushing_step {kind : Kind} {P : Pipeline σ μ ι η} {pushed : List ι}
    (s : Sink Unit σ μ ι η) (a : Label Unit μ) (next : Sink Unit σ μ ι η)
    (inv : (Paced s ∧ Rounds s) ∧ Flushing pushed s)
    (guard : EmptyTestOutsideSwap s a ∧ a.GoesOn) (h : step kind P s a = some next) :
    (Paced next ∧ Rounds next) ∧ Flushing pushed next := by
  refine ⟨rounds_step s a next inv.1 guard.1 h, ?_⟩
  cases a with
  | log t m => exact guard.2.elim
  | flush t => exact guard.2.elim
  | thread t filled => exact inv.2.caller inv.1.1 inv.1.2 h
  | worker => exact inv.2.worker h

private theorem flushing_enter {s next : Sink Unit σ μ ι η}
    (h : enter s () .flushPost = some next) : Flushing s.pushed next := by
  obtain ⟨-, -, rfl⟩ := enter_cases h
  exact ⟨rfl, by simp [Sink.goto]⟩

/-- Both buffers are empty and every pushed item went to `ofs_.write` in a whole chunk. -/
def Sink.FlushedOut (s : Sink Unit σ μ ι η) (pushed : List ι) : Prop :=
  s.master = [] ∧ s.slave = [] ∧ s.writtenItems = pushed ∧ ∀ c ∈ s.written, c.Whole

/-- `before` is the state of the call, `flushed` the state in which `Flush` has returned. -/
theorem emptyTestOutsideSwap_flush_complete (kind : Kind) (P : Pipeline σ μ ι η) (stream : σ)
    (masterFile slaveFile : List ι) (as bs : List (Label Unit μ))
    (before entered flushed : Sink Unit σ μ ι η)
    (hbefore : run (step kind P) (initial kind () stream masterFile slaveFile) as = some before)
    (hcall : step kind P before (.flush ()) = some entered)
    (hflush : run (step kind P) entered bs = some flushed)
    (hmeets : Meets (step kind P) EmptyTestOutsideSwap
      (initial kind () stream masterFile slaveFile) as)
    (hmeets' : Meets (step kind P) (fun s a => EmptyTestOutsideSwap s a ∧ a.GoesOn) entered bs)
    (returned : flushed.pc () = .idle) :
    flushed.FlushedOut before.pushed := by
  have start : Paced before ∧ Rounds before :=
    run_invariant rounds_step
      ⟨initial_paced kind stream masterFile slaveFile,
        initial_rounds kind stream masterFile slaveFile⟩ hmeets hbefore
  have called : Paced entered ∧ Rounds entered :=
    rounds_step before (.flush ()) entered start trivial hcall
  obtain ⟨-, samePushed, position⟩ :=
    run_invariant (I := fun s => (Paced s ∧ Rounds s) ∧ Flushing before.pushed s)
      flushing_step ⟨called, flushing_enter hcall⟩ hmeets' hflush
  simp only [returned] at position
  obtain ⟨masterEmpty, slaveEmpty⟩ := position
  have whole : run (step kind P) (initial kind () stream masterFile slaveFile)
      (as ++ .flush () :: bs) = some flushed := by
    simp [run_append, hbefore, hcall, hflush]
  have guarded : Meets (step kind P) EmptyTestOutsideSwap
      (initial kind () stream masterFile slaveFile) (as ++ .flush () :: bs) := by
    refine (meets_append _ _ _ _ _).mpr ⟨hmeets, fun next hnext => ?_⟩
    obtain rfl : before = next := Option.some.inj (hbefore.symm.trans hnext)
    refine ⟨trivial, fun next hnext => ?_⟩
    obtain rfl : entered = next := Option.some.inj (hcall.symm.trans hnext)
    exact hmeets'.imp fun _ _ guard => guard.1
  have ordered := (paced_run whole guarded).2
  refine ⟨masterEmpty, slaveEmpty, ?_, view_whole ordered.whole⟩
  have inOrder : flushed.view.held = flushed.pushed := ordered.inOrder
  have waiting : flushed.unwritten = [] := by
    cases hworker : flushed.worker <;> simp [Sink.unwritten, hworker, slaveEmpty]
  rw [view_held, waiting, masterEmpty, samePushed] at inOrder
  simpa using inOrder

/-- Construction on empty buffers and one `Log` below the ratio. -/
def oneLog : List (Label Unit Nat) :=
  let caller := Label.thread () false
  [caller, caller, .log () 7, caller, caller, caller]

def flushSteps : List (Label Unit Nat) :=
  let caller := Label.thread () true
  [caller, caller, .worker, .worker, .worker, caller, caller, caller, caller, caller, caller,
    .worker, .worker, .worker, .worker, .worker, .worker, .worker, .worker, caller]

theorem emptyTestOutsideSwap_flush_complete_one :
    ∃ before entered flushed : Sink Unit Unit Nat Nat Unit,
      run (step .effective (plain Nat)) (initial .effective () () [] []) oneLog = some before ∧
      step .effective (plain Nat) before (.flush ()) = some entered ∧
      run (step .effective (plain Nat)) entered flushSteps = some flushed ∧
      flushed.FlushedOut before.pushed := by
  refine ⟨_, _, _, rfl, rfl, rfl, ?_⟩
  exact emptyTestOutsideSwap_flush_complete .effective (plain Nat) () [] [] oneLog flushSteps _ _ _
    rfl rfl rfl (by decide) (by decide) rfl

/-- After the surplus task of `surplusTask` a `Flush` writes nothing: its swap moves the
items 2 and 3 back into the master. -/
def staleFlush : List (Label Unit Nat) :=
  let caller := Label.thread () true
  [caller, caller, .worker, .worker, .worker, caller, caller, caller, caller, caller, caller,
    .worker, .worker, .worker, .worker, .worker, caller]

theorem staleFlush_leaves_items :
    ¬ ∀ (as bs : List (Label Unit Nat)) (before entered flushed : Sink Unit Unit Nat Nat Unit),
      run (step .effective (plain Nat)) (initial .effective () () [] []) as = some before →
      step .effective (plain Nat) before (.flush ()) = some entered →
      run (step .effective (plain Nat)) entered bs = some flushed →
      (∀ b ∈ bs, b.GoesOn) → flushed.pc () = .idle →
        flushed.FlushedOut before.pushed := by
  intro always
  obtain ⟨before, entered, flushed, hbefore, hcall, hflush, returned, left⟩ :
      ∃ before entered flushed : Sink Unit Unit Nat Nat Unit,
        run (step .effective (plain Nat)) (initial .effective () () [] []) surplusTask =
          some before ∧ step .effective (plain Nat) before (.flush ()) = some entered ∧
        run (step .effective (plain Nat)) entered staleFlush = some flushed ∧
        flushed.pc () = .idle ∧ flushed.master = [2, 3] :=
    ⟨_, _, _, rfl, rfl, rfl, rfl, rfl⟩
  have complete := always surplusTask staleFlush before entered flushed hbefore hcall hflush
    (by decide) returned
  rw [Sink.FlushedOut, left] at complete
  exact absurd complete.1 (by decide)

end FlashLog.Sinks.DoubleBuffer
