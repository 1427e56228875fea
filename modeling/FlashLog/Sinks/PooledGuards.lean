import FlashLog.Sinks.Conservation
import FlashLog.Sinks.SingleProducer
import FlashLog.Sinks.PooledRefinement

/-!
What the double-buffer protocol keeps under its two conditions, a sink on its executor keeps under
the same conditions on its own steps: the answering steps of the protocol meet them, since neither
a call on the pool nor the pool's bookkeeping exchanges the buffers.
-/

set_option autoImplicit false
set_option relaxedAutoImplicit false

namespace FlashLog.Sinks.Pooled

open FlashLog.Support
open FlashLog.Support.Machine (run run_related_meets Meets)
open FlashLog.Sinks.DoubleBuffer (Kind Pipeline Chunk Pc Sink plain)

variable {T σ μ ι η : Type} [DecidableEq T]

section Guards

variable {s next : System T σ μ ι η} {d : Sink T σ μ ι η}

/-- No thread exchanges the buffers while the pool's thread is between `Size()` and `Clear()`. -/
def SwapOutsideWrite (s : System T σ μ ι η) : Label T μ → Prop
  | .thread t _ => (s.sink.pc t).isSwap = true → s.sink.worker.isWriting = false
  | _ => True

instance (s : System T σ μ ι η) : ∀ a : Label T μ, Decidable (SwapOutsideWrite s a)
  | .thread t _ => inferInstanceAs
    (Decidable ((s.sink.pc t).isSwap = true → s.sink.worker.isWriting = false))
  | .log _ _ | .flush _ | .poster _ | .eliminateFiles | .worker | .spurious | .start | .stop
  | .owner => inferInstanceAs (Decidable True)

/-- The pool's thread makes no `Empty()` test between the store and the exchange of a
`SwapCache_`. -/
def EmptyTestOutsideSwap (s : System T σ μ ι η) : Label T μ → Prop
  | .worker => s.sink.worker.isTesting = true → ∀ t, (s.sink.pc t).isSwap = false
  | _ => True

instance [Fintype T] (s : System T σ μ ι η) : ∀ a : Label T μ, Decidable (EmptyTestOutsideSwap s a)
  | .worker => inferInstanceAs
    (Decidable (s.sink.worker.isTesting = true → ∀ t, (s.sink.pc t).isSwap = false))
  | .log _ _ | .flush _ | .poster _ | .eliminateFiles | .thread _ _ | .spurious | .start | .stop
  | .owner => inferInstanceAs (Decidable True)

omit [DecidableEq T] in
theorem isSwap_of_posts {pc : Pc μ} {t : T} (h : posts pc t ≠ none) (ticket : Option Nat) :
    pc.isSwap = false ∧ (shown pc ticket).isSwap = false := by
  cases pc with
  | post k => cases k <;> cases ticket <;> exact ⟨rfl, rfl⟩
  | flushPost | ctorPost | mark w => cases ticket <;> exact ⟨rfl, rfl⟩
  | _ => exact absurd rfl h

omit [DecidableEq T] in
theorem isSwap_eq (h : s.Answers d) (t : T) : (d.pc t).isSwap = (s.sink.pc t).isSwap := by
  by_cases idle : s.executor.caller (.caller t) = .idle
  · rw [h.pc_idle idle]
  · have busy : posts (s.sink.pc t) t ≠ none := fun quiet => idle (h.linked.idle quiet)
    obtain ⟨before, after⟩ := isSwap_of_posts busy (s.ticket t)
    rw [h.pc_eq, before, after]

omit [DecidableEq T] in
theorem swapOutsideWrite_of_matches {a : Label T μ} {b : DoubleBuffer.Label T μ} (h : s.Answers d)
    (guard : SwapOutsideWrite s a) (hmatches : Matches s a b) :
    DoubleBuffer.SwapOutsideWrite d b := by
  cases hmatches with
  | log t m | flush t | worker => trivial
  | thread t filled quiet =>
    intro swapping
    rw [h.worker_eq]
    exact guard (isSwap_eq h t ▸ swapping)
  | poster t busy =>
    intro swapping
    have asked : posts (s.sink.pc t) t ≠ none := fun quiet => busy (h.linked.idle quiet)
    rw [isSwap_eq h t, (isSwap_of_posts asked none).1] at swapping
    cases swapping

omit [DecidableEq T] in
theorem emptyTestOutsideSwap_of_matches {a : Label T μ} {b : DoubleBuffer.Label T μ}
    (h : s.Answers d) (guard : EmptyTestOutsideSwap s a) (hmatches : Matches s a b) :
    DoubleBuffer.EmptyTestOutsideSwap d b := by
  cases hmatches with
  | log t m | flush t | thread t filled quiet | poster t busy => trivial
  | worker =>
    intro testing t
    rw [isSwap_eq h t]
    exact guard (h.worker_eq ▸ testing) t

end Guards

section Runs

/-- A guarded run on the executor is answered by a run of the protocol under its own guard. -/
theorem run_answered {kind : Kind} {P : Pipeline σ μ ι η} {t : T} {stream : σ}
    {masterFile slaveFile : List ι} {ok : System T σ μ ι η → Label T μ → Prop}
    {ok' : Sink T σ μ ι η → DoubleBuffer.Label T μ → Prop} {as : List (Label T μ)}
    {s : System T σ μ ι η}
    (guards : ∀ (s : System T σ μ ι η) (d : Sink T σ μ ι η) a b, s.Answers d → ok s a →
      Matches s a b → ok' d b)
    (meets : Meets (step kind P) ok (initial kind t stream masterFile slaveFile) as)
    (h : run (step kind P) (initial kind t stream masterFile slaveFile) as = some s) :
    ∃ bs d, run (DoubleBuffer.step kind P)
        (DoubleBuffer.initial kind t stream masterFile slaveFile) bs = some d ∧
      Meets (DoubleBuffer.step kind P) ok'
        (DoubleBuffer.initial kind t stream masterFile slaveFile) bs ∧ s.Answers d := by
  have answered : ∀ (s : System T σ μ ι η) (d : Sink T σ μ ι η) (a : Label T μ)
      (next : System T σ μ ι η), s.Answers d → ok s a → step kind P s a = some next →
      ∃ bs d', run (DoubleBuffer.step kind P) d bs = some d' ∧
        Meets (DoubleBuffer.step kind P) ok' d bs ∧ next.Answers d' ∧
          bs.filterMap protocolCall = a.call.toList :=
    fun s d a _ h guard hstep => (step_answered h hstep).run fun b => guards s d a b h guard
  obtain ⟨bs, d, hrun, hmeets, answers, -⟩ := run_related_meets answered
    (initial_answers kind t stream masterFile slaveFile) meets h
  exact ⟨bs, d, hrun, hmeets, answers⟩

/-- On its executor a sink loses and repeats nothing, as long as no thread exchanges the buffers
while the pool's thread writes one of them: after any run every pushed item is in the written
chunks or the buffers exactly once, and every chunk is whole. -/
theorem pooledSink_keeps_items (kind : Kind) (P : Pipeline σ μ ι η) (t : T) (stream : σ)
    (masterFile slaveFile : List ι) (as : List (Label T μ)) (s : System T σ μ ι η)
    (h : run (step kind P) (initial kind t stream masterFile slaveFile) as = some s)
    (meets : Meets (step kind P) SwapOutsideWrite (initial kind t stream masterFile slaveFile) as) :
    s.sink.NothingLost ∧ ∀ c ∈ s.sink.written, c.Whole := by
  obtain ⟨bs, d, hrun, hmeets, answers⟩ :=
    run_answered (fun _ _ _ _ => swapOutsideWrite_of_matches) meets h
  obtain ⟨ms, hmoves, houtside⟩ := (DoubleBuffer.simulates_handoff kind P).run
    (fun _ _ _ guard h => DoubleBuffer.outside_of_swapOutsideWrite guard h) hmeets hrun
  have conserved := Handoff.run_conserved
    (DoubleBuffer.initial_conserved kind t stream masterFile slaveFile) houtside hmoves
  have kept := conserved.kept
  have whole := DoubleBuffer.view_whole conserved.whole
  rw [DoubleBuffer.view_held] at kept
  rw [answers.same] at kept whole
  exact ⟨kept, whole⟩

theorem pooledSink_keeps_items_flush :
    ∃ s, run (step .effective (plain Nat)) (initial .effective () () [] []) flushOnPool = some s ∧
      s.sink.written.map Chunk.payload = [[7]] ∧ s.sink.NothingLost ∧
        ∀ c ∈ s.sink.written, c.Whole := by
  have written : (run (step .effective (plain Nat)) (initial .effective () () [] [])
      flushOnPool).map (fun s => s.sink.written.map Chunk.payload) = some [[7]] := by
    decide +kernel
  obtain ⟨s, hs, hwritten⟩ := Option.map_eq_some_iff.mp written
  exact ⟨s, hs, hwritten,
    pooledSink_keeps_items .effective (plain Nat) () () [] [] flushOnPool s hs (by decide +kernel)⟩

/-- With one calling thread a sink on its executor keeps the order of its `Log` calls: while no
exchange and no `CacheToFile_` is in progress, what is written, then the slave, then the master
hold the pushed items in their order, in whatever way calls and tasks went through the pool. -/
theorem pooledSink_keeps_order (kind : Kind) (P : Pipeline σ μ ι η) (stream : σ)
    (masterFile slaveFile : List ι) (as : List (Label Unit μ)) (s : System Unit σ μ ι η)
    (h : run (step kind P) (initial kind () stream masterFile slaveFile) as = some s)
    (meets : Meets (step kind P) EmptyTestOutsideSwap (initial kind () stream masterFile slaveFile)
      as) (quiet : s.sink.Quiet) :
    s.sink.writtenItems ++ s.sink.slave ++ s.sink.master = s.sink.pushed := by
  obtain ⟨bs, d, hrun, hmeets, answers⟩ :=
    run_answered (fun _ _ _ _ => emptyTestOutsideSwap_of_matches) meets h
  have inOrder : d.view.held = d.pushed := (DoubleBuffer.paced_run hrun hmeets).2.inOrder
  rw [DoubleBuffer.view_held, answers.same] at inOrder
  simpa [System.shows, Sink.writtenItems, Sink.unwritten, quiet.2] using inOrder

def atRest (s : Sink Unit σ μ ι η) : Bool :=
  match s.pc (), s.worker with
  | .idle, .idle => true
  | _, _ => false

theorem quiet_of_atRest {s : Sink Unit σ μ ι η} (h : atRest s = true) : s.Quiet := by
  unfold atRest at h
  split at h
  case h_1 resting idle => exact ⟨fun k => by simp [resting], idle⟩
  case h_2 => cases h

/-- Five `Log` calls on the pool: the first exchanges the buffers, the third posts a surplus task
while the pool's thread writes, the timer posts its task, and the fourth exchanges them again. -/
def logsOnPool : List (Label Unit Nat) :=
  let caller := Label.thread () true
  let log (m : Nat) := [Label.log () m, caller, caller, .thread () false]
  let logOver (m : Nat) := [Label.log () m, caller, caller, caller, caller]
  let post := caller :: List.replicate 4 (.poster (.caller ()))
  .start :: List.replicate 3 .owner ++ [caller, caller] ++ logOver 1 ++ [caller, caller] ++ post ++
    List.replicate 10 .worker ++ log 2 ++ logOver 3 ++ [.eliminateFiles] ++ post ++
    List.replicate 4 (.poster .timer) ++ List.replicate 24 .worker ++ logOver 4 ++
    [caller, caller] ++ post ++ log 5

theorem pooledSink_keeps_order_logs :
    ∃ s, run (step .effective (plain Nat)) (initial .effective () () [] []) logsOnPool = some s ∧
      (s.sink.writtenItems, s.sink.slave, s.sink.master) = ([1], [2, 3, 4], [5]) ∧
        s.sink.writtenItems ++ s.sink.slave ++ s.sink.master = s.sink.pushed := by
  have facts : (run (step .effective (plain Nat)) (initial .effective () () [] []) logsOnPool).map
      (fun s => ((s.sink.writtenItems, s.sink.slave, s.sink.master), atRest s.sink)) =
        some (([1], [2, 3, 4], [5]), true) := by
    decide +kernel
  obtain ⟨s, hs, facts⟩ := Option.map_eq_some_iff.mp facts
  obtain ⟨items, resting⟩ := Prod.mk.inj facts
  exact ⟨s, hs, items,
    pooledSink_keeps_order .effective (plain Nat) () [] [] logsOnPool s hs (by decide +kernel)
      (quiet_of_atRest resting)⟩

end Runs

end FlashLog.Sinks.Pooled
