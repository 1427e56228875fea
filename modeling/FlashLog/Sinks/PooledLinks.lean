import FlashLog.Sinks.PooledSink

/-!
What holds between a sink and its executor: each caller of the pool is in the call that its
position in the sink asks for, the empty tasks that are left are those that threads wait for, and
only the pool's thread is inside `CacheToFile_`.
-/

set_option autoImplicit false
set_option relaxedAutoImplicit false

namespace FlashLog.Scheduler.ThreadPool

variable {τ : Type}

def CallerPc.call : CallerPc τ → Option (Call τ)
  | .lock k | .enqueue k | .unlock k _ | .notify k _ => some k
  | .idle | .waiting _ => none

def CallerPc.ticket : CallerPc τ → Option Nat
  | .unlock _ n | .notify _ n | .waiting n => some n
  | .idle | .lock _ | .enqueue _ => none

end FlashLog.Scheduler.ThreadPool

namespace FlashLog.Sinks.Pooled

open FlashLog.Support
open FlashLog.Scheduler
open FlashLog.Scheduler.ThreadPool (Pool Call Entry CallerPc Stepped CallerStep WorkerStep)
open FlashLog.Sinks.DoubleBuffer (Kind Pipeline Caller Wait Pc Sink afterPost afterWait)

variable {T σ μ ι η : Type}

section Links

def posting (s : Sink T σ μ ι η) : Poster T → Option (Call (Job T))
  | .caller t => posts (s.pc t) t
  | .timer => some (.addTask .eliminateFiles)

structure System.Linked (s : System T σ μ ι η) : Prop where
  stranded : s.executor.Stranded
  futures : s.executor.Futures
  called : ∀ p k, (s.executor.caller p).call = some k → posting s.sink p = some k
  waits : ∀ p n, s.executor.caller p = .waiting n →
    ∃ t w, p = .caller t ∧ s.sink.pc t = .mark w
  marked : ∀ t w n, s.sink.pc t = .mark w → (s.executor.caller (.caller t)).ticket = some n →
    ∃ e ∈ s.executor.enqueued, e.ticket = n ∧ e.packaged = true ∧ e.task = .sink (.notify t)
  notifies : ∀ t, ∀ e ∈ s.executor.pending, e.task = .sink (.notify t) →
    e.packaged = true ∧ (s.executor.caller (.caller t)).ticket = some e.ticket ∧
      ∃ w, s.sink.pc t = .mark w
  inside : s.sink.worker ≠ .idle →
    ∃ e, s.executor.worker 0 = .running e ∧ e.task = .sink .cacheToFile
  apart : ∀ t w, s.sink.pc t ≠ .wait w

theorem posts_mark {pc : Pc μ} {t : T} {task : Job T} {waits : Bool}
    (h : posts pc t = some (.addReturnTask task waits)) :
    (∃ w, pc = .mark w) ∧ task = .sink (.notify t) ∧ waits = true := by
  cases pc <;> simp_all [posts]

theorem posts_add {pc : Pc μ} {t : T} {task : Job T} (h : posts pc t = some (.addTask task)) :
    (∀ w, pc ≠ .mark w) ∧ task = .sink .cacheToFile := by
  cases pc <;> simp_all [posts]

theorem afterCall_ne_wait {pc : Pc μ} (apart : ∀ w, pc ≠ .wait w) (w : Wait) :
    afterCall pc ≠ .wait w := by
  cases pc with
  | post k => cases k <;> simp [afterCall, afterPost]
  | mark w' => cases w' <;> simp [afterCall, afterWait]
  | wait w' => exact absurd rfl (apart w')
  | _ => simp [afterCall]

theorem System.Linked.idle {s : System T σ μ ι η} (inv : s.Linked) {t : T}
    (h : posts (s.sink.pc t) t = none) : s.executor.caller (.caller t) = .idle := by
  cases hpc : s.executor.caller (.caller t) with
  | idle => rfl
  | waiting n =>
    obtain ⟨u, w, hu, hw⟩ := inv.waits _ n hpc
    obtain rfl := Poster.caller.inj hu
    simp [hw, posts] at h
  | lock k | enqueue k | unlock k n | notify k n =>
    have hk : posts (s.sink.pc t) t = some k := inv.called (.caller t) k (by rw [hpc]; rfl)
    rw [h] at hk
    cases hk

theorem System.Linked.frame {s next : System T σ μ ι η} (inv : s.Linked)
    (stranded : next.executor.Stranded) (futures : next.executor.Futures)
    (caller : next.executor.caller = s.executor.caller) (pc : next.sink.pc = s.sink.pc)
    (enqueued : next.executor.enqueued = s.executor.enqueued)
    (pending : ∀ e ∈ next.executor.pending, e ∈ s.executor.pending)
    (inside : next.sink.worker ≠ .idle →
      ∃ e, next.executor.worker 0 = .running e ∧ e.task = .sink .cacheToFile) :
    next.Linked := by
  refine ⟨stranded, futures, ?_, ?_, ?_, ?_, inside, pc ▸ inv.apart⟩
  · rw [caller]
    intro p k hk
    rw [← inv.called p k hk]
    cases p with
    | timer => rfl
    | caller t => rw [posting, posting, pc]
  · rw [caller, pc]
    exact inv.waits
  · rw [caller, pc, enqueued]
    exact inv.marked
  · rw [caller, pc]
    exact fun t e he => inv.notifies t e (pending e he)

theorem System.Linked.ofSink {s : System T σ μ ι η} (inv : s.Linked) {t : T}
    {sink : Sink T σ μ ι η} (idle : s.executor.caller (.caller t) = .idle)
    (others : ∀ u, u ≠ t → sink.pc u = s.sink.pc u) (worker : sink.worker = s.sink.worker)
    (apart : ∀ w, sink.pc t ≠ .wait w) : System.Linked { s with sink } := by
  -- what is known of a thread's call is about another thread
  have other {u : T} (busy : s.executor.caller (.caller u) ≠ .idle) :
      sink.pc u = s.sink.pc u := by
    refine others u ?_
    rintro rfl
    exact busy idle
  refine ⟨inv.stranded, inv.futures, ?_, ?_, ?_, ?_, ?_, ?_⟩
  · intro p k hk
    rw [← inv.called p k hk]
    cases p with
    | timer => rfl
    | caller u =>
      have busy : s.executor.caller (.caller u) ≠ .idle := by
        intro none
        simp [none, CallerPc.call] at hk
      rw [posting, posting, other busy]
  · intro p n hn
    have hn' : s.executor.caller p = .waiting n := hn
    obtain ⟨u, w, rfl, hw⟩ := inv.waits p n hn
    exact ⟨u, w, rfl, (other (by rw [hn']; simp)).trans hw⟩
  · intro u w n hpc hn
    have busy : s.executor.caller (.caller u) ≠ .idle := by
      intro none
      simp [none, CallerPc.ticket] at hn
    rw [other busy] at hpc
    exact inv.marked u w n hpc hn
  · intro u e he htask
    obtain ⟨packaged, ticket, hpc⟩ := inv.notifies u e he htask
    refine ⟨packaged, ticket, ?_⟩
    have busy : s.executor.caller (.caller u) ≠ .idle := by
      intro none
      simp [none, CallerPc.ticket] at ticket
    rw [other busy]
    exact hpc
  · rw [worker]
    exact inv.inside
  · intro u w
    by_cases same : u = t
    · subst same
      exact apart w
    · rw [others u same]
      exact inv.apart u w

def System.ticket (s : System T σ μ ι η) (t : T) : Option Nat :=
  (s.executor.caller (.caller t)).ticket

theorem ticket_of_update {s : System T σ μ ι η} [DecidableEq T]
    {executor : Pool (Poster T) (Job T)} {p : Poster T} {pc : CallerPc (Job T)}
    (caller : executor.caller = Function.update s.executor.caller p pc)
    (ticket : ∀ t, p = .caller t → pc.ticket = s.ticket t) (t : T) :
    (executor.caller (.caller t)).ticket = s.ticket t := by
  rw [caller]
  by_cases same : Poster.caller t = p
  · subst same
    rw [Function.update_self, ticket t rfl]
  · rw [Function.update_of_ne same]
    rfl

theorem System.Linked.recall {s : System T σ μ ι η} [DecidableEq T] (inv : s.Linked)
    {executor : Pool (Poster T) (Job T)} {p : Poster T} {pc : CallerPc (Job T)}
    (stranded : executor.Stranded) (futures : executor.Futures)
    (caller : executor.caller = Function.update s.executor.caller p pc)
    (enqueued : executor.enqueued = s.executor.enqueued)
    (pending : executor.pending = s.executor.pending)
    (running : ∀ e, s.executor.worker 0 = .running e → executor.worker 0 = .running e)
    (ticket : ∀ t, p = .caller t → pc.ticket = s.ticket t)
    (called : ∀ k, pc.call = some k → posting s.sink p = some k)
    (waits : ∀ n, pc = .waiting n → ∃ t w, p = .caller t ∧ s.sink.pc t = .mark w) :
    System.Linked { s with executor } := by
  have tickets := ticket_of_update caller ticket
  refine ⟨stranded, futures, ?_, ?_, ?_, ?_, ?_, inv.apart⟩
  · intro q k hk
    simp only [caller] at hk
    by_cases same : q = p
    · subst same
      rw [Function.update_self] at hk
      exact called k hk
    · rw [Function.update_of_ne same] at hk
      exact inv.called q k hk
  · intro q n hn
    simp only [caller] at hn
    by_cases same : q = p
    · subst same
      rw [Function.update_self] at hn
      exact waits n hn
    · rw [Function.update_of_ne same] at hn
      exact inv.waits q n hn
  · intro t w n hpc hn
    simp only [tickets] at hn
    simp only [enqueued]
    exact inv.marked t w n hpc hn
  · intro t e he htask
    simp only [pending] at he
    simp only [tickets]
    exact inv.notifies t e he htask
  · intro busy
    obtain ⟨e, hworker, htask⟩ := inv.inside busy
    exact ⟨e, running e hworker, htask⟩

theorem System.Linked.back {s : System T σ μ ι η} [DecidableEq T] (inv : s.Linked)
    {executor : Pool (Poster T) (Job T)} {t : T}
    (stranded : executor.Stranded) (futures : executor.Futures)
    (caller : executor.caller = Function.update s.executor.caller (.caller t) .idle)
    (enqueued : executor.enqueued = s.executor.enqueued)
    (pending : executor.pending = s.executor.pending)
    (running : ∀ e, s.executor.worker 0 = .running e → executor.worker 0 = .running e)
    (gone : ∀ e ∈ s.executor.pending, e.task ≠ .sink (.notify t)) :
    System.Linked { sink := returned s.sink t, executor } := by
  have idle : executor.caller (.caller t) = .idle := by rw [caller, Function.update_self]
  have other {u : T} (busy : executor.caller (.caller u) ≠ .idle) :
      executor.caller (.caller u) = s.executor.caller (.caller u) ∧
        (returned s.sink t).pc u = s.sink.pc u := by
    have hne : u ≠ t := by
      rintro rfl
      exact busy idle
    refine ⟨?_, ?_⟩
    · rw [caller, Function.update_of_ne (by simpa using hne)]
    · exact Function.update_of_ne hne _ _
  refine ⟨stranded, futures, ?_, ?_, ?_, ?_, ?_, ?_⟩
  · intro p k hk
    cases p with
    | timer =>
      simp only [caller] at hk
      rw [Function.update_of_ne (by simp)] at hk
      exact inv.called .timer k hk
    | caller u =>
      have busy : executor.caller (.caller u) ≠ .idle := by
        intro none
        simp [none, CallerPc.call] at hk
      obtain ⟨hcaller, hpc⟩ := other busy
      simp only [hcaller] at hk
      simp only [posting, hpc]
      exact inv.called (.caller u) k hk
  · intro p n hn
    simp only [caller] at hn
    by_cases same : p = .caller t
    · subst same
      rw [Function.update_self] at hn
      cases hn
    · rw [Function.update_of_ne same] at hn
      obtain ⟨u, w, rfl, hw⟩ := inv.waits p n hn
      have hne : u ≠ t := fun h => same (h ▸ rfl)
      exact ⟨u, w, rfl, (Function.update_of_ne hne _ _).trans hw⟩
  · intro u w n hw hn
    have busy : executor.caller (.caller u) ≠ .idle := by
      intro none
      simp [none, CallerPc.ticket] at hn
    obtain ⟨hcaller, hpc⟩ := other busy
    simp only [hpc] at hw
    simp only [hcaller] at hn
    simp only [enqueued]
    exact inv.marked u w n hw hn
  · intro u e he htask
    simp only [pending] at he
    obtain ⟨packaged, ticket, hw⟩ := inv.notifies u e he htask
    have hne : u ≠ t := by
      rintro rfl
      exact gone e he htask
    have hpc : (returned s.sink t).pc u = s.sink.pc u := Function.update_of_ne hne _ _
    have hcaller : executor.caller (.caller u) = s.executor.caller (.caller u) := by
      rw [caller, Function.update_of_ne (by simpa using hne)]
    simp only [hcaller, hpc]
    exact ⟨packaged, ticket, hw⟩
  · intro busy
    obtain ⟨e, hworker, htask⟩ := inv.inside busy
    exact ⟨e, running e hworker, htask⟩
  · intro u w
    by_cases same : u = t
    · subst same
      have resumes : (returned s.sink u).pc u = afterCall (s.sink.pc u) :=
        Function.update_self ..
      simp only [resumes]
      exact afterCall_ne_wait (inv.apart u) w
    · have stays : (returned s.sink t).pc u = s.sink.pc u := Function.update_of_ne same _ _
      simp only [stays]
      exact inv.apart u w

theorem notified_running {τ : Type} {pc : ThreadPool.WorkerPc τ} {e : Entry τ}
    (h : pc = .running e) : pc.notified = .running e := by
  subst h
  rfl

theorem System.Linked.gone {s : System T σ μ ι η} (inv : s.Linked) {t : T} {n : Nat}
    (hpc : s.executor.caller (.caller t) = .waiting n) (ready : n ∈ s.executor.ready) :
    ∀ e ∈ s.executor.pending, e.task ≠ .sink (.notify t) := by
  intro e he htask
  obtain ⟨-, hticket, -⟩ := inv.notifies t e he htask
  obtain rfl : n = e.ticket := by simpa [hpc, CallerPc.ticket] using hticket
  have enqueued : e ∈ s.executor.enqueued := inv.stranded.pending_suffix.subset he
  exact ((inv.futures e enqueued).mp ready).2 he

theorem begun_eq_idle_or (pc : ThreadPool.WorkerPc (Job T)) :
    (begun pc : DoubleBuffer.WorkerPc ι) = .idle ∨
      (begun pc : DoubleBuffer.WorkerPc ι) = .load ∧
        ∃ e, pc = .start e ∧ e.task = .sink .cacheToFile := by
  unfold begun
  split
  · exact Or.inr ⟨rfl, _, rfl, rfl⟩
  · exact Or.inl rfl

variable [DecidableEq T]

private theorem enqueue_linked {s : System T σ μ ι η} (inv : s.Linked) {p : Poster T}
    {k : Call (Job T)} (hpc : s.executor.caller p = .enqueue k)
    {executor : Pool (Poster T) (Job T)} (stranded : executor.Stranded)
    (futures : executor.Futures)
    (caller : executor.caller =
      Function.update s.executor.caller p (.unlock k s.executor.enqueued.length))
    (enqueued : executor.enqueued = s.executor.enqueued ++ [s.executor.entry k])
    (pending : executor.pending = s.executor.pending ++ [s.executor.entry k])
    (worker : executor.worker = s.executor.worker) :
    System.Linked { s with executor } := by
  have posted := inv.called p k (by rw [hpc]; rfl)
  refine ⟨stranded, futures, ?_, ?_, ?_, ?_, ?_, inv.apart⟩
  · intro q k' hk
    simp only [caller] at hk
    by_cases same : q = p
    · subst same
      rw [Function.update_self] at hk
      obtain rfl : k = k' := by simpa [CallerPc.call] using hk
      exact posted
    · rw [Function.update_of_ne same] at hk
      exact inv.called q k' hk
  · intro q n hn
    simp only [caller] at hn
    by_cases same : q = p
    · subst same
      rw [Function.update_self] at hn
      cases hn
    · rw [Function.update_of_ne same] at hn
      exact inv.waits q n hn
  · intro t w n hw hn
    simp only [caller] at hn
    simp only [enqueued]
    by_cases same : Poster.caller t = p
    · subst same
      rw [Function.update_self] at hn
      rw [posting, show s.sink.pc t = .mark w from hw] at posted
      obtain rfl : Call.addReturnTask (.sink (.notify t)) true = k := Option.some.inj posted
      refine ⟨_, List.mem_append_right _ List.mem_cons_self, ?_, rfl, rfl⟩
      exact Option.some.inj hn
    · rw [Function.update_of_ne same] at hn
      obtain ⟨e, he, facts⟩ := inv.marked t w n hw hn
      exact ⟨e, List.mem_append_left _ he, facts⟩
  · intro t e he htask
    simp only [pending] at he
    simp only [caller]
    rcases List.mem_append.mp he with old | new
    · obtain ⟨packaged, hticket, hw⟩ := inv.notifies t e old htask
      have other : Poster.caller t ≠ p := by
        rintro rfl
        rw [hpc] at hticket
        cases hticket
      rw [Function.update_of_ne other]
      exact ⟨packaged, hticket, hw⟩
    · obtain rfl := List.mem_singleton.mp new
      have hk : k.task = .sink (.notify t) := htask
      cases p with
      | timer =>
        obtain rfl := Option.some.inj posted
        cases hk
      | caller u =>
        cases k with
        | addTask task =>
          obtain ⟨-, rfl⟩ := posts_add posted
          cases hk
        | addReturnTask task waits =>
          obtain ⟨hw, rfl, -⟩ := posts_mark posted
          obtain rfl : u = t := by simpa [Call.task] using hk
          refine ⟨rfl, ?_, hw⟩
          rw [Function.update_self]
          rfl
  · intro busy
    rw [show (System.mk s.sink executor).executor.worker = s.executor.worker from worker]
    exact inv.inside busy

theorem poster_linked {s next : System T σ μ ι η} (inv : s.Linked) {p : Poster T}
    (h : posterStep s p = some next) : next.Linked := by
  obtain ⟨executor, hstep, rfl⟩ : ∃ executor, ThreadPool.callerStep s.executor p = some executor ∧
      _ = next := Option.map_eq_some_iff.mp h
  have stranded := ThreadPool.step_stranded (a := .caller p) inv.stranded hstep
  have futures := ThreadPool.step_futures (a := .caller p) inv.stranded inv.futures hstep
  cases ThreadPool.callerStep_cases hstep with
  | lock k hpc free =>
    have same : resumed s.sink p (.enqueue k) = s.sink := by cases p <;> rfl
    simp only [Pool.setCaller, Function.update_self, same] at stranded futures ⊢
    refine inv.recall stranded futures rfl rfl rfl (fun _ h => h) ?_ ?_ (fun n h => by cases h)
    · rintro t rfl
      rw [System.ticket, hpc]
      rfl
    · intro k' hk
      exact inv.called p k' (by rw [hpc]; exact hk)
  | enqueue k hpc =>
    have same : resumed s.sink p (.unlock k s.executor.enqueued.length) = s.sink := by
      cases p <;> rfl
    simp only [Pool.setCaller, Function.update_self, same] at stranded futures ⊢
    exact enqueue_linked inv hpc stranded futures rfl rfl (List.append_assoc _ _ _).symm rfl
  | unlock k n hpc =>
    have same : resumed s.sink p (.notify k n) = s.sink := by cases p <;> rfl
    simp only [Pool.setCaller, Function.update_self, same] at stranded futures ⊢
    refine inv.recall stranded futures rfl rfl rfl (fun _ h => h) ?_ ?_ (fun n h => by cases h)
    · rintro t rfl
      rw [System.ticket, hpc]
      rfl
    · intro k' hk
      exact inv.called p k' (by rw [hpc]; exact hk)
  | notify k n hpc =>
    have pending : (s.executor.notifyAll.setCaller p (k.after n)).pending = s.executor.pending := by
      simp only [Pool.pending, Pool.notifyAll, Pool.setCaller, ThreadPool.WorkerPc.notified_hand]
    simp only [Pool.setCaller, Function.update_self] at stranded futures pending ⊢
    cases p with
    | timer =>
      obtain rfl := Option.some.inj (inv.called .timer k (by rw [hpc]; rfl))
      exact inv.recall stranded futures rfl rfl pending (fun _ => notified_running)
        (fun t h => by cases h) (fun k' h => by cases h) (fun n h => by cases h)
    | caller t =>
      have posted := inv.called (.caller t) k (by rw [hpc]; rfl)
      cases k with
      | addTask task =>
        refine inv.back stranded futures rfl rfl pending (fun _ => notified_running) ?_
        intro e he htask
        obtain ⟨-, -, w, hw⟩ := inv.notifies t e he htask
        exact (posts_add posted).1 w hw
      | addReturnTask task waits =>
        obtain ⟨hw, rfl, rfl⟩ := posts_mark posted
        refine inv.recall stranded futures rfl rfl pending (fun _ => notified_running)
          ?_ (fun k' h => by cases h) ?_
        · rintro u ⟨rfl⟩
          rw [System.ticket, hpc]
          rfl
        · intro n' _
          obtain ⟨w, hw⟩ := hw
          exact ⟨t, w, rfl, hw⟩
  | waiting n hpc ready =>
    simp only [Pool.setCaller, Function.update_self] at stranded futures ⊢
    cases p with
    | timer =>
      exact inv.recall stranded futures rfl rfl rfl (fun _ h => h)
        (fun t h => by cases h) (fun k h => by cases h) (fun n h => by cases h)
    | caller t =>
      exact inv.back stranded futures rfl rfl rfl (fun _ h => h) (inv.gone hpc ready)

theorem worker_linked {P : Pipeline σ μ ι η} {s next : System T σ μ ι η} (inv : s.Linked)
    (h : workerStep P s = some next) : next.Linked := by
  unfold workerStep at h
  split at h
  · obtain ⟨executor, hstep, rfl⟩ := Option.map_eq_some_iff.mp h
    have caller : executor.caller = s.executor.caller := by
      cases ThreadPool.workerStep_cases hstep <;> rfl
    have pended : ThreadPool.Pended s.executor (.worker 0) executor :=
      ThreadPool.step_pended inv.stranded.mustered inv.stranded.single hstep
    have kept : executor.enqueued = s.executor.enqueued ∧
        ∀ e ∈ executor.pending, e ∈ s.executor.pending := by
      cases pended with
      | same hpending henqueued _ _ | started e _ _ hpending henqueued _ =>
        exact ⟨henqueued, fun _ he => hpending ▸ he⟩
      | ended e _ hpending henqueued _ _ =>
        exact ⟨henqueued, fun _ he => hpending ▸ List.mem_cons_of_mem _ he⟩
    refine inv.frame (ThreadPool.step_stranded (a := .worker 0) inv.stranded hstep)
      (ThreadPool.step_futures (a := .worker 0) inv.stranded inv.futures hstep) caller rfl
      kept.1 kept.2 ?_
    intro busy
    rcases begun_eq_idle_or (ι := ι) (s.executor.worker 0) with idle | ⟨-, e, hpc, htask⟩
    · exact absurd idle busy
    · simp only [ThreadPool.workerStep, hpc] at hstep
      obtain rfl := Option.some.inj hstep
      exact ⟨e, by simp [Pool.setWorker], htask⟩
  · rename_i busy
    obtain ⟨sink, hstep, rfl⟩ := Option.map_eq_some_iff.mp h
    have pc : sink.pc = s.sink.pc := by
      cases DoubleBuffer.workerStep_cases hstep <;> rfl
    exact inv.frame inv.stranded inv.futures rfl pc rfl (fun _ he => he) fun _ => inv.inside busy

theorem pool_frame {s next : Pool (Poster T) (Job T)}
    {a : ThreadPool.Label (Poster T) (Job T)} (inv : s.Stranded)
    (alone : a = .spurious 0 ∨ a = .start ∨ a = .stop ∨ a = .owner)
    (h : ThreadPool.step s a = some next) :
    next.caller = s.caller ∧ next.pending = s.pending ∧ next.enqueued = s.enqueued ∧
      next.ready = s.ready ∧ (next.worker 0).inTask = (s.worker 0).inTask := by
  have caller : next.caller = s.caller := by
    rcases alone with rfl | rfl | rfl | rfl <;> cases ThreadPool.step_cases h <;> try rfl
    rename_i moved
    cases moved <;> rfl
  rcases alone with rfl | rfl | rfl | rfl <;>
    cases ThreadPool.step_pended inv.mustered inv.single h with
    | same hpending henqueued hready hinTask =>
      exact ⟨caller, hpending, henqueued, hready, hinTask⟩

theorem inTask_eq_some {τ : Type} {pc : ThreadPool.WorkerPc τ} {e : Entry τ} :
    pc.inTask = some e ↔ pc = .running e := by
  cases pc <;> simp [ThreadPool.WorkerPc.inTask]

theorem pool_linked {s next : System T σ μ ι η} {a : ThreadPool.Label (Poster T) (Job T)}
    (inv : s.Linked) (alone : a = .spurious 0 ∨ a = .start ∨ a = .stop ∨ a = .owner)
    (h : poolStep s a = some next) : next.Linked := by
  obtain ⟨executor, hstep, rfl⟩ := Option.map_eq_some_iff.mp h
  obtain ⟨caller, pending, enqueued, -, hinTask⟩ := pool_frame inv.stranded alone hstep
  refine inv.frame (ThreadPool.step_stranded inv.stranded hstep)
    (ThreadPool.step_futures inv.stranded inv.futures hstep) caller rfl enqueued
    (fun _ he => pending ▸ he) ?_
  intro busy
  obtain ⟨e, hpc, htask⟩ := inv.inside busy
  exact ⟨e, inTask_eq_some.mp (hinTask.trans (inTask_eq_some.mpr hpc)), htask⟩

theorem call_linked {s next : System T σ μ ι η} {p : Poster T} {k : Call (Job T)}
    (inv : s.Linked) (called : posting s.sink p = some k)
    (h : poolStep s (.call p k) = some next) : next.Linked := by
  obtain ⟨executor, hstep, rfl⟩ := Option.map_eq_some_iff.mp h
  have stranded := ThreadPool.step_stranded inv.stranded hstep
  have futures := ThreadPool.step_futures inv.stranded inv.futures hstep
  cases ThreadPool.step_cases hstep with
  | call p k hpc =>
    refine inv.recall stranded futures rfl rfl rfl (fun _ h => h) ?_ ?_ nofun
    · rintro t rfl
      rw [System.ticket, hpc]
      rfl
    · intro k' hk
      obtain rfl : k = k' := Option.some.inj hk
      exact called

theorem threadStep_frame {P : Pipeline σ μ ι η} {s next : Sink T σ μ ι η} {t : T} {filled : Bool}
    (quiet : posts (s.pc t) t = none) (apart : ∀ w, s.pc t ≠ .wait w)
    (h : DoubleBuffer.threadStep P s t filled = some next) :
    (∀ u, u ≠ t → next.pc u = s.pc u) ∧ next.worker = s.worker ∧ ∀ w, next.pc t ≠ .wait w := by
  cases DoubleBuffer.threadStep_cases h with
  | ctorMaster hpc =>
    split <;>
      refine ⟨fun u hu => Function.update_of_ne hu _ _, rfl, fun w => ?_⟩ <;> simp [Sink.goto]
  | mark w hpc => simp [hpc, posts] at quiet
  | wait w hpc => exact absurd hpc (apart w)
  | needWrite hpc | loadFree k hpc | ctorSlave hpc =>
    refine ⟨fun u hu => Function.update_of_ne hu _ _, rfl, fun w => ?_⟩
    simp only [Sink.goto, Function.update_self]
    split <;> simp
  | post k hpc | flushPost hpc | ctorPost hpc => simp [hpc, posts] at quiet
  | resetIfEmpty m hpc | fail m stream hpc | push m stream x hpc | storeBusy k hpc | swap k hpc
  | ctorBusy hpc =>
    refine ⟨fun u hu => Function.update_of_ne hu _ _, rfl, fun w => ?_⟩
    simp [Sink.goto]

theorem thread_linked {P : Pipeline σ μ ι η} {s next : System T σ μ ι η} {t : T} {filled : Bool}
    (inv : s.Linked) (h : threadStep P s t filled = some next) : next.Linked := by
  unfold threadStep at h
  split at h
  · rename_i k posted
    exact call_linked (p := .caller t) inv posted h
  · rename_i quiet
    obtain ⟨sink, hstep, rfl⟩ := Option.map_eq_some_iff.mp h
    obtain ⟨others, worker, apart⟩ := threadStep_frame quiet (inv.apart t) hstep
    exact inv.ofSink (inv.idle quiet) others worker apart

theorem enter_linked {s : System T σ μ ι η} {sink : Sink T σ μ ι η} {t : T} {pc : Pc μ}
    (inv : s.Linked) (apart : ∀ w, pc ≠ .wait w)
    (h : DoubleBuffer.enter s.sink t pc = some sink) : System.Linked { s with sink } := by
  obtain ⟨hpc, -, rfl⟩ := DoubleBuffer.enter_cases h
  refine inv.ofSink (t := t) (inv.idle (by rw [hpc]; rfl)) ?_ rfl ?_
  · exact fun u hu => Function.update_of_ne hu _ _
  · simpa [Sink.goto] using apart

theorem beginLog_ne_wait (kind : Kind) (m : μ) (w : Wait) :
    DoubleBuffer.beginLog kind m ≠ .wait w := by
  cases kind <;> nofun

theorem step_linked {kind : Kind} {P : Pipeline σ μ ι η} {s next : System T σ μ ι η}
    {a : Label T μ} (inv : s.Linked) (h : step kind P s a = some next) : next.Linked := by
  cases a with
  | log t m =>
    obtain ⟨sink, hstep, rfl⟩ := Option.map_eq_some_iff.mp h
    exact enter_linked inv (beginLog_ne_wait kind m) hstep
  | flush t =>
    obtain ⟨sink, hstep, rfl⟩ := Option.map_eq_some_iff.mp h
    exact enter_linked inv (fun w h => by cases h) hstep
  | thread t filled => exact thread_linked inv h
  | poster p => exact poster_linked inv h
  | eliminateFiles =>
    obtain ⟨-, h⟩ := Option.ite_none_right_eq_some.mp h
    exact call_linked inv rfl h
  | worker => exact worker_linked inv h
  | spurious => exact pool_linked inv (by simp) h
  | start => exact pool_linked inv (by simp) h
  | stop => exact pool_linked inv (by simp) h
  | owner => exact pool_linked inv (by simp) h

theorem initial_linked (kind : Kind) (t : T) (stream : σ) (masterFile slaveFile : List ι) :
    (initial (μ := μ) (η := η) kind t stream masterFile slaveFile).Linked where
  stranded := ThreadPool.initial_stranded
  futures := ThreadPool.initial_futures 1
  called _ _ h := by cases h
  waits _ _ h := by cases h
  marked _ _ _ _ h := by cases h
  notifies _ _ h := by cases h
  inside h := by cases kind <;> exact absurd rfl h
  apart u w := by
    cases kind with
    | effective =>
      by_cases same : u = t
      · simp [initial, DoubleBuffer.initial, same]
      · simp [initial, DoubleBuffer.initial, same]
    | async => simp [initial, DoubleBuffer.initial]

end Links

end FlashLog.Sinks.Pooled
