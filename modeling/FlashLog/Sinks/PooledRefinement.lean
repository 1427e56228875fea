import FlashLog.Sinks.Conservation
import FlashLog.Sinks.PooledLinks

/-!
A sink on its executor refines the double-buffer protocol: a task is in the strand's queue from
the pool's `emplace` until its thread starts `CacheToFile_` or ends an empty task, and a thread
that waits for a future waits for its own notification.
-/

set_option autoImplicit false
set_option relaxedAutoImplicit false

namespace FlashLog.Sinks.Pooled

open FlashLog.Support
open FlashLog.Support.Machine (run run_related_meets)
open FlashLog.Scheduler
open FlashLog.Scheduler.ThreadPool (Pool Call Entry CallerPc)
open FlashLog.Sinks.DoubleBuffer (Kind Pipeline Caller Chunk Wait Pc Sink afterPost afterWait plain)

variable {T σ μ ι η : Type}

section Shown

def posted : Pc μ → Pc μ
  | .post k => afterPost k
  | .flushPost => .mark .first
  | .ctorPost => .ctorMaster
  | .mark w => .wait w
  | pc => pc

/-- A thread whose task is in the queue has posted it for the protocol. -/
def shown (pc : Pc μ) : Option Nat → Pc μ
  | none => pc
  | some _ => posted pc

def Job.strandTask : Job T → Option (DoubleBuffer.Task T)
  | .sink task => some task
  | .eliminateFiles => none

def Job.isCacheToFile : Job T → Bool
  | .sink .cacheToFile => true
  | _ => false

def strandTasks (es : List (Entry (Job T))) : List (DoubleBuffer.Task T) :=
  es.filterMap fun e => e.task.strandTask

/-- The strand's queue: what is pending, without a `CacheToFile_` that runs. -/
def System.tasks (s : System T σ μ ι η) : List (DoubleBuffer.Task T) :=
  match (s.executor.worker 0).inTask with
  | some e =>
    strandTasks (if e.task.isCacheToFile then s.executor.pending.tail else s.executor.pending)
  | none => strandTasks s.executor.pending

/-- The state of the protocol that a state shows, but for the two fields that keep a past step. -/
def System.shows (s : System T σ μ ι η) (constructed : Bool) (notified : T → Bool) :
    Sink T σ μ ι η :=
  { s.sink with
    pc := fun t => shown (s.sink.pc t) (s.ticket t), queue := s.tasks, constructed, notified }

/-- A state of the protocol that a state of the system answers to. -/
structure System.Answers (s : System T σ μ ι η) (d : Sink T σ μ ι η) : Prop where
  linked : s.Linked
  same : d = s.shows d.constructed d.notified
  constructed : s.sink.constructed = true → d.constructed = true
  ended : ∀ t, endsCtor (s.sink.pc t) = true → s.ticket t ≠ none → d.constructed = true
  notified : ∀ t w n, s.sink.pc t = .mark w → s.ticket t = some n →
    (d.notified t = true ↔ n ∈ s.executor.ready)

variable {s next : System T σ μ ι η} {d : Sink T σ μ ι η}

theorem tasks_congr (pending : next.executor.pending = s.executor.pending)
    (hinTask : (next.executor.worker 0).inTask = (s.executor.worker 0).inTask) :
    next.tasks = s.tasks := by
  rw [System.tasks, System.tasks, pending, hinTask]

theorem tasks_append {e : Entry (Job T)}
    (pending : next.executor.pending = s.executor.pending ++ [e])
    (hinTask : (next.executor.worker 0).inTask = (s.executor.worker 0).inTask) :
    next.tasks = s.tasks ++ strandTasks [e] := by
  rw [System.tasks, System.tasks, pending, hinTask]
  cases hcurrent : (s.executor.worker 0).inTask with
  | none => exact List.filterMap_append
  | some e' =>
    have first : s.executor.pending = e' :: s.executor.taskQueue := by
      rw [Pool.pending, inTask_eq_some.mp hcurrent]
      rfl
    simp only [first, strandTasks]
    split
    · exact List.filterMap_append
    · exact List.filterMap_append

theorem System.Answers.frame (h : s.Answers d) (linked : next.Linked) (sink : next.sink = s.sink)
    (ticket : ∀ t, next.ticket t = s.ticket t) (ready : next.executor.ready = s.executor.ready)
    (tasks : next.tasks = s.tasks) : next.Answers d := by
  refine ⟨linked, ?_, ?_, ?_, ?_⟩
  · rw [h.same]
    simp only [System.shows, sink, ticket, tasks]
  · rw [sink]
    exact h.constructed
  · simp only [sink, ticket]
    exact h.ended
  · simp only [sink, ticket, ready]
    exact h.notified

theorem System.Answers.pc_eq (h : s.Answers d) (t : T) :
    d.pc t = shown (s.sink.pc t) (s.ticket t) := by
  rw [h.same]
  rfl

theorem System.Answers.worker_eq (h : s.Answers d) : d.worker = s.sink.worker := by
  rw [h.same]
  rfl

theorem System.Answers.pc_idle (h : s.Answers d) {t : T}
    (idle : s.executor.caller (.caller t) = .idle) : d.pc t = s.sink.pc t := by
  rw [h.pc_eq, System.ticket, idle]
  rfl

section Threads

variable [DecidableEq T]

theorem shows_goto {sink : Sink T σ μ ι η} {t : T} (pc : Pc μ)
    (idle : s.executor.caller (.caller t) = .idle) (constructed : Bool) (notified : T → Bool) :
    System.shows { s with sink := sink.goto t pc } constructed notified =
      (System.shows { s with sink } constructed notified).goto t pc := by
  simp only [System.shows, Sink.goto, Sink.mk.injEq, true_and, and_true]
  refine ⟨?_, rfl⟩
  funext u
  by_cases same : u = t
  · subst same
    simp [System.ticket, idle, CallerPc.ticket, shown]
  · simp [same, System.ticket]

omit [DecidableEq T] in
theorem System.Answers.ofSink (h : s.Answers d) {t : T} {sink d' : Sink T σ μ ι η}
    (idle : s.executor.caller (.caller t) = .idle)
    (linked : System.Linked { s with sink }) (others : ∀ u, u ≠ t → sink.pc u = s.sink.pc u)
    (same : d' = System.shows { s with sink } d'.constructed d'.notified)
    (notified : d'.notified = d.notified) (kept : d.constructed = true → d'.constructed = true)
    (constructed : sink.constructed = true → d'.constructed = true) :
    System.Answers { s with sink } d' := by
  have other {u : T} (busy : s.ticket u ≠ none) : sink.pc u = s.sink.pc u := by
    refine others u ?_
    rintro rfl
    rw [System.ticket, idle] at busy
    exact busy rfl
  refine ⟨linked, same, constructed, ?_, ?_⟩
  · intro u hu busy
    exact kept (h.ended u (other busy ▸ hu) busy)
  · intro u w n hw hn
    have busy : s.ticket u ≠ none := by
      intro none
      have hn' : s.ticket u = some n := hn
      rw [none] at hn'
      cases hn'
    rw [notified]
    exact h.notified u w n (other busy ▸ hw) hn

end Threads

end Shown

section Steps

variable {s next : System T σ μ ι η} {d : Sink T σ μ ι η} [DecidableEq T]

private theorem enter_answered {t : T} {pc : Pc μ} {sink : Sink T σ μ ι η} (h : s.Answers d)
    (apart : ∀ w, pc ≠ .wait w) (hstep : DoubleBuffer.enter s.sink t pc = some sink) :
    DoubleBuffer.enter d t pc = some (d.goto t pc) ∧
      System.Answers { s with sink } (d.goto t pc) := by
  have linked := enter_linked h.linked apart hstep
  obtain ⟨hpc, constructed, rfl⟩ := DoubleBuffer.enter_cases hstep
  have idle : s.executor.caller (.caller t) = .idle := h.linked.idle (by rw [hpc]; rfl)
  refine ⟨?_, ?_⟩
  · have hd : d.pc t = .idle := (h.pc_idle idle).trans hpc
    simp [DoubleBuffer.enter, hd, h.constructed constructed]
  · refine h.ofSink idle linked (fun u hu => Function.update_of_ne hu _ _) ?_ rfl id
      h.constructed
    rw [shows_goto pc idle]
    exact congrArg (fun d => d.goto t pc) h.same

private theorem threadStep_answered {P : Pipeline σ μ ι η} {t : T} {filled : Bool}
    {sink : Sink T σ μ ι η} (h : s.Answers d) (quiet : posts (s.sink.pc t) t = none)
    (hstep : DoubleBuffer.threadStep P s.sink t filled = some sink) :
    ∃ d', DoubleBuffer.threadStep P d t filled = some d' ∧
      System.Answers { s with sink } d' := by
  obtain ⟨others, worker, apart⟩ := threadStep_frame quiet (h.linked.apart t) hstep
  have idle := h.linked.idle quiet
  have linked := h.linked.ofSink idle others worker apart
  have hd := h.pc_idle idle
  obtain ⟨constructed, notifications, rfl⟩ : ∃ c n, d = s.shows c n := ⟨_, _, h.same⟩
  cases DoubleBuffer.threadStep_cases hstep with
  | resetIfEmpty m hpc | needWrite hpc | loadFree k hpc | storeBusy k hpc | swap k hpc
  | ctorSlave hpc | ctorBusy hpc =>
    rw [hpc] at hd
    refine ⟨_, by rw [DoubleBuffer.threadStep, hd], ?_⟩
    exact h.ofSink idle linked others (by rw [shows_goto _ idle]; rfl) rfl id h.constructed
  | fail m stream hpc hencode =>
    rw [hpc] at hd
    have encoded : P.encode (s.shows constructed notifications).stream m = (stream, none) := hencode
    refine ⟨_, by rw [DoubleBuffer.threadStep, hd]; simp only [encoded]; rfl, ?_⟩
    exact h.ofSink idle linked others (by rw [shows_goto _ idle]; rfl) rfl id h.constructed
  | push m stream x hpc hencode =>
    rw [hpc] at hd
    have encoded : P.encode (s.shows constructed notifications).stream m = (stream, some x) :=
      hencode
    refine ⟨_, by rw [DoubleBuffer.threadStep, hd]; simp only [encoded]; rfl, ?_⟩
    exact h.ofSink idle linked others (by rw [shows_goto _ idle]; rfl) rfl id h.constructed
  | post k hpc | flushPost hpc | mark w hpc | ctorPost hpc => simp [hpc, posts] at quiet
  | wait w hpc woken => exact absurd hpc (h.linked.apart t w)
  | ctorMaster hpc =>
    rw [hpc] at hd
    refine ⟨_, by rw [DoubleBuffer.threadStep, hd], ?_⟩
    by_cases empty : s.sink.master.isEmpty = true
    · have emptied : (s.shows constructed notifications).master.isEmpty = true := empty
      simp only [empty, emptied, if_true] at linked others ⊢
      refine h.ofSink idle linked others ?_ rfl (fun _ => rfl) (fun _ => rfl)
      rw [shows_goto _ idle]
      rfl
    · have filled : ¬ (s.shows constructed notifications).master.isEmpty = true := empty
      simp only [empty, filled, Bool.false_eq_true, if_false] at linked others ⊢
      refine h.ofSink idle linked others ?_ rfl id h.constructed
      rw [shows_goto _ idle]
      rfl

theorem System.Answers.back (h : s.Answers d) {t : T} {executor : Pool (Poster T) (Job T)}
    (linked : System.Linked { sink := returned s.sink t, executor })
    (caller : executor.caller = Function.update s.executor.caller (.caller t) .idle)
    (ready : executor.ready = s.executor.ready)
    (tasks : System.tasks { sink := returned s.sink t, executor } = s.tasks)
    (busy : s.ticket t ≠ none) :
    System.Answers { sink := returned s.sink t, executor } (d.goto t (afterCall (s.sink.pc t))) := by
  have idle : (executor.caller (.caller t)).ticket = none := by
    rw [caller, Function.update_self]
    rfl
  have other {u : T} (hu : u ≠ t) : (executor.caller (.caller u)).ticket = s.ticket u ∧
      (returned s.sink t).pc u = s.sink.pc u := by
    refine ⟨?_, Function.update_of_ne hu _ _⟩
    rw [caller, Function.update_of_ne (by simpa using hu)]
    rfl
  have others {u : T} (posted : (executor.caller (.caller u)).ticket ≠ none) : u ≠ t := by
    rintro rfl
    exact posted idle
  refine ⟨linked, ?_, ?_, ?_, ?_⟩
  · obtain ⟨constructed, notifications, rfl⟩ : ∃ c n, d = s.shows c n := ⟨_, _, h.same⟩
    simp only [System.shows, Sink.goto, tasks, Sink.mk.injEq, true_and]
    refine ⟨rfl, rfl, rfl, rfl, rfl, ?_, rfl, rfl, rfl⟩
    funext u
    by_cases same : u = t
    · subst same
      rw [Function.update_self]
      simp [System.ticket, idle, shown, returned, Sink.goto]
    · obtain ⟨hticket, hpc⟩ := other same
      rw [Function.update_of_ne same]
      simp only [System.ticket, hpc] at hticket ⊢
      rw [hticket]
  · intro constructed
    rcases Bool.or_eq_true_iff.mp constructed with old | ends
    · exact h.constructed old
    · exact h.ended t ends busy
  · intro u ends posted
    obtain ⟨hticket, hpc⟩ := other (others posted)
    simp only [hpc] at ends
    exact h.ended u ends (hticket ▸ posted)
  · intro u w n hw hn
    have hu : u ≠ t := others (by rw [show (executor.caller (.caller u)).ticket = some n from hn]; simp)
    obtain ⟨hticket, hpc⟩ := other hu
    simp only [hpc] at hw
    simp only [ready]
    exact h.notified u w n hw (hticket ▸ hn)

theorem System.Answers.enqueue (h : s.Answers d) {t : T} {executor : Pool (Poster T) (Job T)}
    {k : Call (Job T)} {n : Nat} {task : DoubleBuffer.Task T} {d' : Sink T σ μ ι η}
    (linked : System.Linked { s with executor })
    (caller : executor.caller = Function.update s.executor.caller (.caller t) (.unlock k n))
    (ready : executor.ready = s.executor.ready) (fresh : n ∉ s.executor.ready)
    (tasks : System.tasks { s with executor } = s.tasks ++ [task])
    (same : d' = { d with
      constructed := d'.constructed, notified := d'.notified
      queue := d.queue ++ [task] }.goto t (posted (s.sink.pc t)))
    (kept : d.constructed = true → d'.constructed = true)
    (ended : endsCtor (s.sink.pc t) = true → d'.constructed = true)
    (others : ∀ u, u ≠ t → d'.notified u = d.notified u)
    (reset : ∀ w, s.sink.pc t = .mark w → d'.notified t = false) :
    System.Answers { s with executor } d' := by
  have own : (executor.caller (.caller t)).ticket = some n := by
    rw [caller, Function.update_self]
    rfl
  have other {u : T} (hu : u ≠ t) : (executor.caller (.caller u)).ticket = s.ticket u := by
    rw [caller, Function.update_of_ne (by simpa using hu)]
    rfl
  refine ⟨linked, ?_, fun constructed => kept (h.constructed constructed), ?_, ?_⟩
  · rw [same]
    generalize d'.constructed = constructed', d'.notified = notified'
    obtain ⟨constructed, notifications, rfl⟩ : ∃ c n, d = s.shows c n := ⟨_, _, h.same⟩
    simp only [System.shows, Sink.goto, tasks, Sink.mk.injEq, true_and, and_true]
    funext u
    by_cases same : u = t
    · subst same
      rw [Function.update_self, System.ticket, own]
      rfl
    · rw [Function.update_of_ne same, System.ticket, System.ticket, other same]
      rfl
  · intro u ends busy
    by_cases same : u = t
    · subst same
      exact ended ends
    · exact kept (h.ended u ends (other same ▸ busy))
  · intro u w m hw hm
    simp only [ready]
    by_cases same : u = t
    · subst same
      obtain rfl : n = m := Option.some.inj (own.symm.trans hm)
      rw [reset w hw]
      exact iff_of_false Bool.false_ne_true fresh
    · rw [others u same]
      exact h.notified u w m hw ((other same).symm.trans hm)

theorem callerStep_enqueue {p : Pool (Poster T) (Job T)} {c : Poster T} {k : Call (Job T)}
    {executor : Pool (Poster T) (Job T)} (hpc : p.caller c = .enqueue k)
    (h : ThreadPool.callerStep p c = some executor) :
    executor.caller = Function.update p.caller c (.unlock k p.enqueued.length) ∧
      executor.ready = p.ready ∧ executor.pending = p.pending ++ [p.entry k] ∧
      executor.worker = p.worker := by
  simp only [ThreadPool.callerStep, hpc] at h
  obtain rfl := Option.some.inj h
  exact ⟨rfl, rfl, (List.append_assoc _ _ _).symm, rfl⟩

private theorem enqueue_answered {P : Pipeline σ μ ι η} {t : T} {k : Call (Job T)}
    (h : s.Answers d) (hpc : s.executor.caller (.caller t) = .enqueue k)
    (hstep : posterStep s (.caller t) = some next) :
    ∃ d', DoubleBuffer.threadStep P d t false = some d' ∧ next.Answers d' := by
  have linked := poster_linked h.linked hstep
  have asked : posts (s.sink.pc t) t = some k := h.linked.called (.caller t) k (by rw [hpc]; rfl)
  have hd : d.pc t = s.sink.pc t := by
    rw [h.pc_eq, System.ticket, hpc]
    rfl
  have fresh : s.executor.enqueued.length ∉ s.executor.ready := by
    intro ready
    obtain ⟨e, he, hticket⟩ := h.linked.stranded.delivered _ ready
    have earlier := h.linked.stranded.kept.ticket_lt
      (h.linked.stranded.inOrder.started_prefix.subset he)
    rw [hticket] at earlier
    exact Nat.lt_irrefl _ earlier
  obtain ⟨executor, hcall, rfl⟩ := Option.map_eq_some_iff.mp hstep
  obtain ⟨caller, ready, pending, worker⟩ := callerStep_enqueue hpc hcall
  have stays : resumed s.sink (.caller t) (executor.caller (.caller t)) = s.sink := by
    rw [caller, Function.update_self]
    rfl
  have tasks : System.tasks { s with executor } =
      s.tasks ++ strandTasks [s.executor.entry k] :=
    tasks_append pending (by rw [show executor.worker = s.executor.worker from worker])
  rw [stays] at linked ⊢
  cases hnow : s.sink.pc t with
  | post c =>
    obtain rfl : Call.addTask (.sink .cacheToFile) = k := by simpa [hnow, posts] using asked
    rw [hnow] at hd
    refine ⟨_, by rw [DoubleBuffer.threadStep, hd], ?_⟩
    refine h.enqueue linked caller ready fresh tasks ?_ ?_ ?_
      (fun _ _ => rfl) ?_
    · rw [hnow]
      rfl
    · intro constructed
      simp [Sink.goto, Sink.postTask, constructed]
    · intro ends
      rw [hnow] at ends
      cases c with
      | ctor => simp [Sink.goto, Sink.postTask]
      | log | flush => cases ends
    · intro w hw
      rw [hnow] at hw
      cases hw
  | flushPost | ctorPost =>
    obtain rfl : Call.addTask (.sink .cacheToFile) = k := by simpa [hnow, posts] using asked
    rw [hnow] at hd
    refine ⟨_, by rw [DoubleBuffer.threadStep, hd], ?_⟩
    refine h.enqueue linked caller ready fresh tasks ?_ id ?_
      (fun _ _ => rfl) ?_
    · rw [hnow]
      rfl
    · intro ends
      rw [hnow] at ends
      cases ends
    · intro w hw
      rw [hnow] at hw
      cases hw
  | mark w =>
    obtain rfl : Call.addReturnTask (.sink (.notify t)) true = k := by
      simpa [hnow, posts] using asked
    rw [hnow] at hd
    refine ⟨_, by rw [DoubleBuffer.threadStep, hd], ?_⟩
    refine h.enqueue linked caller ready fresh tasks ?_ id ?_ ?_ ?_
    · rw [hnow]
      rfl
    · intro ends
      rw [hnow] at ends
      cases ends
    · exact fun u hu => Function.update_of_ne hu _ _
    · exact fun _ _ => Function.update_self ..
  | _ => simp [hnow, posts] at asked

theorem goto_self (d : Sink T σ μ ι η) (t : T) : d.goto t (d.pc t) = d := by
  simp [Sink.goto]

private theorem notify_answered {t : T} {k : Call (Job T)} {n : Nat} (h : s.Answers d)
    (hpc : s.executor.caller (.caller t) = .notify k n)
    (hstep : posterStep s (.caller t) = some next) : next.Answers d := by
  have linked := poster_linked h.linked hstep
  have asked : posts (s.sink.pc t) t = some k := h.linked.called (.caller t) k (by rw [hpc]; rfl)
  have busy : s.ticket t = some n := by rw [System.ticket, hpc]; rfl
  obtain ⟨executor, hcall, rfl⟩ := Option.map_eq_some_iff.mp hstep
  simp only [ThreadPool.callerStep, hpc] at hcall
  obtain rfl := Option.some.inj hcall
  have pending : (s.executor.notifyAll.setCaller (.caller t) (k.after n)).pending =
      s.executor.pending := by
    simp only [Pool.pending, Pool.notifyAll, Pool.setCaller, ThreadPool.WorkerPc.notified_hand]
  have hinTask : ((s.executor.notifyAll.setCaller (.caller t) (k.after n)).worker 0).inTask =
      (s.executor.worker 0).inTask := ThreadPool.WorkerPc.notified_inTask _
  cases k with
  | addTask task =>
    have resumes : resumed s.sink (.caller t)
        ((s.executor.notifyAll.setCaller (.caller t) ((Call.addTask task).after n)).caller
          (.caller t)) = returned s.sink t := by
      simp only [Pool.setCaller, Function.update_self]
      rfl
    rw [resumes] at linked ⊢
    have stays : d.goto t (afterCall (s.sink.pc t)) = d := by
      have hd : d.pc t = afterCall (s.sink.pc t) := by
        rw [h.pc_eq, busy]
        cases hnow : s.sink.pc t with
        | mark w => exact absurd hnow ((posts_add asked).1 w)
        | _ => rfl
      rw [← hd]
      exact goto_self d t
    have back := h.back linked rfl rfl (tasks_congr pending hinTask) (by rw [busy]; simp)
    rwa [stays] at back
  | addReturnTask task waits =>
    obtain ⟨-, -, rfl⟩ := posts_mark asked
    have stays : resumed s.sink (.caller t)
        ((s.executor.notifyAll.setCaller (.caller t) ((Call.addReturnTask task true).after n)).caller
          (.caller t)) = s.sink := by
      simp only [Pool.setCaller, Function.update_self]
      rfl
    refine h.frame linked stays ?_ rfl (tasks_congr pending hinTask)
    refine ticket_of_update (s := s) rfl ?_
    rintro u ⟨rfl⟩
    rw [busy]
    rfl

private theorem waiting_answered {P : Pipeline σ μ ι η} {t : T} {n : Nat} (h : s.Answers d)
    (hpc : s.executor.caller (.caller t) = .waiting n)
    (hstep : posterStep s (.caller t) = some next) :
    ∃ d', DoubleBuffer.threadStep P d t false = some d' ∧ next.Answers d' := by
  have linked := poster_linked h.linked hstep
  have busy : s.ticket t = some n := by rw [System.ticket, hpc]; rfl
  obtain ⟨u, w, hu, hw⟩ := h.linked.waits _ n hpc
  obtain rfl := Poster.caller.inj hu
  obtain ⟨executor, hcall, rfl⟩ := Option.map_eq_some_iff.mp hstep
  simp only [ThreadPool.callerStep, hpc] at hcall
  obtain ⟨ready, hcall⟩ := Option.ite_none_right_eq_some.mp hcall
  obtain rfl := Option.some.inj hcall
  have resumes : resumed s.sink (.caller t)
      ((s.executor.setCaller (.caller t) .idle).caller (.caller t)) = returned s.sink t := by
    simp only [Pool.setCaller, Function.update_self]
    rfl
  rw [resumes] at linked ⊢
  have hd : d.pc t = .wait w := by
    rw [h.pc_eq, busy, hw]
    rfl
  have woken : d.notified t = true := (h.notified t w n hw busy).mpr ready
  refine ⟨d.goto t (afterWait w), by simp [DoubleBuffer.threadStep, hd, woken], ?_⟩
  have back := h.back linked rfl rfl (tasks_congr rfl rfl) (by rw [busy]; simp)
  rwa [hw] at back

theorem poster_answered (P : Pipeline σ μ ι η) {p : Poster T} (h : s.Answers d)
    (hstep : posterStep s p = some next) :
    next.Answers d ∨ ∃ t d', p = .caller t ∧ s.executor.caller (.caller t) ≠ .idle ∧
      DoubleBuffer.threadStep P d t false = some d' ∧ next.Answers d' := by
  have linked := poster_linked h.linked hstep
  obtain ⟨executor, hcall, rfl⟩ := Option.map_eq_some_iff.mp hstep
  cases ThreadPool.callerStep_cases hcall with
  | lock k hpc free =>
    have stays : resumed s.sink p (.enqueue k) = s.sink := by cases p <;> rfl
    simp only [Pool.setCaller, Function.update_self] at linked ⊢
    refine Or.inl (h.frame linked stays (ticket_of_update (s := s) rfl ?_) rfl (tasks_congr rfl rfl))
    rintro t rfl
    rw [System.ticket, hpc]
    rfl
  | unlock k n hpc =>
    have stays : resumed s.sink p (.notify k n) = s.sink := by cases p <;> rfl
    simp only [Pool.setCaller, Function.update_self] at linked ⊢
    refine Or.inl (h.frame linked stays (ticket_of_update (s := s) rfl ?_) rfl (tasks_congr rfl rfl))
    rintro t rfl
    rw [System.ticket, hpc]
    rfl
  | enqueue k hpc =>
    cases p with
    | caller t =>
      obtain ⟨d', shows, answers⟩ := enqueue_answered (P := P) h hpc hstep
      exact Or.inr ⟨t, d', rfl, by simp [hpc], shows, answers⟩
    | timer =>
      obtain rfl := Option.some.inj (h.linked.called .timer k (by rw [hpc]; rfl))
      refine Or.inl (h.frame linked rfl (ticket_of_update (s := s) rfl fun t h => by cases h) rfl ?_)
      obtain ⟨-, -, pending, worker⟩ := callerStep_enqueue hpc hcall
      refine (tasks_append pending ?_).trans (List.append_nil _)
      rw [worker]
  | notify k n hpc =>
    cases p with
    | caller t => exact Or.inl (notify_answered h hpc hstep)
    | timer =>
      refine Or.inl (h.frame linked rfl (ticket_of_update (s := s) rfl fun t h => by cases h) rfl ?_)
      refine tasks_congr ?_ (ThreadPool.WorkerPc.notified_inTask _)
      simp only [Pool.pending, Pool.notifyAll, Pool.setCaller, ThreadPool.WorkerPc.notified_hand]
  | waiting n hpc ready =>
    cases p with
    | caller t =>
      obtain ⟨d', shows, answers⟩ := waiting_answered (P := P) h hpc hstep
      exact Or.inr ⟨t, d', rfl, by simp [hpc], shows, answers⟩
    | timer =>
      refine Or.inl (h.frame linked rfl (ticket_of_update (s := s) rfl fun t h => by cases h) rfl ?_)
      exact tasks_congr rfl rfl

private theorem cacheToFile_answered {P : Pipeline σ μ ι η} {sink : Sink T σ μ ι η}
    (h : s.Answers d) (busy : s.sink.worker ≠ .idle)
    (hstep : DoubleBuffer.workerStep P s.sink = some sink)
    (linked : System.Linked { s with sink }) :
    ∃ d', DoubleBuffer.workerStep P d = some d' ∧ System.Answers { s with sink } d' := by
  obtain ⟨constructed, notifications, rfl⟩ : ∃ c n, d = s.shows c n := ⟨_, _, h.same⟩
  cases DoubleBuffer.workerStep_cases hstep with
  | take queue idle => exact absurd idle busy
  | wake t queue idle => exact absurd idle busy
  | load hworker | empty hworker | size hworker | write sized hworker | clear hworker
  | store hworker =>
    have hd : (s.shows constructed notifications).worker = _ := hworker
    refine ⟨_, by rw [DoubleBuffer.workerStep, hd], ?_⟩
    exact ⟨linked, rfl, h.constructed, h.ended, h.notified⟩

omit [DecidableEq T] in
theorem ready_ended {e : Entry (Job T)} {u : T} {w : Wait} {n : Nat} (linked : s.Linked)
    (hpc : s.executor.worker 0 = .running e) (hw : s.sink.pc u = .mark w)
    (hn : s.ticket u = some n) :
    (n ∈ if e.packaged then e.ticket :: s.executor.ready else s.executor.ready) ↔
      e.task = .sink (.notify u) ∨ n ∈ s.executor.ready := by
  have first : e ∈ s.executor.pending := by
    rw [Pool.pending, hpc]
    exact List.mem_cons_self
  obtain ⟨e', he', hticket, hpackaged, htask⟩ := linked.marked u w n hw hn
  have enqueued : e ∈ s.executor.enqueued := linked.stranded.pending_suffix.subset first
  have own : e.task = .sink (.notify u) ↔ e.packaged = true ∧ n = e.ticket := by
    constructor
    · intro mine
      obtain ⟨packaged, ticket, -⟩ := linked.notifies u e first mine
      exact ⟨packaged, Option.some.inj (hn.symm.trans ticket)⟩
    · rintro ⟨-, rfl⟩
      rw [linked.stranded.kept.eq_of_ticket enqueued he' hticket.symm]
      exact htask
  rw [own]
  cases hp : e.packaged <;> simp

omit [DecidableEq T] in
theorem with_worker {sink : Sink T σ μ ι η} {worker : DoubleBuffer.WorkerPc ι}
    (h : sink.worker = worker) : ({ sink with worker } : Sink T σ μ ι η) = sink := by
  subst h
  rfl

omit [DecidableEq T] in
theorem System.Answers.serve (h : s.Answers d) {executor : Pool (Poster T) (Job T)}
    {worker : DoubleBuffer.WorkerPc ι} {queue : List (DoubleBuffer.Task T)} {notified : T → Bool}
    (linked : System.Linked { executor, sink := { s.sink with worker } })
    (caller : executor.caller = s.executor.caller)
    (tasks : System.tasks { executor, sink := { s.sink with worker } } = queue)
    (woken : ∀ u w n, s.sink.pc u = .mark w → s.ticket u = some n →
      (notified u = true ↔ n ∈ executor.ready)) :
    System.Answers { executor, sink := { s.sink with worker } }
      { d with worker, queue, notified } := by
  have ticket : ∀ u, System.ticket { executor, sink := { s.sink with worker } } u = s.ticket u := by
    intro u
    rw [System.ticket, caller]
    rfl
  refine ⟨linked, ?_, h.constructed, ?_, ?_⟩
  · obtain ⟨constructed, notifications, rfl⟩ : ∃ c n, d = s.shows c n := ⟨_, _, h.same⟩
    simp only [System.shows, ticket, tasks]
  · simp only [ticket]
    exact h.ended
  · simp only [ticket]
    exact woken

omit [DecidableEq T] in
theorem System.Answers.serve_unseen (h : s.Answers d) {executor : Pool (Poster T) (Job T)}
    {worker : DoubleBuffer.WorkerPc ι}
    (linked : System.Linked { executor, sink := { s.sink with worker } })
    (caller : executor.caller = s.executor.caller) (idle : d.worker = worker)
    (tasks : System.tasks { executor, sink := { s.sink with worker } } = d.queue)
    (woken : ∀ u w n, s.sink.pc u = .mark w → s.ticket u = some n →
      (d.notified u = true ↔ n ∈ executor.ready)) :
    System.Answers { executor, sink := { s.sink with worker } } d := by
  have served := h.serve linked caller tasks woken
  have same : ({ d with worker } : Sink T σ μ ι η) = d := with_worker idle
  rwa [same] at served

private theorem start_answered {P : Pipeline σ μ ι η} {executor : Pool (Poster T) (Job T)}
    {e : Entry (Job T)} (h : s.Answers d) (idle : d.worker = .idle)
    (hpc : s.executor.worker 0 = .start e) (hpc' : executor.worker 0 = .running e)
    (pending : executor.pending = s.executor.pending) (caller : executor.caller = s.executor.caller)
    (ready : executor.ready = s.executor.ready)
    (linked : System.Linked { executor, sink := { s.sink with worker := begun (.start e) } }) :
    System.Answers { executor, sink := { s.sink with worker := begun (.start e) } } d ∨
      ∃ d', DoubleBuffer.workerStep P d = some d' ∧
        System.Answers { executor, sink := { s.sink with worker := begun (.start e) } } d' := by
  have first : s.executor.pending = e :: s.executor.taskQueue := by
    rw [Pool.pending, hpc]
    rfl
  have before : d.queue = strandTasks (e :: s.executor.taskQueue) := by
    rw [h.same, System.shows, System.tasks, hpc, first]
    rfl
  obtain ⟨number, packaged, task⟩ := e
  have after (sink : Sink T σ μ ι η) : System.tasks { sink, executor } =
      strandTasks (if task.isCacheToFile then s.executor.taskQueue
        else ⟨number, packaged, task⟩ :: s.executor.taskQueue) := by
    rw [System.tasks]
    simp only [hpc', ThreadPool.WorkerPc.inTask, pending, first]
    rfl
  have woken : ∀ u w n, s.sink.pc u = .mark w → s.ticket u = some n →
      (d.notified u = true ↔ n ∈ executor.ready) := by
    rw [ready]
    exact h.notified
  cases task with
  | eliminateFiles =>
    exact Or.inl (h.serve_unseen linked caller idle ((after _).trans before.symm) woken)
  | sink task =>
    cases task with
    | notify t =>
      exact Or.inl (h.serve_unseen linked caller idle ((after _).trans before.symm) woken)
    | cacheToFile =>
      have front : d.queue = .cacheToFile :: strandTasks s.executor.taskQueue := before
      refine Or.inr ⟨_, by rw [DoubleBuffer.workerStep, idle]; simp only [front]; rfl, ?_⟩
      exact h.serve linked caller (after _) woken

private theorem end_answered {P : Pipeline σ μ ι η} {executor : Pool (Poster T) (Job T)}
    {e : Entry (Job T)} (h : s.Answers d) (idle : d.worker = .idle)
    (hpc : s.executor.worker 0 = .running e) (hpc' : (executor.worker 0).inTask = none)
    (pending : s.executor.pending = e :: executor.pending)
    (caller : executor.caller = s.executor.caller)
    (ready : executor.ready =
      if e.packaged then e.ticket :: s.executor.ready else s.executor.ready)
    (linked : System.Linked { executor, sink := { s.sink with worker := .idle } }) :
    System.Answers { executor, sink := { s.sink with worker := .idle } } d ∨
      ∃ d', DoubleBuffer.workerStep P d = some d' ∧
        System.Answers { executor, sink := { s.sink with worker := .idle } } d' := by
  have before : d.queue =
      strandTasks (if e.task.isCacheToFile then executor.pending else e :: executor.pending) := by
    rw [h.same, System.shows, System.tasks, hpc, pending]
    rfl
  have after : System.tasks
      { executor, sink := ({ s.sink with worker := .idle } : Sink T σ μ ι η) } =
      strandTasks executor.pending := by
    simp only [System.tasks, hpc']
  obtain ⟨number, packaged, task⟩ := e
  have others {task' : Job T} (htask : task = task')
      (other : ∀ u, task' ≠ .sink (.notify u)) : ∀ u w n, s.sink.pc u = .mark w →
        s.ticket u = some n → (d.notified u = true ↔ n ∈ executor.ready) := by
    intro u w n hw hn
    rw [h.notified u w n hw hn, ready, ready_ended h.linked hpc hw hn]
    exact ⟨Or.inr, fun k => k.resolve_left (htask ▸ other u)⟩
  cases task with
  | eliminateFiles =>
    exact Or.inl (h.serve_unseen linked caller idle (after.trans before.symm) (others rfl nofun))
  | sink task =>
    cases task with
    | cacheToFile =>
      exact Or.inl (h.serve_unseen linked caller idle (after.trans before.symm) (others rfl nofun))
    | notify t =>
      have front : d.queue = .notify t :: strandTasks executor.pending := before
      refine Or.inr ⟨_, by rw [DoubleBuffer.workerStep, idle]; simp only [front]; rfl, ?_⟩
      refine h.serve linked caller after ?_
      intro u w n hw hn
      rw [ready, ready_ended h.linked hpc hw hn]
      by_cases same : u = t
      · subst same
        simp
      · rw [Function.update_of_ne same, h.notified u w n hw hn]
        refine ⟨Or.inr, fun k => k.resolve_left ?_⟩
        intro mine
        injection mine with mine
        injection mine with mine
        exact same mine.symm

private theorem poolWorker_answered {P : Pipeline σ μ ι η} {executor : Pool (Poster T) (Job T)}
    (h : s.Answers d) (idle : s.sink.worker = .idle)
    (hcall : ThreadPool.workerStep s.executor 0 = some executor)
    (linked : System.Linked
      { executor, sink := { s.sink with worker := begun (s.executor.worker 0) } }) :
    System.Answers { executor, sink := { s.sink with worker := begun (s.executor.worker 0) } } d ∨
      ∃ d', DoubleBuffer.workerStep P d = some d' ∧
        System.Answers
          { executor, sink := { s.sink with worker := begun (s.executor.worker 0) } } d' := by
  have moved := ThreadPool.workerStep_cases hcall
  have pended : ThreadPool.Pended s.executor (.worker 0) executor :=
    ThreadPool.step_pended h.linked.stranded.mustered h.linked.stranded.single hcall
  have caller : executor.caller = s.executor.caller := by cases moved <;> rfl
  cases pended with
  | started e hpc hpc' hpending henqueued hready =>
    rw [hpc] at linked ⊢
    exact start_answered h (h.worker_eq.trans idle) hpc hpc' hpending caller hready linked
  | ended e hpc hpending henqueued hready hinTask =>
    rw [hpc] at linked ⊢
    exact end_answered h (h.worker_eq.trans idle) hpc hinTask hpending caller hready linked
  | same hpending henqueued hready hinTask =>
    have quiet : (begun (s.executor.worker 0) : DoubleBuffer.WorkerPc ι) = .idle := by
      rcases begun_eq_idle_or (ι := ι) (s.executor.worker 0) with quiet | ⟨-, e, hpc, -⟩
      · exact quiet
      · -- a start would have changed what is being run
        simp only [ThreadPool.workerStep, hpc] at hcall
        obtain rfl := Option.some.inj hcall
        simp [Pool.setWorker, hpc, ThreadPool.WorkerPc.inTask] at hinTask
    rw [quiet] at linked ⊢
    refine Or.inl (h.frame linked (with_worker idle) ?_ hready (tasks_congr hpending hinTask))
    intro u
    rw [System.ticket, caller]
    rfl

theorem worker_answered {P : Pipeline σ μ ι η} (h : s.Answers d)
    (hstep : workerStep P s = some next) :
    next.Answers d ∨ ∃ d', DoubleBuffer.workerStep P d = some d' ∧ next.Answers d' := by
  have linked := worker_linked h.linked hstep
  unfold workerStep at hstep
  split at hstep
  · rename_i idle
    obtain ⟨executor, hcall, rfl⟩ := Option.map_eq_some_iff.mp hstep
    exact poolWorker_answered h idle hcall linked
  · rename_i busy
    obtain ⟨sink, hsink, rfl⟩ := Option.map_eq_some_iff.mp hstep
    exact Or.inr (cacheToFile_answered h busy hsink linked)

omit [DecidableEq T] in
theorem System.Answers.unseen (h : s.Answers d) {executor : Pool (Poster T) (Job T)}
    (linked : System.Linked { s with executor })
    (ticket : ∀ t, System.ticket { s with executor } t = s.ticket t)
    (pending : executor.pending = s.executor.pending) (ready : executor.ready = s.executor.ready)
    (hinTask : (executor.worker 0).inTask = (s.executor.worker 0).inTask) :
    System.Answers { s with executor } d :=
  h.frame linked rfl ticket ready (tasks_congr pending hinTask)

private theorem pool_answered {a : ThreadPool.Label (Poster T) (Job T)} (h : s.Answers d)
    (alone : a = .spurious 0 ∨ a = .start ∨ a = .stop ∨ a = .owner)
    (hstep : poolStep s a = some next) : next.Answers d := by
  have linked := pool_linked h.linked alone hstep
  obtain ⟨executor, hcall, rfl⟩ := Option.map_eq_some_iff.mp hstep
  obtain ⟨caller, pending, -, ready, hinTask⟩ := pool_frame h.linked.stranded alone hcall
  refine h.unseen linked ?_ pending ready hinTask
  intro t
  rw [System.ticket, caller]
  rfl

private theorem call_answered {p : Poster T} {k : Call (Job T)} (h : s.Answers d)
    (called : posting s.sink p = some k) (hstep : poolStep s (.call p k) = some next) :
    next.Answers d := by
  have linked := call_linked h.linked called hstep
  obtain ⟨executor, hcall, rfl⟩ := Option.map_eq_some_iff.mp hstep
  cases ThreadPool.step_cases hcall with
  | call p k hpc =>
    refine h.unseen linked (ticket_of_update (s := s) rfl ?_) rfl rfl rfl
    rintro t rfl
    rw [System.ticket, hpc]
    rfl

end Steps

section Runs

variable [DecidableEq T]

def Label.call : Label T μ → Option (DoubleBuffer.Label T μ)
  | .log t m => some (.log t m)
  | .flush t => some (.flush t)
  | _ => none

def protocolCall : DoubleBuffer.Label T μ → Option (DoubleBuffer.Label T μ)
  | .log t m => some (.log t m)
  | .flush t => some (.flush t)
  | _ => none

inductive Matches (s : System T σ μ ι η) : Label T μ → DoubleBuffer.Label T μ → Prop
  | log (t : T) (m : μ) : Matches s (.log t m) (.log t m)
  | flush (t : T) : Matches s (.flush t) (.flush t)
  | thread (t : T) (filled : Bool) : posts (s.sink.pc t) t = none →
      Matches s (.thread t filled) (.thread t filled)
  | poster (t : T) : s.executor.caller (.caller t) ≠ .idle →
      Matches s (.poster (.caller t)) (.thread t false)
  | worker : Matches s .worker .worker

inductive Answered (kind : Kind) (P : Pipeline σ μ ι η) (s : System T σ μ ι η)
    (d : Sink T σ μ ι η) (a : Label T μ) (next : System T σ μ ι η) : Prop
  | unseen : next.Answers d → a.call = none → Answered kind P s d a next
  | seen (b : DoubleBuffer.Label T μ) (d' : Sink T σ μ ι η) : Matches s a b →
      DoubleBuffer.step kind P d b = some d' → next.Answers d' → Answered kind P s d a next

/-- Every step of a sink on its executor is answered. -/
theorem step_answered {kind : Kind} {P : Pipeline σ μ ι η} {s : System T σ μ ι η}
    {d : Sink T σ μ ι η} {a : Label T μ} {next : System T σ μ ι η} (h : s.Answers d)
    (hstep : step kind P s a = some next) : Answered kind P s d a next := by
  cases a with
  | log t m =>
    obtain ⟨sink, hsink, rfl⟩ := Option.map_eq_some_iff.mp hstep
    obtain ⟨shows, answers⟩ := enter_answered h (beginLog_ne_wait kind m) hsink
    exact .seen _ _ (.log t m) shows answers
  | flush t =>
    obtain ⟨sink, hsink, rfl⟩ := Option.map_eq_some_iff.mp hstep
    obtain ⟨shows, answers⟩ := enter_answered h (fun w h => by cases h) hsink
    exact .seen _ _ (.flush t) shows answers
  | thread t filled =>
    change threadStep P s t filled = some next at hstep
    unfold threadStep at hstep
    split at hstep
    · rename_i k asked
      exact .unseen (call_answered (p := .caller t) h asked hstep) rfl
    · rename_i quiet
      obtain ⟨sink, hsink, rfl⟩ := Option.map_eq_some_iff.mp hstep
      obtain ⟨d', shows, answers⟩ := threadStep_answered h quiet hsink
      exact .seen _ _ (.thread t filled quiet) shows answers
  | poster p =>
    rcases poster_answered P h hstep with answers | ⟨t, d', rfl, busy, shows, answers⟩
    · exact .unseen answers rfl
    · exact .seen _ _ (.poster t busy) shows answers
  | eliminateFiles =>
    obtain ⟨-, hcall⟩ := Option.ite_none_right_eq_some.mp hstep
    exact .unseen (call_answered (p := .timer) h rfl hcall) rfl
  | worker =>
    rcases worker_answered h hstep with answers | ⟨d', shows, answers⟩
    · exact .unseen answers rfl
    · exact .seen _ _ .worker shows answers
  | spurious => exact .unseen (pool_answered h (by simp) hstep) rfl
  | start => exact .unseen (pool_answered h (by simp) hstep) rfl
  | stop => exact .unseen (pool_answered h (by simp) hstep) rfl
  | owner => exact .unseen (pool_answered h (by simp) hstep) rfl

omit [DecidableEq T] in
theorem Matches.call {s : System T σ μ ι η} {a : Label T μ} {b : DoubleBuffer.Label T μ}
    (h : Matches s a b) : protocolCall b = a.call := by
  cases h <;> rfl

theorem Answered.run {kind : Kind} {P : Pipeline σ μ ι η} {s next : System T σ μ ι η}
    {d : Sink T σ μ ι η} {a : Label T μ} {ok : Sink T σ μ ι η → DoubleBuffer.Label T μ → Prop}
    (h : Answered kind P s d a next) (guard : ∀ b, Matches s a b → ok d b) :
    ∃ bs d', Machine.run (DoubleBuffer.step kind P) d bs = some d' ∧
      Machine.Meets (DoubleBuffer.step kind P) ok d bs ∧ next.Answers d' ∧
        bs.filterMap protocolCall = a.call.toList := by
  cases h with
  | unseen answers silent => exact ⟨[], d, rfl, trivial, answers, by rw [silent]; rfl⟩
  | seen b d' hmatches hb answers =>
    refine ⟨[b], d', by simp [hb], ⟨guard b hmatches, fun _ _ => trivial⟩, answers, ?_⟩
    rw [← hmatches.call, List.filterMap_cons]
    cases protocolCall b <;> rfl

theorem initial_answers (kind : Kind) (t : T) (stream : σ) (masterFile slaveFile : List ι) :
    (initial (μ := μ) (η := η) kind t stream masterFile slaveFile).Answers
      (DoubleBuffer.initial kind t stream masterFile slaveFile) where
  linked := initial_linked kind t stream masterFile slaveFile
  same := by cases kind <;> rfl
  constructed := id
  ended _ _ h := absurd rfl h
  notified _ _ _ _ h := by cases h

/-- The executor carries out the protocol: whatever its thread, the timer and the owner do, and
in whatever order, a sink on its executor has the buffers, the flag, the written chunks and the
pushed items of a run of the protocol with the same calls of `Log` and `Flush`; its threads are
where the protocol has them, and the strand's tasks are those the pool has not run. -/
theorem pooledSink_refines (kind : Kind) (P : Pipeline σ μ ι η) (t : T) (stream : σ)
    (masterFile slaveFile : List ι) (as : List (Label T μ)) (s : System T σ μ ι η)
    (h : run (step kind P) (initial kind t stream masterFile slaveFile) as = some s) :
    ∃ bs constructed notified,
      run (DoubleBuffer.step kind P)
          (DoubleBuffer.initial kind t stream masterFile slaveFile) bs =
        some (s.shows constructed notified) ∧
      bs.filterMap protocolCall = as.filterMap Label.call := by
  have answered : ∀ (s : System T σ μ ι η) (d : Sink T σ μ ι η) (a : Label T μ)
      (next : System T σ μ ι η), s.Answers d → True → step kind P s a = some next →
      ∃ bs d', run (DoubleBuffer.step kind P) d bs = some d' ∧
        Machine.Meets (DoubleBuffer.step kind P) (fun _ _ => True) d bs ∧ next.Answers d' ∧
          bs.filterMap protocolCall = a.call.toList :=
    fun _ _ _ _ h _ hstep => (step_answered h hstep).run fun _ _ => trivial
  obtain ⟨bs, d, hrun, -, answers, calls⟩ := run_related_meets answered
    (initial_answers kind t stream masterFile slaveFile) (Machine.meets_true _ _ as) h
  exact ⟨bs, d.constructed, d.notified, answers.same ▸ hrun, calls⟩

/-- `Start`, construction and a `Log`, up to the entry of a `Flush` and of a timer's `PostTask`. -/
def flushCalled : List (Label Unit Nat) :=
  let thread := Label.thread () false
  .start :: List.replicate 3 .owner ++ [thread, thread] ++ .log () 7 :: List.replicate 3 thread ++
    [.eliminateFiles, .flush ()]

/-- The steps of both calls and of the pool's thread, up to the return of `Flush`. -/
def flushSteps : List (Label Unit Nat) :=
  let thread := Label.thread () false
  let post := thread :: List.replicate 4 (.poster (.caller ()))
  post ++ List.replicate 4 (.poster .timer) ++ post ++
    List.replicate 25 .worker ++ .poster (.caller ()) :: List.replicate 3 thread ++ post ++ post ++
    List.replicate 25 .worker ++ [.poster (.caller ())]

def flushOnPool : List (Label Unit Nat) := flushCalled ++ flushSteps

theorem pooledSink_refines_flush :
    ∃ s, run (step .effective (plain Nat)) (initial .effective () () [] []) flushOnPool = some s ∧
      s.sink.written.map Chunk.payload = [[7]] ∧ ∃ bs constructed notified,
      run (DoubleBuffer.step .effective (plain Nat))
          (DoubleBuffer.initial .effective () () [] []) bs =
        some (s.shows constructed notified) ∧
      bs.filterMap protocolCall = flushOnPool.filterMap Label.call := by
  have written : (run (step .effective (plain Nat)) (initial .effective () () [] [])
      flushOnPool).map (fun s => s.sink.written.map Chunk.payload) = some [[7]] := by
    decide +kernel
  obtain ⟨s, hs, hwritten⟩ := Option.map_eq_some_iff.mp written
  exact ⟨s, hs, hwritten, pooledSink_refines .effective (plain Nat) () () [] [] flushOnPool s hs⟩

end Runs

end FlashLog.Sinks.Pooled
