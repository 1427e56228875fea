import FlashLog.Handler.SharedHandle

/-!
What the sinks of a shared handle have received after any run of the threads: every sink has every
accepted message once, the messages of one thread in the order of its calls, and the threads mixed
in an order of the sink's own.
-/

set_option autoImplicit false
set_option relaxedAutoImplicit false

namespace FlashLog.Handler.Shared

open FlashLog.Support
open FlashLog.Support.Machine (run)
open FlashLog.Support.Shuffle (own Settled)
open FlashLog.Sinks

variable {T ι : Type} [DecidableEq T] {encode : Nat → LogMsg → Option ι}

def waitingAt (k : Nat) (inSink : LockedBuffer.Pc ι) : Pc → Option LogMsg
  | .log msg j => if j ≤ k then some msg else none
  | .inLog msg j =>
    if j < k then some msg
    else if j = k then
      match inSink with
      | .push _ => some msg
      | _ => none
    else none
  | _ => none

def System.waiting (s : System T ι) (k : Nat) (sink : LockedBuffer.Sink T ι) (t : T) :
    Option LogMsg :=
  waitingAt k (sink.pc t) (s.pc t)

/-- What a sink that held the items of `start` has received. -/
structure Delivered (encode : Nat → LogMsg → Option ι) (k : Nat) (start : List ι)
    (s : System T ι) (sink : LockedBuffer.Sink T ι) : Prop where
  ordered : sink.view.Ordered
  pushing : ∀ t x, sink.pc t = .push x → ∃ msg, s.pc t = .inLog msg k ∧ encode k msg = some x
  shares : ∃ order, sink.pushed = start ++ order.filterMap (fun p => encode k p.2) ∧
    Settled s.accepted order (s.waiting k sink)

namespace Delivered

variable {k : Nat} {start : List ι} {s next : System T ι} {sink sink' : LockedBuffer.Sink T ι}
variable {t : T} {pc : Pc}

theorem idleStep (inv : Delivered encode k start s sink) (accepted : next.accepted = s.accepted)
    (hpc : next.pc = Function.update s.pc t pc) (ordered : sink'.view.Ordered)
    (pushed : sink'.pushed = sink.pushed) (others : ∀ u, u ≠ t → sink'.pc u = sink.pc u)
    (hpush : ∀ x, sink'.pc t = .push x → ∃ msg, pc = .inLog msg k ∧ encode k msg = some x)
    (hsame : waitingAt k (sink'.pc t) pc = waitingAt k (sink.pc t) (s.pc t)) :
    Delivered encode k start next sink' := by
  obtain ⟨order, horder, settled⟩ := inv.shares
  have same : ∀ u, next.waiting k sink' u = s.waiting k sink u := by
    intro u
    by_cases hu : u = t
    · subst hu
      simp only [System.waiting, hpc, Function.update_self]
      exact hsame
    · simp only [System.waiting, hpc, Function.update_of_ne hu, others u hu]
  refine ⟨ordered, ?_, order, pushed.trans horder, ?_⟩
  · intro u x hx
    by_cases hu : u = t
    · subst hu
      obtain ⟨msg, rfl, hencode⟩ := hpush x hx
      exact ⟨msg, by rw [hpc, Function.update_self], hencode⟩
    · rw [others u hu] at hx
      rw [hpc, Function.update_of_ne hu]
      exact inv.pushing u x hx
  · rw [funext same, accepted]
    exact settled

theorem elsewhere (inv : Delivered encode k start s sink) (accepted : next.accepted = s.accepted)
    (hpc : next.pc = Function.update s.pc t pc) (outside : ∀ msg, s.pc t ≠ .inLog msg k)
    (hsame : waitingAt k (sink.pc t) pc = waitingAt k (sink.pc t) (s.pc t)) :
    Delivered encode k start next sink := by
  refine inv.idleStep accepted hpc inv.ordered rfl (fun _ _ => rfl) ?_ hsame
  intro x hx
  obtain ⟨msg, hmsg, -⟩ := inv.pushing t x hx
  exact absurd hmsg (outside msg)

theorem settleStep (inv : Delivered encode k start s sink) (msg : LogMsg)
    (accepted : next.accepted = s.accepted) (hpc : next.pc = Function.update s.pc t pc)
    (ordered : sink'.view.Ordered) (pushed : sink'.pushed = sink.pushed ++ (encode k msg).toList)
    (others : ∀ u, u ≠ t → sink'.pc u = sink.pc u) (hpush : ∀ x, sink'.pc t ≠ .push x)
    (before : waitingAt k (sink.pc t) (s.pc t) = some msg)
    (after : waitingAt k (sink'.pc t) pc = none) :
    Delivered encode k start next sink' := by
  obtain ⟨order, horder, settled⟩ := inv.shares
  refine ⟨ordered, ?_, order ++ [(t, msg)], ?_, ?_⟩
  · intro u x hx
    by_cases hu : u = t
    · subst hu
      exact absurd hx (hpush x)
    · rw [others u hu] at hx
      rw [hpc, Function.update_of_ne hu]
      exact inv.pushing u x hx
  · rw [pushed, horder, List.filterMap_append, List.append_assoc]
    congr 2
  · rw [accepted]
    refine settled.settle before ?_ ?_
    · simp only [System.waiting, hpc, Function.update_self]
      exact after
    · intro u hu
      simp only [System.waiting, hpc, Function.update_of_ne hu, others u hu]

theorem insideStep (inv : Delivered encode k start s sink) {filled : Bool} {after here : Pc}
    (hsink : LockedBuffer.step sink (.thread t filled) = some sink')
    (accepted : next.accepted = s.accepted)
    (hpc : next.pc = Function.update s.pc t (if returned sink' t then after else here))
    (hhere : s.pc t = here) (hafter : ∀ inSink : LockedBuffer.Pc ι, waitingAt k inSink after = none)
    (hquiet : ∀ inSink : LockedBuffer.Pc ι, (∀ x, inSink ≠ .push x) →
      waitingAt k inSink here = none) :
    Delivered encode k start next sink' := by
  have threaded := LockedBuffer.threaded_of_step hsink
  have ordered := LockedBuffer.ordered_step inv.ordered hsink
  have others := threaded.others
  have quiet := threaded.not_push
  have last : waitingAt k (sink'.pc t) (if returned sink' t then after else here) = none := by
    split
    · exact hafter _
    · exact hquiet _ quiet
  rcases threaded.pushed with ⟨x, hx, hpushed⟩ | ⟨hx, hpushed⟩
  · obtain ⟨msg, hmsg, hencode⟩ := inv.pushing t x hx
    refine inv.settleStep msg accepted hpc ordered ?_ others quiet ?_ last
    · rw [hpushed, hencode, Option.toList_some]
    · simp [waitingAt, hmsg, hx]
  · refine inv.idleStep accepted hpc ordered hpushed others ?_ ?_
    · intro x hx'
      exact absurd hx' (quiet x)
    · rw [last, hhere, hquiet _ hx]

end Delivered

omit [DecidableEq T] in
theorem sinks_setSink {s : System T ι} {k : Nat} {sink sink' : LockedBuffer.Sink T ι}
    (h : s.handle.sinks[k]? = some sink) :
    (s.setSink k sink').handle.sinks[k]? = some sink' := by
  obtain ⟨bound, -⟩ := List.getElem?_eq_some_iff.mp h
  exact List.getElem?_set_self bound

omit [DecidableEq T] in
theorem sinks_setSink_of_ne {s : System T ι} {j k : Nat} {sink' : LockedBuffer.Sink T ι}
    (h : j ≠ k) : (s.setSink j sink').handle.sinks[k]? = s.handle.sinks[k]? :=
  List.getElem?_set_ne h

variable {k : Nat} {start : List ι} {s next : System T ι} {sink : LockedBuffer.Sink T ι} {t : T}

theorem delivered_threaded (inv : Delivered encode k start s sink)
    (hsink : s.handle.sinks[k]? = some sink) (h : Threaded encode s t next) :
    ∃ sink', next.handle.sinks[k]? = some sink' ∧ Delivered encode k start next sink' := by
  cases h with
  | accept msg hpc hlevel =>
    obtain ⟨order, horder, settled⟩ := inv.shares
    refine ⟨sink, hsink, inv.ordered, ?_, order, horder, ?_⟩
    · intro u x hx
      obtain ⟨msg', hmsg', hencode⟩ := inv.pushing u x hx
      have hu : u ≠ t := by
        rintro rfl
        rw [hpc] at hmsg'
        cases hmsg'
      exact ⟨msg', by simpa [System.goto, hu] using hmsg', hencode⟩
    · refine settled.accept ?_ ?_ ?_
      · simp [System.waiting, waitingAt, hpc]
      · simp [System.waiting, waitingAt, System.goto]
      · intro u hu
        simp [System.waiting, System.goto, hu]
  | reject msg hpc | flushed j hpc =>
    exact ⟨sink, hsink, inv.elsewhere rfl rfl (by simp [hpc]) (by simp [waitingAt, hpc])⟩
  | logged msg j hpc hend =>
    have bound := (List.getElem?_eq_some_iff.mp hsink).1
    have past : ¬ j ≤ k := by
      have := List.getElem?_eq_none_iff.mp hend
      omega
    exact ⟨sink, hsink, inv.elsewhere rfl rfl (by simp [hpc]) (by simp [waitingAt, hpc, past])⟩
  | dropped msg j sink' hpc hsink' hencode =>
    refine ⟨sink, hsink, ?_⟩
    by_cases here : j = k
    · subst here
      have quiet : ∀ x, sink.pc t ≠ .push x := by
        intro x hx
        obtain ⟨msg', hmsg', -⟩ := inv.pushing t x hx
        rw [hpc] at hmsg'
        cases hmsg'
      refine inv.settleStep msg rfl rfl inv.ordered ?_ (fun _ _ => rfl) quiet ?_ ?_
      · rw [hencode, Option.toList_none, List.append_nil]
      · simp [waitingAt, hpc]
      · simp [waitingAt]
    · refine inv.elsewhere rfl rfl (by simp [hpc]) ?_
      have same : j + 1 ≤ k ↔ j ≤ k := by omega
      simp [waitingAt, hpc, same]
  | log msg j x sink' hpc hsink' hencode =>
    by_cases here : j = k
    · subst here
      obtain rfl := Option.some.inj (hsink'.symm.trans hsink)
      refine ⟨_, sinks_setSink hsink, ?_⟩
      refine inv.idleStep rfl rfl inv.ordered rfl ?_ ?_ ?_
      · intro u hu
        exact Function.update_of_ne hu _ _
      · intro y hy
        obtain rfl : x = y := by simpa [LockedBuffer.Sink.goto] using hy
        exact ⟨msg, rfl, hencode⟩
      · simp [waitingAt, hpc, LockedBuffer.Sink.goto]
    · refine ⟨sink, (sinks_setSink_of_ne here).trans hsink, ?_⟩
      refine inv.elsewhere rfl rfl (by simp [hpc]) ?_
      have same : j < k ↔ j ≤ k := by omega
      simp [waitingAt, hpc, here, same]
  | inLog msg j sink0 sink' filled hpc hsink0 hstep =>
    by_cases here : j = k
    · subst here
      obtain rfl := Option.some.inj (hsink0.symm.trans hsink)
      refine ⟨sink', sinks_setSink hsink, inv.insideStep hstep rfl rfl hpc ?_ ?_⟩
      · intro inSink
        simp [waitingAt]
      · intro inSink quiet
        cases inSink with
        | push x => exact absurd rfl (quiet x)
        | _ => simp [waitingAt]
    · refine ⟨sink, (sinks_setSink_of_ne here).trans hsink, ?_⟩
      refine inv.elsewhere rfl rfl (by simp [hpc, here]) ?_
      have same : j + 1 ≤ k ↔ j < k := by omega
      split <;> simp [waitingAt, hpc, here, same]
  | flush j sink' hpc hsink' =>
    by_cases here : j = k
    · subst here
      obtain rfl := Option.some.inj (hsink'.symm.trans hsink)
      refine ⟨_, sinks_setSink hsink, ?_⟩
      refine inv.idleStep rfl rfl inv.ordered rfl ?_ ?_ ?_
      · intro u hu
        exact Function.update_of_ne hu _ _
      · intro y hy
        simp [LockedBuffer.Sink.goto] at hy
      · simp [waitingAt, hpc]
    · refine ⟨sink, (sinks_setSink_of_ne here).trans hsink, ?_⟩
      exact inv.elsewhere rfl rfl (by simp [hpc]) (by simp [waitingAt, hpc])
  | inFlush j sink0 sink' filled hpc hsink0 hstep =>
    by_cases here : j = k
    · subst here
      obtain rfl := Option.some.inj (hsink0.symm.trans hsink)
      refine ⟨sink', sinks_setSink hsink, inv.insideStep hstep rfl rfl hpc ?_ ?_⟩
      · intro inSink
        rfl
      · intro inSink quiet
        rfl
    · refine ⟨sink, (sinks_setSink_of_ne here).trans hsink, ?_⟩
      refine inv.elsewhere rfl rfl (by simp [hpc]) ?_
      split <;> simp [waitingAt, hpc]

theorem delivered_step {a : Label T} (inv : Delivered encode k start s sink)
    (hsink : s.handle.sinks[k]? = some sink) (h : step encode s a = some next) :
    ∃ sink', next.handle.sinks[k]? = some sink' ∧ Delivered encode k start next sink' := by
  cases stepped_of_step h with
  | setLevel level => exact ⟨sink, hsink, inv.ordered, inv.pushing, inv.shares⟩
  | log t msg hpc =>
    exact ⟨sink, hsink, inv.elsewhere rfl rfl (by simp [hpc]) (by simp [waitingAt, hpc])⟩
  | flush t hpc =>
    exact ⟨sink, hsink, inv.elsewhere rfl rfl (by simp [hpc]) (by simp [waitingAt, hpc])⟩
  | thread t filled next h => exact delivered_threaded inv hsink h

theorem delivered_fresh (fresh : s.Fresh) (hsink : s.handle.sinks[k]? = some sink) :
    Delivered encode k sink.pushed s sink := by
  have rest := fresh.sinks sink (List.mem_of_getElem? hsink)
  refine ⟨rest.ordered, ?_, [], by simp, ?_⟩
  · intro t x hx
    rw [rest.idle t] at hx
    cases hx
  · intro t
    simp [fresh.accepted, System.waiting, waitingAt, fresh.idle t]

theorem delivered_run {as : List (Label T)} (inv : Delivered encode k start s sink)
    (hsink : s.handle.sinks[k]? = some sink) (h : run (step encode) s as = some next) :
    ∃ sink', next.handle.sinks[k]? = some sink' ∧ Delivered encode k start next sink' :=
  Machine.run_preserves
    (fun s => ∃ sink, s.handle.sinks[k]? = some sink ∧ Delivered encode k start s sink)
    (fun _ _ _ ⟨_, hsink, inv⟩ hstep => delivered_step inv hsink hstep) ⟨sink, hsink, inv⟩ h

theorem Delivered.items (inv : Delivered encode k start s sink) :
    ∃ order, sink.writtenItems ++ sink.unwritten =
        start ++ order.filterMap (fun p => encode k p.2) ∧
      Settled s.accepted order (s.waiting k sink) := by
  obtain ⟨order, horder, settled⟩ := inv.shares
  refine ⟨order, ?_, settled⟩
  rw [LockedBuffer.items_of_ordered inv.ordered, horder]

/-- Every accepted message goes to every sink. Whatever the threads do, the file and the buffer of
a sink hold the accepted messages that its cipher takes, each once: a thread's messages come in the
order of its calls, except for the one that the thread has still to bring to this sink. Once the
threads have returned, the sinks hold the same messages up to the order. -/
theorem sharedHandle_fansOut {as : List (Label T)} (fresh : s.Fresh)
    (h : run (step encode) s as = some next) (hsink : s.handle.sinks[k]? = some sink) :
    ∃ sink' order, next.handle.sinks[k]? = some sink' ∧
      sink'.writtenItems ++ sink'.unwritten =
        sink.pushed ++ order.filterMap (fun p => encode k p.2) ∧
      (∀ e ∈ sink'.written, e.sized = e.payload) ∧
      (∀ t, own t order ++ (next.waiting k sink' t).toList = own t next.accepted) ∧
      ((∀ t, next.pc t = .idle) → order.Perm next.accepted) := by
  obtain ⟨sink', hsink', inv⟩ := delivered_run (delivered_fresh fresh hsink) hsink h
  obtain ⟨order, hitems, settled⟩ := inv.items
  refine ⟨sink', order, hsink', hitems, LockedBuffer.sized_of_ordered inv.ordered, settled, ?_⟩
  intro idle
  refine settled.perm fun t => ?_
  rw [System.waiting, idle t]
  rfl

section Demo

def demoMsg (level : LogLevel) : LogMsg := ⟨level, .empty, []⟩

/-- The cipher of the second sink leaves the messages at `kInfo` out. -/
def demoEncode (k : Nat) (msg : LogMsg) : Option Nat :=
  if k = 1 ∧ msg.level = .kInfo then none else some msg.level.toNat

def demoSystem : System Bool Nat :=
  { handle := .new [LockedBuffer.initial true [], LockedBuffer.initial true []]
    pc := fun _ => .idle, accepted := [] }

theorem demoSystem_fresh : demoSystem.Fresh where
  idle _ := rfl
  accepted := rfl
  sinks sink hsink := by
    obtain rfl : sink = LockedBuffer.initial true [] := by simpa [demoSystem, LogHandle.new]
      using hsink
    refine ⟨rfl, rfl, fun t => ?_, LockedBuffer.initial_ordered true []⟩
    cases t <;> rfl

/-- Two threads log at once, and come to the second sink in the other order. -/
def demoCalls : List (Label Bool) :=
  let first := Label.thread true false
  let second := Label.thread false false
  .log true (demoMsg .kWarn) :: .log false (demoMsg .kError) :: List.replicate 4 first ++
    List.replicate 8 second ++ List.replicate 4 first ++ [.log false (demoMsg .kInfo), second]

end Demo

theorem sharedHandle_fansOut_demoCalls :
    ∃ next sink', run (step demoEncode) demoSystem demoCalls = some next ∧
      next.accepted.map (fun p => p.2.level) = [.kWarn, .kError, .kInfo] ∧
      ∃ order, next.handle.sinks[1]? = some sink' ∧
        sink'.writtenItems ++ sink'.unwritten = order.filterMap (fun p => demoEncode 1 p.2) ∧
        ∀ t, own t order ++ (next.waiting 1 sink' t).toList = own t next.accepted := by
  have accepted : (run (step demoEncode) demoSystem demoCalls).map
      (fun s => s.accepted.map fun p => p.2.level) = some [.kWarn, .kError, .kInfo] := by
    decide +kernel
  obtain ⟨next, hrun, haccepted⟩ := Option.map_eq_some_iff.mp accepted
  obtain ⟨sink', order, hsink', hitems, -, settled, -⟩ :=
    sharedHandle_fansOut (k := 1) demoSystem_fresh hrun rfl
  exact ⟨next, sink', hrun, haccepted, order, hsink', hitems, settled⟩

end FlashLog.Handler.Shared
