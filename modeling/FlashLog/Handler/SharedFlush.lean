import FlashLog.Handler.SharedRuns

/-!
`Flush` on a shared handle. When it returns, every sink has written everything that it had been
given when the call began, whatever the other threads do in the meantime.
-/

set_option autoImplicit false
set_option relaxedAutoImplicit false

namespace FlashLog.Handler.Shared

open FlashLog.Support
open FlashLog.Support.Machine (run)
open FlashLog.Support.Shuffle (own)
open FlashLog.Sinks

variable {T ι : Type} [DecidableEq T] {encode : Nat → LogMsg → Option ι}

def Label.callBy (t : T) : Label T → Prop
  | .log u _ => u = t
  | .flush u => u = t
  | _ => False

instance (t : T) : DecidablePred (Label.callBy t)
  | .setLevel _ => inferInstanceAs (Decidable False)
  | .log u _ => inferInstanceAs (Decidable (u = t))
  | .flush u => inferInstanceAs (Decidable (u = t))
  | .thread _ _ => inferInstanceAs (Decidable False)

def Pc.flushedPast (k : Nat) : Pc → Prop
  | .idle => True
  | .flush j => k < j
  | .inFlush j => k < j
  | _ => False

def Pc.inFlushing : Pc → Prop
  | .idle | .flush _ | .inFlush _ => True
  | _ => False

/-- Thread `t` flushes, and sink `k` had the items of `wanted` when it began. -/
structure Flushing (t : T) (k : Nat) (wanted : List ι) (s : System T ι)
    (sink : LockedBuffer.Sink T ι) : Prop where
  ordered : sink.view.Ordered
  kept : wanted <+: sink.pushed
  place : (s.pc t).inFlushing
  entered : s.pc t = .inFlush k → sink.pc t = .lock ∨ sink.pc t = .inside
  caught : (s.pc t).flushedPast k → wanted <+: sink.writtenItems

namespace Flushing

variable {t u : T} {k : Nat} {wanted : List ι} {s next : System T ι}
variable {sink sink' : LockedBuffer.Sink T ι}

omit [DecidableEq T] in
theorem elsewhere (inv : Flushing t k wanted s sink) (grows : sink.Grows sink')
    (hpc : next.pc t = s.pc t) (hsink : sink'.pc t = sink.pc t) :
    Flushing t k wanted next sink' := by
  refine ⟨grows.ordered inv.ordered, inv.kept.trans grows.pushed, hpc ▸ inv.place, ?_, ?_⟩
  · rw [hpc, hsink]
    exact inv.entered
  · rw [hpc]
    intro past
    exact (inv.caught past).trans grows.written

theorem insideStep (inv : Flushing t k wanted s sink) {filled : Bool}
    (hpc : s.pc t = .inFlush k) (h : LockedBuffer.step sink (.thread t filled) = some sink')
    (hnext : next.pc t = if returned sink' t then .flush (k + 1) else .inFlush k) :
    Flushing t k wanted next sink' := by
  have grows := LockedBuffer.grows_step h
  have kept := inv.kept.trans grows.pushed
  have inside : returned sink' t = false → sink'.pc t = .lock ∨ sink'.pc t = .inside →
      Flushing t k wanted next sink' := by
    intro still place
    rw [still] at hnext
    refine ⟨grows.ordered inv.ordered, kept, ?_, fun _ => place, ?_⟩
    · rw [hnext]
      trivial
    · rw [hnext]
      intro past
      exact absurd past (Nat.lt_irrefl k)
  cases LockedBuffer.threaded_of_step h with
  | push x hplace =>
    rcases inv.entered hpc with place | place <;> rw [place] at hplace <;> cases hplace
  | needWrite filled hplace =>
    rcases inv.entered hpc with place | place <;> rw [place] at hplace <;> cases hplace
  | lock =>
    exact inside (by simp [returned, LockedBuffer.Sink.goto])
      (Or.inr (by simp [LockedBuffer.Sink.goto]))
  | critical c hplace howner =>
    cases c with
    | size | write sized =>
      exact inside (by simp [returned, LockedBuffer.criticalStep, hplace])
        (Or.inr (by simp [LockedBuffer.criticalStep, hplace]))
    | clear =>
      -- the chunk is in the file, and the call goes on to the next sink
      have back : returned (LockedBuffer.criticalStep sink t .clear) t = true := by
        simp [returned, LockedBuffer.criticalStep, LockedBuffer.Sink.goto]
      rw [back] at hnext
      have all : wanted <+: sink.writtenItems := by
        rw [LockedBuffer.written_of_clear inv.ordered howner]
        exact inv.kept
      refine ⟨grows.ordered inv.ordered, kept, ?_, ?_, fun _ => all.trans grows.written⟩
      · rw [hnext]
        trivial
      · rw [hnext]
        intro same
        cases same

end Flushing

variable {t u : T} {k : Nat} {wanted : List ι} {s next : System T ι}
variable {sink : LockedBuffer.Sink T ι}

theorem grows_threaded (hsink : s.handle.sinks[k]? = some sink) (h : Threaded encode s u next) :
    ∃ sink', next.handle.sinks[k]? = some sink' ∧ sink.Grows sink' ∧
      ∀ v, v ≠ u → next.pc v = s.pc v ∧ sink'.pc v = sink.pc v := by
  have at' : ∀ (j : Nat) (pc : Pc) (sink0 sink' : LockedBuffer.Sink T ι),
      s.handle.sinks[j]? = some sink0 → sink0.Grows sink' →
      (∀ v, v ≠ u → sink'.pc v = sink0.pc v) →
      ∃ sink'', ((s.setSink j sink').goto u pc).handle.sinks[k]? = some sink'' ∧
        sink.Grows sink'' ∧ ∀ v, v ≠ u →
          ((s.setSink j sink').goto u pc).pc v = s.pc v ∧ sink''.pc v = sink.pc v := by
    intro j pc sink0 sink' hsink0 grows others
    by_cases here : j = k
    · subst here
      obtain rfl := Option.some.inj (hsink0.symm.trans hsink)
      exact ⟨sink', sinks_setSink hsink, grows,
        fun v hv => ⟨Function.update_of_ne hv _ _, others v hv⟩⟩
    · exact ⟨sink, (sinks_setSink_of_ne here).trans hsink, .refl sink,
        fun v hv => ⟨Function.update_of_ne hv _ _, rfl⟩⟩
  cases h with
  | accept | reject | logged | dropped | flushed =>
    exact ⟨sink, hsink, .refl sink, fun v hv => ⟨Function.update_of_ne hv _ _, rfl⟩⟩
  | log msg j x sink0 hpc hsink0 | flush j sink0 hpc hsink0 =>
    exact at' j _ sink0 _ hsink0 (LockedBuffer.grows_goto sink0 u _)
      fun v hv => Function.update_of_ne hv _ _
  | inLog msg j sink0 sink' filled hpc hsink0 hstep
  | inFlush j sink0 sink' filled hpc hsink0 hstep =>
    exact at' j _ sink0 sink' hsink0 (LockedBuffer.grows_step hstep)
      (LockedBuffer.threaded_of_step hstep).others

theorem flushing_threaded (inv : Flushing t k wanted s sink)
    (hsink : s.handle.sinks[k]? = some sink) (h : Threaded encode s t next) :
    ∃ sink', next.handle.sinks[k]? = some sink' ∧ Flushing t k wanted next sink' := by
  have place := inv.place
  cases h with
  | accept msg hpc | reject msg hpc | logged msg j hpc | dropped msg j sink' hpc
  | log msg j x sink' hpc | inLog msg j sink0 sink' filled hpc =>
    rw [hpc] at place
    exact absurd place id
  | flushed j hpc hend =>
    have past : k < j := by
      have bound := (List.getElem?_eq_some_iff.mp hsink).1
      have := List.getElem?_eq_none_iff.mp hend
      omega
    refine ⟨sink, hsink, inv.ordered, inv.kept, ?_, ?_, ?_⟩
    · simp [System.goto, Pc.inFlushing]
    · simp [System.goto]
    · intro _
      exact inv.caught (by simpa [hpc, Pc.flushedPast] using past)
  | flush j sink0 hpc hsink0 =>
    by_cases here : j = k
    · subst here
      obtain rfl := Option.some.inj (hsink0.symm.trans hsink)
      refine ⟨_, sinks_setSink hsink, inv.ordered, inv.kept, ?_, ?_, ?_⟩
      · simp [System.goto, Pc.inFlushing]
      · simp [LockedBuffer.Sink.goto]
      · simp [System.goto, Pc.flushedPast]
    · refine ⟨sink, (sinks_setSink_of_ne here).trans hsink, inv.ordered, inv.kept, ?_, ?_, ?_⟩
      · simp [System.goto, Pc.inFlushing]
      · simp [System.goto, here]
      · intro past
        exact inv.caught (by simpa [System.goto, hpc, Pc.flushedPast] using past)
  | inFlush j sink0 sink' filled hpc hsink0 hstep =>
    by_cases here : j = k
    · subst here
      obtain rfl := Option.some.inj (hsink0.symm.trans hsink)
      exact ⟨sink', sinks_setSink hsink,
        inv.insideStep hpc hstep (Function.update_self _ _ _)⟩
    · refine ⟨sink, (sinks_setSink_of_ne here).trans hsink, inv.ordered, inv.kept, ?_, ?_, ?_⟩
      · split <;> simp [System.goto, Pc.inFlushing]
      · split <;> simp [System.goto, here]
      · intro past
        have before : k < j := by
          have : k < j + 1 := by
            split at past
            · simpa [System.goto, Pc.flushedPast] using past
            · have : k < j := by simpa [System.goto, Pc.flushedPast] using past
              omega
          omega
        exact inv.caught (by simpa [hpc, Pc.flushedPast] using before)

theorem flushing_step {a : Label T} (inv : Flushing t k wanted s sink)
    (hsink : s.handle.sinks[k]? = some sink) (other : ¬ a.callBy t)
    (h : step encode s a = some next) :
    ∃ sink', next.handle.sinks[k]? = some sink' ∧ Flushing t k wanted next sink' := by
  cases stepped_of_step h with
  | setLevel level =>
    exact ⟨sink, hsink, inv.elsewhere (.refl sink) rfl rfl⟩
  | log u msg | flush u =>
    have ne : t ≠ u := fun same => other same.symm
    exact ⟨sink, hsink, inv.elsewhere (.refl sink) (Function.update_of_ne ne _ _) rfl⟩
  | thread u filled next h =>
    by_cases same : t = u
    · subst same
      exact flushing_threaded inv hsink h
    · obtain ⟨sink', hsink', grows, others⟩ := grows_threaded hsink h
      exact ⟨sink', hsink', inv.elsewhere grows (others t same).1 (others t same).2⟩

theorem flushing_run {as : List (Label T)} (inv : Flushing t k wanted s sink)
    (hsink : s.handle.sinks[k]? = some sink) (others : ∀ a ∈ as, ¬ a.callBy t)
    (h : run (step encode) s as = some next) :
    ∃ sink', next.handle.sinks[k]? = some sink' ∧ Flushing t k wanted next sink' := by
  have preserved : ∀ (s : System T ι) (a : Label T) (next : System T ι),
      (∃ sink, s.handle.sinks[k]? = some sink ∧ Flushing t k wanted s sink) → ¬ a.callBy t →
        step encode s a = some next →
        ∃ sink, next.handle.sinks[k]? = some sink ∧ Flushing t k wanted next sink :=
    fun _ _ _ ⟨_, hsink, inv⟩ other hstep => flushing_step inv hsink other hstep
  exact Machine.run_invariant preserved ⟨sink, hsink, inv⟩ (Machine.meets_of_forall others) h

/-- A flush is complete in every sink. When the call of `Flush` returns, the file of a sink begins
with all that the sink held at the start and all that it had been given of the messages accepted
before the call: of each thread everything, but for the one message that the thread had still to
bring to this sink. -/
theorem sharedHandle_flushes {before : System T ι} {as bs : List (Label T)} (fresh : s.Fresh)
    (h : run (step encode) s as = some before)
    (h' : run (step encode) before (.flush t :: bs) = some next)
    (others : ∀ b ∈ bs, ¬ b.callBy t) (returned : next.pc t = .idle)
    (hsink : s.handle.sinks[k]? = some sink) :
    ∃ sink0 sink' order, before.handle.sinks[k]? = some sink0 ∧
      next.handle.sinks[k]? = some sink' ∧
      sink.pushed ++ order.filterMap (fun p => encode k p.2) <+: sink'.writtenItems ∧
      ∀ u, own u order ++ (before.waiting k sink0 u).toList = own u before.accepted := by
  obtain ⟨sink0, hsink0, inv⟩ := delivered_run (delivered_fresh fresh hsink) hsink h
  obtain ⟨order, horder, settled⟩ := inv.shares
  obtain ⟨called, hcall, hrun⟩ := Machine.run_cons_some h'
  have flushing : ∃ sink1, called.handle.sinks[k]? = some sink1 ∧
      Flushing t k sink0.pushed called sink1 := by
    cases stepped_of_step hcall with
    | flush u hpc =>
      refine ⟨sink0, hsink0, inv.ordered, List.prefix_refl _, ?_, ?_, ?_⟩
      · simp [System.goto, Pc.inFlushing]
      · simp [System.goto]
      · simp [System.goto, Pc.flushedPast]
  obtain ⟨sink1, hsink1, start⟩ := flushing
  obtain ⟨sink', hsink', last⟩ := flushing_run start hsink1 others hrun
  refine ⟨sink0, sink', order, hsink0, hsink', ?_, settled⟩
  rw [← horder]
  refine last.caught ?_
  rw [returned]
  trivial

/-- One thread flushes while the other is about to bring a message to the first sink. -/
def demoFlush : List (Label Bool) := List.replicate 11 (.thread true false)

theorem sharedHandle_flushes_demoFlush :
    ∃ before next sink0 sink' order, run (step demoEncode) demoSystem demoCalls = some before ∧
      run (step demoEncode) before (.flush true :: demoFlush) = some next ∧
      before.handle.sinks[1]? = some sink0 ∧ next.handle.sinks[1]? = some sink' ∧
      order.filterMap (fun p => demoEncode 1 p.2) <+: sink'.writtenItems ∧
      ∀ u, own u order ++ (before.waiting 1 sink0 u).toList = own u before.accepted := by
  have returns : (run (step demoEncode) demoSystem demoCalls).bind (fun s =>
      (run (step demoEncode) s (.flush true :: demoFlush)).map fun s' => s'.pc true) =
        some .idle := by
    decide +kernel
  obtain ⟨before, hbefore, h⟩ := Option.bind_eq_some_iff.mp returns
  obtain ⟨next, hnext, returned⟩ := Option.map_eq_some_iff.mp h
  obtain ⟨sink0, sink', order, hsink0, hsink', written, settled⟩ :=
    sharedHandle_flushes (k := 1) demoSystem_fresh hbefore hnext (by decide) returned rfl
  exact ⟨before, next, sink0, sink', order, hbefore, hnext, hsink0, hsink', written, settled⟩

end FlashLog.Handler.Shared
