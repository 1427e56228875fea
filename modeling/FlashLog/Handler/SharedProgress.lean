import FlashLog.Support.Potential
import FlashLog.Handler.SharedRuns

/-!
The calls of a shared handle return. A thread holds the lock of at most one sink, and only inside
`CacheToFile_` of that sink, so the locks of the sinks never wait for one another.
-/

set_option autoImplicit false
set_option relaxedAutoImplicit false

namespace FlashLog.Handler.Shared

open FlashLog.Support
open FlashLog.Support.Machine (run)
open FlashLog.Support.Potential (sum_move gain run_length_le_countP)
open FlashLog.Sinks

variable {T ι : Type} [DecidableEq T] {encode : Nat → LogMsg → Option ι}

def Pc.sink : Pc → Option Nat
  | .inLog _ k => some k
  | .inFlush k => some k
  | _ => none

def Owned (sink : LockedBuffer.Sink T ι) : Prop :=
  ∀ t, sink.pc t = .inside ↔ ∃ c, sink.owner = some (t, c)

structure Linked (s : System T ι) : Prop where
  constructed : ∀ sink ∈ s.handle.sinks, sink.constructed = true
  owned : ∀ sink ∈ s.handle.sinks, Owned sink
  place : ∀ k sink, s.handle.sinks[k]? = some sink → ∀ t,
    returned sink t = false ↔ (s.pc t).sink = some k
  bound : ∀ t k, (s.pc t).sink = some k → k < s.handle.sinks.length

section Locks

variable {sink next : LockedBuffer.Sink T ι} {t : T}

omit [DecidableEq T] in
theorem returned_iff : returned sink t = true ↔ sink.pc t = .idle := by
  cases h : sink.pc t <;> simp [returned, h]

theorem Owned.goto (h : Owned sink) {pc : LockedBuffer.Pc ι} (before : sink.pc t ≠ .inside)
    (after : pc ≠ .inside) : Owned (sink.goto t pc) := by
  intro u
  by_cases hu : u = t
  · subst hu
    have none' : ¬ ∃ c, sink.owner = some (u, c) := fun held => before ((h u).mpr held)
    simpa [LockedBuffer.Sink.goto, after] using none'
  · simpa [LockedBuffer.Sink.goto, hu] using h u

theorem Owned.threaded (h : Owned sink) (hstep : LockedBuffer.Threaded sink t next) :
    Owned next := by
  cases hstep with
  | push x hpc howner => exact h.goto (by simp [hpc]) (by simp)
  | needWrite filled hpc howner => exact h.goto (by simp [hpc]) (by cases filled <;> simp)
  | lock hpc howner =>
    intro u
    have free : sink.pc u ≠ .inside := by
      intro inside
      obtain ⟨c, held⟩ := (h u).mp inside
      rw [howner] at held
      cases held
    by_cases hu : u = t
    · subst hu
      simp [LockedBuffer.Sink.goto]
    · simp [LockedBuffer.Sink.goto, hu, Ne.symm hu, free]
  | critical c hpc howner =>
    have others : ∀ u, u ≠ t → sink.pc u ≠ .inside := by
      intro u hu inside
      obtain ⟨c', held⟩ := (h u).mp inside
      rw [howner] at held
      exact hu (Prod.mk.inj (Option.some.inj held)).1.symm
    intro u
    by_cases hu : u = t
    · subst hu
      cases c <;> simp [LockedBuffer.criticalStep, LockedBuffer.Sink.goto, hpc]
    · have free := others u hu
      cases c <;> simp [LockedBuffer.criticalStep, LockedBuffer.Sink.goto, hu, Ne.symm hu, free]

theorem threaded_constructed (h : LockedBuffer.Threaded sink t next)
    (constructed : sink.constructed = true) : next.constructed = true := by
  cases h with
  | push | needWrite | lock => exact constructed
  | critical c => cases c <;> first | exact constructed | rfl

theorem enabled_or_held (h : Owned sink) (busy : returned sink t = false) :
    (∃ next, LockedBuffer.step sink (.thread t false) = some next) ∨
      ∃ u c, sink.owner = some (u, c) := by
  cases howner : sink.owner with
  | some owner => exact Or.inr ⟨owner.1, owner.2, rfl⟩
  | none =>
    refine Or.inl ?_
    cases hpc : sink.pc t with
    | idle => simp [returned, hpc] at busy
    | inside =>
      obtain ⟨c, held⟩ := (h t).mp hpc
      rw [howner] at held
      cases held
    | push x | needWrite | lock =>
      exact Option.isSome_iff_exists.mp
        (by simp [LockedBuffer.step, LockedBuffer.threadStep, hpc, howner])

theorem owner_enabled (h : Owned sink) {c : LockedBuffer.Critical ι}
    (held : sink.owner = some (t, c)) :
    returned sink t = false ∧
      ∃ next, LockedBuffer.step sink (.thread t false) = some next := by
  have inside : sink.pc t = .inside := (h t).mpr ⟨c, held⟩
  refine ⟨by simp [returned, inside], LockedBuffer.criticalStep sink t c, ?_⟩
  simp only [LockedBuffer.step, LockedBuffer.threadStep, inside, held, if_pos]

end Locks

section Links

variable {s next : System T ι} {t : T} {pc : Pc}

theorem Linked.outside (inv : Linked s) (handle : next.handle.sinks = s.handle.sinks)
    (hpc : next.pc = Function.update s.pc t pc) (before : (s.pc t).sink = none)
    (after : pc.sink = none) : Linked next := by
  have same : ∀ u, (next.pc u).sink = (s.pc u).sink := by
    intro u
    by_cases hu : u = t
    · rw [hpc, hu, Function.update_self, before, after]
    · rw [hpc, Function.update_of_ne hu]
  refine ⟨?_, ?_, ?_, ?_⟩
  · rw [handle]
    exact inv.constructed
  · rw [handle]
    exact inv.owned
  · intro k sink hsink u
    rw [handle] at hsink
    rw [same u]
    exact inv.place k sink hsink u
  · intro u k hk
    rw [handle]
    exact inv.bound u k (same u ▸ hk)

theorem Linked.onSink (inv : Linked s) {j : Nat} {sink sink' : LockedBuffer.Sink T ι}
    (hsink : s.handle.sinks[j]? = some sink) (constructed : sink'.constructed = true)
    (owned : Owned sink') (others : ∀ u, u ≠ t → sink'.pc u = sink.pc u)
    (before : (s.pc t).sink = none ∨ (s.pc t).sink = some j)
    (after : if returned sink' t then pc.sink = none else pc.sink = some j) :
    Linked ((s.setSink j sink').goto t pc) := by
  have bound := (List.getElem?_eq_some_iff.mp hsink).1
  have here : returned sink' t = false ↔ pc.sink = some j := by
    cases h : returned sink' t <;> simp [h] at after <;> simp [after]
  have elsewhere : pc.sink = none ∨ pc.sink = some j := by
    cases h : returned sink' t <;> simp [h] at after <;> simp [after]
  refine ⟨?_, ?_, ?_, ?_⟩
  · intro other hother
    rcases List.mem_or_eq_of_mem_set hother with old | rfl
    · exact inv.constructed other old
    · exact constructed
  · intro other hother
    rcases List.mem_or_eq_of_mem_set hother with old | rfl
    · exact inv.owned other old
    · exact owned
  · intro k other hother u
    by_cases hk : j = k
    · subst hk
      obtain rfl : sink' = other := by
        exact Option.some.inj ((sinks_setSink hsink).symm.trans hother)
      by_cases hu : u = t
      · subst hu
        simpa [System.goto] using here
      · have place := inv.place j sink hsink u
        simpa [System.goto, System.setSink, hu, returned, others u hu] using place
    · have hold : s.handle.sinks[k]? = some other := (sinks_setSink_of_ne hk).symm.trans hother
      have place := inv.place k other hold u
      by_cases hu : u = t
      · subst hu
        have away : (s.pc u).sink ≠ some k := by
          rcases before with h | h <;> simp [h, hk]
        have away' : pc.sink ≠ some k := by
          rcases elsewhere with h | h <;> simp [h, hk]
        simpa [System.goto, away, away'] using place
      · simpa [System.goto, System.setSink, hu] using place
  · intro u k hk
    show k < (s.handle.sinks.set j sink').length
    rw [List.length_set]
    by_cases hu : u = t
    · subst hu
      have hpc : pc.sink = some k := by simpa [System.goto] using hk
      rcases elsewhere with h | h
      · rw [h] at hpc
        cases hpc
      · rw [h] at hpc
        exact Option.some.inj hpc ▸ bound
    · exact inv.bound u k (by simpa [System.goto, System.setSink, hu] using hk)

theorem Linked.threaded (inv : Linked s) (h : Threaded encode s t next) : Linked next := by
  cases h with
  | accept msg hpc | reject msg hpc | logged msg j hpc | dropped msg j sink hpc
  | flushed j hpc => exact inv.outside rfl rfl (by simp [hpc, Pc.sink]) rfl
  | log msg j x sink hpc hsink | flush j sink hpc hsink =>
    have mem := List.mem_of_getElem? hsink
    have idle : sink.pc t = .idle := by
      rw [← returned_iff, ← Bool.not_eq_false, inv.place j sink hsink t]
      simp [hpc, Pc.sink]
    refine inv.onSink hsink (inv.constructed sink mem)
      ((inv.owned sink mem).goto (by simp [idle]) (by simp)) ?_ (Or.inl (by simp [hpc, Pc.sink])) ?_
    · intro u hu
      exact Function.update_of_ne hu _ _
    · simp [returned, LockedBuffer.Sink.goto, Pc.sink]
  | inLog msg j sink sink' filled hpc hsink hstep | inFlush j sink sink' filled hpc hsink hstep =>
    have mem := List.mem_of_getElem? hsink
    have threaded := LockedBuffer.threaded_of_step hstep
    refine inv.onSink hsink (threaded_constructed threaded (inv.constructed sink mem))
      ((inv.owned sink mem).threaded threaded) threaded.others
      (Or.inr (by simp [hpc, Pc.sink])) ?_
    cases hreturned : returned sink' t <;> simp [Pc.sink]

theorem linked_step {a : Label T} (inv : Linked s) (h : step encode s a = some next) :
    Linked next := by
  cases stepped_of_step h with
  | setLevel level => exact ⟨inv.constructed, inv.owned, inv.place, inv.bound⟩
  | log t msg hpc => exact inv.outside rfl rfl (by simp [hpc, Pc.sink]) rfl
  | flush t hpc => exact inv.outside rfl rfl (by simp [hpc, Pc.sink]) rfl
  | thread t filled next h => exact inv.threaded h

omit [DecidableEq T] in
theorem linked_fresh (fresh : s.Fresh) : Linked s := by
  refine ⟨fun sink hsink => (fresh.sinks sink hsink).constructed, ?_, ?_, ?_⟩
  · intro sink hsink t
    have rest := fresh.sinks sink hsink
    simp [rest.idle t, rest.free]
  · intro k sink hsink t
    simp [returned, (fresh.sinks sink (List.mem_of_getElem? hsink)).idle t, fresh.idle t, Pc.sink]
  · intro t k hk
    simp [fresh.idle t, Pc.sink] at hk

end Links

section Rest

variable {s : System T ι} {t : T}

def System.Stuck (encode : Nat → LogMsg → Option ι) (s : System T ι) : Prop :=
  ∀ t filled, step encode s (.thread t filled) = none

theorem inside_isSome {k : Nat} {here after : Pc} {sink : LockedBuffer.Sink T ι}
    (hsink : s.handle.sinks[k]? = some sink)
    (h : ∃ next, LockedBuffer.step sink (.thread t false) = some next) :
    (s.inside t k false here after).isSome = true := by
  obtain ⟨next, hnext⟩ := h
  simp [System.inside, hsink, hnext]

variable (encode) in
theorem threadStep_isSome {k : Nat} {sink : LockedBuffer.Sink T ι} (place : (s.pc t).sink = some k)
    (hsink : s.handle.sinks[k]? = some sink)
    (h : ∃ next, LockedBuffer.step sink (.thread t false) = some next) :
    (step encode s (.thread t false)).isSome = true := by
  cases hpc : s.pc t with
  | inLog msg j | inFlush j =>
    rw [hpc] at place
    obtain rfl : j = k := Option.some.inj place
    simpa [step, threadStep, hpc] using inside_isSome hsink h
  | idle | shouldLog msg | log msg j | flush j => simp [hpc, Pc.sink] at place

theorem front_isSome (inv : Linked s) {k : Nat} {sink : LockedBuffer.Sink T ι}
    (hsink : s.handle.sinks[k]? = some sink) (away : (s.pc t).sink = none)
    (pc : LockedBuffer.Pc ι) : (LockedBuffer.enter sink t pc).isSome = true := by
  have idle : sink.pc t = .idle := by
    rw [← returned_iff, ← Bool.not_eq_false, inv.place k sink hsink t, away]
    simp
  have constructed := inv.constructed sink (List.mem_of_getElem? hsink)
  simp [LockedBuffer.enter, idle, constructed]

theorem Linked.atRest (inv : Linked s) (stuck : s.Stuck encode) (t : T) : s.pc t = .idle := by
  have blocked : ∀ u, (step encode s (.thread u false)).isSome = false := by
    intro u
    rw [stuck u false]
    rfl
  have outside : (s.pc t).sink = none := by
    by_contra busy
    obtain ⟨k, hk⟩ := Option.ne_none_iff_exists'.mp busy
    obtain ⟨sink, hsink⟩ : ∃ sink, s.handle.sinks[k]? = some sink :=
      ⟨_, List.getElem?_eq_getElem (inv.bound t k hk)⟩
    have owned := inv.owned sink (List.mem_of_getElem? hsink)
    rcases enabled_or_held owned ((inv.place k sink hsink t).mpr hk) with free | ⟨u, c, held⟩
    · have := threadStep_isSome encode hk hsink free
      simp [blocked t] at this
    · -- the owner of the lock can go on
      obtain ⟨busy', enabled⟩ := owner_enabled owned held
      have hu := (inv.place k sink hsink u).mp busy'
      have := threadStep_isSome encode hu hsink enabled
      simp [blocked u] at this
  have still := stuck t false
  cases hpc : s.pc t with
  | idle => rfl
  | inLog msg k | inFlush k => simp [hpc, Pc.sink] at outside
  | shouldLog msg =>
    simp only [step, threadStep, hpc] at still
    split at still <;> cases still
  | log msg k =>
    simp only [step, threadStep, hpc] at still
    split at still
    · cases still
    · cases still
    · rename_i sink x hsink hencode
      have enters := front_isSome inv hsink outside (.push x)
      simp only [Option.map_eq_none_iff] at still
      rw [LockedBuffer.step] at still
      simp [still] at enters
  | flush k =>
    simp only [step, threadStep, hpc] at still
    split at still
    · cases still
    · rename_i sink hsink
      have enters := front_isSome inv hsink outside .lock
      simp only [Option.map_eq_none_iff] at still
      rw [LockedBuffer.step] at still
      simp [still] at enters

end Rest

section Work

variable {s next : System T ι} {t : T}

def sinkWork (sink : LockedBuffer.Sink T ι) (t : T) : Nat :=
  match sink.pc t, sink.owner with
  | .push _, _ => 6
  | .needWrite, _ => 5
  | .lock, _ => 4
  | .inside, some (_, .size) => 3
  | .inside, some (_, .write _) => 2
  | .inside, some (_, .clear) => 1
  | _, _ => 0

/-- A bound on the steps of the loop over `n` sinks from sink `k` on. -/
def loopWork (n k : Nat) : Nat := 8 * (n - k) + 1

def System.threadWork (s : System T ι) (t : T) : Nat :=
  match s.pc t with
  | .idle => 0
  | .shouldLog _ => loopWork s.handle.sinks.length 0 + 1
  | .log _ k | .flush k => loopWork s.handle.sinks.length k
  | .inLog _ k | .inFlush k =>
    loopWork s.handle.sinks.length (k + 1) +
      (s.handle.sinks[k]?.map fun sink => sinkWork sink t).getD 0

theorem sinkWork_threaded {sink sink' : LockedBuffer.Sink T ι}
    (h : LockedBuffer.Threaded sink t sink') : sinkWork sink' t < sinkWork sink t := by
  cases h with
  | push x hpc howner | lock hpc howner =>
    simp [sinkWork, LockedBuffer.Sink.goto, hpc]
  | needWrite filled hpc howner => cases filled <;> simp [sinkWork, LockedBuffer.Sink.goto, hpc]
  | critical c hpc howner =>
    cases c <;> simp [sinkWork, LockedBuffer.criticalStep, LockedBuffer.Sink.goto, hpc, howner]

theorem sinkWork_others {sink sink' : LockedBuffer.Sink T ι} (owned : Owned sink)
    (h : LockedBuffer.Threaded sink t sink') {u : T} (hu : u ≠ t) :
    sinkWork sink' u = sinkWork sink u := by
  have outside : sink.pc u ≠ .inside := by
    intro inside
    obtain ⟨c, held⟩ := (owned u).mp inside
    cases h with
    | push x hpc howner | needWrite filled hpc howner | lock hpc howner => simp [held] at howner
    | critical c hpc howner =>
      rw [held] at howner
      exact hu (Prod.mk.inj (Option.some.inj howner)).1
  have same := h.others u hu
  cases hpc : sink.pc u with
  | inside => exact absurd hpc outside
  | idle | push x | needWrite | lock =>
    rw [hpc] at same
    simp [sinkWork, hpc, same]

theorem threadWork_others {j : Nat} {sink sink' : LockedBuffer.Sink T ι} {pc : Pc}
    (hsink : s.handle.sinks[j]? = some sink)
    (others : ∀ u, u ≠ t → sinkWork sink' u = sinkWork sink u) (u : T) (hu : u ≠ t) :
    ((s.setSink j sink').goto t pc).threadWork u = s.threadWork u := by
  have length : (s.handle.sinks.set j sink').length = s.handle.sinks.length := List.length_set
  have inner : ∀ k : Nat, ((s.handle.sinks.set j sink')[k]?.map fun sink => sinkWork sink u) =
      s.handle.sinks[k]?.map fun sink => sinkWork sink u := by
    intro k
    by_cases hk : j = k
    · subst hk
      have set' : (s.handle.sinks.set j sink')[j]? = some sink' := sinks_setSink hsink
      rw [set', hsink, Option.map_some, Option.map_some, others u hu]
    · rw [List.getElem?_set_ne hk]
  simp only [System.threadWork, System.goto, System.setSink, Function.update_of_ne hu, length,
    inner]

theorem threadWork_lt (h : Threaded encode s t next) :
    next.threadWork t < s.threadWork t := by
  cases h with
  | accept msg hpc | reject msg hpc | logged msg k hpc | flushed k hpc =>
    simp [System.threadWork, System.goto, hpc, loopWork]
  | dropped msg k sink hpc hsink =>
    have bound := (List.getElem?_eq_some_iff.mp hsink).1
    simp only [System.threadWork, System.goto, Function.update_self, hpc, loopWork]
    omega
  | log msg k x sink hpc hsink | flush k sink hpc hsink =>
    have bound := (List.getElem?_eq_some_iff.mp hsink).1
    simp only [System.threadWork, System.goto, System.setSink, Function.update_self, hpc, loopWork,
      List.length_set, List.getElem?_set_self bound, Option.map_some, Option.getD_some, sinkWork,
      LockedBuffer.Sink.goto]
    omega
  | inLog msg k sink sink' filled hpc hsink hstep | inFlush k sink sink' filled hpc hsink hstep =>
    have bound := (List.getElem?_eq_some_iff.mp hsink).1
    have less := sinkWork_threaded (LockedBuffer.threaded_of_step hstep)
    cases returned sink' t with
    | false =>
      simp only [System.threadWork, System.goto, System.setSink, Function.update_self, hpc, hsink,
        List.length_set, List.getElem?_set_self bound, Option.map_some, Option.getD_some,
        Bool.false_eq_true, if_false]
      omega
    | true =>
      simp only [System.threadWork, System.goto, System.setSink, Function.update_self, hpc, hsink,
        List.length_set, Option.map_some, Option.getD_some, if_true]
      omega

def System.work [Fintype T] (s : System T ι) : Nat := ∑ t, s.threadWork t

def Label.isCall : Label T → Bool
  | .thread _ _ => false
  | _ => true

omit [DecidableEq T] in
theorem threadWork_le_idle (hpc : s.pc t = .idle) : s.threadWork t = 0 := by
  simp [System.threadWork, hpc]

theorem sinks_length {a : Label T} (h : step encode s a = some next) :
    next.handle.sinks.length = s.handle.sinks.length := by
  cases stepped_of_step h with
  | setLevel | log | flush => rfl
  | thread t filled next h =>
    cases h with
    | accept | reject | logged | dropped | flushed => rfl
    | log | inLog | flush | inFlush => exact List.length_set

theorem work_threaded [Fintype T] (inv : Linked s) (h : Threaded encode s t next) :
    next.work + 1 ≤ s.work := by
  have less := threadWork_lt h
  have others : ∀ u, u ≠ t → next.threadWork u = s.threadWork u := by
    cases h with
    | accept | reject | logged | dropped | flushed =>
      intro u hu
      simp [System.threadWork, System.goto, hu]
    | log msg k x sink hpc hsink | flush k sink hpc hsink =>
      refine threadWork_others hsink fun u hu => ?_
      simp [sinkWork, LockedBuffer.Sink.goto, hu]
    | inLog msg k sink sink' filled hpc hsink hstep
    | inFlush k sink sink' filled hpc hsink hstep =>
      exact threadWork_others hsink fun u hu =>
        sinkWork_others (inv.owned sink (List.mem_of_getElem? hsink))
          (LockedBuffer.threaded_of_step hstep) hu
  have moved := sum_move others
  simp only [System.work]
  omega

theorem work_step [Fintype T] {a : Label T} {n : Nat} (inv : Linked s)
    (length : s.handle.sinks.length = n) (h : step encode s a = some next) :
    next.work + 1 ≤ s.work + gain (8 * n + 3) Label.isCall a := by
  have called : ∀ {t : T} {pc : Pc}, s.pc t = .idle →
      (s.goto t pc).threadWork t ≤ 8 * n + 2 → (s.goto t pc).work + 1 ≤ s.work + (8 * n + 3) := by
    intro t pc hpc bound
    have others : ∀ u, u ≠ t → (s.goto t pc).threadWork u = s.threadWork u := by
      intro u hu
      simp [System.threadWork, System.goto, hu]
    have moved := sum_move others
    have zero := threadWork_le_idle hpc
    simp only [System.work]
    omega
  cases stepped_of_step h with
  | setLevel level =>
    show s.work + 1 ≤ s.work + (8 * n + 3)
    omega
  | log t msg hpc =>
    refine called hpc ?_
    simp [System.threadWork, System.goto, loopWork, length]
  | flush t hpc =>
    refine called hpc ?_
    simp [System.threadWork, System.goto, loopWork, length]
  | thread t filled next h => exact work_threaded inv h

/-- The calls of a shared handle return. However the threads take turns, a run takes at most so
many steps for each call, and when no thread can take a step, every call has returned: the locks
of the sinks cannot block one another. -/
theorem sharedHandle_returns [Fintype T] {as : List (Label T)} (fresh : s.Fresh)
    (h : run (step encode) s as = some next) :
    as.length ≤ (8 * s.handle.sinks.length + 3) * as.countP Label.isCall ∧
      (next.Stuck encode → ∀ t, next.pc t = .idle) := by
  have start : Linked s ∧ s.handle.sinks.length = s.handle.sinks.length :=
    ⟨linked_fresh fresh, rfl⟩
  have kept : ∀ (s' : System T ι) (a : Label T) (next : System T ι),
      Linked s' ∧ s'.handle.sinks.length = s.handle.sinks.length → True →
        step encode s' a = some next →
        Linked next ∧ next.handle.sinks.length = s.handle.sinks.length :=
    fun _ _ _ inv _ hstep => ⟨linked_step inv.1 hstep, (sinks_length hstep).trans inv.2⟩
  have meets := Machine.meets_true (step encode) s as
  refine ⟨?_, (Machine.run_invariant kept start meets h).1.atRest⟩
  have bound := run_length_le_countP System.work (8 * s.handle.sinks.length + 3) Label.isCall
    kept (fun _ _ _ inv _ hstep => work_step inv.1 inv.2 hstep) start meets h
  have zero : s.work = 0 := Finset.sum_eq_zero fun t _ => threadWork_le_idle (fresh.idle t)
  rwa [zero, Nat.zero_add] at bound

theorem sharedHandle_returns_demoCalls :
    ∃ next, run (step demoEncode) demoSystem demoCalls = some next ∧
      demoCalls.length ≤ 19 * demoCalls.countP Label.isCall ∧
      (next.Stuck demoEncode → ∀ t, next.pc t = .idle) := by
  have defined : (run (step demoEncode) demoSystem demoCalls).isSome = true := by decide +kernel
  obtain ⟨next, hrun⟩ := Option.isSome_iff_exists.mp defined
  exact ⟨next, hrun, sharedHandle_returns demoSystem_fresh hrun⟩

end Work

end FlashLog.Handler.Shared
