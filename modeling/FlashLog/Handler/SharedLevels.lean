import FlashLog.Handler.SharedRuns

/-!
The level of a shared handle, which any thread may set while others log. What `ShouldLog` lets
through is bounded by the levels that the handle had during the run.
-/

set_option autoImplicit false
set_option relaxedAutoImplicit false

namespace FlashLog.Handler.Shared

open FlashLog.Support
open FlashLog.Support.Machine (run)
open FlashLog.Support.Shuffle (own)
open FlashLog.Sinks

variable {T ι : Type} [DecidableEq T] {encode : Nat → LogMsg → Option ι}

def Label.logged : Label T → Option (T × LogMsg)
  | .log t msg => some (t, msg)
  | _ => none

/-- The message that a thread has still to show to `ShouldLog`. -/
def Pc.asking : Pc → Option LogMsg
  | .shouldLog msg => some msg
  | _ => none

def Between (low high : Nat) (level : LogLevel) : Prop := low ≤ level.toNat ∧ level.toNat ≤ high

/-- A message that every level up to `high` lets through. -/
def reaches (high : Nat) (msg : LogMsg) : Bool := decide (high ≤ msg.level.toNat)

/-- What was accepted of the calls of `Log` that are in `calls`. -/
structure Filtered (low high : Nat) (s : System T ι) (calls : List (T × LogMsg)) : Prop where
  level : Between low high s.handle.level
  low : ∀ p ∈ s.accepted, low ≤ p.2.level.toNat
  sublist : ∀ t, (own t s.accepted ++ (s.pc t).asking.toList).Sublist (own t calls)
  all : ∀ t, (own t s.accepted ++ (s.pc t).asking.toList).filter (reaches high) =
    (own t calls).filter (reaches high)

namespace Filtered

variable {low high : Nat} {s next : System T ι} {calls : List (T × LogMsg)} {t : T} {pc : Pc}

theorem same (inv : Filtered low high s calls) (level : next.handle.level = s.handle.level)
    (accepted : next.accepted = s.accepted) (hpc : next.pc = Function.update s.pc t pc)
    (asking : pc.asking = (s.pc t).asking) : Filtered low high next calls := by
  have asked : ∀ u, (next.pc u).asking = (s.pc u).asking := by
    intro u
    by_cases hu : u = t
    · rw [hpc, hu, Function.update_self, asking]
    · rw [hpc, Function.update_of_ne hu]
  refine ⟨level ▸ inv.level, accepted ▸ inv.low, ?_, ?_⟩
  · intro u
    rw [accepted, asked u]
    exact inv.sublist u
  · intro u
    rw [accepted, asked u]
    exact inv.all u

theorem call (inv : Filtered low high s calls) (hpc : s.pc t = .idle) (msg : LogMsg) :
    Filtered low high (s.goto t (.shouldLog msg)) (calls ++ [(t, msg)]) := by
  refine ⟨inv.level, inv.low, ?_, ?_⟩
  all_goals
    intro u
    by_cases hu : u = t
    · subst hu
      have sublist := inv.sublist u
      have all := inv.all u
      simp only [hpc, Pc.asking, Option.toList_none, List.append_nil] at sublist all
      simp [System.goto, Pc.asking, sublist, all]
    · have sublist := inv.sublist u
      have all := inv.all u
      simp [System.goto, hu, Shuffle.own_other (Ne.symm hu), sublist, all]

theorem accept (inv : Filtered low high s calls) {msg : LogMsg} (hpc : s.pc t = .shouldLog msg)
    (hlevel : s.handle.shouldLog msg.level = true) :
    Filtered low high { s.goto t (.log msg 0) with accepted := s.accepted ++ [(t, msg)] } calls := by
  have moved : ∀ u, own u (s.accepted ++ [(t, msg)]) ++
      ((s.goto t (.log msg 0)).pc u).asking.toList =
        own u s.accepted ++ (s.pc u).asking.toList := by
    intro u
    by_cases hu : u = t
    · subst hu
      simp [System.goto, Pc.asking, hpc]
    · simp [System.goto, hu, Shuffle.own_other (Ne.symm hu)]
  refine ⟨inv.level, ?_, ?_, ?_⟩
  · intro p hp
    rcases List.mem_append.mp hp with old | new
    · exact inv.low p old
    · obtain rfl := List.mem_singleton.mp new
      exact inv.level.1.trans (of_decide_eq_true hlevel)
  · intro u
    rw [moved u]
    exact inv.sublist u
  · intro u
    rw [moved u]
    exact inv.all u

theorem reject (inv : Filtered low high s calls) {msg : LogMsg} (hpc : s.pc t = .shouldLog msg)
    (hlevel : s.handle.shouldLog msg.level = false) :
    Filtered low high (s.goto t .idle) calls := by
  have below : reaches high msg = false := by
    have := of_decide_eq_false hlevel
    have := inv.level.2
    exact decide_eq_false (by omega)
  refine ⟨inv.level, inv.low, ?_, ?_⟩
  · intro u
    refine List.Sublist.trans ?_ (inv.sublist u)
    refine List.Sublist.append_left ?_ _
    by_cases hu : u = t
    · subst hu
      simp [System.goto, Pc.asking]
    · simp [System.goto, hu]
  · intro u
    rw [← inv.all u, List.filter_append, List.filter_append]
    congr 1
    by_cases hu : u = t
    · subst hu
      simp [System.goto, Pc.asking, hpc, below]
    · simp [System.goto, hu]

theorem step {a : Label T} (inv : Filtered low high s calls)
    (levels : ∀ level, a = .setLevel level → Between low high level)
    (h : Shared.step encode s a = some next) :
    Filtered low high next (calls ++ a.logged.toList) := by
  cases stepped_of_step h with
  | setLevel level =>
    have unchanged : calls ++ (Label.logged (.setLevel level : Label T)).toList = calls :=
      List.append_nil _
    rw [unchanged]
    exact ⟨levels level rfl, inv.low, inv.sublist, inv.all⟩
  | log t msg hpc => exact inv.call hpc msg
  | flush t hpc =>
    have unchanged : calls ++ (Label.flush t).logged.toList = calls := List.append_nil _
    rw [unchanged]
    exact inv.same rfl rfl rfl (by simp [hpc, Pc.asking])
  | thread t filled next h =>
    have unchanged : calls ++ (Label.thread t filled).logged.toList = calls := List.append_nil _
    rw [unchanged]
    cases h with
    | accept msg hpc hlevel => exact inv.accept hpc hlevel
    | reject msg hpc hlevel => exact inv.reject hpc hlevel
    | logged msg j hpc | dropped msg j sink hpc | log msg j x sink hpc | flushed j hpc
    | flush j sink hpc => exact inv.same rfl rfl rfl (by simp [hpc, Pc.asking])
    | inLog msg j sink next filled hpc | inFlush j sink next filled hpc =>
      refine inv.same rfl rfl rfl ?_
      split <;> simp [hpc, Pc.asking]

end Filtered

theorem filtered_run {low high : Nat} {s next : System T ι} {as : List (Label T)}
    (fresh : s.Fresh) (start : Between low high s.handle.level)
    (levels : ∀ level, .setLevel level ∈ as → Between low high level)
    (h : run (step encode) s as = some next) :
    Filtered low high next (as.filterMap Label.logged) := by
  have first : Filtered low high s [] := by
    refine ⟨start, ?_, ?_, ?_⟩
    · simp [fresh.accepted]
    · simp [fresh.accepted, fresh.idle, Pc.asking]
    · simp [fresh.accepted, fresh.idle, Pc.asking]
  have meets : Machine.Meets (step encode)
      (fun _ a => ∀ level, a = .setLevel level → Between low high level) s as :=
    Machine.meets_of_forall fun a ha level hlevel => levels level (hlevel ▸ ha)
  have last := Machine.run_invariant_outputs (fun _ a => Label.logged a)
    (fun _ _ _ _ inv guard hstep => Filtered.step inv guard hstep) first meets h
  rwa [List.nil_append, Machine.outputs_of_run Label.logged h] at last

/-- The level in the middle of other calls. While every level of the handle is between `low` and
`high`, what a sink receives from a thread that has returned is among the messages that the thread
logged, in their order; no message below `low` is there, and every message from `high` on is. -/
theorem sharedHandle_filters {low high k : Nat} {s next : System T ι} {as : List (Label T)}
    {sink : LockedBuffer.Sink T ι} (fresh : s.Fresh) (start : Between low high s.handle.level)
    (levels : ∀ level, .setLevel level ∈ as → Between low high level)
    (h : run (step encode) s as = some next) (hsink : s.handle.sinks[k]? = some sink) :
    ∃ sink' order, next.handle.sinks[k]? = some sink' ∧
      sink'.writtenItems ++ sink'.unwritten =
        sink.pushed ++ order.filterMap (fun p => encode k p.2) ∧
      ∀ t, next.pc t = .idle →
        (own t order).Sublist (own t (as.filterMap Label.logged)) ∧
        (∀ msg ∈ own t order, low ≤ msg.level.toNat) ∧
        (own t order).filter (reaches high) =
          (own t (as.filterMap Label.logged)).filter (reaches high) := by
  obtain ⟨sink', hsink', inv⟩ := delivered_run (delivered_fresh fresh hsink) hsink h
  obtain ⟨order, hitems, settled⟩ := inv.items
  have filtered := filtered_run fresh start levels h
  refine ⟨sink', order, hsink', hitems, ?_⟩
  intro t idle
  have accepted : own t order = own t next.accepted := by
    refine settled.own_eq ?_
    rw [System.waiting, idle]
    rfl
  have sublist := filtered.sublist t
  have all := filtered.all t
  simp only [idle, Pc.asking, Option.toList_none, List.append_nil] at sublist all
  rw [accepted]
  refine ⟨sublist, ?_, all⟩
  intro msg hmsg
  exact filtered.low (t, msg) (Shuffle.mem_own.mp hmsg)

/-- `SetLevel` between the two calls of a thread. -/
def demoLevels : List (Label Bool) :=
  .log true (demoMsg .kInfo) :: List.replicate 6 (.thread true false) ++
    [.log true (demoMsg .kInfo), .setLevel .kError, .thread true false]

theorem sharedHandle_filters_demoLevels :
    ∃ next sink' order, run (step demoEncode) demoSystem demoLevels = some next ∧
      next.handle.sinks[0]? = some sink' ∧
      sink'.writtenItems ++ sink'.unwritten = order.filterMap (fun p => demoEncode 0 p.2) ∧
      (own true order).Sublist [demoMsg .kInfo, demoMsg .kInfo] ∧
      ∀ msg ∈ own true order, 2 ≤ msg.level.toNat := by
  have returned : (run (step demoEncode) demoSystem demoLevels).map (fun s => s.pc true) =
      some .idle := by
    decide +kernel
  obtain ⟨next, hrun, idle⟩ := Option.map_eq_some_iff.mp returned
  have levels : ∀ level, .setLevel level ∈ demoLevels → Between 2 4 level := by
    intro level hlevel
    obtain rfl : level = .kError := by simpa [demoLevels] using hlevel
    exact ⟨by decide, by decide⟩
  obtain ⟨sink', order, hsink', hitems, shares⟩ :=
    sharedHandle_filters (k := 0) demoSystem_fresh ⟨by decide, by decide⟩ levels hrun rfl
  obtain ⟨sublist, low, -⟩ := shares true idle
  exact ⟨next, sink', order, hrun, hsink', hitems, sublist, low⟩

end FlashLog.Handler.Shared
