import FlashLog.Support.Machine

/-!
A strand: work is posted at the end of a queue and run one item at a time from its front.
Items start in the order of the posts, each after the one before it has finished.
-/

set_option autoImplicit false
set_option relaxedAutoImplicit false

namespace FlashLog.Support.Strand

open FlashLog.Support.Machine

universe u

structure State (α : Type u) where
  posted : List α
  queue : List α
  current : Option α
  started : List α
  finished : List α

inductive Move (α : Type u)
  | post (x : α)
  | start (x : α)
  | finish (x : α)

variable {α : Type u}

def empty : State α := ⟨[], [], none, [], []⟩

inductive Moved (s : State α) : Move α → State α → Prop
  | post (x : α) : Moved s (.post x) { s with posted := s.posted ++ [x], queue := s.queue ++ [x] }
  | start (x : α) (rest : List α) : s.current = none → s.queue = x :: rest →
      Moved s (.start x) { s with
        queue := rest, current := some x, started := s.started ++ [x] }
  | finish (x : α) : s.current = some x →
      Moved s (.finish x) { s with current := none, finished := s.finished ++ [x] }

def State.post (s : State α) (x : α) : State α :=
  { s with posted := s.posted ++ [x], queue := s.queue ++ [x] }

def State.start (s : State α) : Option (State α) :=
  match s.current, s.queue with
  | none, x :: rest =>
    some { s with queue := rest, current := some x, started := s.started ++ [x] }
  | _, _ => none

def State.finish (s : State α) : Option (State α) :=
  s.current.map fun x => { s with current := none, finished := s.finished ++ [x] }

/-- Finished items, the running one and the waiting ones make up what was posted. -/
structure State.InOrder (s : State α) : Prop where
  posts : s.posted = s.started ++ s.queue
  starts : s.started = s.finished ++ s.current.toList

theorem empty_inOrder : (empty : State α).InOrder := ⟨rfl, rfl⟩

theorem moved_inOrder {s next : State α} {m : Move α} (inv : s.InOrder) (h : Moved s m next) :
    next.InOrder := by
  obtain ⟨posts, starts⟩ := inv
  cases h with
  | post x =>
    refine ⟨?_, starts⟩
    show s.posted ++ [x] = s.started ++ (s.queue ++ [x])
    rw [posts, List.append_assoc]
  | start x rest idle front =>
    constructor
    · show s.posted = s.started ++ [x] ++ rest
      rw [posts, front, List.append_assoc]
      rfl
    · show s.started ++ [x] = s.finished ++ [x]
      rw [starts, idle]
      simp
  | finish x running =>
    refine ⟨posts, ?_⟩
    show s.started = s.finished ++ [x] ++ []
    rw [starts, running, List.append_nil]
    rfl

theorem moved_started {s next : State α} {m : Move α} (h : Moved s m next) :
    s.started <+: next.started := by
  cases h with
  | post x | finish x running => exact List.prefix_rfl
  | start x rest idle front => exact List.prefix_append s.started [x]

theorem State.InOrder.started_prefix {s : State α} (inv : s.InOrder) :
    s.started <+: s.posted :=
  ⟨s.queue, inv.posts.symm⟩

theorem State.InOrder.before_finished {s : State α} (inv : s.InOrder) {i j : Nat} (hij : i < j)
    {x : α} (hx : s.posted[i]? = some x) (hj : j < s.started.length) : x ∈ s.finished := by
  have atMostOne : s.current.toList.length ≤ 1 := by cases s.current <;> simp
  have hlength : s.started.length = s.finished.length + s.current.toList.length := by
    rw [inv.starts, List.length_append]
  have hi : i < s.finished.length := by omega
  rw [inv.posts, inv.starts, List.append_assoc, List.getElem?_append_left hi] at hx
  exact List.mem_of_getElem? hx

end FlashLog.Support.Strand
