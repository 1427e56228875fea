import Mathlib.Logic.Function.Iterate
import FlashLog.Scheduler.RepeatedRuns

/-!
What a repeated task posts. `Scheduler::PostRepeatedTask` keeps the callable and its arguments in
a closure, and each run of the closure forwards them through `PostTask` to `std::bind` in
`AddTask`: a callable given as a temporary and arguments kept by value are moved out of the
closure by its first run, and later runs post what the move has left there.

Between two runs `PostRepeatedTask_` hands the closure on inside a `std::function`, whose moves
and copies leave the closure's state as it is.
-/

set_option autoImplicit false
set_option relaxedAutoImplicit false

namespace FlashLog.Scheduler.RepeatedCall

open FlashLog.Scheduler.Timer (Repeated RepeatedTaskId toNat_pred)

abbrev ExecutorTag := UInt64

/-- What may become of the object that an expression names: an rvalue may be moved from. -/
inductive Category
  | lvalue
  | rvalue
  deriving DecidableEq

/-- The object that is made from an expression, and what is left of the one it names. -/
def construct {α : Type} (movedFrom : α → α) : Category → α → α × α
  | .lvalue, x => (x, x)
  | .rvalue, x => (x, movedFrom x)

/-- An element of `args_tuple`: `std::make_tuple` stores values, and for `std::ref` references;
of these the referent is given. -/
inductive Element (ν : Type)
  | value (v : ν)
  | reference (v : ν)
  deriving DecidableEq

/-- What `std::bind` has stored in the executor's task. -/
structure Call (φ ν : Type) where
  tag : ExecutorTag
  func : φ
  args : List ν
  deriving DecidableEq

/-- The captures of the lambda in `PostRepeatedTask`; `callable` is what its `F` is for. -/
structure Closure (φ ν : Type) where
  tag : ExecutorTag
  callable : Category
  func : φ
  argsTuple : List (Element ν)
  deriving DecidableEq

variable {φ ν : Type}

def Element.get : Element ν → ν
  | .value v | .reference v => v

/-- `std::get` of a moved tuple. -/
def Element.category : Element ν → Category
  | .value _ => .rvalue
  | .reference _ => .lvalue

def Element.set : Element ν → ν → Element ν
  | .value _, v => .value v
  | .reference _, v => .reference v

section Runs

variable (movedFunc : φ → φ) (movedArg : ν → ν)

/-- `AddTask`: what `std::bind` stores, and what it leaves of the function and the arguments. -/
def addTask (func : Category × φ) (args : List (Category × ν)) : (φ × List ν) × (φ × List ν) :=
  let func := construct movedFunc func.1 func.2
  let args := args.map fun arg => construct movedArg arg.1 arg.2
  ((func.1, args.map Prod.fst), (func.2, args.map Prod.snd))

/-- `PostTask` forwards to `AddTask` of the executor under the tag. -/
def postTask (tag : ExecutorTag) (func : Category × φ) (args : List (Category × ν)) :
    Call φ ν × (φ × List ν) :=
  let (stored, left) := addTask movedFunc movedArg func args
  (⟨tag, stored.1, stored.2⟩, left)

/-- The body of the lambda: `std::apply` of the moved tuple to `PostTask`. -/
def Closure.run (c : Closure φ ν) : Call φ ν × Closure φ ν :=
  let (call, left) := postTask movedFunc movedArg c.tag (c.callable, c.func)
    (c.argsTuple.map fun e => (e.category, e.get))
  (call, { c with func := left.1, argsTuple := c.argsTuple.zipWith Element.set left.2 })

/-- `PostRepeatedTask_` of an id that is not cancelled: the call posted by `task()`, and what is
bound for the next time. -/
def postRepeatedTask_ (r : Repeated (Closure φ ν)) :
    Option (Call φ ν × Repeated (Closure φ ν)) :=
  if r.repeatNum = 0 then none
  else
    let (call, task) := r.task.run movedFunc movedArg
    some (call, { r with task := task, repeatNum := r.repeatNum - 1 })

/-- What the run with this number posts, counted from zero. -/
def kthRun : Nat → Repeated (Closure φ ν) → Option (Call φ ν)
  | 0, r => (postRepeatedTask_ movedFunc movedArg r).map Prod.fst
  | k + 1, r => (postRepeatedTask_ movedFunc movedArg r).bind fun p => kthRun k p.2

end Runs

/-- `PostRepeatedTask`: the closure and the arguments of `PostRepeatedTask_`. -/
def postRepeatedTask (tag : ExecutorTag) (delta : Int) (id : RepeatedTaskId) (repeatNum : UInt64)
    (callable : Category) (func : φ) (args : List (Element ν)) : Repeated (Closure φ ν) :=
  ⟨⟨tag, callable, func, args⟩, delta, id, repeatNum⟩

def Closure.given (c : Closure φ ν) : Call φ ν := ⟨c.tag, c.func, c.argsTuple.map Element.get⟩

section Left

variable (movedFunc : φ → φ) (movedArg : ν → ν)

def Element.left : Element ν → Element ν
  | .value v => .value (movedArg v)
  | .reference v => .reference v

def Closure.left (c : Closure φ ν) : Closure φ ν :=
  { c with
    func := (construct movedFunc c.callable c.func).2
    argsTuple := c.argsTuple.map (Element.left movedArg) }

/-- Moving changes neither the callable, if it may be moved, nor an argument kept by value. -/
def Closure.Unmoved (c : Closure φ ν) : Prop :=
  (c.callable = .rvalue → movedFunc c.func = c.func) ∧
    ∀ v, .value v ∈ c.argsTuple → movedArg v = v

theorem construct_fst (movedFrom : ν → ν) (category : Category) (v : ν) :
    (construct movedFrom category v).1 = v := by
  cases category <;> rfl

theorem Element.set_left (e : Element ν) :
    e.set (construct movedArg e.category e.get).2 = e.left movedArg := by
  cases e <;> rfl

theorem Closure.run_eq (c : Closure φ ν) :
    c.run movedFunc movedArg = (c.given, c.left movedFunc movedArg) := by
  have left : c.argsTuple.zipWith Element.set
      (c.argsTuple.map fun e => (construct movedArg e.category e.get).2) =
        c.argsTuple.map (Element.left movedArg) := by
    rw [List.zipWith_map_right, List.zipWith_self]
    exact List.map_congr_left fun e _ => Element.set_left movedArg e
  simp only [Closure.run, postTask, addTask, List.map_map, Function.comp_def, construct_fst,
    left, Closure.given, Closure.left]

theorem Element.left_eq_iff (e : Element ν) :
    e.left movedArg = e ↔ ∀ v, e = .value v → movedArg v = v := by
  cases e <;> simp [Element.left]

theorem Element.get_left_eq_iff (e : Element ν) :
    (e.left movedArg).get = e.get ↔ e.left movedArg = e := by
  cases e <;> simp [Element.left, Element.get]

theorem Closure.left_eq_iff (c : Closure φ ν) :
    c.left movedFunc movedArg = c ↔ c.Unmoved movedFunc movedArg := by
  have func : (construct movedFunc c.callable c.func).2 = c.func ↔
      (c.callable = .rvalue → movedFunc c.func = c.func) := by
    cases c.callable <;> simp [construct]
  have args : c.argsTuple.map (Element.left movedArg) = c.argsTuple ↔
      ∀ v, .value v ∈ c.argsTuple → movedArg v = v := by
    rw [← List.map_id c.argsTuple, List.map_map, List.map_inj_left, List.map_id]
    simp only [Function.comp_id, id, Element.left_eq_iff]
    exact ⟨fun h v hv => h _ hv v rfl, fun h e he v hev => h v (hev ▸ he)⟩
  rw [Closure.Unmoved, ← func, ← args]
  constructor
  · intro same
    exact ⟨congrArg Closure.func same, congrArg Closure.argsTuple same⟩
  · rintro ⟨sameFunc, sameArgs⟩
    simp only [Closure.left, sameFunc, sameArgs]

theorem Closure.given_left_iff (c : Closure φ ν) :
    (c.left movedFunc movedArg).given = c.given ↔ c.left movedFunc movedArg = c := by
  constructor
  · intro same
    have func : (construct movedFunc c.callable c.func).2 = c.func := congrArg Call.func same
    have gets : (c.argsTuple.map (Element.left movedArg)).map Element.get =
        c.argsTuple.map Element.get := congrArg Call.args same
    have args : c.argsTuple.map (Element.left movedArg) = c.argsTuple := by
      rw [List.map_map, List.map_inj_left] at gets
      have each : ∀ e ∈ c.argsTuple, e.left movedArg = id e :=
        fun e he => (Element.get_left_eq_iff movedArg e).mp (gets e he)
      rw [List.map_congr_left each, List.map_id]
    simp only [Closure.left, func, args]
  · intro same
    rw [same]

theorem postRepeatedTask_zero {r : Repeated (Closure φ ν)} (zero : r.repeatNum = 0) :
    postRepeatedTask_ movedFunc movedArg r = none := if_pos zero

theorem postRepeatedTask_due {r : Repeated (Closure φ ν)} (due : r.repeatNum ≠ 0) :
    postRepeatedTask_ movedFunc movedArg r = some (r.task.given,
      { r with task := r.task.left movedFunc movedArg, repeatNum := r.repeatNum - 1 }) := by
  simp only [postRepeatedTask_, if_neg due, Closure.run_eq]

theorem kthRun_eq (k : Nat) (r : Repeated (Closure φ ν)) :
    kthRun movedFunc movedArg k r =
      if k < r.repeatNum.toNat then some ((Closure.left movedFunc movedArg)^[k] r.task).given
      else none := by
  induction k generalizing r with
  | zero =>
    by_cases zero : r.repeatNum = 0
    · simp [kthRun, postRepeatedTask_zero movedFunc movedArg zero, zero]
    · have pos : 0 < r.repeatNum.toNat := by
        have down := toNat_pred zero
        omega
      simp [kthRun, postRepeatedTask_due movedFunc movedArg zero, pos]
  | succ k ih =>
    by_cases zero : r.repeatNum = 0
    · simp [kthRun, postRepeatedTask_zero movedFunc movedArg zero, zero]
    · have down : (r.repeatNum - 1).toNat + 1 = r.repeatNum.toNat := toNat_pred zero
      have same : k < (r.repeatNum - 1).toNat ↔ k + 1 < r.repeatNum.toNat := by omega
      rw [kthRun, postRepeatedTask_due movedFunc movedArg zero, Option.bind_some, ih]
      simp only [same, Function.iterate_succ_apply]

end Left

/-- Every run of a repeated task posts the call that was given exactly when there is one run at
most, or moving changes neither the callable, given as a temporary, nor an argument kept by
value. -/
theorem repeatedCall_same_iff (movedFunc : φ → φ) (movedArg : ν → ν) (tag : ExecutorTag)
    (delta : Int) (id : RepeatedTaskId) (repeatNum : UInt64) (callable : Category) (func : φ)
    (args : List (Element ν)) :
    (∀ k < repeatNum.toNat,
      kthRun movedFunc movedArg k
          (postRepeatedTask tag delta id repeatNum callable func args) =
        some ⟨tag, func, args.map Element.get⟩) ↔
      repeatNum.toNat ≤ 1 ∨
        (callable = .rvalue → movedFunc func = func) ∧ ∀ v, .value v ∈ args → movedArg v = v := by
  let c : Closure φ ν := ⟨tag, callable, func, args⟩
  have unmoved : c.left movedFunc movedArg = c ↔
      (callable = .rvalue → movedFunc func = func) ∧ ∀ v, .value v ∈ args → movedArg v = v :=
    Closure.left_eq_iff movedFunc movedArg c
  rw [← unmoved]
  simp only [kthRun_eq, postRepeatedTask]
  constructor
  · intro same
    by_cases few : repeatNum.toNat ≤ 1
    · exact Or.inl few
    · have second := same 1 (by omega)
      rw [if_pos (by omega)] at second
      exact Or.inr ((Closure.given_left_iff movedFunc movedArg c).mp (Option.some.inj second))
  · rintro (few | same) k hk
    · obtain rfl : k = 0 := by omega
      rw [if_pos hk]
      rfl
    · rw [if_pos hk, Function.iterate_fixed same]
      rfl

/-- A moved `std::string` is empty: the second run of a lambda that has captured one posts it with
the empty string. -/
theorem movedCapture_lost :
    kthRun (fun _ => "") (fun v : String => v) 1
        (postRepeatedTask 7 500 0 2 .rvalue "flush" []) = some ⟨7, "", []⟩ ∧
      ¬ ∀ k < (2 : UInt64).toNat,
        kthRun (fun _ => "") (fun v : String => v) k
          (postRepeatedTask 7 500 0 2 .rvalue "flush" []) = some ⟨7, "flush", []⟩ := by
  refine ⟨rfl, fun same => ?_⟩
  exact absurd (same 1 (by decide)) (by decide)

end FlashLog.Scheduler.RepeatedCall
