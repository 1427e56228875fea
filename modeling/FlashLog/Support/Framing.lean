import Mathlib.Algebra.Ring.Nat
import Mathlib.Data.List.Basic

/-!
Sequences of framed values: each value stands behind a header of fixed length that
names the value's length.
-/

set_option autoImplicit false
set_option relaxedAutoImplicit false

namespace FlashLog.Support

universe u

/-- Headers of a fixed positive length that can be read back, whatever follows them. -/
structure Framing (α : Type u) where
  headerLength : Nat
  headerLength_pos : 0 < headerLength
  /-- the lengths that a header can name -/
  bound : Nat
  header : Nat → List α
  read : List α → Option Nat
  length_header : ∀ n, (header n).length = headerLength
  read_header : ∀ n rest, n < bound → read (header n ++ rest) = some n

namespace Framing

variable {α : Type u} (F : Framing α)

def frame (value : List α) : List α := F.header value.length ++ value

def frames (values : List (List α)) : List α := values.flatMap F.frame

/-- Read whole frames until nothing is left. -/
def parse (bs : List α) : Option (List (List α)) :=
  if _h : bs = [] then some []
  else
    match F.read bs with
    | none => none
    | some n =>
      let rest := bs.drop F.headerLength
      if rest.length < n then none else (parse (rest.drop n)).map (rest.take n :: ·)
termination_by bs.length
decreasing_by
  have hpos := F.headerLength_pos
  have hbs : 0 < bs.length := List.length_pos_of_ne_nil _h
  simp only [List.length_drop]
  omega

section Lengths

@[simp] theorem frames_nil : F.frames [] = [] := rfl

theorem frames_cons (value : List α) (values : List (List α)) :
    F.frames (value :: values) = F.header value.length ++ (value ++ F.frames values) := by
  rw [frames, List.flatMap_cons, frame, List.append_assoc]
  rfl

theorem frames_append (values values' : List (List α)) :
    F.frames (values ++ values') = F.frames values ++ F.frames values' :=
  List.flatMap_append

theorem frames_flatten (groups : List (List (List α))) :
    F.frames groups.flatten = groups.flatMap F.frames := by
  induction groups with
  | nil => rfl
  | cons group groups ih => rw [List.flatten_cons, frames_append, ih, List.flatMap_cons]

theorem frames_singleton (value : List α) : F.frames [value] = F.header value.length ++ value := by
  rw [frames_cons, frames_nil, List.append_nil]

theorem length_frames_cons (value : List α) (values : List (List α)) :
    (F.frames (value :: values)).length =
      F.headerLength + value.length + (F.frames values).length := by
  rw [frames_cons, List.length_append, List.length_append, F.length_header]
  omega

theorem length_frames (values : List (List α)) :
    (F.frames values).length = (values.map fun value => F.headerLength + value.length).sum := by
  induction values with
  | nil => rfl
  | cons value values ih =>
    rw [length_frames_cons, List.map_cons, List.sum_cons, ih]

theorem length_lt_of_mem {values : List (List α)} {value : List α} (h : value ∈ values) {n : Nat}
    (hn : (F.frames values).length < n) : value.length < n := by
  induction values with
  | nil => cases h
  | cons head rest ih =>
    rw [length_frames_cons] at hn
    rcases List.mem_cons.mp h with rfl | hrest
    · omega
    · exact ih hrest (by omega)

end Lengths

section Parse

theorem parse_nil : F.parse [] = some [] := by
  rw [parse, dif_pos rfl]

private theorem frame_ne_nil (n : Nat) (rest : List α) : F.header n ++ rest ≠ [] := by
  intro hnil
  have hlen := congrArg List.length hnil
  have hpos := F.headerLength_pos
  rw [List.length_append, F.length_header, List.length_nil] at hlen
  omega

theorem parse_cons {value : List α} (hvalue : value.length < F.bound) (rest : List α) :
    F.parse (F.header value.length ++ (value ++ rest)) = (F.parse rest).map (value :: ·) := by
  have hdrop : (F.header value.length ++ (value ++ rest)).drop F.headerLength = value ++ rest :=
    List.drop_left' (F.length_header _)
  have henough : ¬ (value ++ rest).length < value.length := by
    rw [List.length_append]
    omega
  rw [parse, dif_neg (F.frame_ne_nil _ _), F.read_header _ _ hvalue]
  simp only [hdrop, if_neg henough, List.drop_left, List.take_left]

theorem parse_frames_append {values : List (List α)} (hvalues : ∀ v ∈ values, v.length < F.bound)
    (rest : List α) :
    F.parse (F.frames values ++ rest) = (F.parse rest).map (values ++ ·) := by
  induction values with
  | nil => simp
  | cons value values ih =>
    have hrest := ih fun v hv => hvalues v (List.mem_cons_of_mem _ hv)
    rw [frames_cons, List.append_assoc, List.append_assoc,
      F.parse_cons (hvalues value List.mem_cons_self), hrest, Option.map_map]
    rfl

theorem parse_frames {values : List (List α)} (hvalues : ∀ v ∈ values, v.length < F.bound) :
    F.parse (F.frames values) = some values := by
  have hparse := F.parse_frames_append hvalues []
  rw [List.append_nil, parse_nil, Option.map_some, List.append_nil] at hparse
  exact hparse

theorem parse_frames_of_lt {values : List (List α)} (h : (F.frames values).length < F.bound) :
    F.parse (F.frames values) = some values :=
  F.parse_frames fun _ hv => F.length_lt_of_mem hv h

theorem parse_dangling {n : Nat} (hn : n < F.bound) (hpos : 0 < n) :
    F.parse (F.header n) = none := by
  have hread := F.read_header n [] hn
  have hdrop : (F.header n).drop F.headerLength = [] :=
    List.drop_of_length_le (Nat.le_of_eq (F.length_header n))
  have hne := F.frame_ne_nil n []
  rw [List.append_nil] at hread hne
  rw [parse, dif_neg hne, hread]
  simp only [hdrop, List.length_nil, if_pos hpos]

end Parse

end Framing

end FlashLog.Support
