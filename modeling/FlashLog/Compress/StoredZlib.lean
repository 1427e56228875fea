import FlashLog.Compress.ZlibCompress

/-!
A zlib whose `deflate` stores its input in uncompressed blocks, and whose `inflate` knows one
stream, that of the single byte `A`.
-/

set_option autoImplicit false
set_option relaxedAutoImplicit false

namespace FlashLog.Compress.StoredZlib

open FlashLog.Support

def block (bs : Bytes) : Bytes :=
  0 :: Bytes.ofNatLE 2 bs.length ++ Bytes.ofNatLE 2 (65535 - bs.length) ++ bs

/-- A deflate stream: whether its header is written, what did not fit into the last output, and
whether the last call wrote everything. -/
structure Writer where
  started : Bool
  pending : Bytes
  flushed : Bool

/-- All that a flush of at most one block has to write. -/
def Writer.flush (w : Writer) (input : Bytes) : Bytes :=
  w.pending ++ (if w.started then [] else [0x78, 0xda]) ++
    (if input = [] then [] else block (input.take 65535)) ++ block []

def deflate (w : Writer) (input : Bytes) (room : Nat) : ZlibCall Writer :=
  if room = 0 ∨ input = [] ∧ w.flushed = true then ⟨.bufError, 0, [], w⟩
  else
    { ret := .ok
      consumed := min input.length 65535
      output := (w.flush input).take room
      next := ⟨true, (w.flush input).drop room, decide ((w.flush input).length < room)⟩ }

def streamA : Bytes := [0x78, 0x01, 0x01, 0x01, 0x00, 0xfe, 0xff, 0x41, 0x00, 0x42, 0x00, 0x42]

/-- The byte `A` comes out with the input that it is in, four bytes before the end. -/
def decoded (missing : Bytes) (consumed : Nat) : Bytes :=
  if 4 < missing.length ∧ missing.length ≤ consumed + 4 then [0x41] else []

/-- An inflate stream is what it still misses, or has met something else. -/
def inflate (stream : Option Bytes) (input : Bytes) (room : Nat) : ZlibCall (Option Bytes) :=
  match stream with
  | none => ⟨.failed, 0, [], none⟩
  | some missing =>
    if missing = [] then ⟨.streamEnd, 0, [], some []⟩
    else if room = 0 ∨ input = [] then ⟨.bufError, 0, [], some missing⟩
    else if missing <+: input then
      ⟨.streamEnd, missing.length, decoded missing missing.length, some []⟩
    else if input <+: missing then
      ⟨.ok, input.length, decoded missing input.length, some (missing.drop input.length)⟩
    else ⟨.failed, 0, [], none⟩

def zlib : Zlib where
  DeflateStream := Writer
  InflateStream := Option Bytes
  deflateInit2 := ⟨false, [], false⟩
  inflateInit2 := some streamA
  deflate := deflate
  inflate := inflate

theorem inflate_ok {stream : Option Bytes} {input : Bytes} {room : Nat}
    (h : (inflate stream input room).ret = .ok) :
    ∃ missing, stream = some missing ∧ input ≠ [] ∧ ¬ missing <+: input ∧ input <+: missing ∧
      inflate stream input room =
        ⟨.ok, input.length, decoded missing input.length, some (missing.drop input.length)⟩ := by
  cases stream with
  | none => cases h
  | some missing =>
    simp only [inflate] at h ⊢
    split at h
    · cases h
    split at h
    · cases h
    split at h
    · cases h
    split at h
    · rename_i more ready open_ part
      refine ⟨missing, rfl, fun empty => ready (Or.inr empty), open_, part, ?_⟩
      rw [if_neg more, if_neg ready, if_neg open_, if_pos part]
    · cases h

def inflation : zlib.Inflation where
  completes := fun stream bs => stream = some bs
  held := fun _ => 0
  completes_unique := by
    intro stream bs more h h'
    have same := Option.some.inj (h.symm.trans h')
    exact List.self_eq_append_right.mp same
  consumed_le := by
    intro stream input room
    show (inflate stream input room).consumed ≤ input.length
    cases stream with
    | none => exact Nat.zero_le _
    | some missing =>
      simp only [inflate]
      split
      · exact Nat.zero_le _
      split
      · exact Nat.zero_le _
      split
      · rename_i whole
        exact whole.length_le
      split
      · exact Nat.le_refl _
      · exact Nat.zero_le _
  progress := by
    intro stream input room h
    obtain ⟨missing, -, filled, -, -, heq⟩ := inflate_ok h
    show 0 < (inflate stream input room).consumed ∨ _
    rw [heq]
    exact Or.inl (List.length_pos_iff.mpr filled)
  held_output := by
    intro stream input room h idle
    obtain ⟨missing, -, filled, -, -, heq⟩ := inflate_ok h
    have took : (inflate stream input room).consumed = 0 := idle
    rw [heq] at took
    exact absurd (List.length_eq_zero_iff.mp took) filled
  within := by
    intro stream input room k h completes
    obtain ⟨missing, rfl, -, open_, -, -⟩ := inflate_ok h
    obtain rfl := Option.some.inj completes
    exact absurd (List.take_prefix k input) open_
  rest := by
    intro stream input room bs h
    obtain ⟨missing, rfl, -, -, part, heq⟩ := inflate_ok h
    obtain ⟨rest, rfl⟩ := part
    show (inflate _ input room).next = some bs ↔
      _ = some (input.take (inflate _ input room).consumed ++ bs)
    rw [heq]
    simp only [List.drop_left, List.take_length, Option.some.injEq, List.append_cancel_left_eq]
  ended := by
    intro stream input room h
    have ret : (inflate stream input room).ret = .streamEnd := h
    show stream = some (input.take (inflate stream input room).consumed) ∧
      (inflate stream input room).next = some []
    cases stream with
    | none => cases ret
    | some missing =>
      simp only [inflate] at ret ⊢
      split
      · rename_i done
        exact ⟨by rw [done, List.take_zero], rfl⟩
      rename_i more
      rw [if_neg more] at ret
      split
      · rename_i stuck
        rw [if_pos stuck] at ret
        cases ret
      rename_i ready
      rw [if_neg ready] at ret
      split
      · rename_i whole
        exact ⟨congrArg some (List.prefix_iff_eq_take.mp whole), rfl⟩
      rename_i open_
      rw [if_neg open_] at ret
      split at ret <;> cases ret
  accepted := by
    intro stream input room k filled roomy completes
    obtain rfl : stream = some (input.take k) := completes
    show (inflate _ input room).ret = .ok ∨ (inflate _ input room).ret = .streamEnd
    refine Or.inr ?_
    have ready : ¬ (room = 0 ∨ input = []) :=
      fun stuck => stuck.elim (Nat.ne_of_gt roomy) filled
    simp only [inflate, if_neg ready, if_pos (List.take_prefix k input)]
    split <;> rfl

def deflation : zlib.Deflation where
  flushed := fun w => w.flushed = true
  bufError_iff := by
    intro (w : Writer) input room
    show (deflate w input room).ret = .bufError ↔ _
    rw [deflate]
    split
    · rename_i stuck
      exact ⟨fun _ => stuck, fun _ => rfl⟩
    · rename_i ready
      exact ⟨fun h => (by cases h), fun stuck => absurd stuck ready⟩
  unchanged := by
    intro (w : Writer) input room h
    have ret : (deflate w input room).ret = .bufError := h
    show (deflate w input room).next = w ∧ (deflate w input room).consumed = 0 ∧
      (deflate w input room).output = []
    rw [deflate] at ret ⊢
    split at ret
    · rename_i stuck
      rw [if_pos stuck]
      exact ⟨rfl, rfl, rfl⟩
    · cases ret
  not_flushed_init := Bool.false_ne_true
  flushes := by
    intro (w : Writer) input room h
    have ret : (deflate w input room).ret = .ok := h
    show (deflate w input room).next.flushed = true ↔ (deflate w input room).output.length < room
    rw [deflate] at ret ⊢
    split at ret
    · cases ret
    · rename_i ready
      rw [if_neg ready]
      simp only [decide_eq_true_eq, List.length_take]
      omega

/-- The first flush of an empty input writes the header and an empty block. -/
example : (deflate ⟨false, [], false⟩ [] 16).output = [0x78, 0xda, 0, 0, 0, 0xff, 0xff] := by
  decide

end FlashLog.Compress.StoredZlib
