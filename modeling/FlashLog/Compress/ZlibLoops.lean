import FlashLog.Compress.StoredZlib

/-!
When the two loops of `ZlibCompress` end. `Decompress` goes on while there is input, also behind
the end of the stream, where `inflate` takes no more of it; `Compress` repeats a call that made
no progress with the same buffers.
-/

set_option autoImplicit false
set_option relaxedAutoImplicit false

namespace FlashLog.Compress.ZlibCompress

open FlashLog.Support
open FlashLog.Support.Loop (loop AllReturn AllMeet allReturn_iff_allMeet Ends ends_of_measure
  ends_iff_isSome ends_of_result not_ends_of_trap)

variable {z : Zlib}

section Decompress

variable (inflation : z.Inflation)

def Overruns (stream : z.InflateStream) (input : Bytes) : Prop :=
  ∃ k < input.length, inflation.completes stream (input.take k)

variable {inflation}

theorem decompressRound_next {w : ZStream z.InflateStream} (filled : w.nextIn ≠ [])
    (h : (z.inflate w.stream w.nextIn 4096).ret = .ok ∨
      (z.inflate w.stream w.nextIn 4096).ret = .streamEnd) :
    decompressRound z w = .inl (w.after (z.inflate w.stream w.nextIn 4096)) := by
  rw [decompressRound, if_neg fun empty => filled (List.isEmpty_iff.mp empty)]
  rcases h with ok | streamEnd
  · simp only [ok]
  · simp only [streamEnd]

theorem decompressRound_inl {w next : ZStream z.InflateStream}
    (h : decompressRound z w = .inl next) :
    w.nextIn ≠ [] ∧ next = w.after (z.inflate w.stream w.nextIn 4096) ∧
      ((z.inflate w.stream w.nextIn 4096).ret = .ok ∨
        (z.inflate w.stream w.nextIn 4096).ret = .streamEnd) := by
  rw [decompressRound] at h
  split at h
  · cases h
  · rename_i filled
    refine ⟨fun empty => filled (List.isEmpty_iff.mpr empty), ?_⟩
    dsimp only at h
    split at h
    · rename_i ok
      exact ⟨(Sum.inl.inj h).symm, Or.inl ok⟩
    · rename_i streamEnd
      exact ⟨(Sum.inl.inj h).symm, Or.inr streamEnd⟩
    all_goals cases h

theorem decompressRound_lowers {w next : ZStream z.InflateStream}
    (lasts : ¬ Overruns inflation w.stream w.nextIn) (h : decompressRound z w = .inl next) :
    ¬ Overruns inflation next.stream next.nextIn ∧
      Prod.Lex (· < ·) (· < ·) (next.nextIn.length, inflation.held next.stream)
        (w.nextIn.length, inflation.held w.stream) := by
  obtain ⟨filled, rfl, ret⟩ := decompressRound_inl h
  have some_left : 0 < w.nextIn.length := List.length_pos_iff.mpr filled
  rcases ret with ok | streamEnd
  · constructor
    · rintro ⟨k, hk, completes⟩
      have within : k < (w.nextIn.drop _).length := hk
      rw [List.length_drop] at within
      have whole := (inflation.rest _ _ _ _ ok).mp completes
      rw [ZStream.after, ← List.take_add] at whole
      exact lasts ⟨_, by omega, whole⟩
    · rcases Nat.eq_zero_or_pos (z.inflate w.stream w.nextIn 4096).consumed with idle | took
      · have written := (inflation.progress _ _ _ ok).resolve_left (by omega)
        have held := inflation.held_output _ _ _ ok idle
        have pos := List.length_pos_iff.mpr written
        simp only [ZStream.after, idle, List.drop_zero]
        exact .right _ (by omega)
      · simp only [ZStream.after, List.length_drop]
        exact .left _ _ (by omega)
  · have taken := inflation.consumed_le w.stream w.nextIn 4096
    have all : w.nextIn.length ≤ (z.inflate w.stream w.nextIn 4096).consumed :=
      Nat.le_of_not_lt fun early => lasts ⟨_, early, (inflation.ended _ _ _ streamEnd).1⟩
    have empty : w.nextIn.drop (z.inflate w.stream w.nextIn 4096).consumed = [] :=
      List.drop_eq_nil_of_le all
    simp only [ZStream.after, empty, Overruns, List.length_nil]
    exact ⟨fun ⟨k, hk, _⟩ => Nat.not_lt_zero k hk, .left _ _ some_left⟩

/-- Before and behind the end of the stream, a round goes on in front of the same end. -/
theorem decompressRound_stays {w : ZStream z.InflateStream}
    (overruns : Overruns inflation w.stream w.nextIn) :
    ∃ next, decompressRound z w = .inl next ∧ Overruns inflation next.stream next.nextIn := by
  obtain ⟨k, hk, completes⟩ := overruns
  have filled : w.nextIn ≠ [] := List.ne_nil_of_length_pos (by omega)
  have ret := inflation.accepted w.stream w.nextIn 4096 k filled (by decide) completes
  refine ⟨_, decompressRound_next filled ret, ?_⟩
  rcases ret with ok | streamEnd
  · have before := inflation.within _ _ _ _ ok completes
    refine ⟨k - (z.inflate w.stream w.nextIn 4096).consumed, ?_, ?_⟩
    · show _ < (w.nextIn.drop _).length
      rw [List.length_drop]
      omega
    · refine (inflation.rest _ _ _ _ ok).mpr ?_
      rw [ZStream.after, ← List.take_add, Nat.add_sub_cancel' before]
      exact completes
  · obtain ⟨ends, behind⟩ := inflation.ended _ _ _ streamEnd
    have taken := inflation.consumed_le w.stream w.nextIn 4096
    -- both prefixes are the rest of the stream, so they are the same
    have same : (z.inflate w.stream w.nextIn 4096).consumed ≤ k := by
      by_contra longer
      have split : w.nextIn.take (z.inflate w.stream w.nextIn 4096).consumed =
          w.nextIn.take k ++ (w.nextIn.drop k).take
            ((z.inflate w.stream w.nextIn 4096).consumed - k) := by
        rw [← List.take_add, Nat.add_sub_cancel' (by omega)]
      have none_left := inflation.completes_unique _ _ _ completes (split ▸ ends)
      have hlen := congrArg List.length none_left
      rw [List.length_take, List.length_drop, List.length_nil] at hlen
      omega
    refine ⟨0, ?_, ?_⟩
    · show 0 < (w.nextIn.drop _).length
      rw [List.length_drop]
      omega
    · exact behind

theorem decompress_loop_ends_iff (inflation : z.Inflation) (w : ZStream z.InflateStream) :
    Ends (decompressRound z) w ↔ ¬ Overruns inflation w.stream w.nextIn := by
  constructor
  · intro ends overruns
    exact not_ends_of_trap (fun _ again => decompressRound_stays again) overruns ends
  · intro lasts
    let measure (w : ZStream z.InflateStream) := (w.nextIn.length, inflation.held w.stream)
    have lowers : ∀ w next, ¬ Overruns inflation w.stream w.nextIn →
        decompressRound z w = .inl next → ¬ Overruns inflation next.stream next.nextIn ∧
          Prod.Lex (· < ·) (· < ·) (measure next) (measure w) :=
      fun _ _ lasts h => decompressRound_lowers lasts h
    have wf := WellFounded.prod_lex Nat.lt_wfRel.wf Nat.lt_wfRel.wf
    exact ends_of_measure wf measure lowers lasts

/-- The stream that `Decompress` continues, if it calls `inflate` at all. -/
def continued (c : ZlibCompress z) (success : Bool) : Option Bytes → Option z.InflateStream
  | none => none
  | some data => (c.readyFor success data).inflateStream

/-- `Decompress` ends if and only if the stream it continues does not end before the last byte it
is given, whatever calls came before. -/
theorem decompress_ends_iff (inflation : z.Inflation) (c : ZlibCompress z) (success : Bool)
    (data : Option Bytes) :
    (∃ fuel, (c.decompress fuel success data).isSome) ↔
      ∀ bs ∈ data, ∀ stream ∈ c.continued success data,
        ¬ Overruns inflation stream (bs.take (uInt bs.length)) := by
  cases data with
  | none => exact ⟨fun _ bs hbs => by (cases hbs), fun _ => ⟨0, rfl⟩⟩
  | some bs =>
    cases hstream : (c.readyFor success bs).inflateStream with
    | none =>
      constructor
      · intro _ bs' hbs stream hcontinued
        obtain rfl := Option.some.inj hbs
        exact absurd (hstream.symm.trans hcontinued) (Option.some_ne_none stream).symm
      · exact fun _ => ⟨0, by rw [decompress]; simp only [hstream, Option.isSome_some]⟩
    | some stream =>
      simp only [decompress, hstream, Option.isSome_map]
      rw [← ends_iff_isSome, decompress_loop_ends_iff inflation]
      constructor
      · intro lasts bs' hbs stream' hcontinued
        obtain rfl := Option.some.inj hbs
        obtain rfl := Option.some.inj (hstream.symm.trans hcontinued)
        exact lasts
      · exact fun lasts => lasts bs rfl stream hstream

theorem decompress_ends_streamA :
    ∃ fuel, ((new : ZlibCompress StoredZlib.zlib).decompress fuel true
      (some StoredZlib.streamA)).isSome := by
  refine (decompress_ends_iff StoredZlib.inflation new true (some StoredZlib.streamA)).mpr ?_
  rintro bs hbs stream hstream ⟨k, hk, completes⟩
  obtain rfl := Option.some.inj hbs
  obtain rfl := Option.some.inj hstream
  have whole := Option.some.inj completes
  have hlen := congrArg List.length whole
  rw [List.length_take] at hlen
  have short : k < 12 := hk
  have twelve : StoredZlib.streamA.length = 12 := rfl
  omega

/-- One byte behind the end of a stream, and the loop goes on for ever. -/
theorem decompress_never_ends :
    ¬ ∃ fuel, ((new : ZlibCompress StoredZlib.zlib).decompress fuel true
      (some (StoredZlib.streamA ++ [0]))).isSome := by
  rintro ⟨fuel, hfuel⟩
  have overruns : Overruns StoredZlib.inflation (some StoredZlib.streamA)
      (StoredZlib.streamA ++ [0]) := ⟨12, by decide, rfl⟩
  have returns : (loop (decompressRound StoredZlib.zlib) fuel
      ⟨some StoredZlib.streamA, StoredZlib.streamA ++ [0], 4096, []⟩).isSome :=
    Option.isSome_map.symm.trans hfuel
  have ends := ends_iff_isSome.mpr ⟨fuel, returns⟩
  exact (decompress_loop_ends_iff StoredZlib.inflation _).mp ends overruns

end Decompress

section Compress

variable (deflation : z.Deflation)

def HasWork (c : ZlibCompress z) (input : Option Bytes) (output : Option Nat) : Prop :=
  ∀ bs ∈ input, ∀ size ∈ output, ∀ stream ∈ c.deflateStream,
    uInt size ≠ 0 ∧ ¬ (uInt bs.length = 0 ∧ deflation.flushed stream)

variable {deflation}

/-- A call without progress is made again as it was. -/
theorem compressRound_stuck {w : ZStream z.DeflateStream} {outputSize : Nat}
    (stuck : w.availOut = 0 ∨ w.nextIn = [] ∧ deflation.flushed w.stream) :
    compressRound z outputSize w = .inl w := by
  have ret := (deflation.bufError_iff _ _ _).mpr stuck
  obtain ⟨next, consumed, output⟩ := deflation.unchanged _ _ _ ret
  simp only [compressRound, ret, ZStream.after, next, consumed, output, List.drop_zero,
    List.length_nil, Nat.sub_zero, List.append_nil]

theorem compressRound_leaves {w : ZStream z.DeflateStream} (outputSize : Nat)
    (moves : ¬ (w.availOut = 0 ∨ w.nextIn = [] ∧ deflation.flushed w.stream)) :
    ∃ result, compressRound z outputSize w = .inr result := by
  have ret := fun h => moves ((deflation.bufError_iff _ _ _).mp h)
  simp only [compressRound]
  split
  · exact ⟨_, rfl⟩
  · rename_i stuck
    exact absurd stuck ret
  all_goals exact ⟨_, rfl⟩

theorem compress_loop_ends_iff (deflation : z.Deflation) (w : ZStream z.DeflateStream)
    (outputSize : Nat) :
    Ends (compressRound z outputSize) w ↔
      ¬ (w.availOut = 0 ∨ w.nextIn = [] ∧ deflation.flushed w.stream) := by
  constructor
  · intro ends stuck
    have stays : ∀ v, v = w → ∃ next, compressRound z outputSize v = .inl next ∧ next = w := by
      rintro v rfl
      exact ⟨v, compressRound_stuck stuck, rfl⟩
    exact not_ends_of_trap stays rfl ends
  · intro moves
    obtain ⟨result, leaves⟩ := compressRound_leaves outputSize moves
    exact ends_of_result leaves

theorem compress_returns_iff (deflation : z.Deflation) (c : ZlibCompress z)
    (input : Option Bytes) (output : Option Nat) :
    (∃ fuel, (c.compress fuel input output).isSome) ↔ HasWork deflation c input output := by
  cases input with
  | none => exact ⟨fun _ bs hbs => (by cases hbs), fun _ => ⟨0, rfl⟩⟩
  | some bs =>
    cases output with
    | none => exact ⟨fun _ _ _ size hsize => (by cases hsize), fun _ => ⟨0, rfl⟩⟩
    | some size =>
      cases hstream : c.deflateStream with
      | none =>
        constructor
        · intro _ _ _ _ _ stream hsome
          rw [hstream] at hsome
          cases hsome
        · exact fun _ => ⟨0, by simp only [compress, hstream, Option.isSome_some]⟩
      | some stream =>
        simp only [compress, hstream, Option.isSome_map]
        rw [← ends_iff_isSome, compress_loop_ends_iff deflation]
        have empty_iff : bs.take (uInt bs.length) = [] ↔ uInt bs.length = 0 := by
          rw [List.take_eq_nil_iff]
          refine or_iff_left_of_imp ?_
          rintro rfl
          rfl
        simp only [empty_iff, not_or]
        constructor
        · intro work bs' hbs size' hsize stream' hstream'
          obtain rfl := Option.some.inj hbs
          obtain rfl := Option.some.inj hsize
          obtain rfl := Option.some.inj (hstream.symm.trans hstream')
          exact work
        · exact fun work => work bs rfl size rfl stream hstream

theorem hasWork_resetStream (c : ZlibCompress z) (success : Bool) (input : Option Bytes)
    {size : Nat} (space : uInt size ≠ 0) :
    HasWork deflation (c.resetStream success) input (some size) := by
  intro bs _ size' hsize stream hstream
  obtain rfl := Option.some.inj hsize
  refine ⟨space, fun done => ?_⟩
  cases success with
  | false => cases hstream
  | true =>
    obtain rfl := Option.some.inj hstream
    exact deflation.not_flushed_init done.2

theorem not_hasWork_of_flushed {w : z.DeflateStream} {input : Bytes} {room : Nat}
    (ok : (z.deflate w input room).ret = .ok)
    (space : (z.deflate w input room).output.length < room) (c : ZlibCompress z) (size : Nat) :
    ¬ HasWork deflation { c with deflateStream := some (z.deflate w input room).next } (some [])
      (some size) := by
  intro work
  exact (work [] rfl size rfl _ rfl).2 ⟨rfl, (deflation.flushes w input room ok).mpr space⟩

inductive Call
  | resetStream (success : Bool)
  | compress (input : Option Bytes) (output : Option Nat)

def call (fuel : Nat) (c : ZlibCompress z) : Call → Option (ZlibCompress z)
  | .resetStream success => some (c.resetStream success)
  | .compress input output => (c.compress fuel input output).map Prod.fst

variable (deflation) in
def CallHasWork (c : ZlibCompress z) : Call → Prop
  | .resetStream _ => True
  | .compress input output => HasWork deflation c input output

theorem call_returns_iff (deflation : z.Deflation) (c : ZlibCompress z) (a : Call) :
    (∃ fuel, (call fuel c a).isSome) ↔ CallHasWork deflation c a := by
  cases a with
  | resetStream success => exact ⟨fun _ => trivial, fun _ => ⟨0, rfl⟩⟩
  | compress input output =>
    simp only [call, Option.isSome_map]
    exact compress_returns_iff deflation c input output

/-- In a sequence of calls every loop ends if and only if every `Compress` finds work. -/
theorem compress_ends_iff (deflation : z.Deflation) (c : ZlibCompress z) (calls : List Call) :
    AllReturn call c calls ↔ AllMeet call (CallHasWork deflation) c calls :=
  allReturn_iff_allMeet (call_returns_iff deflation) c calls

theorem compress_ends_flushOnce :
    AllReturn call (new : ZlibCompress StoredZlib.zlib)
      [.resetStream true, .compress (some []) (some 16)] := by
  refine (compress_ends_iff StoredZlib.deflation new _).mpr ⟨trivial, ?_⟩
  intro fuel next hnext
  obtain rfl := Option.some.inj hnext
  exact ⟨hasWork_resetStream new true (some []) (by decide), fun _ _ _ => trivial⟩

/-- The second flush of nothing goes on for ever, and so does an output without space. -/
theorem compress_never_ends :
    ¬ AllReturn call (new : ZlibCompress StoredZlib.zlib)
        [.resetStream true, .compress (some []) (some 16), .compress (some []) (some 16)] ∧
      ¬ AllReturn call (new : ZlibCompress StoredZlib.zlib)
        [.resetStream true, .compress (some [65]) (some 0)] := by
  constructor
  · intro all
    obtain ⟨-, rest⟩ := all.2 1 _ rfl
    obtain ⟨returns, -⟩ := rest 1 _ rfl
    have work := (call_returns_iff StoredZlib.deflation _ _).mp returns
    let first := StoredZlib.zlib.deflate StoredZlib.zlib.deflateInit2 [] 16
    have ok : first.ret = .ok := rfl
    have space : first.output.length < 16 := by decide
    exact not_hasWork_of_flushed ok space new 16 work
  · intro all
    obtain ⟨returns, -⟩ := all.2 1 _ rfl
    have work := (call_returns_iff StoredZlib.deflation _ _).mp returns
    exact (work [65] rfl 0 rfl _ rfl).1 rfl

end Compress

end FlashLog.Compress.ZlibCompress
