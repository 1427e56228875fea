import FlashLog.Compress.StoredStream
import FlashLog.Compress.ZlibLoops

/-!
The round trip through a compressing and a decompressing `ZlibCompress`. The first two bytes of an
item decide whether `Decompress` begins a new stream; its loop empties a buffer of 4096 bytes as
often as it takes.
-/

set_option autoImplicit false
set_option relaxedAutoImplicit false

namespace FlashLog.Compress.ZlibCompress

open FlashLog.Support
open FlashLog.Support.Loop (AllReturn loop loop_of_le loop_of_next loop_of_result Returns)

variable {z : Zlib}

section Into

theorem loop_compressRoundInto (outputSize fuel : Nat) (w : ZStream z.DeflateStream) :
    loop (compressRound z outputSize) fuel w =
      (loop (compressRoundInto z outputSize) fuel w).map fun r => (r.1, r.2.1) := by
  induction fuel generalizing w with
  | zero => rfl
  | succ fuel ih =>
    cases hround : compressRound z outputSize w with
    | inl next =>
      have hinto : compressRoundInto z outputSize w = .inl next := by
        rw [compressRoundInto, hround]
      rw [loop_of_next hround, loop_of_next hinto, ih]
    | inr result =>
      have hinto : compressRoundInto z outputSize w = .inr (result.1, result.2,
          (w.after (z.deflate w.stream w.nextIn w.availOut)).output) := by
        rw [compressRoundInto, hround]
      rw [loop_of_result hround, loop_of_result hinto]
      rfl

theorem compress_eq_compressInto (fuel : Nat) (c : ZlibCompress z) (input : Option Bytes)
    (output : Option Nat) :
    (c.compress fuel input output).map Prod.fst =
      (c.compressInto fuel input output).map Prod.fst := by
  cases input with
  | none => rfl
  | some input =>
    cases output with
    | none => rfl
    | some outputSize =>
      cases hstream : c.deflateStream with
      | none => simp only [compress, compressInto, hstream]; rfl
      | some stream =>
        simp only [compress, compressInto, hstream, loop_compressRoundInto, Option.map_map]
        rfl

end Into

section Items

def items (fuel : Nat) : ZlibCompress z → List Call → Option (List Bytes)
  | _, [] => some []
  | c, .resetStream success :: calls => items fuel (c.resetStream success) calls
  | c, .compress input output :: calls => do
    let (c, item) ← c.compressInto fuel input output
    let rest ← items fuel c calls
    return item :: rest

def decompressAll (fuel : Nat) : ZlibCompress z → List Bytes → Option (List Bytes)
  | _, [] => some []
  | c, item :: rest => do
    let (c, output) ← c.decompress fuel true (some item)
    let outputs ← decompressAll fuel c rest
    return output :: outputs

/-- What comes back for the calls; `alive` says that there is a stream. A call without a stream or
without a buffer has produced nothing. -/
def delivered : Bool → List Call → List Bytes
  | _, [] => []
  | _, .resetStream success :: calls => delivered success calls
  | alive, .compress (some input) (some _) :: calls =>
    (if alive then input else []) :: delivered alive calls
  | alive, .compress _ _ :: calls => [] :: delivered alive calls

/-- An input, and a buffer for it with room for a flush; both sizes fit into `uInt`. -/
def Fits (flushed : z.Flushed) : Call → Prop
  | .compress (some input) (some size) =>
    input ≠ [] ∧ input.length < 2 ^ 32 ∧ flushed.room input.length ≤ size ∧ size < 2 ^ 32
  | _ => True

variable {flushed : z.Flushed}

theorem isCompressed_of_header {data : Bytes} (h : [0x78, 0xda] <+: data) :
    isCompressed data = true := by
  obtain ⟨rest, rfl⟩ := h
  have hlen : ¬ ([0x78, 0xda] ++ rest : Bytes).length < 2 := by
    rw [List.length_append]
    exact Nat.not_lt.mpr (Nat.le_add_right 2 _)
  rw [isCompressed, if_neg hlen]
  rfl

/-- No block begins with the first byte that all the headers have. -/
theorem isCompressed_of_block {b : UInt8} {data : Bytes} (h : StartsBlock b) :
    isCompressed (b :: data) = false := by
  have first : b.toNat ≠ 0x78 := by
    intro same
    obtain ⟨-, stored⟩ := h
    rw [same] at stored
    exact absurd (stored rfl) (by decide)
  rw [isCompressed]
  split
  · rfl
  · rename_i long
    obtain ⟨b', rest, rfl⟩ : ∃ b' rest, data = b' :: rest := by
      refine List.exists_cons_of_ne_nil ?_
      rintro rfl
      exact long (Nat.lt_succ_self 1)
    have magic : Bytes.toNatLE ((b :: b' :: rest).take 2) = b.toNat + 256 * b'.toNat := rfl
    have low := b.toNat_lt
    simp only [magic, Bool.or_eq_false_iff, beq_eq_false_iff_ne]
    refine ⟨⟨⟨?_, ?_⟩, ?_⟩, ?_⟩ <;> omega

theorem compressInto_flush {c : ZlibCompress z} {stream : z.DeflateStream} {x : Bytes} {size : Nat}
    (hstream : c.deflateStream = some stream)
    (fits : Fits flushed (.compress (some x) (some size))) (fuel : Nat) (pos : 0 < fuel) :
    c.compressInto fuel (some x) (some size) =
      some ({ c with deflateStream := some (z.deflate stream x size).next },
        (z.deflate stream x size).output) := by
  obtain ⟨filled, short, roomy, small⟩ := fits
  obtain ⟨ok, within, -⟩ := flushed.flushes stream x size filled roomy
  obtain ⟨fuel, rfl⟩ := Nat.exists_eq_succ_of_ne_zero (Nat.ne_of_gt pos)
  have round : compressRoundInto z size ⟨stream, x, size, []⟩ =
      .inr ((z.deflate stream x size).next, size - (size - (z.deflate stream x size).output.length),
        (z.deflate stream x size).output) := by
    simp only [compressRoundInto, compressRound, ok]
    rfl
  simp only [compressInto, hstream, uInt, Nat.mod_eq_of_lt short, Nat.mod_eq_of_lt small,
    List.take_length, loop_of_result round, Option.map_some]
  rw [Nat.sub_sub_self within, List.take_length]

theorem decompress_loop (flushed : z.Flushed) (c : z.DeflateStream) (d : z.InflateStream)
    (bs out written : Bytes) (room : Nat) (between : flushed.between c d bs out) :
    ∃ d', Returns (decompressRound z) ⟨d, bs, room, written⟩ (d', written ++ out) ∧
      flushed.between c d' [] [] := by
  induction hm : bs.length + out.length using Nat.strong_induction_on
    generalizing d bs out written room with
  | _ m ih =>
    subst hm
    by_cases hbs : bs = []
    · subst hbs
      obtain rfl := flushed.whole _ _ _ between
      refine ⟨d, .now ?_, between⟩
      rw [List.append_nil]
      rfl
    · obtain ⟨ok, le, progress, ⟨rest, hrest⟩, next⟩ :=
        flushed.decodes _ _ _ _ 4096 between hbs (by decide)
      have round := decompressRound_next (w := ⟨d, bs, room, written⟩) hbs (Or.inl ok)
      have less : (bs.drop (z.inflate d bs 4096).consumed).length +
          (out.drop (z.inflate d bs 4096).output.length).length < bs.length + out.length := by
        have pos : 0 < bs.length := List.length_pos_iff.mpr hbs
        have hlen := congrArg List.length hrest
        rw [List.length_append] at hlen
        rw [List.length_drop, List.length_drop]
        rcases progress with took | wrote
        · omega
        · have := List.length_pos_iff.mpr wrote
          omega
      obtain ⟨d', returns, last⟩ := ih _ less _ _ _ _ _ next rfl
      refine ⟨d', .next round ?_, last⟩
      have together : written ++ out = written ++ (z.inflate d bs 4096).output ++
          out.drop (z.inflate d bs 4096).output.length := by
        rw [← hrest, List.drop_left, List.append_assoc]
      rw [together]
      exact returns

/-- The decompressing side is ready for the next item of a stream. -/
def InStep (flushed : z.Flushed) (c d : ZlibCompress z) : Prop :=
  ∀ stream ∈ c.deflateStream, flushed.atStart stream ∨
    ∃ inflated ∈ d.inflateStream, flushed.between stream inflated [] []

/-- A side in step gives back an input that fits, whatever its length. -/
theorem decompress_inStep {c d : ZlibCompress z} {stream : z.DeflateStream} {x : Bytes} {size : Nat}
    (inStep : InStep flushed c d) (hstream : c.deflateStream = some stream)
    (fits : Fits flushed (.compress (some x) (some size))) :
    ∃ d' bound, (∀ fuel, bound ≤ fuel →
        d.decompress fuel true (some (z.deflate stream x size).output) = some (d', x)) ∧
      InStep flushed { c with deflateStream := some (z.deflate stream x size).next } d' := by
  obtain ⟨filled, short, roomy, small⟩ := fits
  obtain ⟨-, within, started⟩ := flushed.flushes stream x size filled roomy
  -- a new stream is begun exactly where the compressing side begins one
  obtain ⟨ready, hready, follows⟩ : ∃ ready,
      (d.readyFor true (z.deflate stream x size).output).inflateStream = some ready ∧
        flushed.between stream ready [] [] := by
    by_cases hstart : flushed.atStart stream
    · have header := flushed.header stream x size filled roomy hstart
      refine ⟨z.inflateInit2, ?_, flushed.between_init stream hstart⟩
      rw [readyFor, if_pos (isCompressed_of_header header)]
      rfl
    · obtain ⟨b, bs, houtput, starts⟩ := flushed.block stream x size filled roomy hstart
      obtain ⟨inflated, hinflated, between⟩ := (inStep stream hstream).resolve_left hstart
      refine ⟨inflated, ?_, between⟩
      rw [readyFor, houtput, isCompressed_of_block starts, if_neg Bool.false_ne_true]
      exact hinflated
  have between := flushed.encodes stream ready x size filled roomy follows
  obtain ⟨d', ⟨bound, hloop⟩, last⟩ := decompress_loop flushed _ ready _ x [] 4096 between
  refine ⟨{ d.readyFor true (z.deflate stream x size).output with inflateStream := some d' },
    bound, ?_, ?_⟩
  · intro fuel le
    have taken : uInt (z.deflate stream x size).output.length =
        (z.deflate stream x size).output.length := Nat.mod_eq_of_lt (by omega)
    simp only [decompress, hready, taken, List.take_length, loop_of_le hloop le, Option.map_some,
      List.nil_append]
  · intro stream' hstream'
    obtain rfl := Option.some.inj hstream'
    exact Or.inr ⟨d', rfl, last⟩

theorem decompress_nil (d : ZlibCompress z) {fuel : Nat} (pos : 0 < fuel) :
    d.decompress fuel true (some []) = some (d, []) := by
  obtain ⟨fuel, rfl⟩ := Nat.exists_eq_succ_of_ne_zero (Nat.ne_of_gt pos)
  have ready : d.readyFor true [] = d := rfl
  cases hstream : d.inflateStream with
  | none => simp only [decompress, ready, hstream]
  | some stream =>
    have round : decompressRound z ⟨stream, [], 4096, []⟩ = .inr (stream, []) := rfl
    simp only [decompress, ready, hstream, List.take_nil, loop_of_result round, Option.map_some]
    rw [← hstream]

theorem compressInto_nil {c : ZlibCompress z} {input : Option Bytes} {output : Option Nat}
    (h : c.deflateStream = none ∨ input = none ∨ output = none) (fuel : Nat) :
    c.compressInto fuel input output = some (c, []) := by
  cases input with
  | none => rfl
  | some input =>
    cases output with
    | none => rfl
    | some size =>
      have dead : c.deflateStream = none := by simpa using h
      simp only [compressInto, dead]

theorem call_returns_of_fits (c : ZlibCompress z) {a : Call} (fits : Fits flushed a) :
    ∃ fuel, (call fuel c a).isSome := by
  cases a with
  | resetStream success => exact ⟨0, rfl⟩
  | compress input output =>
    refine ⟨1, ?_⟩
    rw [call, compress_eq_compressInto, Option.isSome_map]
    by_cases none : c.deflateStream = none ∨ input = none ∨ output = none
    · rw [compressInto_nil none]
      rfl
    · obtain ⟨alive, filled, roomy⟩ := not_or.mp none |>.imp_right not_or.mp
      obtain ⟨stream, hstream⟩ := Option.ne_none_iff_exists'.mp alive
      obtain ⟨x, rfl⟩ := Option.ne_none_iff_exists'.mp filled
      obtain ⟨size, rfl⟩ := Option.ne_none_iff_exists'.mp roomy
      rw [compressInto_flush hstream fits 1 Nat.one_pos]
      rfl

theorem calls_return (c : ZlibCompress z) {calls : List Call}
    (fits : ∀ call ∈ calls, Fits flushed call) : AllReturn call c calls := by
  induction calls generalizing c with
  | nil => trivial
  | cons a calls ih =>
    exact ⟨call_returns_of_fits c (fits a List.mem_cons_self), fun _ next _ =>
      ih next fun call hcall => fits call (List.mem_cons_of_mem a hcall)⟩

private theorem items_delivered (flushed : z.Flushed) (calls : List Call)
    (fits : ∀ call ∈ calls, Fits flushed call) {c d : ZlibCompress z}
    (inStep : InStep flushed c d) :
    ∃ bound data, ∀ fuel, bound ≤ fuel → items fuel c calls = some data ∧
      decompressAll fuel d data = some (delivered c.deflateStream.isSome calls) := by
  induction calls generalizing c d with
  | nil => exact ⟨0, [], fun _ _ => ⟨rfl, rfl⟩⟩
  | cons call calls ih =>
    have fits' : ∀ call ∈ calls, Fits flushed call :=
      fun call hcall => fits call (List.mem_cons_of_mem _ hcall)
    -- a call that produces nothing is answered with nothing
    have idle : ∀ {input : Option Bytes} {output : Option Nat},
        c.deflateStream = none ∨ input = none ∨ output = none →
        delivered c.deflateStream.isSome (.compress input output :: calls) =
          [] :: delivered c.deflateStream.isSome calls →
        ∃ bound data, ∀ fuel, bound ≤ fuel →
          items fuel c (.compress input output :: calls) = some data ∧
            decompressAll fuel d data =
              some (delivered c.deflateStream.isSome (.compress input output :: calls)) := by
      intro input output none' hdelivered
      obtain ⟨bound, data, rest⟩ := ih fits' inStep
      refine ⟨bound + 1, [] :: data, fun fuel le => ?_⟩
      obtain ⟨hitems, houtputs⟩ := rest fuel (Nat.le_of_succ_le le)
      rw [hdelivered]
      simp [items, compressInto_nil none', hitems, decompressAll,
        decompress_nil d (Nat.lt_of_lt_of_le (Nat.succ_pos bound) le), houtputs]
    cases call with
    | resetStream success =>
      have start : InStep flushed (c.resetStream success) d := by
        intro stream hstream
        cases success with
        | false => cases hstream
        | true =>
          obtain rfl := Option.some.inj hstream
          exact Or.inl flushed.atStart_init
      obtain ⟨bound, data, rest⟩ := ih fits' start
      refine ⟨bound, data, fun fuel le => ?_⟩
      obtain ⟨hitems, houtputs⟩ := rest fuel le
      refine ⟨hitems, houtputs.trans ?_⟩
      cases success <;> rfl
    | compress input output =>
      cases input with
      | none => exact idle (Or.inr (Or.inl rfl)) rfl
      | some x =>
        cases output with
        | none => exact idle (Or.inr (Or.inr rfl)) rfl
        | some size =>
          cases hstream : c.deflateStream with
          | none => exact hstream ▸ idle (Or.inl hstream) (by rw [hstream]; rfl)
          | some stream =>
            have here := fits _ List.mem_cons_self
            obtain ⟨d', bound, hdecompress, next⟩ := decompress_inStep inStep hstream here
            obtain ⟨bound', data, rest⟩ := ih fits' next
            refine ⟨bound + bound' + 1, (z.deflate stream x size).output :: data, fun fuel le => ?_⟩
            obtain ⟨hitems, houtputs⟩ := rest fuel (by omega)
            have hcompress := compressInto_flush hstream here fuel (by omega)
            have houtput := hdecompress fuel (by omega)
            simp [items, hcompress, hitems, decompressAll, houtput, houtputs, delivered]

/-- Every call returns, and what is compressed comes back, whatever its length and wherever the
stream is begun anew: given the items one by one, another object returns the inputs, an empty
output standing for each call that had no stream. -/
theorem decompressAll_items (flushed : z.Flushed) (calls : List Call)
    (fits : ∀ call ∈ calls, Fits flushed call) :
    AllReturn call (new : ZlibCompress z) calls ∧
      ∃ fuel data, items fuel (new : ZlibCompress z) calls = some data ∧
        decompressAll fuel (new : ZlibCompress z) data = some (delivered false calls) := by
  have start : InStep flushed (new : ZlibCompress z) new := by
    intro stream hstream
    cases hstream
  obtain ⟨bound, data, all⟩ := items_delivered flushed calls fits start
  exact ⟨calls_return new fits, bound, data, all bound (Nat.le_refl bound)⟩

/-- A call before the first stream, and a second stream behind the first. -/
def twoStreams : List Call :=
  [.compress (some [9]) (some 64), .resetStream true, .compress (some [1, 2, 3]) (some 64),
    .compress (some [4]) (some 64), .resetStream true, .compress (some [5, 6]) (some 64)]

theorem decompressAll_items_twoStreams :
    AllReturn call (new : ZlibCompress StoredStream.zlib) twoStreams ∧
      ∃ fuel data, items fuel (new : ZlibCompress StoredStream.zlib) twoStreams = some data ∧
        decompressAll fuel (new : ZlibCompress StoredStream.zlib) data =
          some [[], [1, 2, 3], [4], [5, 6]] := by
  refine decompressAll_items StoredStream.flushed twoStreams ?_
  simp [twoStreams, Fits, StoredStream.flushed]

end Items

end FlashLog.Compress.ZlibCompress
