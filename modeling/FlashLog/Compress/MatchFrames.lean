import FlashLog.Compress.RoundTrip

/-!
A zstd that keeps what it has seen since the last reset: the flush of a long input that repeats a
part of it is one block with one match, and every other input is stored in raw blocks. The
decompressor copies the match from what it has put out itself, and fails if that does not go back
far enough.
-/

set_option autoImplicit false
set_option relaxedAutoImplicit false

namespace FlashLog.Compress.Matched

open FlashLog.Support
open FlashLog.Mmap (StringImpl)
open ZstdCompress (isZSTDCompress isZSTDCompress_of_magic isZSTDCompress_of_block outputCapacity
  decompressAll)

def window : Nat := 2 ^ 21

/-- How far back the last copy of the input begins. -/
def matchOffset (seen x : Bytes) : Option Nat :=
  if 131 ≤ x.length ∧ x.length ≤ Stored.maxBlock then
    (List.range' x.length (min seen.length window + 1 - x.length)).find? fun off =>
      (seen.drop (seen.length - off)).take x.length == x
  else none

/-- The content of a compressed block: no literals, and one sequence whose three codes are given
by one byte each. The stream of its extra bits begins with the highest one: those of the offset,
for which the number `off + 3` has a leading one as the stream's mark, and those of the length. -/
def sequence (off len : Nat) : Bytes :=
  let bits := Nat.log2 (len - 3)
  let stream := (off + 3) * 2 ^ bits + (len - 3 - 2 ^ bits)
  [0x00, 0x01, 0x54, 0x00, UInt8.ofNat (Nat.log2 (off + 3)), UInt8.ofNat (36 + bits)] ++
    Bytes.ofNatLE (Nat.log2 stream / 8 + 1) stream

def readSequence (content : Bytes) : Nat × Nat :=
  let bits := (content.getD 5 0).toNat - 36
  let stream := Bytes.toNatLE (content.drop 6)
  (stream / 2 ^ bits - 3, stream % 2 ^ bits + 2 ^ bits + 3)

def matchBlock (off len : Nat) : Bytes :=
  Bytes.ofNatLE 3 ((sequence off len).length * 8 + 4) ++ sequence off len

def body (seen x : Bytes) : Bytes :=
  match matchOffset seen x with
  | some off => matchBlock off x.length
  | none => Stored.blocks x

def encode (seen x : Bytes) : Bytes :=
  (if seen = [] then Stored.frameHeader else []) ++ body seen x

/-- What the blocks of a flush hold, for a decompressor that has put out `seen`. -/
def readBody (seen data : Bytes) : Option Bytes :=
  if Bytes.toNatLE (data.take 3) / 2 % 4 = 2 then
    let (off, len) := readSequence (data.drop 3)
    if off ≤ seen.length then some ((seen.drop (seen.length - off)).take len) else none
  else some (Stored.readBlocks data)

def decode (seen data : Bytes) : Option Bytes :=
  readBody seen (if isZSTDCompress data then data.drop Stored.frameHeader.length else data)

/-- The compressor and the decompressor keep what has passed since their last reset. -/
def zstd : Zstd where
  Cctx := Bytes
  Dctx := Bytes
  createCStream := []
  createDStream := []
  resetC := fun _ => []
  resetD := fun _ => []
  compressBound := fun n => Stored.frameHeader.length + 4 * n
  compressStream2 := fun seen x size =>
    if (encode seen x).length ≤ size then (seen ++ x, some (encode seen x)) else (seen, none)
  decompressStream := fun seen data room =>
    match decode seen data with
    | some output => (seen ++ output, some (output.take room))
    | none => (seen, none)

section Sequence

variable {seen x : Bytes} {off len : Nat}

theorem matchOffset_spec (h : matchOffset seen x = some off) :
    (131 ≤ x.length ∧ x.length ≤ Stored.maxBlock) ∧ off ≤ seen.length ∧ off ≤ window ∧
      (seen.drop (seen.length - off)).take x.length = x := by
  rw [matchOffset] at h
  split at h
  · rename_i sized
    have same := List.find?_some h
    have hrange := List.mem_range'_1.mp (List.mem_of_find?_eq_some h)
    refine ⟨sized, ?_, ?_, beq_iff_eq.mp same⟩
    · omega
    · omega
  · cases h

theorem matchOffset_repeat (sized : 131 ≤ x.length ∧ x.length ≤ Stored.maxBlock) :
    matchOffset (seen ++ x) x = some x.length := by
  have room : x.length < min (seen ++ x).length window + 1 := by
    have hmax : Stored.maxBlock ≤ window := by decide
    rw [List.length_append]
    omega
  obtain ⟨n, hn⟩ := Nat.exists_eq_succ_of_ne_zero (Nat.sub_ne_zero_of_lt room)
  have last : (seen ++ x).drop ((seen ++ x).length - x.length) = x := by
    rw [List.length_append, Nat.add_sub_cancel, List.drop_left]
  rw [matchOffset, if_pos sized, hn, Nat.succ_eq_add_one, List.range'_succ, List.find?_cons_of_pos]
  rw [last, List.take_length]
  exact beq_self_eq_true x

theorem log2_length (sized : 131 ≤ len ∧ len ≤ Stored.maxBlock) :
    Nat.log2 (len - 3) ≤ 16 ∧ 2 ^ Nat.log2 (len - 3) ≤ len - 3 ∧
      len - 3 < 2 ^ (Nat.log2 (len - 3) + 1) := by
  have positive : len - 3 ≠ 0 := by omega
  refine ⟨?_, Nat.log2_self_le positive, Nat.lt_log2_self⟩
  have small : len - 3 < 2 ^ 17 := by
    have hmax : Stored.maxBlock = 2 ^ 17 := rfl
    omega
  exact Nat.le_of_lt_succ ((Nat.log2_lt positive).mpr small)

theorem toNatLE_stream (stream : Nat) :
    Bytes.toNatLE (Bytes.ofNatLE (Nat.log2 stream / 8 + 1) stream) = stream := by
  rw [Bytes.toNatLE_ofNatLE]
  refine Nat.mod_eq_of_lt (Nat.lt_of_lt_of_le Nat.lt_log2_self ?_)
  rw [show (256 : Nat) = 2 ^ 8 from rfl, ← Nat.pow_mul]
  exact Nat.pow_le_pow_right (by decide) (by omega)

theorem readSequence_sequence (sized : 131 ≤ len ∧ len ≤ Stored.maxBlock) :
    readSequence (sequence off len) = (off, len) := by
  obtain ⟨hbits, hle, hlt⟩ := log2_length sized
  have hcode : (UInt8.ofNat (36 + Nat.log2 (len - 3))).toNat - 36 = Nat.log2 (len - 3) := by
    rw [UInt8.toNat_ofNat']
    omega
  have hextra : len - 3 - 2 ^ Nat.log2 (len - 3) < 2 ^ Nat.log2 (len - 3) := by
    rw [Nat.pow_succ] at hlt
    omega
  have hpos := Nat.two_pow_pos (Nat.log2 (len - 3))
  simp only [readSequence, sequence, List.cons_append, List.nil_append, List.getD_cons_succ,
    List.getD_cons_zero, List.drop_succ_cons, List.drop_zero, hcode, toNatLE_stream]
  rw [Nat.mul_comm, Nat.mul_add_div hpos, Nat.mul_add_mod, Nat.div_eq_of_lt hextra,
    Nat.mod_eq_of_lt hextra]
  refine Prod.ext ?_ ?_
  · simp
  · dsimp only
    omega

theorem length_sequence_le (hoff : off ≤ window) (sized : 131 ≤ len ∧ len ≤ Stored.maxBlock) :
    (sequence off len).length ≤ 11 := by
  obtain ⟨hbits, hle, hlt⟩ := log2_length sized
  have hmul : (off + 3) * 2 ^ Nat.log2 (len - 3) ≤ (window + 3) * 2 ^ 16 :=
    Nat.mul_le_mul (Nat.add_le_add_right hoff 3) (Nat.pow_le_pow_right (by decide) hbits)
  have hmax : len - 3 - 2 ^ Nat.log2 (len - 3) < 2 ^ 17 := by
    have hblock : Stored.maxBlock = 2 ^ 17 := rfl
    omega
  have hsmall : (off + 3) * 2 ^ Nat.log2 (len - 3) + (len - 3 - 2 ^ Nat.log2 (len - 3)) < 2 ^ 39 := by
    have hwindow : (window + 3) * 2 ^ 16 + 2 ^ 17 ≤ 2 ^ 39 := by decide
    omega
  have hpos : (off + 3) * 2 ^ Nat.log2 (len - 3) + (len - 3 - 2 ^ Nat.log2 (len - 3)) ≠ 0 := by
    have hleft : 0 < (off + 3) * 2 ^ Nat.log2 (len - 3) :=
      Nat.mul_pos (Nat.succ_pos _) (Nat.two_pow_pos _)
    omega
  have hlog := (Nat.log2_lt hpos).mpr hsmall
  simp only [sequence, List.length_append, List.length_cons, List.length_nil, Bytes.length_ofNatLE]
  omega

end Sequence

section Encode

variable {seen x : Bytes} {off len : Nat}

theorem header_matchBlock (hoff : off ≤ window) (sized : 131 ≤ len ∧ len ≤ Stored.maxBlock) :
    Bytes.toNatLE ((matchBlock off len).take 3) = (sequence off len).length * 8 + 4 := by
  have hlength := length_sequence_le hoff sized
  rw [matchBlock, List.take_left' (Bytes.length_ofNatLE 3 _), Bytes.toNatLE_ofNatLE]
  exact Nat.mod_eq_of_lt (by omega)

theorem header_blocks (x : Bytes) : ∃ n, Bytes.toNatLE ((Stored.blocks x).take 3) = n * 8 := by
  rw [Stored.blocks]
  split
  · rename_i hle
    exact ⟨x.length, by simpa using Stored.header_block hle []⟩
  · refine ⟨_, Stored.header_block ?_ _⟩
    rw [List.length_take]
    exact Nat.min_le_left _ _

theorem readBody_body (seen x : Bytes) : readBody seen (body seen x) = some x := by
  rw [body]
  cases hmatch : matchOffset seen x with
  | none =>
    obtain ⟨n, hn⟩ := header_blocks x
    dsimp only
    rw [readBody, hn, if_neg (by omega), Stored.readBlocks_blocks]
  | some off =>
    obtain ⟨sized, hseen, hwindow, same⟩ := matchOffset_spec hmatch
    have hdrop : (matchBlock off x.length).drop 3 = sequence off x.length :=
      List.drop_left' (Bytes.length_ofNatLE 3 _)
    dsimp only
    rw [readBody, header_matchBlock hwindow sized, if_pos (by omega), hdrop,
      readSequence_sequence sized]
    dsimp only
    rw [if_pos hseen, same]

theorem readBody_short {seen' : Bytes} (h : matchOffset seen x = some off)
    (short : seen'.length < off) : readBody seen' (body seen x) = none := by
  obtain ⟨sized, -, hwindow, -⟩ := matchOffset_spec h
  have hdrop : (matchBlock off x.length).drop 3 = sequence off x.length :=
    List.drop_left' (Bytes.length_ofNatLE 3 _)
  rw [body, h]
  dsimp only
  rw [readBody, header_matchBlock hwindow sized, if_pos (by omega), hdrop,
    readSequence_sequence sized]
  exact if_neg (Nat.not_le.mpr short)

theorem startsWithBlock_body (seen x : Bytes) : StartsWithBlock (body seen x) := by
  rw [body]
  cases hmatch : matchOffset seen x with
  | none => exact Stored.startsWithBlock_blocks x
  | some off =>
    obtain ⟨sized, -, hwindow, -⟩ := matchOffset_spec hmatch
    have hheader := header_matchBlock hwindow sized
    have hlength := length_sequence_le hwindow sized
    dsimp only
    refine ⟨?_, ?_, ?_⟩
    · rw [matchBlock, List.length_append, Bytes.length_ofNatLE]
      exact Nat.le_add_right 3 _
    · rw [hheader]
      omega
    · rw [hheader]
      omega

theorem length_body_le (seen : Bytes) {x : Bytes} (hx : x ≠ []) :
    (body seen x).length ≤ 4 * x.length := by
  rw [body]
  cases hmatch : matchOffset seen x with
  | none => exact Stored.length_blocks_le x (List.length_pos_of_ne_nil hx)
  | some off =>
    obtain ⟨sized, -, hwindow, -⟩ := matchOffset_spec hmatch
    have hlength := length_sequence_le hwindow sized
    dsimp only
    rw [matchBlock, List.length_append, Bytes.length_ofNatLE]
    omega

theorem encode_first (x : Bytes) : encode [] x = Stored.frameHeader ++ body [] x := rfl

theorem encode_later (hseen : seen ≠ []) (x : Bytes) : encode seen x = body seen x := by
  rw [encode, if_neg hseen, List.nil_append]

theorem magic_encode (x : Bytes) : [0x28, 0xb5, 0x2f, 0xfd] <+: encode [] x :=
  ⟨[0x00, 0x58] ++ body [] x, rfl⟩

theorem decode_encode (seen' seen x : Bytes) : decode seen' (encode seen x) =
    readBody seen' (body seen x) := by
  rw [decode]
  by_cases hseen : seen = []
  · subst hseen
    rw [isZSTDCompress_of_magic (magic_encode x), if_pos rfl, encode_first, List.drop_left' rfl]
  · rw [encode_later hseen, isZSTDCompress_of_block (startsWithBlock_body seen x),
      if_neg Bool.false_ne_true]

theorem length_encode_le (seen : Bytes) {x : Bytes} (hx : x ≠ []) :
    (encode seen x).length ≤ zstd.compressBound x.length := by
  have hbody := length_body_le seen hx
  have hbound : zstd.compressBound x.length = Stored.frameHeader.length + 4 * x.length := rfl
  have hheader : (if seen = [] then Stored.frameHeader else []).length ≤
      Stored.frameHeader.length := by
    split
    · exact Nat.le_refl _
    · exact Nat.zero_le _
  rw [encode, List.length_append]
  omega

theorem compressStream2_eq (seen : Bytes) {x : Bytes} {size : Nat} (hx : x ≠ [])
    (hsize : zstd.compressBound x.length ≤ size) :
    zstd.compressStream2 seen x size = (seen ++ x, some (encode seen x)) :=
  if_pos (Nat.le_trans (length_encode_le seen hx) hsize)

theorem decompressStream_encode (seen' seen x : Bytes) (room : Nat) :
    zstd.decompressStream seen' (encode seen x) room =
      match readBody seen' (body seen x) with
      | some output => (seen' ++ output, some (output.take room))
      | none => (seen', none) := by
  rw [← decode_encode]
  rfl

end Encode

private theorem compressed_eq {seen next x data : Bytes} {size : Nat} (hx : x ≠ [])
    (hsize : zstd.compressBound x.length ≤ size)
    (h : zstd.compressStream2 seen x size = (next, some data)) :
    next = seen ++ x ∧ data = encode seen x := by
  have heq := (compressStream2_eq seen hx hsize).symm.trans h
  exact ⟨(Prod.mk.inj heq).1.symm, (Option.some.inj (Prod.mk.inj heq).2).symm⟩

def stream : zstd.Stream where
  atStart := fun seen => seen = ([] : Bytes)
  follows := fun seen d => d = seen
  atStart_create := rfl
  atStart_reset := fun _ => rfl
  follows_reset := fun _ _ hstart => hstart.symm
  flushes := fun seen x _ hx hsize => ⟨_, _, compressStream2_eq seen hx hsize⟩
  magic := by
    intro (seen : Bytes) x size next data hx hsize (hstart : seen = []) h
    rw [(compressed_eq hx hsize h).2, hstart]
    exact magic_encode x
  block := by
    intro (seen : Bytes) x size next data hx hsize (hstart : ¬ seen = []) h
    rw [(compressed_eq hx hsize h).2, encode_later hstart]
    exact startsWithBlock_body seen x
  decompresses := by
    intro (seen : Bytes) (d : Bytes) x size next data room hx hsize (hfollows : d = seen) h hroom
    obtain ⟨hnext, hdata⟩ := compressed_eq hx hsize h
    subst hfollows
    refine ⟨next, ?_, rfl⟩
    rw [hdata, decompressStream_encode, readBody_body, hnext]
    dsimp only
    rw [List.take_of_length_le hroom]
  bounded := by
    intro (d : Bytes) data room next output h
    change (match decode d data with
      | some output => (d ++ output, some (output.take room))
      | none => (d, none)) = _ at h
    split at h
    · rw [← Option.some.inj (Prod.mk.inj h).2, List.length_take]
      exact Nat.min_le_left _ _
    · cases (Prod.mk.inj h).2

section Calls

def seen (c : ZstdCompress zstd) : Bytes := c.cctx

def output (d : ZstdCompress zstd) : Bytes := d.dctx

theorem compress_eq (c : ZstdCompress zstd) {x : Bytes} {size : Nat} (hx : x ≠ [])
    (hsize : zstd.compressBound x.length ≤ size) :
    c.compress x size = (⟨seen c ++ x, c.dctx⟩, encode (seen c) x) :=
  ZstdCompress.compress_of_flushes hx (compressStream2_eq c.cctx hx hsize)

theorem body_ne_nil (seen x : Bytes) : body seen x ≠ [] := by
  intro empty
  have hheader := (startsWithBlock_body seen x).header
  rw [empty] at hheader
  exact absurd hheader (by decide)

variable (impl : StringImpl) (d : ZstdCompress zstd)

theorem decompress_first (x : Bytes) :
    d.decompress impl (encode [] x) = (⟨d.cctx, x⟩, x.take (outputCapacity impl)) := by
  have hempty : ¬ (encode [] x).isEmpty = true := by
    rw [List.isEmpty_iff, encode_first]
    exact List.append_ne_nil_of_right_ne_nil _ (body_ne_nil [] x)
  rw [ZstdCompress.decompress, if_neg hempty, isZSTDCompress_of_magic (magic_encode x), if_pos rfl]
  have hdecompress := decompressStream_encode [] [] x (outputCapacity impl)
  rw [readBody_body] at hdecompress
  simp only [ZstdCompress.resetDecompressStream]
  rw [show zstd.resetD d.dctx = ([] : Bytes) from rfl, hdecompress]
  rfl

theorem decompress_short {seen x : Bytes} {off : Nat} (hseen : seen ≠ [])
    (h : matchOffset seen x = some off) (short : (output d).length < off) :
    d.decompress impl (encode seen x) = (d, []) := by
  have hempty : ¬ (encode seen x).isEmpty = true := by
    rw [List.isEmpty_iff, encode_later hseen]
    exact body_ne_nil seen x
  rw [ZstdCompress.decompress, if_neg hempty, encode_later hseen,
    isZSTDCompress_of_block (startsWithBlock_body seen x), if_neg Bool.false_ne_true]
  have hdecompress : zstd.decompressStream d.dctx (encode seen x) (outputCapacity impl) = _ :=
    decompressStream_encode (output d) seen x (outputCapacity impl)
  rw [readBody_short h short, encode_later hseen] at hdecompress
  simp only [hdecompress]
  rfl

theorem decompressAll_missed {first x : Bytes} (hfirst : first ≠ [])
    (short : first.length < x.length) (sized : 131 ≤ x.length ∧ x.length ≤ Stored.maxBlock) :
    decompressAll impl d [encode [] first, encode (first ++ x) x] =
      [first.take (outputCapacity impl), []] := by
  have hseen : first ++ x ≠ [] := List.append_ne_nil_of_left_ne_nil hfirst x
  have repeated : matchOffset (first ++ x) x = some x.length := matchOffset_repeat sized
  simp only [decompressAll, decompress_first,
    decompress_short impl (⟨d.cctx, first⟩ : ZstdCompress zstd) hseen repeated short]

end Calls

end FlashLog.Compress.Matched
