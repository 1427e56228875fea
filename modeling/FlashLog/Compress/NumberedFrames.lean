import FlashLog.Compress.RoundTrip

/-!
A zstd whose every flush refers to all inputs since the last reset: raw blocks that start with the
number of those inputs, and a decompressor that gives back only the input it is due. It behaves as
documented of a flushed stream.
-/

set_option autoImplicit false
set_option relaxedAutoImplicit false

namespace FlashLog.Compress.Numbered

open FlashLog.Support
open FlashLog.Mmap (StringImpl)
open ZstdCompress (isZSTDCompress isZSTDCompress_of_magic isZSTDCompress_of_block outputCapacity)

variable (k : Nat)

def encode (n : Nat) (x : Bytes) : Bytes :=
  (if n = 0 then Stored.frameHeader else []) ++ Stored.blocks (Bytes.ofNatLE k n ++ x)

def content (data : Bytes) : Bytes :=
  Stored.readBlocks (if isZSTDCompress data then data.drop Stored.frameHeader.length else data)

/-- The compressor and the decompressor count the inputs since their last reset. -/
def zstd : Zstd where
  Cctx := Nat
  Dctx := Nat
  createCStream := 0
  createDStream := 0
  resetC := fun _ => 0
  resetD := fun _ => 0
  compressBound := fun n => Stored.frameHeader.length + 4 * (k + n)
  compressStream2 := fun n x size =>
    if (encode k n x).length ≤ size then (n + 1, some (encode k n x)) else (n, none)
  decompressStream := fun d data room =>
    if (content data).take k = Bytes.ofNatLE k d then
      (d + 1, some (((content data).drop k).take room))
    else (d, none)

section Encode

variable {k}

theorem encode_zero (x : Bytes) :
    encode k 0 x = Stored.frameHeader ++ Stored.blocks (Bytes.ofNatLE k 0 ++ x) := rfl

theorem encode_of_ne_zero {n : Nat} (hn : n ≠ 0) (x : Bytes) :
    encode k n x = Stored.blocks (Bytes.ofNatLE k n ++ x) := by
  rw [encode, if_neg hn, List.nil_append]

theorem magic_encode_zero (x : Bytes) : [0x28, 0xb5, 0x2f, 0xfd] <+: encode k 0 x :=
  ⟨[0x00, 0x58] ++ Stored.blocks (Bytes.ofNatLE k 0 ++ x), rfl⟩

theorem block_encode {n : Nat} (hn : n ≠ 0) (x : Bytes) : StartsWithBlock (encode k n x) := by
  rw [encode_of_ne_zero hn]
  exact Stored.startsWithBlock_blocks _

theorem isZSTDCompress_encode (n : Nat) (x : Bytes) :
    isZSTDCompress (encode k n x) = decide (n = 0) := by
  by_cases hn : n = 0
  · subst hn
    exact isZSTDCompress_of_magic (magic_encode_zero x)
  · rw [isZSTDCompress_of_block (block_encode hn x), decide_eq_false hn]

theorem content_encode (n : Nat) (x : Bytes) :
    content (encode k n x) = Bytes.ofNatLE k n ++ x := by
  rw [content, isZSTDCompress_encode]
  by_cases hn : n = 0
  · subst hn
    rw [decide_eq_true rfl, if_pos rfl, encode_zero, List.drop_left' rfl, Stored.readBlocks_blocks]
  · rw [decide_eq_false hn, if_neg Bool.false_ne_true, encode_of_ne_zero hn,
      Stored.readBlocks_blocks]

theorem encode_ne_nil (n : Nat) (x : Bytes) : encode k n x ≠ [] := by
  intro empty
  by_cases hn : n = 0
  · subst hn
    have hlength := (magic_encode_zero (k := k) x).length_le
    rw [empty] at hlength
    exact absurd hlength (by decide)
  · have hheader := (block_encode (k := k) hn x).header
    rw [empty] at hheader
    exact absurd hheader (by decide)

theorem length_encode_le (n : Nat) {x : Bytes} (hx : x ≠ []) :
    (encode k n x).length ≤ (zstd k).compressBound x.length := by
  have hpos := List.length_pos_of_ne_nil hx
  have hlength : (Bytes.ofNatLE k n ++ x).length = k + x.length := by
    rw [List.length_append, Bytes.length_ofNatLE]
  have hblocks := Stored.length_blocks_le (Bytes.ofNatLE k n ++ x) (by omega)
  have hbound : (zstd k).compressBound x.length = Stored.frameHeader.length + 4 * (k + x.length) :=
    rfl
  have hheader : (if n = 0 then Stored.frameHeader else []).length ≤ Stored.frameHeader.length := by
    split
    · exact Nat.le_refl _
    · exact Nat.zero_le _
  rw [encode, List.length_append]
  omega

theorem compressStream2_eq (n : Nat) {x : Bytes} {size : Nat} (hx : x ≠ [])
    (hsize : (zstd k).compressBound x.length ≤ size) :
    (zstd k).compressStream2 n x size = (n + 1, some (encode k n x)) :=
  if_pos (Nat.le_trans (length_encode_le n hx) hsize)

theorem decompressStream_encode (d n : Nat) (x : Bytes) (room : Nat) :
    (zstd k).decompressStream d (encode k n x) room =
      if Bytes.ofNatLE k n = Bytes.ofNatLE k d then (d + 1, some (x.take room)) else (d, none) := by
  have hlength := Bytes.length_ofNatLE k n
  show (if (content (encode k n x)).take k = Bytes.ofNatLE k d then
    (d + 1, some (((content (encode k n x)).drop k).take room)) else (d, none)) = _
  rw [content_encode, List.take_left' hlength, List.drop_left' hlength]

end Encode

private theorem compressed_eq {n next : Nat} {x data : Bytes} {size : Nat} (hx : x ≠ [])
    (hsize : (zstd k).compressBound x.length ≤ size)
    (h : (zstd k).compressStream2 n x size = (next, some data)) :
    next = n + 1 ∧ data = encode k n x := by
  have heq := (compressStream2_eq n hx hsize).symm.trans h
  exact ⟨(Prod.mk.inj heq).1.symm, (Option.some.inj (Prod.mk.inj heq).2).symm⟩

def stream : (zstd k).Stream where
  atStart := fun n => n = (0 : Nat)
  follows := fun n d => d = n
  atStart_create := rfl
  atStart_reset := fun _ => rfl
  follows_reset := fun _ _ hstart => hstart.symm
  flushes := fun n x _ hx hsize => ⟨_, _, compressStream2_eq n hx hsize⟩
  magic := by
    intro (n : Nat) x size next data hx hsize (hstart : n = 0) h
    rw [(compressed_eq k hx hsize h).2, hstart]
    exact magic_encode_zero x
  block := by
    intro (n : Nat) x size next data hx hsize (hstart : ¬ n = 0) h
    rw [(compressed_eq k hx hsize h).2]
    exact block_encode hstart x
  decompresses := by
    intro (n : Nat) (d : Nat) x size next data room hx hsize (hfollows : d = n) h hroom
    obtain ⟨hnext, hdata⟩ := compressed_eq k hx hsize h
    subst hfollows
    refine ⟨next, ?_, rfl⟩
    rw [hdata, decompressStream_encode, if_pos rfl, List.take_of_length_le hroom, hnext]
    rfl
  bounded := by
    intro (d : Nat) data room next output h
    change (if (content data).take k = Bytes.ofNatLE k d then
      (d + 1, some (((content data).drop k).take room)) else (d, none)) = _ at h
    split at h
    · rw [← Option.some.inj (Prod.mk.inj h).2, List.length_take]
      exact Nat.min_le_left _ _
    · cases (Prod.mk.inj h).2

section Calls

variable {k}

def taken (c : ZstdCompress (zstd k)) : Nat := c.cctx

def given (d : ZstdCompress (zstd k)) : Nat := d.dctx

theorem compress_eq (c : ZstdCompress (zstd k)) {x : Bytes} {size : Nat} (hx : x ≠ [])
    (hsize : (zstd k).compressBound x.length ≤ size) :
    c.compress x size = (⟨Nat.succ c.cctx, c.dctx⟩, encode k (taken c) x) :=
  ZstdCompress.compress_of_flushes hx (compressStream2_eq c.cctx hx hsize)

variable (impl : StringImpl) (d : ZstdCompress (zstd k)) (x : Bytes)

theorem decompress_first :
    d.decompress impl (encode k 0 x) = (⟨d.cctx, (1 : Nat)⟩, x.take (outputCapacity impl)) := by
  have hempty : ¬ (encode k 0 x).isEmpty = true := by
    rw [List.isEmpty_iff]
    exact encode_ne_nil 0 x
  rw [ZstdCompress.decompress, if_neg hempty, isZSTDCompress_encode, decide_eq_true rfl,
    if_pos rfl]
  have hdecompress := decompressStream_encode (k := k) 0 0 x (outputCapacity impl)
  rw [if_pos rfl] at hdecompress
  simp only [ZstdCompress.resetDecompressStream]
  rw [show (zstd k).resetD d.dctx = (0 : Nat) from rfl, hdecompress]

theorem decompress_later {n : Nat} (hn : n ≠ 0) :
    d.decompress impl (encode k n x) =
      if Bytes.ofNatLE k n = Bytes.ofNatLE k (given d) then
        (⟨d.cctx, Nat.succ d.dctx⟩, x.take (outputCapacity impl))
      else (d, []) := by
  have hempty : ¬ (encode k n x).isEmpty = true := by
    rw [List.isEmpty_iff]
    exact encode_ne_nil n x
  rw [ZstdCompress.decompress, if_neg hempty, isZSTDCompress_encode, decide_eq_false hn,
    if_neg Bool.false_ne_true]
  have hdecompress : (zstd k).decompressStream d.dctx (encode k n x) (outputCapacity impl) = _ :=
    decompressStream_encode (given d) n x (outputCapacity impl)
  simp only [hdecompress]
  by_cases due : Bytes.ofNatLE k n = Bytes.ofNatLE k (given d)
  · simp only [if_pos due]
    rfl
  · simp only [if_neg due]
    rfl

end Calls

end FlashLog.Compress.Numbered
