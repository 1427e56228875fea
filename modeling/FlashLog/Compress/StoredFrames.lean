import FlashLog.Compress.ZstdCompress

/-!
The zstd format with raw blocks only, the encoding zstd itself falls back on for data
it cannot shrink: an instance of the library's documented behaviour.
-/

set_option autoImplicit false
set_option relaxedAutoImplicit false

namespace FlashLog.Compress.Stored

open FlashLog.Support

def maxBlock : Nat := 128 * 1024

def block (bs : Bytes) : Bytes := Bytes.ofNatLE 3 (bs.length * 8) ++ bs

def blocks (x : Bytes) : Bytes :=
  if x.length ≤ maxBlock then block x
  else block (x.take maxBlock) ++ blocks (x.drop maxBlock)
termination_by x.length
decreasing_by
  have hpos : 0 < maxBlock := by decide
  rw [List.length_drop]
  omega

/-- The magic number, and a header of an unknown content size and a 2 MiB window. -/
def frameHeader : Bytes := [0x28, 0xb5, 0x2f, 0xfd, 0x00, 0x58]

def readBlocks (data : Bytes) : Bytes :=
  if data.length < 3 then []
  else
    let size := Bytes.toNatLE (data.take 3) / 8
    (data.drop 3).take size ++ readBlocks (data.drop (3 + size))
termination_by data.length
decreasing_by
  rw [List.length_drop]
  omega

/-- The decompressor: whether it is inside a frame, and what an output had no room for. -/
structure Dctx where
  inFrame : Bool
  pending : Bytes

def encode (started : Bool) (x : Bytes) : Bytes :=
  if started then blocks x else frameHeader ++ blocks x

def decode (d : Dctx) (data : Bytes) : Bytes :=
  d.pending ++ readBlocks (if d.inFrame then data else data.drop frameHeader.length)

/-- The compressor's state is whether it is inside a frame. -/
def zstd : Zstd where
  Cctx := Bool
  Dctx := Dctx
  createCStream := false
  createDStream := ⟨false, []⟩
  resetC := fun _ => false
  resetD := fun _ => ⟨false, []⟩
  compressBound := fun n => frameHeader.length + 4 * n
  compressStream2 := fun started x size =>
    if (encode started x).length ≤ size then (true, some (encode started x)) else (started, none)
  decompressStream := fun d data room =>
    (⟨true, (decode d data).drop room⟩, some ((decode d data).take room))

section Blocks

theorem length_block (bs : Bytes) : (block bs).length = 3 + bs.length := by
  rw [block, List.length_append, Bytes.length_ofNatLE]

theorem take_block (bs rest : Bytes) :
    (block bs ++ rest).take 3 = Bytes.ofNatLE 3 (bs.length * 8) := by
  rw [block, List.append_assoc]
  exact List.take_left' (Bytes.length_ofNatLE 3 _)

theorem header_block {bs : Bytes} (h : bs.length ≤ maxBlock) (rest : Bytes) :
    Bytes.toNatLE ((block bs ++ rest).take 3) = bs.length * 8 := by
  have hsmall : bs.length * 8 < 256 ^ 3 :=
    Nat.lt_of_le_of_lt (Nat.mul_le_mul_right 8 h) (by decide)
  rw [take_block, Bytes.toNatLE_ofNatLE, Nat.mod_eq_of_lt hsmall]

theorem readBlocks_block {bs : Bytes} (h : bs.length ≤ maxBlock) (rest : Bytes) :
    readBlocks (block bs ++ rest) = bs ++ readBlocks rest := by
  have hlong : ¬ (block bs ++ rest).length < 3 := by
    rw [List.length_append, length_block]
    omega
  have hdrop : (block bs ++ rest).drop 3 = bs ++ rest := by
    rw [block, List.append_assoc]
    exact List.drop_left' (Bytes.length_ofNatLE 3 _)
  have hrest : (block bs ++ rest).drop (3 + bs.length) = rest :=
    List.drop_left' (length_block bs)
  rw [readBlocks, if_neg hlong]
  simp only [header_block h, Nat.mul_div_cancel _ (by decide : 0 < 8), hdrop, hrest]
  rw [List.take_left' rfl]

theorem readBlocks_nil : readBlocks [] = [] := by
  rw [readBlocks, if_pos (by decide)]

theorem readBlocks_blocks (x : Bytes) : readBlocks (blocks x) = x := by
  fun_induction blocks x with
  | case1 x hle =>
    have hread := readBlocks_block hle []
    rw [List.append_nil, readBlocks_nil, List.append_nil] at hread
    exact hread
  | case2 x hgt ih =>
    have htake : (x.take maxBlock).length ≤ maxBlock := by
      rw [List.length_take]
      exact Nat.min_le_left _ _
    rw [readBlocks_block htake, ih, List.take_append_drop]

theorem startsWithBlock_block {bs : Bytes} (h : bs.length ≤ maxBlock) (rest : Bytes) :
    StartsWithBlock (block bs ++ rest) := by
  refine ⟨?_, ?_, ?_⟩
  · rw [List.length_append, length_block]
    omega
  · rw [header_block h]
    omega
  · rw [header_block h, Nat.mul_div_cancel _ (by decide)]
    exact h

theorem startsWithBlock_blocks (x : Bytes) : StartsWithBlock (blocks x) := by
  rw [blocks]
  split
  · rename_i hle
    have hstarts := startsWithBlock_block hle []
    rw [List.append_nil] at hstarts
    exact hstarts
  · refine startsWithBlock_block ?_ _
    rw [List.length_take]
    exact Nat.min_le_left _ _

theorem length_blocks_le (x : Bytes) (hx : 1 ≤ x.length) : (blocks x).length ≤ 4 * x.length := by
  fun_induction blocks x with
  | case1 x hle =>
    rw [length_block]
    omega
  | case2 x hgt ih =>
    have hpos : 1 ≤ maxBlock := by decide
    have hlen : (x.drop maxBlock).length = x.length - maxBlock := List.length_drop
    have hrest := ih (by omega)
    rw [List.length_append, length_block, List.length_take]
    omega

end Blocks

private theorem length_encode_le (started : Bool) {x : Bytes} (hx : x ≠ []) :
    (encode started x).length ≤ zstd.compressBound x.length := by
  have hblocks := length_blocks_le x (List.length_pos_of_ne_nil hx)
  have hbound : zstd.compressBound x.length = frameHeader.length + 4 * x.length := rfl
  rw [hbound, encode]
  split
  · omega
  · rw [List.length_append]
    omega

private theorem compressStream2_eq (started : Bool) {x : Bytes} {size : Nat} (hx : x ≠ [])
    (hsize : zstd.compressBound x.length ≤ size) :
    zstd.compressStream2 started x size = (true, some (encode started x)) :=
  if_pos (Nat.le_trans (length_encode_le started hx) hsize)

private theorem compressed_eq (started : Bool) {x data : Bytes} {size : Nat} {next : Bool}
    (hx : x ≠ []) (hsize : zstd.compressBound x.length ≤ size)
    (h : zstd.compressStream2 started x size = (next, some data)) :
    next = true ∧ data = encode started x := by
  have heq := (compressStream2_eq started hx hsize).symm.trans h
  exact ⟨(Prod.mk.inj heq).1.symm, (Option.some.inj (Prod.mk.inj heq).2).symm⟩

private theorem decode_encode (started : Bool) (x : Bytes) :
    decode ⟨started, []⟩ (encode started x) = x := by
  cases started with
  | true =>
    show [] ++ readBlocks (blocks x) = x
    rw [List.nil_append, readBlocks_blocks]
  | false =>
    show [] ++ readBlocks ((frameHeader ++ blocks x).drop frameHeader.length) = x
    rw [List.nil_append, List.drop_left' rfl, readBlocks_blocks]

def stream : zstd.Stream where
  atStart := fun started => started = false
  follows := fun started d => d = ⟨started, []⟩
  atStart_create := rfl
  atStart_reset := fun _ => rfl
  follows_reset := by
    intro c d hstart
    rw [hstart]
    rfl
  flushes := fun started x size hx hsize =>
    ⟨true, encode started x, compressStream2_eq started hx hsize⟩
  magic := by
    intro (started : Bool) x size c' data hx hsize (hstart : started = false) h
    have hdata := compressed_eq started hx hsize h
    rw [hdata.2, hstart]
    exact ⟨[0x00, 0x58] ++ blocks x, rfl⟩
  block := by
    intro (started : Bool) x size c' data hx hsize (hstart : ¬ started = false) h
    have hdata := compressed_eq started hx hsize h
    have hinFrame : started = true := Bool.not_eq_false _ |>.mp hstart
    rw [hdata.2, hinFrame]
    exact startsWithBlock_blocks x
  decompresses := by
    intro (started : Bool) d x size c' data room hx hsize (hfollows : d = ⟨started, []⟩) h hroom
    obtain ⟨hnext, hdata⟩ := compressed_eq started hx hsize h
    have hdecode := decode_encode started x
    rw [← hdata, ← hfollows] at hdecode
    refine ⟨⟨true, []⟩, ?_, by rw [hnext]⟩
    show (Dctx.mk true ((decode d data).drop room), some ((decode d data).take room)) = _
    rw [hdecode, List.drop_of_length_le hroom, List.take_of_length_le hroom]
    rfl
  bounded := by
    intro d data room d' output h
    have houtput : (decode d data).take room = output := Option.some.inj (Prod.mk.inj h).2
    rw [← houtput, List.length_take]
    exact Nat.min_le_left _ _

end FlashLog.Compress.Stored
