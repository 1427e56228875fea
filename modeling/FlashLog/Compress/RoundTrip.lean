import FlashLog.Compress.StoredFrames

/-!
The round trip through a compressing and a decompressing `ZstdCompress`: the first bytes
of an item decide whether `Decompress` resets, and one call fills one output buffer.
-/

set_option autoImplicit false
set_option relaxedAutoImplicit false

namespace FlashLog.Compress

open FlashLog.Support
open FlashLog.Mmap (StringImpl)

/-- A call on the compressing side; an input comes with an output that exceeds
`CompressBound` by `spare` bytes. -/
inductive Call
  | resetStream
  | compress (input : Bytes) (spare : Nat)

def inputs : List Call → List Bytes
  | [] => []
  | .resetStream :: calls => inputs calls
  | .compress input _ :: calls => input :: inputs calls

namespace ZstdCompress

section RoundTrip

variable {z : Zstd}

def items : ZstdCompress z → List Call → List Bytes
  | _, [] => []
  | c, .resetStream :: calls => items c.resetStream calls
  | c, .compress input spare :: calls =>
    let (c, item) := c.compress input (z.compressBound input.length + spare)
    item :: items c calls

def decompressAll (impl : StringImpl) : ZstdCompress z → List Bytes → List Bytes
  | _, [] => []
  | c, item :: rest =>
    let (c, output) := c.decompress impl item
    output :: decompressAll impl c rest

def after (impl : StringImpl) : ZstdCompress z → List Bytes → ZstdCompress z
  | c, [] => c
  | c, item :: rest => after impl (c.decompress impl item).1 rest

theorem after_append (impl : StringImpl) (c : ZstdCompress z) (data more : List Bytes) :
    after impl c (data ++ more) = after impl (after impl c data) more := by
  induction data generalizing c with
  | nil => rfl
  | cons item rest ih => exact ih _

theorem decompressAll_append (impl : StringImpl) (c : ZstdCompress z) (data more : List Bytes) :
    decompressAll impl c (data ++ more) =
      decompressAll impl c data ++ decompressAll impl (after impl c data) more := by
  induction data generalizing c with
  | nil => rfl
  | cons item rest ih =>
    simp only [List.cons_append, decompressAll, ih]
    rfl

theorem length_decompressAll (impl : StringImpl) (c : ZstdCompress z) (data : List Bytes) :
    (decompressAll impl c data).length = data.length := by
  induction data generalizing c with
  | nil => rfl
  | cons item rest ih => exact congrArg (· + 1) (ih _)

theorem isZSTDCompress_of_magic {data : Bytes} (h : [0x28, 0xb5, 0x2f, 0xfd] <+: data) :
    isZSTDCompress data = true := by
  obtain ⟨rest, rfl⟩ := h
  have hlen : ¬ ([0x28, 0xb5, 0x2f, 0xfd] ++ rest : Bytes).length < 4 := by
    rw [List.length_append]
    exact Nat.not_lt.mpr (Nat.le_add_right 4 _)
  rw [isZSTDCompress, if_neg hlen]
  rfl

/-- Neither byte order of the magic number can begin a block. -/
theorem isZSTDCompress_of_block {data : Bytes} (h : StartsWithBlock data) :
    isZSTDCompress data = false := by
  have htake : ∀ magic : Bytes, data.take 4 = magic → data.take 3 = magic.take 3 := by
    intro magic heq
    rw [← heq, List.take_take]
    rfl
  rw [isZSTDCompress]
  split
  · rfl
  · have hbig : data.take 4 ≠ kMagicNumberBigEndian := by
      intro heq
      have hsize := h.size
      rw [htake _ heq] at hsize
      exact absurd hsize (by decide)
    have hlittle : data.take 4 ≠ kMagicNumberLittleEndian := by
      intro heq
      have hlast := h.notLast
      rw [htake _ heq] at hlast
      exact absurd hlast (by decide)
    rw [Bool.or_eq_false_iff]
    exact ⟨beq_eq_false_iff_ne.mpr hbig, beq_eq_false_iff_ne.mpr hlittle⟩

theorem compress_of_flushes {c : ZstdCompress z} {x : Bytes} {size : Nat} {c' : z.Cctx}
    {data : Bytes} (hx : x ≠ []) (h : z.compressStream2 c.cctx x size = (c', some data)) :
    c.compress x size = ({ c with cctx := c' }, data) := by
  have hempty : ¬ x.isEmpty = true := by
    rw [List.isEmpty_iff]
    exact hx
  rw [compress, if_neg hempty, h]

theorem compress_ne_nil (stream : z.Stream) (c : ZstdCompress z) {x : Bytes} {size : Nat}
    (hx : x ≠ []) (hsize : z.compressBound x.length ≤ size) : (c.compress x size).2 ≠ [] := by
  obtain ⟨cctx, data, hflush⟩ := stream.flushes c.cctx x size hx hsize
  rw [compress_of_flushes hx hflush]
  intro (empty : data = [])
  subst empty
  by_cases hstart : stream.atStart c.cctx
  · have hmagic := stream.magic _ _ _ _ _ hx hsize hstart hflush
    exact absurd hmagic.length_le (by decide)
  · have hblock := stream.block _ _ _ _ _ hx hsize hstart hflush
    exact absurd hblock.header (by decide)

/-- The decompressing side is ready for the compressing side's next item. -/
def InStep (stream : z.Stream) (c d : ZstdCompress z) : Prop :=
  stream.atStart c.cctx ∨ stream.follows c.cctx d.dctx

/-- `Decompress` resets its stream exactly at a frame's first item, so a side in step
gives back an input that fits. -/
theorem decompress_inStep (stream : z.Stream) (impl : StringImpl) {c d : ZstdCompress z} {x : Bytes}
    {size : Nat} (inStep : InStep stream c d) (hx : x ≠ [])
    (hsize : z.compressBound x.length ≤ size) (hfits : x.length ≤ outputCapacity impl) :
    ∃ c' item d', c.compress x size = (c', item) ∧ d.decompress impl item = (d', x) ∧
      InStep stream c' d' := by
  obtain ⟨cctx, data, hflush⟩ := stream.flushes c.cctx x size hx hsize
  have hcompress := compress_of_flushes hx hflush
  by_cases hstart : stream.atStart c.cctx
  · have hmagic := stream.magic _ _ _ _ _ hx hsize hstart hflush
    have hfollows := stream.follows_reset c.cctx d.dctx hstart
    obtain ⟨dctx, hdecompress, hnext⟩ :=
      stream.decompresses _ _ _ _ _ _ _ hx hsize hfollows hflush hfits
    have hempty : ¬ data.isEmpty = true := by
      obtain ⟨rest, rfl⟩ := hmagic
      exact Bool.false_ne_true
    refine ⟨_, data, ⟨d.cctx, dctx⟩, hcompress, ?_, Or.inr hnext⟩
    rw [decompress, if_neg hempty, isZSTDCompress_of_magic hmagic, if_pos rfl]
    simp only [resetDecompressStream, hdecompress]
  · have hblock := stream.block _ _ _ _ _ hx hsize hstart hflush
    have hfollows := inStep.resolve_left hstart
    obtain ⟨dctx, hdecompress, hnext⟩ :=
      stream.decompresses _ _ _ _ _ _ _ hx hsize hfollows hflush hfits
    have hempty : ¬ data.isEmpty = true := by
      intro hnil
      have hheader := hblock.header
      rw [List.isEmpty_iff.mp hnil] at hheader
      exact absurd hheader (by decide)
    refine ⟨_, data, ⟨d.cctx, dctx⟩, hcompress, ?_, Or.inr hnext⟩
    rw [decompress, if_neg hempty, isZSTDCompress_of_block hblock, if_neg Bool.false_ne_true]
    simp only [hdecompress]

theorem length_decompress (stream : z.Stream) (impl : StringImpl) (d : ZstdCompress z)
    (item : Bytes) : (d.decompress impl item).2.length ≤ outputCapacity impl := by
  rw [decompress]
  split
  · exact Nat.zero_le _
  · dsimp only
    split
    · exact Nat.zero_le _
    · rename_i hdecompress
      exact stream.bounded _ _ _ _ _ hdecompress

private theorem decompressAll_of_fits (stream : z.Stream) (impl : StringImpl) (calls : List Call)
    {c d : ZstdCompress z} (inStep : InStep stream c d) (nonempty : ∀ x ∈ inputs calls, x ≠ [])
    (fits : ∀ x ∈ inputs calls, x.length ≤ outputCapacity impl) :
    decompressAll impl d (items c calls) = inputs calls := by
  induction calls generalizing c d with
  | nil => rfl
  | cons call calls ih =>
    cases call with
    | resetStream => exact ih (Or.inl (stream.atStart_reset _)) nonempty fits
    | compress input spare =>
      have hmem : input ∈ inputs (.compress input spare :: calls) := List.mem_cons_self
      obtain ⟨c', item, d', hcompress, hdecompress, hnext⟩ :=
        decompress_inStep stream impl inStep (nonempty input hmem)
          (Nat.le_add_right (z.compressBound input.length) spare) (fits input hmem)
      have hrest := ih hnext (fun x hx => nonempty x (List.mem_cons_of_mem _ hx))
        (fun x hx => fits x (List.mem_cons_of_mem _ hx))
      simp only [items, hcompress, decompressAll, hdecompress, hrest, inputs]

private theorem length_of_mem_decompressAll (stream : z.Stream) (impl : StringImpl)
    (data : List Bytes) (d : ZstdCompress z) :
    ∀ output ∈ decompressAll impl d data, output.length ≤ outputCapacity impl := by
  induction data generalizing d with
  | nil =>
    intro output houtput
    cases houtput
  | cons item rest ih =>
    intro output houtput
    rcases List.mem_cons.mp houtput with rfl | hrest
    · exact length_decompress stream impl d item
    · exact ih _ output hrest

/-- Decompressing the items one by one gives back the inputs if and only if no input is
longer than the one output buffer of `Decompress`. -/
theorem decompressAll_items_iff (stream : z.Stream) (impl : StringImpl) (calls : List Call)
    (nonempty : ∀ x ∈ inputs calls, x ≠ []) :
    decompressAll impl (new : ZstdCompress z) (items (new : ZstdCompress z) calls) = inputs calls ↔
      ∀ x ∈ inputs calls, x.length ≤ outputCapacity impl := by
  constructor
  · intro roundTrip x hx
    rw [← roundTrip] at hx
    exact length_of_mem_decompressAll stream impl _ _ x hx
  · intro fits
    exact decompressAll_of_fits stream impl calls (Or.inl stream.atStart_create) nonempty fits

end RoundTrip

theorem decompressAll_items_iff_short :
    decompressAll .libstdcxx (new : ZstdCompress Stored.zstd)
        (items (new : ZstdCompress Stored.zstd)
          [.compress [1, 2, 3] 0, .compress [4] 7, .resetStream, .compress [5, 6] 0]) =
      [[1, 2, 3], [4], [5, 6]] := by
  refine (decompressAll_items_iff Stored.stream .libstdcxx
    [.compress [1, 2, 3] 0, .compress [4] 7, .resetStream, .compress [5, 6] 0]
    (by decide)).mpr ?_
  have short : ∀ x ∈ ([[1, 2, 3], [4], [5, 6]] : List Bytes), x.length ≤ 1024 * 10 := by decide
  intro x hx
  exact Nat.le_trans (short x hx) (le_outputCapacity .libstdcxx)

theorem decompressAll_cuts_long_input :
    decompressAll .libstdcxx (new : ZstdCompress Stored.zstd)
        (items (new : ZstdCompress Stored.zstd) [.compress (List.replicate 10241 0) 0]) ≠
      inputs [.compress (List.replicate 10241 0) 0] := by
  intro roundTrip
  have hlen := length_of_mem_decompressAll Stored.stream .libstdcxx
    (items new [.compress (List.replicate 10241 0) 0]) new (List.replicate 10241 0)
    (by rw [roundTrip]; exact List.mem_singleton.mpr rfl)
  rw [List.length_replicate, outputCapacity_libstdcxx] at hlen
  exact absurd hlen (by decide)

end ZstdCompress

end FlashLog.Compress
