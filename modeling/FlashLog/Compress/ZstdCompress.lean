import FlashLog.Mmap.MemoryBuffer

/-!
`ZstdCompress`: the log items of a sink form one compressed stream, decompressed item
by item. The zstd library is a parameter; `Zstd.Stream` states what its documentation
promises of a flushed stream.
-/

set_option autoImplicit false
set_option relaxedAutoImplicit false

namespace FlashLog.Compress

open FlashLog.Support
open FlashLog.Mmap (StringImpl StdString)

/-- The functions of the zstd library that the class calls. `createCStream` includes the
setting of the compression level, which a session reset keeps. -/
structure Zstd where
  Cctx : Type
  Dctx : Type
  createCStream : Cctx
  createDStream : Dctx
  /-- `ZSTD_CCtx_reset` with `ZSTD_reset_session_only` -/
  resetC : Cctx → Cctx
  /-- `ZSTD_DCtx_reset` with `ZSTD_reset_session_only` -/
  resetD : Dctx → Dctx
  compressBound : Nat → Nat
  /-- `ZSTD_compressStream2` with `ZSTD_e_flush` into an output of the given size: an
  error, or the bytes it puts there -/
  compressStream2 : Cctx → Bytes → Nat → Cctx × Option Bytes
  /-- one call of `ZSTD_decompressStream` into an output of the given size -/
  decompressStream : Dctx → Bytes → Nat → Dctx × Option Bytes

structure ZstdCompress (z : Zstd) where
  cctx : z.Cctx
  dctx : z.Dctx

namespace ZstdCompress

variable {z : Zstd}

def new : ZstdCompress z := ⟨z.createCStream, z.createDStream⟩

def resetStream (c : ZstdCompress z) : ZstdCompress z := { c with cctx := z.resetC c.cctx }

def resetDecompressStream (c : ZstdCompress z) : ZstdCompress z :=
  { c with dctx := z.resetD c.dctx }

def kMagicNumberBigEndian : Bytes := [0x28, 0xb5, 0x2f, 0xfd]

def kMagicNumberLittleEndian : Bytes := [0xfd, 0x2f, 0xb5, 0x28]

def isZSTDCompress (data : Bytes) : Bool :=
  if data.length < 4 then false
  else data.take 4 == kMagicNumberBigEndian || data.take 4 == kMagicNumberLittleEndian

/-- `Compress`: the bytes put into the output, as many as the call returns. -/
def compress (c : ZstdCompress z) (input : Bytes) (outputSize : Nat) : ZstdCompress z × Bytes :=
  if input.isEmpty then (c, [])
  else
    match z.compressStream2 c.cctx input outputSize with
    | (cctx, none) => ({ c with cctx }, [])
    | (cctx, some output) => ({ c with cctx }, output)

/-- `output.capacity()` after `output.reserve(1024 * 10)`. -/
def outputCapacity (impl : StringImpl) : Nat :=
  ((StdString.empty impl).reserve impl (1024 * 10)).capacity

theorem le_outputCapacity (impl : StringImpl) : 1024 * 10 ≤ outputCapacity impl :=
  StdString.le_capacity_reserve impl _ _

theorem outputCapacity_libstdcxx : outputCapacity .libstdcxx = 10240 := by
  have hsmall : ¬ 1024 * 10 ≤ (StdString.empty .libstdcxx).capacity := by decide
  rw [outputCapacity, StdString.reserve, dif_neg hsmall, StdString.capacity_reallocate]
  rfl

def decompress (impl : StringImpl) (c : ZstdCompress z) (data : Bytes) : ZstdCompress z × Bytes :=
  if data.isEmpty then (c, [])
  else
    let c := if isZSTDCompress data then c.resetDecompressStream else c
    match z.decompressStream c.dctx data (outputCapacity impl) with
    | (dctx, none) => ({ c with dctx }, [])
    | (dctx, some output) => ({ c with dctx }, output)

end ZstdCompress

/-- A block header of three bytes: the block is not the last one of its frame and holds at
most 128 KiB. -/
structure StartsWithBlock (data : Bytes) : Prop where
  header : 3 ≤ data.length
  notLast : Bytes.toNatLE (data.take 3) % 2 = 0
  size : Bytes.toNatLE (data.take 3) / 8 ≤ 128 * 1024

/-- What zstd documents of flushed streams, for nonempty inputs: `atStart` holds of a
compressor that has put out nothing since its creation or last reset, `follows` of a
decompressor that has put out all that the compressor took in since then. -/
structure Zstd.Stream (z : Zstd) where
  atStart : z.Cctx → Prop
  follows : z.Cctx → z.Dctx → Prop
  atStart_create : atStart z.createCStream
  atStart_reset : ∀ c, atStart (z.resetC c)
  follows_reset : ∀ c d, atStart c → follows c (z.resetD d)
  /-- an output of at least the bound takes the whole encoding -/
  flushes : ∀ c x size, x ≠ [] → z.compressBound x.length ≤ size →
    ∃ c' data, z.compressStream2 c x size = (c', some data)
  magic : ∀ c x size c' data, x ≠ [] → z.compressBound x.length ≤ size → atStart c →
    z.compressStream2 c x size = (c', some data) → [0x28, 0xb5, 0x2f, 0xfd] <+: data
  block : ∀ c x size c' data, x ≠ [] → z.compressBound x.length ≤ size → ¬ atStart c →
    z.compressStream2 c x size = (c', some data) → StartsWithBlock data
  /-- a decompressor that follows gives back an input that its output has room for -/
  decompresses : ∀ c d x size c' data room, x ≠ [] → z.compressBound x.length ≤ size →
    follows c d → z.compressStream2 c x size = (c', some data) → x.length ≤ room →
    ∃ d', z.decompressStream d data room = (d', some x) ∧ follows c' d'
  bounded : ∀ d data room d' output, z.decompressStream d data room = (d', some output) →
    output.length ≤ room

end FlashLog.Compress
