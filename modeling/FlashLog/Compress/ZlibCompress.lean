import FlashLog.Support.Bytes
import FlashLog.Support.Loop

/-!
`ZlibCompress`: the log items of a sink as one zlib stream. Both directions call the library in
a loop that leaves when there is no input left, or when the library returns something else than
`Z_BUF_ERROR`. The library is a parameter.
-/

set_option autoImplicit false
set_option relaxedAutoImplicit false

namespace FlashLog.Compress

open FlashLog.Support
open FlashLog.Support.Loop (loop)

/-- What `deflate` and `inflate` return; `failed` stands for every other code. -/
inductive ReturnCode
  | ok
  | streamEnd
  | bufError
  | failed
  deriving DecidableEq

/-- One call of `deflate` or `inflate`: how much of `next_in` it took, what it wrote to
`next_out`, and the stream behind it. -/
structure ZlibCall (σ : Type) where
  ret : ReturnCode
  consumed : Nat
  output : Bytes
  next : σ

/-- The functions of the zlib library that the class calls, on an input and the space left for
the output. -/
structure Zlib where
  DeflateStream : Type
  InflateStream : Type
  /-- `deflateInit2` with the best compression, if it succeeds -/
  deflateInit2 : DeflateStream
  inflateInit2 : InflateStream
  /-- `deflate` with `Z_SYNC_FLUSH` -/
  deflate : DeflateStream → Bytes → Nat → ZlibCall DeflateStream
  inflate : InflateStream → Bytes → Nat → ZlibCall InflateStream

/-- `static_cast<uInt>`. -/
def uInt (size : Nat) : Nat := size % 2 ^ 32

/-- A stream with the buffers it is working on; `output` is what it has written so far. -/
structure ZStream (σ : Type) where
  stream : σ
  nextIn : Bytes
  availOut : Nat
  output : Bytes

def ZStream.after {σ : Type} (w : ZStream σ) (call : ZlibCall σ) : ZStream σ where
  stream := call.next
  nextIn := w.nextIn.drop call.consumed
  availOut := w.availOut - call.output.length
  output := w.output ++ call.output

structure ZlibCompress (z : Zlib) where
  deflateStream : Option z.DeflateStream
  inflateStream : Option z.InflateStream

namespace ZlibCompress

variable {z : Zlib}

def new : ZlibCompress z := ⟨none, none⟩

/-- `ResetStream`; `success` is how `deflateInit2` goes. -/
def resetStream (c : ZlibCompress z) (success : Bool) : ZlibCompress z :=
  { c with deflateStream := if success then some z.deflateInit2 else none }

def resetDecompressStream (c : ZlibCompress z) (success : Bool) : ZlibCompress z :=
  { c with inflateStream := if success then some z.inflateInit2 else none }

def isCompressed (data : Bytes) : Bool :=
  if data.length < 2 then false
  else
    let magic := Bytes.toNatLE (data.take 2)
    magic == 0x9c78 || magic == 0xda78 || magic == 0x5e78 || magic == 0x0178

variable (z) in
def compressRound (outputSize : Nat) (w : ZStream z.DeflateStream) :
    ZStream z.DeflateStream ⊕ (z.DeflateStream × Nat) :=
  let call := z.deflate w.stream w.nextIn w.availOut
  match call.ret with
  | .failed => .inr (call.next, 0)
  | .bufError => .inl (w.after call)
  | .ok | .streamEnd => .inr (call.next, outputSize - (w.after call).availOut)

/-- `Compress`, with fuel for its loop: the size it returns. `none` is a null pointer, and an
output is the size of its buffer. -/
def compress (fuel : Nat) (c : ZlibCompress z) (input : Option Bytes) (output : Option Nat) :
    Option (ZlibCompress z × Nat) :=
  match input, output with
  | some input, some outputSize =>
    match c.deflateStream with
    | none => some (c, 0)
    | some stream =>
      (loop (compressRound z outputSize) fuel
        ⟨stream, input.take (uInt input.length), uInt outputSize, []⟩).map fun r =>
          ({ c with deflateStream := some r.1 }, r.2)
  | _, _ => some (c, 0)

variable (z) in
/-- A round of `compress`, with the bytes that the loop leaves in the output buffer. -/
def compressRoundInto (outputSize : Nat) (w : ZStream z.DeflateStream) :
    ZStream z.DeflateStream ⊕ (z.DeflateStream × Nat × Bytes) :=
  match compressRound z outputSize w with
  | .inl next => .inl next
  | .inr (stream, size) =>
    .inr (stream, size, (w.after (z.deflate w.stream w.nextIn w.availOut)).output)

/-- `Compress` as its callers use it: of the output buffer, the bytes of the returned size. -/
def compressInto (fuel : Nat) (c : ZlibCompress z) (input : Option Bytes) (output : Option Nat) :
    Option (ZlibCompress z × Bytes) :=
  match input, output with
  | some input, some outputSize =>
    match c.deflateStream with
    | none => some (c, [])
    | some stream =>
      (loop (compressRoundInto z outputSize) fuel
        ⟨stream, input.take (uInt input.length), uInt outputSize, []⟩).map fun r =>
          ({ c with deflateStream := some r.1 }, r.2.2.take r.2.1)
  | _, _ => some (c, [])

variable (z) in
/-- One round of the loop in `Decompress`, with its buffer of 4096 bytes. -/
def decompressRound (w : ZStream z.InflateStream) :
    ZStream z.InflateStream ⊕ (z.InflateStream × Bytes) :=
  if w.nextIn.isEmpty then .inr (w.stream, w.output)
  else
    let call := z.inflate w.stream w.nextIn 4096
    match call.ret with
    | .ok | .streamEnd => .inl (w.after call)
    | .bufError | .failed => .inr (call.next, [])

/-- The object as the loop of `Decompress` finds it. -/
def readyFor (c : ZlibCompress z) (success : Bool) (data : Bytes) : ZlibCompress z :=
  if isCompressed data then c.resetDecompressStream success else c

/-- `Decompress`, with fuel for its loop; `success` is how `inflateInit2` goes. -/
def decompress (fuel : Nat) (c : ZlibCompress z) (success : Bool) (data : Option Bytes) :
    Option (ZlibCompress z × Bytes) :=
  match data with
  | none => some (c, [])
  | some data =>
    let c := c.readyFor success data
    match c.inflateStream with
    | none => some (c, [])
    | some stream =>
      (loop (decompressRound z) fuel ⟨stream, data.take (uInt data.length), 4096, []⟩).map fun r =>
        ({ c with inflateStream := some r.1 }, r.2)

end ZlibCompress

/-- What zlib documents of `inflate`, as long as it gets the memory it asks for. -/
structure Zlib.Inflation (z : Zlib) where
  /-- the bytes are all that is missing of the stream that the state is in the middle of -/
  completes : z.InflateStream → Bytes → Prop
  /-- how much a state has decoded and not written yet -/
  held : z.InflateStream → Nat
  /-- no stream is the beginning of another -/
  completes_unique : ∀ s bs more, completes s bs → completes s (bs ++ more) → more = []
  consumed_le : ∀ s input room, (z.inflate s input room).consumed ≤ input.length
  /-- `Z_OK` is progress -/
  progress : ∀ s input room, (z.inflate s input room).ret = .ok →
    0 < (z.inflate s input room).consumed ∨ (z.inflate s input room).output ≠ []
  /-- without input, only what is held is written -/
  held_output : ∀ s input room, (z.inflate s input room).ret = .ok →
    (z.inflate s input room).consumed = 0 →
    (z.inflate s input room).output.length + held (z.inflate s input room).next ≤ held s
  /-- the end of the stream is not passed -/
  within : ∀ s input room k, (z.inflate s input room).ret = .ok → completes s (input.take k) →
    (z.inflate s input room).consumed ≤ k
  /-- what is missing behind a call is what was missing less what it took -/
  rest : ∀ s input room bs, (z.inflate s input room).ret = .ok →
    (completes (z.inflate s input room).next bs ↔
      completes s (input.take (z.inflate s input room).consumed ++ bs))
  /-- `Z_STREAM_END` -/
  ended : ∀ s input room, (z.inflate s input room).ret = .streamEnd →
    completes s (input.take (z.inflate s input room).consumed) ∧
      completes (z.inflate s input room).next []
  /-- an input that begins with the rest of the stream is not refused -/
  accepted : ∀ s input room k, input ≠ [] → 0 < room → completes s (input.take k) →
    (z.inflate s input room).ret = .ok ∨ (z.inflate s input room).ret = .streamEnd

/-- What zlib documents of `deflate` with `Z_SYNC_FLUSH`. -/
structure Zlib.Deflation (z : Zlib) where
  /-- the last call has written all there is -/
  flushed : z.DeflateStream → Prop
  /-- no progress is possible -/
  bufError_iff : ∀ s input room, (z.deflate s input room).ret = .bufError ↔
    room = 0 ∨ input = [] ∧ flushed s
  unchanged : ∀ s input room, (z.deflate s input room).ret = .bufError →
    (z.deflate s input room).next = s ∧ (z.deflate s input room).consumed = 0 ∧
      (z.deflate s input room).output = []
  not_flushed_init : ¬ flushed z.deflateInit2
  /-- a call that does not fill its output has written all there is -/
  flushes : ∀ s input room, (z.deflate s input room).ret = .ok →
    (flushed (z.deflate s input room).next ↔ (z.deflate s input room).output.length < room)

/-- A byte that can begin a block of a deflate stream at the end of which more blocks follow:
not the last block, and zeros behind the type of a stored one. -/
def StartsBlock (b : UInt8) : Prop := b.toNat % 2 = 0 ∧ (b.toNat / 2 % 4 = 0 → b.toNat = 0)

/-- What zlib documents of streams that are flushed behind every input: `atStart` holds of a
compressor that has written nothing yet, and `between c d bs out` of a decompressor that has still
to take `bs` of all that the compressor has written, and to write `out` for it. -/
structure Zlib.Flushed (z : Zlib) where
  atStart : z.DeflateStream → Prop
  between : z.DeflateStream → z.InflateStream → Bytes → Bytes → Prop
  /-- an output that a flush of so many bytes does not fill -/
  room : Nat → Nat
  atStart_init : atStart z.deflateInit2
  between_init : ∀ c, atStart c → between c z.inflateInit2 [] []
  /-- a flush into enough room takes its whole input -/
  flushes : ∀ c x size, x ≠ [] → room x.length ≤ size →
    (z.deflate c x size).ret = .ok ∧ (z.deflate c x size).output.length ≤ size ∧
      ¬ atStart (z.deflate c x size).next
  /-- the stream begins with its header, for the best compression -/
  header : ∀ c x size, x ≠ [] → room x.length ≤ size → atStart c →
    [0x78, 0xda] <+: (z.deflate c x size).output
  /-- behind a flush the next output begins with a block, at a whole byte -/
  block : ∀ c x size, x ≠ [] → room x.length ≤ size → ¬ atStart c →
    ∃ b bs, (z.deflate c x size).output = b :: bs ∧ StartsBlock b
  /-- the output of a flush is what stands for the input -/
  encodes : ∀ c d x size, x ≠ [] → room x.length ≤ size → between c d [] [] →
    between (z.deflate c x size).next d (z.deflate c x size).output x
  /-- a flush ends in a block without contents, so its last byte is taken after all is written -/
  whole : ∀ c d out, between c d [] out → out = []
  /-- `inflate` goes on, and writes the beginning of what is to be written -/
  decodes : ∀ c d bs out size, between c d bs out → bs ≠ [] → 0 < size →
    (z.inflate d bs size).ret = .ok ∧ (z.inflate d bs size).consumed ≤ bs.length ∧
      (0 < (z.inflate d bs size).consumed ∨ (z.inflate d bs size).output ≠ []) ∧
      (z.inflate d bs size).output <+: out ∧
      between c (z.inflate d bs size).next (bs.drop (z.inflate d bs size).consumed)
        (out.drop (z.inflate d bs size).output.length)

end FlashLog.Compress
