import FlashLog.Sinks.Format

/-!
`DecodeFile`: the loop over the chunks of a log file and, in each, the loop over its items.
Sizes come from the file, offsets are of 64 bits, and only the first chunk header is checked
against the file's size: any other read may lie outside the content.

What happens to a payload is a parameter: the key agreement and `Decrypt` may throw,
`Decompress`, `ParseFromString` and `Format` may not.
-/

set_option autoImplicit false
set_option relaxedAutoImplicit false

namespace FlashLog.Decode

open FlashLog.Support
open FlashLog.Sinks

/-- What `DecodeChunkData` and `DecodeItemData` do with keys and payloads. `agree` is the key
agreement on the vector and the public key of a chunk, `decompress` works on the one global
decompressor, and `parse` also says whether the message was complete. -/
structure Codec where
  Key : Type
  Stream : Type
  Msg : Type
  agree : Bytes → Bytes → Option Key
  decrypt : Key → Bytes → Option Bytes
  decompress : Stream → Bytes → Stream × Bytes
  parse : Bytes → Msg × Bool
  format : Msg → Bytes

inductive DecodeError
  /-- `DecodeFile: data is too small` -/
  | tooSmall
  /-- `DecodeChunkData: chunkHeader magic invalid` -/
  | chunkMagic
  /-- `Failed to generate shared key` -/
  | keyAgreement
  /-- `DecodeItemData: itemHeader magic invalid` -/
  | itemMagic
  /-- an exception of `Decrypt` -/
  | decrypt
  /-- a read outside the file's content, which the source does not check -/
  | outOfRange
  deriving DecidableEq

/-- What `ReadFile` returns: a vector of `char` holds less than 2^63 of them. -/
structure FileData where
  bytes : Bytes
  length_lt : bytes.length < 2 ^ 63

def FileData.read (file : FileData) (pos len : Nat) : Except DecodeError Bytes :=
  if pos + len ≤ file.bytes.length then .ok (Bytes.slice file.bytes pos len)
  else .error .outOfRange

/-- `sizeof(ChunkHeader)`. -/
def chunkHeaderLength : Nat := 176

/-- One decoded item: its payload in the file, what `Decompress` was called with, and the
text that `Format` made of it. -/
structure Record where
  payload : Bytes
  decrypted : Bytes
  text : Bytes
  deriving DecidableEq

variable (c : Codec)

def decodeItemData (file : FileData) (pos : Nat) (key : c.Key) (st : c.Stream) :
    Except DecodeError (Nat × Record × c.Stream) := do
  let magic ← file.read pos 4
  if Bytes.toNatLE magic ≠ ItemHeader.kMagic then throw .itemMagic
  let size := Bytes.toNatLE (← file.read (pos + 4) 4)
  let payload ← file.read (pos + ItemHeader.length) size
  match c.decrypt key payload with
  | none => throw .decrypt
  | some decrypted =>
    let (st, decompressed) := c.decompress st decrypted
    let (msg, _) := c.parse decompressed
    return (ItemHeader.length + size, ⟨payload, decrypted, c.format msg⟩, st)

section Reads

theorem FileData.read_eq_ok {file : FileData} {pos len : Nat} {bs : Bytes} :
    file.read pos len = .ok bs ↔
      pos + len ≤ file.bytes.length ∧ bs = Bytes.slice file.bytes pos len := by
  rw [FileData.read]
  split
  · rename_i inside
    simp [inside, eq_comm]
  · rename_i outside
    simp [outside]

theorem bind_eq_ok {ε α β : Type} {x : Except ε α} {f : α → Except ε β} {b : β}
    (h : x >>= f = .ok b) : ∃ a, x = .ok a ∧ f a = .ok b := by
  cases x with
  | error e => cases h
  | ok a => exact ⟨a, rfl, h⟩

theorem decodeItemData_ok {file : FileData} {pos : Nat} {key : c.Key} {st : c.Stream}
    {out : Nat × Record × c.Stream} (h : decodeItemData c file pos key st = .ok out) :
    ItemHeader.length ≤ out.1 ∧ pos + out.1 ≤ file.bytes.length := by
  obtain ⟨magic, -, h⟩ := bind_eq_ok h
  split at h
  · cases h
  · obtain ⟨field, -, h⟩ := bind_eq_ok h
    obtain ⟨payload, hpayload, h⟩ := bind_eq_ok h
    have inside := (FileData.read_eq_ok.mp hpayload).1
    split at h
    · cases h
    · obtain rfl := Except.ok.inj h
      exact ⟨Nat.le_add_right _ _, by simpa [Nat.add_assoc] using inside⟩

end Reads

/-- The loop of `DecodeChunkData` over the `size` bytes of items at `chunkData`. -/
def decodeChunkItems (file : FileData) (chunkData size : Nat) (key : c.Key) (offset : Nat)
    (st : c.Stream) : Except DecodeError (List Record × c.Stream) :=
  if offset < size then
    match h : decodeItemData c file (chunkData + offset) key st with
    | .error e => .error e
    | .ok (itemSize, record, st) =>
      (decodeChunkItems file chunkData size key ((offset + itemSize) % 2 ^ 64) st).map
        fun (records, st) => (record :: records, st)
  else .ok ([], st)
termination_by file.bytes.length - (chunkData + offset)
decreasing_by
  have hitem := decodeItemData_ok c h
  have hpos : 0 < ItemHeader.length := by decide
  have hfile := file.length_lt
  rw [Nat.mod_eq_of_lt (by omega)]
  omega

section ItemLoop

variable {c} {file : FileData} {chunkData size : Nat} {key : c.Key} {offset : Nat} {st : c.Stream}

theorem decodeChunkItems_error (hmore : offset < size) {e : DecodeError}
    (h : decodeItemData c file (chunkData + offset) key st = .error e) :
    decodeChunkItems c file chunkData size key offset st = .error e := by
  rw [decodeChunkItems, if_pos hmore]
  split
  · rename_i e' h'
    rw [h] at h'
    obtain rfl := Except.error.inj h'
    rfl
  · rename_i h'
    rw [h] at h'
    cases h'

theorem decodeChunkItems_item (hmore : offset < size) {itemSize : Nat} {record : Record}
    {st' : c.Stream}
    (h : decodeItemData c file (chunkData + offset) key st = .ok (itemSize, record, st')) :
    decodeChunkItems c file chunkData size key offset st =
      (decodeChunkItems c file chunkData size key (offset + itemSize) st').map
        fun (records, st) => (record :: records, st) := by
  have inside := (decodeItemData_ok c h).2
  have hfile := file.length_lt
  rw [decodeChunkItems, if_pos hmore]
  split
  · rename_i h'
    rw [h] at h'
    cases h'
  · rename_i h'
    rw [h] at h'
    cases h'
    rw [Nat.mod_eq_of_lt (by omega)]

theorem decodeChunkItems_done (hdone : ¬ offset < size) :
    decodeChunkItems c file chunkData size key offset st = .ok ([], st) := by
  rw [decodeChunkItems, if_neg hdone]

theorem decodeChunkItems_ok {out : List Record × c.Stream}
    (h : decodeChunkItems c file chunkData size key offset st = .ok out) (hmore : offset < size) :
    chunkData + size ≤ file.bytes.length := by
  induction offset, st using decodeChunkItems.induct c file chunkData size key generalizing out with
  | case1 offset st _ e herror =>
    rw [decodeChunkItems_error hmore herror] at h
    cases h
  | case2 offset st _ itemSize record st' hitem ih =>
    obtain ⟨hsize, inside⟩ := decodeItemData_ok c hitem
    have hfile := file.length_lt
    rw [Nat.mod_eq_of_lt (by omega)] at ih
    rw [decodeChunkItems_item hmore hitem] at h
    by_cases hnext : offset + itemSize < size
    · cases hrest : decodeChunkItems c file chunkData size key (offset + itemSize) st' with
      | error e =>
        rw [hrest] at h
        cases h
      | ok rest => exact ih hrest hnext
    · omega
  | case3 offset st hdone => exact absurd hmore hdone

end ItemLoop

/-- `DecodeChunkData`: the bytes it counts, and its items. -/
def decodeChunkData (file : FileData) (pos : Nat) (st : c.Stream) :
    Except DecodeError (Nat × List Record × c.Stream) := do
  let magic ← file.read pos 8
  if Bytes.toNatLE magic ≠ ChunkHeader.kMagic then throw .chunkMagic
  let cryptoIv ← file.read (pos + 16) 17
  let cliPubKey ← file.read (pos + 48) 65
  match c.agree cryptoIv cliPubKey with
  | none => throw .keyAgreement
  | some key =>
    let size := Bytes.toNatLE (← file.read (pos + 8) 8)
    let (records, st) ← decodeChunkItems c file (pos + chunkHeaderLength) size key 0 st
    return ((chunkHeaderLength + size) % 2 ^ 64, records, st)

theorem decodeChunkData_ok {file : FileData} {pos : Nat} {st : c.Stream}
    {out : Nat × List Record × c.Stream} (h : decodeChunkData c file pos st = .ok out) :
    chunkHeaderLength ≤ out.1 ∧ pos + out.1 < 2 ^ 64 := by
  have hfile := file.length_lt
  obtain ⟨magic, -, h⟩ := bind_eq_ok h
  split at h
  · cases h
  · obtain ⟨cryptoIv, -, h⟩ := bind_eq_ok h
    obtain ⟨cliPubKey, hkey, h⟩ := bind_eq_ok h
    have inside := (FileData.read_eq_ok.mp hkey).1
    split at h
    · cases h
    · obtain ⟨field, -, h⟩ := bind_eq_ok h
      obtain ⟨items, hitems, h⟩ := bind_eq_ok h
      obtain rfl := Except.ok.inj h
      have hlength : chunkHeaderLength = 176 := rfl
      by_cases hmore : 0 < Bytes.toNatLE field
      · have hinside := decodeChunkItems_ok hitems hmore
        simp only
        omega
      · simp only
        omega

/-- A chunk that was decoded: where its header stands, what `DecodeChunkData` returned, and its
items. -/
structure DecodedChunk where
  offset : Nat
  size : Nat
  records : List Record

/-- How `DecodeFile` ends: the chunks whose text it has written, and what it throws. -/
structure Decoded where
  chunks : List DecodedChunk
  error : Option DecodeError

/-- What `WriteToFile` has appended to the output file. -/
def Decoded.output (decoded : Decoded) : Bytes :=
  decoded.chunks.flatMap fun chunk => chunk.records.flatMap fun record => record.text ++ [10]

/-- The loop of `DecodeFile`. -/
def decodeChunks (file : FileData) (offset : Nat) (st : c.Stream) : Decoded :=
  if offset < file.bytes.length then
    match h : decodeChunkData c file offset st with
    | .error e => ⟨[], some e⟩
    | .ok (chunkSize, records, st) =>
      let rest := decodeChunks file ((offset + chunkSize) % 2 ^ 64) st
      ⟨⟨offset, chunkSize, records⟩ :: rest.chunks, rest.error⟩
  else ⟨[], none⟩
termination_by file.bytes.length - offset
decreasing_by
  have hchunk := decodeChunkData_ok c h
  have hpos : 0 < chunkHeaderLength := by decide
  rw [Nat.mod_eq_of_lt hchunk.2]
  omega

/-- `DecodeFile`, on what `ReadFile` has read. -/
def decodeFile (file : FileData) (st : c.Stream) : Decoded :=
  if file.bytes.length < chunkHeaderLength then ⟨[], some .tooSmall⟩
  else decodeChunks c file 0 st

section ChunkLoop

variable {c} {file : FileData} {offset : Nat} {st : c.Stream}

theorem decodeChunks_error (hmore : offset < file.bytes.length) {e : DecodeError}
    (h : decodeChunkData c file offset st = .error e) :
    decodeChunks c file offset st = ⟨[], some e⟩ := by
  rw [decodeChunks, if_pos hmore]
  split
  · rename_i e' h'
    rw [h] at h'
    obtain rfl := Except.error.inj h'
    rfl
  · rename_i h'
    rw [h] at h'
    cases h'

theorem decodeChunks_chunk (hmore : offset < file.bytes.length) {chunkSize : Nat}
    {records : List Record} {st' : c.Stream}
    (h : decodeChunkData c file offset st = .ok (chunkSize, records, st')) :
    decodeChunks c file offset st =
      ⟨⟨offset, chunkSize, records⟩ :: (decodeChunks c file (offset + chunkSize) st').chunks,
        (decodeChunks c file (offset + chunkSize) st').error⟩ := by
  have nowrap := (decodeChunkData_ok c h).2
  rw [decodeChunks, if_pos hmore]
  split
  · rename_i h'
    rw [h] at h'
    cases h'
  · rename_i h'
    rw [h] at h'
    cases h'
    rw [Nat.mod_eq_of_lt nowrap]

theorem decodeChunks_done (hdone : ¬ offset < file.bytes.length) :
    decodeChunks c file offset st = ⟨[], none⟩ := by
  rw [decodeChunks, if_neg hdone]

theorem decodeChunks_forward :
    (decodeChunks c file offset st).chunks.Pairwise
      (fun chunk later => chunk.offset + chunkHeaderLength ≤ later.offset) ∧
    ∀ chunk ∈ (decodeChunks c file offset st).chunks, offset ≤ chunk.offset := by
  induction offset, st using decodeChunks.induct c file with
  | case1 offset st hmore e herror =>
    rw [decodeChunks_error hmore herror]
    simp
  | case2 offset st hmore chunkSize records st' hchunk ih =>
    obtain ⟨hsize, nowrap⟩ := decodeChunkData_ok c hchunk
    rw [Nat.mod_eq_of_lt nowrap] at ih
    obtain ⟨hpairs, hafter⟩ := ih
    rw [decodeChunks_chunk hmore hchunk]
    constructor
    · apply List.Pairwise.cons _ hpairs
      intro later hlater
      have hnext := hafter later hlater
      simp only at hsize hnext ⊢
      omega
    · intro chunk hchunk
      rcases List.mem_cons.mp hchunk with rfl | hlater
      · exact Nat.le_refl _
      · have hnext := hafter chunk hlater
        omega
  | case3 offset st hdone =>
    rw [decodeChunks_done hdone]
    simp

end ChunkLoop

end FlashLog.Decode
