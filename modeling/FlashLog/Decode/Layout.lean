import FlashLog.Decode.DecodeSafety

/-!
Files whose headers are well formed, and what `DecodeFile` makes of them: a function of the keys
and payloads alone, on which it decrypts, decompresses, parses and formats item by item.
-/

set_option autoImplicit false
set_option relaxedAutoImplicit false

namespace FlashLog.Decode

open FlashLog.Support
open FlashLog.Sinks

section Layout

/-- The first `n` bytes are items with valid headers and these payloads. -/
inductive LaidItems : Nat → Bytes → List Bytes → Prop
  | done {bs : Bytes} : LaidItems 0 bs []
  | item {n size : Nat} {bs : Bytes} {payloads : List Bytes} (more : 0 < n)
      (complete : CompleteItem bs size)
      (rest : LaidItems (n - (ItemHeader.length + size)) (bs.drop (ItemHeader.length + size))
        payloads) :
      LaidItems n bs (itemPayload bs size :: payloads)

structure LaidChunk where
  size : Nat
  cryptoIv : Bytes
  cliPubKey : Bytes
  payloads : List Bytes

/-- Chunks with valid headers up to the end. -/
inductive LaidChunks : Bytes → List LaidChunk → Prop
  | done : LaidChunks [] []
  | chunk {bs cryptoIv cliPubKey : Bytes} {size : Nat} {payloads : List Bytes}
      {chunks : List LaidChunk} (whole : chunkHeaderLength ≤ bs.length)
      (header : CompleteHeader bs size cryptoIv cliPubKey)
      (items : LaidItems size (bs.drop chunkHeaderLength) payloads)
      (rest : LaidChunks (bs.drop (chunkHeaderLength + size)) chunks) :
      LaidChunks bs (⟨size, cryptoIv, cliPubKey, payloads⟩ :: chunks)

end Layout

section Meaning

variable (c : Codec)

/-- The items of a chunk, unless `Decrypt` throws. -/
def decodePayloads (key : c.Key) : c.Stream → List Bytes → Option (List Record × c.Stream)
  | st, [] => some ([], st)
  | st, payload :: payloads =>
    match c.decrypt key payload with
    | none => none
    | some decrypted =>
      let (st, decompressed) := c.decompress st decrypted
      (decodePayloads key st payloads).map fun (records, st) =>
        (⟨payload, decrypted, c.format (c.parse decompressed).1⟩ :: records, st)

def decodeLaid : c.Stream → List LaidChunk → List (Nat × List Record) × Option DecodeError
  | _, [] => ([], none)
  | st, chunk :: chunks =>
    match c.agree chunk.cryptoIv chunk.cliPubKey with
    | none => ([], some .keyAgreement)
    | some key =>
      match decodePayloads c key st chunk.payloads with
      | none => ([], some .decrypt)
      | some (records, st) =>
        let rest := decodeLaid st chunks
        ((chunkHeaderLength + chunk.size, records) :: rest.1, rest.2)

end Meaning

variable {c : Codec}

theorem decodePayloads_cons {key : c.Key} {st st' : c.Stream} {payload decrypted : Bytes}
    {payloads : List Bytes} {records : List Record}
    (accepted : c.decrypt key payload = some decrypted)
    (hrest : decodePayloads c key (c.decompress st decrypted).1 payloads = some (records, st')) :
    decodePayloads c key st (payload :: payloads) =
      some (⟨payload, decrypted, c.format (c.parse (c.decompress st decrypted).2).1⟩ :: records,
        st') := by
  rw [decodePayloads, accepted]
  simp only [hrest]
  rfl

section Chunk

variable {key : c.Key} {st : c.Stream} {chunk : LaidChunk} {chunks : List LaidChunk}

theorem decodeLaid_refused (h : c.agree chunk.cryptoIv chunk.cliPubKey = none) :
    decodeLaid c st (chunk :: chunks) = ([], some .keyAgreement) := by
  rw [decodeLaid, h]

theorem decodeLaid_throws (agreed : c.agree chunk.cryptoIv chunk.cliPubKey = some key)
    (h : decodePayloads c key st chunk.payloads = none) :
    decodeLaid c st (chunk :: chunks) = ([], some .decrypt) := by
  simp only [decodeLaid, agreed, h]

theorem decodeLaid_chunk (agreed : c.agree chunk.cryptoIv chunk.cliPubKey = some key)
    {records : List Record} {st' : c.Stream}
    (h : decodePayloads c key st chunk.payloads = some (records, st')) :
    decodeLaid c st (chunk :: chunks) =
      ((chunkHeaderLength + chunk.size, records) :: (decodeLaid c st' chunks).1,
        (decodeLaid c st' chunks).2) := by
  simp only [decodeLaid, agreed, h]

end Chunk

variable {file : FileData}

theorem decodeChunkItems_laid {chunkData size : Nat} {key : c.Key} {offset n : Nat} {bs : Bytes}
    {payloads : List Bytes} (items : LaidItems n bs payloads) (hn : n = size - offset)
    (hbs : bs = file.bytes.drop (chunkData + offset)) (st : c.Stream) :
    decodeChunkItems c file chunkData size key offset st =
      match decodePayloads c key st payloads with
      | none => .error .decrypt
      | some out => .ok out := by
  induction items generalizing offset st with
  | done => exact decodeChunkItems_done (by omega)
  | @item n payloadSize bs payloads more complete rest ih =>
    subst hn hbs
    have hitem : decodeItemData c file (chunkData + offset) key st = _ :=
      decodeItemData_complete complete
    rw [decodePayloads]
    cases accepted : c.decrypt key (itemPayload (file.bytes.drop (chunkData + offset))
        payloadSize) with
    | none =>
      rw [accepted] at hitem
      exact decodeChunkItems_error (by omega) hitem
    | some decrypted =>
      rw [accepted] at hitem
      rw [decodeChunkItems_item (by omega) hitem,
        ih (Nat.sub_sub _ _ _) (drop_item _) (c.decompress st decrypted).1]
      simp only
      cases decodePayloads c key (c.decompress st decrypted).1 payloads <;> rfl

theorem decodeChunks_laid {offset : Nat} {bs : Bytes} {chunks : List LaidChunk}
    (laid : LaidChunks bs chunks) (hbs : bs = file.bytes.drop offset) (st : c.Stream) :
    (decodeChunks c file offset st).chunks.map (fun chunk => (chunk.size, chunk.records)) =
        (decodeLaid c st chunks).1 ∧
      (decodeChunks c file offset st).error = (decodeLaid c st chunks).2 := by
  induction laid generalizing offset st with
  | done =>
    have hdone : ¬ offset < file.bytes.length :=
      Nat.not_lt.mpr (List.drop_eq_nil_iff.mp hbs.symm)
    rw [decodeChunks_done hdone]
    exact ⟨rfl, rfl⟩
  | @chunk bs cryptoIv cliPubKey size payloads chunks whole header items rest ih =>
    subst hbs
    have hmore : offset < file.bytes.length := by
      have hlength : chunkHeaderLength = 176 := rfl
      rw [List.length_drop] at whole
      omega
    have hchunk : decodeChunkData c file offset st = _ := decodeChunkData_header header
    cases agreed : c.agree cryptoIv cliPubKey with
    | none =>
      rw [agreed] at hchunk
      rw [decodeChunks_error hmore hchunk, decodeLaid_refused agreed]
      exact ⟨rfl, rfl⟩
    | some key =>
      have hitems : decodeChunkItems c file (offset + chunkHeaderLength) size key 0 st = _ :=
        decodeChunkItems_laid items (Nat.sub_zero _).symm (by rw [List.drop_drop, Nat.add_zero]) st
      rw [agreed] at hchunk
      simp only at hchunk
      cases hpayloads : decodePayloads c key st payloads with
      | none =>
        rw [hitems, hpayloads] at hchunk
        rw [decodeChunks_error hmore hchunk, decodeLaid_throws agreed hpayloads]
        exact ⟨rfl, rfl⟩
      | some out =>
        rw [hpayloads] at hitems
        rw [hitems] at hchunk
        simp only [Except.map, chunkSize_eq hitems] at hchunk
        obtain ⟨hrest, herror⟩ := ih (by rw [List.drop_drop]) out.2
        rw [decodeChunks_chunk hmore hchunk, decodeLaid_chunk agreed hpayloads]
        exact ⟨congrArg ((chunkHeaderLength + size, out.1) :: ·) hrest, herror⟩

theorem LaidChunks.whole {bs : Bytes} {chunks : List LaidChunk} (laid : LaidChunks bs chunks)
    (filled : bs ≠ []) : chunkHeaderLength ≤ bs.length := by
  cases laid with
  | done => exact absurd rfl filled
  | chunk whole header items rest => exact whole

theorem decodeFile_laid {chunks : List LaidChunk} (laid : LaidChunks file.bytes chunks)
    (filled : file.bytes ≠ []) (st : c.Stream) :
    (decodeFile c file st).chunks.map (fun chunk => (chunk.size, chunk.records)) =
        (decodeLaid c st chunks).1 ∧
      (decodeFile c file st).error = (decodeLaid c st chunks).2 := by
  rw [decodeFile, if_neg (Nat.not_lt.mpr (laid.whole filled))]
  exact decodeChunks_laid laid List.drop_zero.symm st

end FlashLog.Decode
