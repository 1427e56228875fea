import FlashLog.Decode.Layout

/-!
Files that consist of whole chunks with agreeing headers: `DecodeFile` takes every chunk apart
into its items and consumes the file to its last byte.
-/

set_option autoImplicit false
set_option relaxedAutoImplicit false

namespace FlashLog.Decode

open FlashLog.Support
open FlashLog.Sinks

/-- What a chunk of a file was made of: its header, the key that the decoder agrees on, and of
each item the payload and what `Decrypt` makes of it. -/
structure WrittenChunk (c : Codec) where
  header : ChunkHeader
  key : c.Key
  items : List (Bytes × Bytes)

variable {c : Codec}

namespace WrittenChunk

def frames (w : WrittenChunk c) : Bytes := ItemHeader.framing.frames (w.items.map Prod.fst)

def bytes (w : WrittenChunk c) : Bytes := w.header.bytes ++ w.frames

/-- The header has its arrays and its size, and the decoder can agree and decrypt. -/
structure Sound (w : WrittenChunk c) : Prop where
  iv : w.header.iv.length = 32
  pubKey : w.header.pubKey.length = 128
  size : w.header.size = w.frames.length
  small : w.frames.length < 2 ^ 32
  agreed : c.agree (Bytes.slice w.header.iv 0 17) (Bytes.slice w.header.pubKey 0 65) = some w.key
  decrypts : ∀ x ∈ w.items, c.decrypt w.key x.1 = some x.2

end WrittenChunk

section Items

theorem completeItem_frame (value : Bytes) (hvalue : value.length < 2 ^ 32) (rest : Bytes) :
    CompleteItem (ItemHeader.bytes value.length ++ (value ++ rest)) value.length ∧
      itemPayload (ItemHeader.bytes value.length ++ (value ++ rest)) value.length = value := by
  have hheader := ItemHeader.length_bytes value.length
  constructor
  · refine ⟨?_, ItemHeader.read_bytes hvalue _⟩
    simp only [List.length_append, hheader]
    omega
  · rw [itemPayload, Bytes.slice, List.drop_left' hheader, List.take_left]

theorem laidItems_frames (payloads : List Bytes)
    (small : (ItemHeader.framing.frames payloads).length < 2 ^ 32) (rest : Bytes) :
    LaidItems (ItemHeader.framing.frames payloads).length
      (ItemHeader.framing.frames payloads ++ rest) payloads := by
  induction payloads with
  | nil => exact LaidItems.done
  | cons payload payloads ih =>
    have hlength := ItemHeader.framing.length_frames_cons payload payloads
    have hheader : ItemHeader.framing.headerLength = ItemHeader.length := rfl
    have hpos : 0 < ItemHeader.length := by decide
    have hcons : ItemHeader.framing.frames (payload :: payloads) ++ rest =
        ItemHeader.bytes payload.length ++
          (payload ++ (ItemHeader.framing.frames payloads ++ rest)) := by
      rw [Framing.frames_cons, List.append_assoc, List.append_assoc]
      rfl
    obtain ⟨complete, hpayload⟩ := completeItem_frame payload (by omega)
      (ItemHeader.framing.frames payloads ++ rest)
    rw [← hcons] at complete hpayload
    -- the other items stand behind the first
    have hdrop : (ItemHeader.framing.frames (payload :: payloads) ++ rest).drop
        (ItemHeader.length + payload.length) = ItemHeader.framing.frames payloads ++ rest := by
      rw [hcons, ← List.append_assoc]
      apply List.drop_left'
      rw [List.length_append, ItemHeader.length_bytes]
    have hsub : (ItemHeader.framing.frames (payload :: payloads)).length -
        (ItemHeader.length + payload.length) = (ItemHeader.framing.frames payloads).length := by
      omega
    have more : 0 < (ItemHeader.framing.frames (payload :: payloads)).length := by omega
    have behind := ih (by omega)
    rw [← hdrop, ← hsub] at behind
    have items := LaidItems.item more complete behind
    rw [hpayload] at items
    exact items

theorem decodePayloads_accepted {key : c.Key} {items : List (Bytes × Bytes)}
    (decrypts : ∀ x ∈ items, c.decrypt key x.1 = some x.2) (st : c.Stream) :
    ∃ records st', decodePayloads c key st (items.map Prod.fst) = some (records, st') ∧
      records.map (fun r => (r.payload, r.decrypted)) = items := by
  induction items generalizing st with
  | nil => exact ⟨[], st, rfl, rfl⟩
  | cons item items ih =>
    obtain ⟨payload, decrypted⟩ := item
    have accepted : c.decrypt key payload = some decrypted := decrypts _ List.mem_cons_self
    obtain ⟨records, st', hrest, hrecords⟩ :=
      ih (fun x hx => decrypts x (List.mem_cons_of_mem _ hx)) (c.decompress st decrypted).1
    let text := c.format (c.parse (c.decompress st decrypted).2).1
    exact ⟨⟨payload, decrypted, text⟩ :: records, st', decodePayloads_cons accepted hrest,
      congrArg ((payload, decrypted) :: ·) hrecords⟩

end Items

section Chunks

variable {file : FileData} {w : WrittenChunk c}

theorem WrittenChunk.Sound.length_bytes (sound : w.Sound) :
    w.bytes.length = chunkHeaderLength + w.frames.length := by
  simp only [WrittenChunk.bytes, ChunkHeader.bytes, List.length_append, Bytes.length_ofNatLE,
    sound.iv, sound.pubKey]
  rfl

theorem completeHeader_bytes (sound : w.Sound) (rest : Bytes) :
    CompleteHeader (w.header.bytes ++ rest) w.frames.length (Bytes.slice w.header.iv 0 17)
      (Bytes.slice w.header.pubKey 0 65) := by
  have hmagic := Bytes.length_ofNatLE 8 ChunkHeader.kMagic
  have hsize := Bytes.length_ofNatLE 8 w.header.size
  have hbytes : w.header.bytes ++ rest = Bytes.ofNatLE 8 ChunkHeader.kMagic ++
      (Bytes.ofNatLE 8 w.header.size ++ (w.header.iv ++ (w.header.pubKey ++ rest))) := by
    simp only [ChunkHeader.bytes, List.append_assoc]
  rw [hbytes]
  have second := Bytes.slice_append_right (Bytes.ofNatLE 8 ChunkHeader.kMagic)
    (Bytes.ofNatLE 8 w.header.size ++ (w.header.iv ++ (w.header.pubKey ++ rest)))
  have third := Bytes.slice_append_right (Bytes.ofNatLE 8 w.header.size)
    (w.header.iv ++ (w.header.pubKey ++ rest))
  have fourth := Bytes.slice_append_right w.header.iv (w.header.pubKey ++ rest)
  rw [hmagic] at second
  rw [hsize] at third
  rw [sound.iv] at fourth
  constructor
  case whole =>
    simp only [List.length_append, hmagic, hsize, sound.iv, sound.pubKey]
    omega
  case magic =>
    rw [Bytes.slice_append_left (by rw [hmagic]), Bytes.slice_whole hmagic,
      Bytes.toNatLE_ofNatLE_eight]
    rfl
  case size =>
    rw [second 0 8, Bytes.slice_append_left (by rw [hsize]), Bytes.slice_whole hsize,
      Bytes.toNatLE_ofNatLE_eight, sound.size]
    exact (Nat.mod_eq_of_lt (Nat.lt_trans sound.small (by decide))).symm
  case iv =>
    rw [second 8 17, third 0 17, Bytes.slice_append_left]
    rw [sound.iv]
    decide
  case pubKey =>
    rw [second 40 65, third 32 65, fourth 0 65, Bytes.slice_append_left]
    rw [sound.pubKey]
    decide

def WrittenChunk.laid (w : WrittenChunk c) : LaidChunk where
  size := w.frames.length
  cryptoIv := Bytes.slice w.header.iv 0 17
  cliPubKey := Bytes.slice w.header.pubKey 0 65
  payloads := w.items.map Prod.fst

theorem laidChunks_written {ws : List (WrittenChunk c)} (sound : ∀ w ∈ ws, w.Sound) :
    LaidChunks (ws.flatMap WrittenChunk.bytes) (ws.map WrittenChunk.laid) := by
  induction ws with
  | nil => exact LaidChunks.done
  | cons w ws ih =>
    have hw := sound w List.mem_cons_self
    have rest := ih fun w hw => sound w (List.mem_cons_of_mem _ hw)
    have hlength := hw.length_bytes
    have hheader : w.header.bytes.length = chunkHeaderLength := by
      rw [WrittenChunk.bytes, List.length_append] at hlength
      omega
    have header := completeHeader_bytes hw (w.frames ++ ws.flatMap WrittenChunk.bytes)
    have hbytes : (w :: ws).flatMap WrittenChunk.bytes =
        w.header.bytes ++ (w.frames ++ ws.flatMap WrittenChunk.bytes) := by
      rw [List.flatMap_cons, WrittenChunk.bytes, List.append_assoc]
    rw [← hbytes] at header
    refine LaidChunks.chunk ?_ header ?_ ?_
    · rw [hbytes, List.length_append]
      omega
    · rw [hbytes, List.drop_left' hheader]
      exact laidItems_frames (w.items.map Prod.fst) hw.small _
    · rw [List.flatMap_cons, List.drop_left' hlength]
      exact rest

theorem decodeLaid_written {ws : List (WrittenChunk c)} (sound : ∀ w ∈ ws, w.Sound)
    (st : c.Stream) :
    (decodeLaid c st (ws.map WrittenChunk.laid)).2 = none ∧
      (decodeLaid c st (ws.map WrittenChunk.laid)).1.map
        (fun chunk => (chunk.1, chunk.2.map fun r => (r.payload, r.decrypted))) =
          ws.map fun w => (w.bytes.length, w.items) := by
  induction ws generalizing st with
  | nil => exact ⟨rfl, rfl⟩
  | cons w ws ih =>
    have hw := sound w List.mem_cons_self
    obtain ⟨records, st', hpayloads, hrecords⟩ := decodePayloads_accepted hw.decrypts st
    obtain ⟨noError, hrest⟩ := ih (fun w hw => sound w (List.mem_cons_of_mem _ hw)) st'
    have hagree : c.agree w.laid.cryptoIv w.laid.cliPubKey = some w.key := hw.agreed
    have hlaid : decodePayloads c w.key st w.laid.payloads = some (records, st') := hpayloads
    rw [List.map_cons, decodeLaid_chunk hagree hlaid]
    simp only [List.map_cons, hrest, hrecords, hw.length_bytes]
    exact ⟨noError, rfl⟩

/-- The file was read without an exception, every chunk to its last byte and the file to its
last byte. -/
structure FullyRead (file : FileData) (decoded : Decoded) : Prop where
  noError : decoded.error = none
  chunks : ∀ chunk ∈ decoded.chunks, chunk.size = chunkHeaderLength +
    (chunk.records.map fun r => ItemHeader.length + r.payload.length).sum
  file : (decoded.chunks.map DecodedChunk.size).sum = file.bytes.length

/-- What `Decompress` was called with, chunk by chunk. -/
def Decoded.inputs (decoded : Decoded) : List (List Bytes) :=
  decoded.chunks.map fun chunk => chunk.records.map Record.decrypted

theorem decodeFile_written {ws : List (WrittenChunk c)}
    (hbytes : file.bytes = ws.flatMap WrittenChunk.bytes) (hws : ws ≠ [])
    (sound : ∀ w ∈ ws, w.Sound) (st : c.Stream) :
    FullyRead file (decodeFile c file st) ∧
      (decodeFile c file st).inputs = ws.map fun w => w.items.map Prod.snd := by
  have filled : file.bytes ≠ [] := by
    obtain ⟨w, ws, rfl⟩ := List.exists_cons_of_ne_nil hws
    intro empty
    have hlength := (sound w List.mem_cons_self).length_bytes
    have hpos : chunkHeaderLength = 176 := rfl
    rw [empty, List.flatMap_cons, eq_comm, List.append_eq_nil_iff] at hbytes
    rw [hbytes.1, List.length_nil] at hlength
    omega
  have laid : LaidChunks file.bytes (ws.map WrittenChunk.laid) := by
    rw [hbytes]
    exact laidChunks_written sound
  obtain ⟨hlaid, herror⟩ := decodeFile_laid (c := c) laid filled st
  obtain ⟨noError, hwritten⟩ := decodeLaid_written sound st
  rw [noError] at herror
  rw [← hlaid, List.map_map] at hwritten
  have hchunks : (decodeFile c file st).chunks.map
      (fun chunk => (chunk.size, chunk.records.map fun r => (r.payload, r.decrypted))) =
        ws.map fun w => (w.bytes.length, w.items) := hwritten
  generalize decodeFile c file st = decoded at herror hchunks
  have hsizes : decoded.chunks.map DecodedChunk.size = ws.map fun w => w.bytes.length := by
    have hfst := congrArg (List.map Prod.fst) hchunks
    simp only [List.map_map] at hfst
    exact hfst
  have hrecords : decoded.chunks.map (fun chunk => chunk.records.map fun r =>
      (r.payload, r.decrypted)) = ws.map WrittenChunk.items := by
    have hsnd := congrArg (List.map Prod.snd) hchunks
    simp only [List.map_map] at hsnd
    exact hsnd
  refine ⟨⟨herror, ?_, ?_⟩, ?_⟩
  · intro chunk hchunk
    obtain ⟨w, hw, hpair⟩ := List.mem_map.mp (hchunks ▸ List.mem_map_of_mem hchunk)
    obtain ⟨hsize, hitems⟩ := Prod.mk.inj hpair
    rw [← hsize, (sound w hw).length_bytes, WrittenChunk.frames, Framing.length_frames, hitems]
    simp only [List.map_map]
    rfl
  · rw [hsizes, hbytes, List.length_flatMap]
  · have hdecrypted := congrArg (List.map (List.map Prod.snd)) hrecords
    rw [List.map_map, List.map_map] at hdecrypted
    refine Eq.trans (List.map_congr_left fun chunk _ => ?_) hdecrypted
    rw [Function.comp_apply, List.map_map]
    rfl

end Chunks

end FlashLog.Decode
