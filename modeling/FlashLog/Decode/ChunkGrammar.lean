import FlashLog.Decode.DecodeReports

/-!
The contents that `DecodeFile` accepts, compared with the log file format: a chunk ends where
its header says, but its last item ends where the item's own header says, and a header or an item
that is cut by the end of the file is read on in the memory behind it.
-/

set_option autoImplicit false
set_option relaxedAutoImplicit false

namespace FlashLog.Decode

open FlashLog.Support
open FlashLog.Sinks

section Loaded

/-- The vector that `ReadFile` returns, and the bytes of the memory behind it, up to where a read
ends the process. -/
structure Loaded where
  content : Bytes
  behind : Bytes
  length_lt : (content ++ behind).length < 2 ^ 63

def Loaded.memory (file : Loaded) : FileData := ⟨file.content ++ file.behind, file.length_lt⟩

theorem Loaded.length_le (file : Loaded) :
    file.content.length ≤ file.memory.bytes.length := by
  rw [memory, List.length_append]
  exact Nat.le_add_right _ _

variable (c : Codec)

/-- The loop of `DecodeFile`: the content ends it, and no read. -/
def decodeLoadedChunks (file : Loaded) (offset : Nat) (st : c.Stream) : Decoded :=
  if offset < file.content.length then
    match h : decodeChunkData c file.memory offset st with
    | .error e => ⟨[], some e⟩
    | .ok (chunkSize, records, st) =>
      let rest := decodeLoadedChunks file ((offset + chunkSize) % 2 ^ 64) st
      ⟨⟨offset, chunkSize, records⟩ :: rest.chunks, rest.error⟩
  else ⟨[], none⟩
termination_by file.content.length - offset
decreasing_by
  have hchunk := decodeChunkData_ok c h
  have hpos : 0 < chunkHeaderLength := by decide
  rw [Nat.mod_eq_of_lt hchunk.2]
  omega

/-- `DecodeFile`, on what `ReadFile` has read into some memory. -/
def decodeLoaded (file : Loaded) (st : c.Stream) : Decoded :=
  if file.content.length < chunkHeaderLength then ⟨[], some .tooSmall⟩
  else decodeLoadedChunks c file 0 st

variable {c} {file : Loaded} {offset : Nat} {st : c.Stream}

theorem decodeLoadedChunks_error (hmore : offset < file.content.length) {e : DecodeError}
    (h : decodeChunkData c file.memory offset st = .error e) :
    decodeLoadedChunks c file offset st = ⟨[], some e⟩ := by
  rw [decodeLoadedChunks, if_pos hmore]
  split
  · rename_i e' h'
    rw [h] at h'
    obtain rfl := Except.error.inj h'
    rfl
  · rename_i h'
    rw [h] at h'
    cases h'

theorem decodeLoadedChunks_chunk (hmore : offset < file.content.length) {chunkSize : Nat}
    {records : List Record} {st' : c.Stream}
    (h : decodeChunkData c file.memory offset st = .ok (chunkSize, records, st')) :
    decodeLoadedChunks c file offset st =
      ⟨⟨offset, chunkSize, records⟩ :: (decodeLoadedChunks c file (offset + chunkSize) st').chunks,
        (decodeLoadedChunks c file (offset + chunkSize) st').error⟩ := by
  have nowrap := (decodeChunkData_ok c h).2
  rw [decodeLoadedChunks, if_pos hmore]
  split
  · rename_i h'
    rw [h] at h'
    cases h'
  · rename_i h'
    rw [h] at h'
    cases h'
    rw [Nat.mod_eq_of_lt nowrap]

theorem decodeLoadedChunks_done (hdone : ¬ offset < file.content.length) :
    decodeLoadedChunks c file offset st = ⟨[], none⟩ := by
  rw [decodeLoadedChunks, if_neg hdone]

theorem decodeLoaded_alone (file : FileData) (st : c.Stream) :
    decodeLoaded c ⟨file.bytes, [], by rw [List.append_nil]; exact file.length_lt⟩ st =
      decodeFile c file st := by
  obtain ⟨bytes, small⟩ := file
  generalize hloaded : Loaded.mk bytes [] _ = loaded
  have hmemory : loaded.memory = ⟨bytes, small⟩ := by
    subst hloaded
    simp only [Loaded.memory, List.append_nil]
  have hcontent : loaded.content = bytes := by rw [← hloaded]
  have same : ∀ offset st, decodeLoadedChunks c loaded offset st =
      decodeChunks c ⟨bytes, small⟩ offset st := by
    intro offset st
    induction offset, st using decodeChunks.induct c ⟨bytes, small⟩ with
    | case1 offset st hmore e herror =>
      rw [decodeChunks_error hmore herror, decodeLoadedChunks_error (hcontent ▸ hmore)
        (hmemory ▸ herror)]
    | case2 offset st hmore chunkSize records st' hchunk ih =>
      rw [Nat.mod_eq_of_lt (decodeChunkData_ok c hchunk).2] at ih
      rw [decodeChunks_chunk hmore hchunk, decodeLoadedChunks_chunk (hcontent ▸ hmore)
        (hmemory ▸ hchunk), ih]
    | case3 offset st hdone =>
      rw [decodeChunks_done hdone, decodeLoadedChunks_done (hcontent ▸ hdone)]
  rw [decodeLoaded, decodeFile, hcontent, same]

end Loaded

section Format

/-- A chunk of a log file: the bytes of its header, and the payloads of its items. -/
structure FormatChunk where
  header : Bytes
  payloads : List Bytes

namespace FormatChunk

def items (chunk : FormatChunk) : Bytes := ItemHeader.framing.frames chunk.payloads

def bytes (chunk : FormatChunk) : Bytes := chunk.header ++ chunk.items

/-- A whole header with the right magic number, and behind it as many bytes as it says, which
are whole items. -/
structure WellFormed (chunk : FormatChunk) : Prop where
  whole : chunk.header.length = chunkHeaderLength
  magic : Bytes.toNatLE (Bytes.slice chunk.header 0 8) = ChunkHeader.kMagic
  size : Bytes.toNatLE (Bytes.slice chunk.header 8 8) = chunk.items.length
  sizes : ∀ payload ∈ chunk.payloads, payload.length < 2 ^ 32

end FormatChunk

def Decoded.payloads (decoded : Decoded) : List (List Bytes) :=
  decoded.chunks.map fun chunk => chunk.records.map Record.payload

/-- `DecodeFile` returns only on one or more well-formed chunks, whose items it has decoded. -/
def AcceptsFormat (content : Bytes) (decoded : Decoded) : Prop :=
  decoded.error = none → ∃ chunks : List FormatChunk, chunks ≠ [] ∧
    (∀ chunk ∈ chunks, chunk.WellFormed) ∧ content = chunks.flatMap FormatChunk.bytes ∧
    decoded.payloads = chunks.map FormatChunk.payloads

end Format

section Chain

variable (c : Codec)

/-- Chunks over the first `n` bytes, each behind the size of the one before, whose keys and items
the codec accepts. The last item of a chunk may go on beyond the chunk's size, and the last chunk
beyond the `n` bytes. -/
inductive AcceptedChunks : Nat → Bytes → List LaidChunk → Prop
  | done {bs : Bytes} : AcceptedChunks 0 bs []
  | chunk {n : Nat} {bs cryptoIv cliPubKey : Bytes} {size : Nat} {key : c.Key}
      {payloads : List Bytes} {chunks : List LaidChunk} (more : 0 < n)
      (header : CompleteHeader bs size cryptoIv cliPubKey)
      (agreed : c.agree cryptoIv cliPubKey = some key)
      (items : LaidItems size (bs.drop chunkHeaderLength) payloads)
      (accepted : ∀ payload ∈ payloads, (c.decrypt key payload).isSome)
      (rest : AcceptedChunks (n - (chunkHeaderLength + size))
        (bs.drop (chunkHeaderLength + size)) chunks) :
      AcceptedChunks n bs (⟨size, cryptoIv, cliPubKey, payloads⟩ :: chunks)

def LaidChunk.Filled (chunk : LaidChunk) : Prop :=
  (ItemHeader.framing.frames chunk.payloads).length = chunk.size

def counted (chunks : List LaidChunk) : Nat :=
  (chunks.map fun chunk => chunkHeaderLength + chunk.size).sum

end Chain

variable {c : Codec} {file : FileData}

section Items

theorem take_completeItem {bs : Bytes} {size : Nat} (complete : CompleteItem bs size) :
    bs.take (ItemHeader.length + size) =
        ItemHeader.bytes (itemPayload bs size).length ++ itemPayload bs size ∧
      (itemPayload bs size).length = size ∧ size < 2 ^ 32 := by
  obtain ⟨whole, hread⟩ := complete
  obtain ⟨hmagic, hsize⟩ := ItemHeader.read_eq_some.mp hread
  have hlength : ItemHeader.length = 8 := rfl
  have hpayload : (itemPayload bs size).length = size := Bytes.length_slice_of_le whole
  have hfirst : (Bytes.slice bs 0 4).length = 4 := Bytes.length_slice_of_le (by omega)
  have hsecond : (Bytes.slice bs 4 4).length = 4 := Bytes.length_slice_of_le (by omega)
  have magicBytes := Bytes.ofNatLE_toNatLE (Bytes.slice bs 0 4)
  have sizeBytes := Bytes.ofNatLE_toNatLE (Bytes.slice bs 4 4)
  rw [hfirst, hmagic] at magicBytes
  rw [hsecond, ← hsize] at sizeBytes
  refine ⟨?_, hpayload, ?_⟩
  · calc bs.take (ItemHeader.length + size)
        = Bytes.slice bs 0 (4 + 4 + size) := by rw [Bytes.slice, List.drop_zero, hlength]
      _ = Bytes.slice bs 0 4 ++ Bytes.slice bs 4 4 ++ itemPayload bs size := by
        rw [Bytes.slice_add, Bytes.slice_add]
        rfl
      _ = ItemHeader.bytes (itemPayload bs size).length ++ itemPayload bs size := by
        rw [ItemHeader.bytes, magicBytes, hpayload, sizeBytes]
  · have hlt := Bytes.toNatLE_lt (Bytes.slice bs 4 4)
    rw [hsecond, ← hsize] at hlt
    exact hlt

theorem LaidItems.filled {n : Nat} {bs : Bytes} {payloads : List Bytes}
    (items : LaidItems n bs payloads)
    (filled : (ItemHeader.framing.frames payloads).length = n) :
    bs.take n = ItemHeader.framing.frames payloads ∧ n ≤ bs.length ∧
      ∀ payload ∈ payloads, payload.length < 2 ^ 32 := by
  induction items with
  | done => simp
  | @item n size bs payloads more complete rest ih =>
    obtain ⟨htake, hpayload, hsize⟩ := take_completeItem complete
    have hcons := ItemHeader.framing.length_frames_cons (itemPayload bs size) payloads
    have hheader : ItemHeader.framing.headerLength = ItemHeader.length := rfl
    obtain ⟨behind, inside, sizes⟩ := ih (by omega)
    rw [List.length_drop] at inside
    refine ⟨?_, ?_, List.forall_mem_cons.mpr ⟨by rw [hpayload]; exact hsize, sizes⟩⟩
    · have hsplit : n = ItemHeader.length + size + (n - (ItemHeader.length + size)) := by omega
      rw [hsplit, List.take_add, htake, behind, Framing.frames_cons, List.append_assoc]
      rfl
    · have whole := complete.1
      omega

theorem laidItems_of_ok {chunkData size : Nat} {key : c.Key} {offset : Nat} {st : c.Stream}
    {out : List Record × c.Stream}
    (h : decodeChunkItems c file chunkData size key offset st = .ok out) :
    LaidItems (size - offset) (file.bytes.drop (chunkData + offset))
        (out.1.map Record.payload) ∧
      ∀ payload ∈ out.1.map Record.payload, (c.decrypt key payload).isSome := by
  induction offset, st using decodeChunkItems.induct c file chunkData size key generalizing out with
  | case1 offset st hmore e herror =>
    rw [decodeChunkItems_error hmore herror] at h
    cases h
  | case2 offset st hmore itemSize record st' hitem ih =>
    obtain ⟨payload, decrypted, complete, accepted, rfl⟩ := decodeItemData_returns hitem
    have inside := (decodeItemData_ok c hitem).2
    have hfile := file.length_lt
    rw [Nat.mod_eq_of_lt (by omega)] at ih
    rw [decodeChunkItems_item hmore hitem] at h
    cases hrest : decodeChunkItems c file chunkData size key
        (offset + (ItemHeader.length + payload)) st' with
    | error e =>
      rw [hrest] at h
      cases h
    | ok rest =>
      rw [hrest] at h
      obtain rfl := Except.ok.inj h
      have hrecord : record.payload =
          itemPayload (file.bytes.drop (chunkData + offset)) payload := by
        rw [decodeItemData_complete complete, accepted] at hitem
        obtain ⟨-, hpair⟩ := Prod.mk.inj (Except.ok.inj hitem)
        rw [← (Prod.mk.inj hpair).1]
      obtain ⟨items, decrypts⟩ := ih hrest
      rw [List.map_cons, hrecord]
      constructor
      · apply LaidItems.item (Nat.sub_pos_of_lt hmore) complete
        rw [drop_item, Nat.sub_sub]
        exact items
      · exact List.forall_mem_cons.mpr ⟨by rw [accepted]; rfl, decrypts⟩
  | case3 offset st hdone =>
    rw [decodeChunkItems_done hdone] at h
    obtain rfl := Except.ok.inj h
    rw [Nat.sub_eq_zero_of_le (Nat.le_of_not_lt hdone)]
    exact ⟨LaidItems.done, by simp⟩

theorem payloads_decodePayloads {key : c.Key} {st st' : c.Stream} {payloads : List Bytes}
    {records : List Record} (h : decodePayloads c key st payloads = some (records, st')) :
    records.map Record.payload = payloads := by
  induction payloads generalizing st records with
  | nil =>
    obtain ⟨rfl, -⟩ := Prod.mk.inj (Option.some.inj h)
    rfl
  | cons payload payloads ih =>
    rw [decodePayloads] at h
    cases hdecrypt : c.decrypt key payload with
    | none =>
      rw [hdecrypt] at h
      cases h
    | some decrypted =>
      rw [hdecrypt] at h
      obtain ⟨⟨rest, last⟩, hrest, hout⟩ := Option.map_eq_some_iff.mp h
      obtain ⟨rfl, rfl⟩ := Prod.mk.inj hout
      rw [List.map_cons, ih hrest]

theorem LaidItems.filled_of_frames {n : Nat} {bs rest : Bytes} {read payloads : List Bytes}
    (items : LaidItems n bs read) (hn : n = (ItemHeader.framing.frames payloads).length)
    (hbs : bs = ItemHeader.framing.frames payloads ++ rest)
    (sizes : ∀ payload ∈ payloads, payload.length < 2 ^ 32) :
    (ItemHeader.framing.frames read).length = n := by
  induction items generalizing payloads with
  | done => rfl
  | @item n size bs read more complete behind ih =>
    subst hn hbs
    cases payloads with
    | nil => exact absurd more (by simp)
    | cons payload payloads =>
      obtain ⟨small, others⟩ := List.forall_mem_cons.mp sizes
      have hcons := ItemHeader.framing.length_frames_cons payload payloads
      have hheader : ItemHeader.framing.headerLength = ItemHeader.length := rfl
      have hbytes : ItemHeader.framing.frames (payload :: payloads) ++ rest =
          ItemHeader.bytes payload.length ++
            (payload ++ (ItemHeader.framing.frames payloads ++ rest)) := by
        rw [Framing.frames_cons, List.append_assoc, List.append_assoc]
        rfl
      obtain ⟨first, hpayload⟩ := completeItem_frame payload small
        (ItemHeader.framing.frames payloads ++ rest)
      rw [← hbytes] at first hpayload
      -- the size that was read is the size of the first frame
      obtain rfl : size = payload.length :=
        Option.some.inj (complete.2.symm.trans first.2)
      have hdrop : (ItemHeader.framing.frames (payload :: payloads) ++ rest).drop
          (ItemHeader.length + payload.length) = ItemHeader.framing.frames payloads ++ rest := by
        rw [hbytes, ← List.append_assoc]
        apply List.drop_left'
        rw [List.length_append, ItemHeader.length_bytes]
      have hrest := ih (by omega) hdrop others
      rw [Framing.length_frames_cons, hrest, hpayload]
      omega

end Items

section Chunks

variable {offset : Nat} {st : c.Stream}

theorem loop_of_returns {cryptoIv cliPubKey : Bytes} {size chunkSize : Nat} {key : c.Key}
    {records : List Record} {st' : c.Stream}
    (header : CompleteHeader (file.bytes.drop offset) size cryptoIv cliPubKey)
    (agreed : c.agree cryptoIv cliPubKey = some key)
    (h : decodeChunkData c file offset st = .ok (chunkSize, records, st')) :
    decodeChunkItems c file (offset + chunkHeaderLength) size key 0 st = .ok (records, st') := by
  rw [decodeChunkData_header header, agreed] at h
  simp only at h
  cases hloop : decodeChunkItems c file (offset + chunkHeaderLength) size key 0 st with
  | error e =>
    rw [hloop] at h
    cases h
  | ok out =>
    rw [hloop] at h
    obtain ⟨-, hout⟩ := Prod.mk.inj (Except.ok.inj h)
    exact congrArg Except.ok hout

theorem accepted_of_returns {file : Loaded}
    (h : (decodeLoadedChunks c file offset st).error = none) :
    ∃ chunks, AcceptedChunks c (file.content.length - offset) (file.memory.bytes.drop offset)
        chunks ∧
      (decodeLoadedChunks c file offset st).payloads = chunks.map LaidChunk.payloads := by
  induction offset, st using decodeLoadedChunks.induct c file with
  | case1 offset st hmore e herror =>
    rw [decodeLoadedChunks_error hmore herror] at h
    cases h
  | case2 offset st hmore chunkSize records st' hchunk ih =>
    have nowrap := (decodeChunkData_ok c hchunk).2
    rw [Nat.mod_eq_of_lt nowrap] at ih
    rw [decodeLoadedChunks_chunk hmore hchunk] at h ⊢
    obtain ⟨size, cryptoIv, cliPubKey, key, header, agreed, -, rfl⟩ :=
      decodeChunkData_returns hchunk
    obtain ⟨chunks, accepted, hpayloads⟩ := ih h
    obtain ⟨laid, decrypts⟩ := laidItems_of_ok (loop_of_returns header agreed hchunk)
    rw [Nat.sub_zero, Nat.add_zero, ← List.drop_drop] at laid
    rw [← List.drop_drop, ← Nat.sub_sub] at accepted
    exact ⟨_, AcceptedChunks.chunk (Nat.sub_pos_of_lt hmore) header agreed laid decrypts accepted,
      congrArg (records.map Record.payload :: ·) hpayloads⟩
  | case3 offset st hdone =>
    rw [decodeLoadedChunks_done hdone, Nat.sub_eq_zero_of_le (Nat.le_of_not_lt hdone)]
    exact ⟨[], AcceptedChunks.done, rfl⟩

theorem returns_of_accepted {file : Loaded} {n : Nat} {bs : Bytes} {chunks : List LaidChunk}
    (accepted : AcceptedChunks c n bs chunks) (hn : n = file.content.length - offset)
    (hbs : bs = file.memory.bytes.drop offset) (st : c.Stream) :
    (decodeLoadedChunks c file offset st).error = none ∧
      (decodeLoadedChunks c file offset st).payloads = chunks.map LaidChunk.payloads := by
  induction accepted generalizing offset st with
  | done =>
    rw [decodeLoadedChunks_done (Nat.not_lt.mpr (Nat.le_of_sub_eq_zero hn.symm))]
    exact ⟨rfl, rfl⟩
  | @chunk n bs cryptoIv cliPubKey size key payloads chunks more header agreed items decrypts rest
      ih =>
    subst hn hbs
    obtain ⟨⟨records, st'⟩, hpayloads⟩ :=
      Option.isSome_iff_exists.mp ((decodePayloads_isSome_iff st payloads).mpr decrypts)
    have hitems : decodeChunkItems c file.memory (offset + chunkHeaderLength) size key 0 st = _ :=
      decodeChunkItems_laid items (Nat.sub_zero _).symm (by rw [List.drop_drop, Nat.add_zero]) st
    rw [hpayloads] at hitems
    have hchunk : decodeChunkData c file.memory offset st = _ := decodeChunkData_header header
    rw [agreed] at hchunk
    simp only [hitems, Except.map, chunkSize_eq hitems] at hchunk
    obtain ⟨noError, hrest⟩ := ih (Nat.sub_sub _ _ _) List.drop_drop st'
    rw [decodeLoadedChunks_chunk (Nat.lt_of_sub_pos more) hchunk]
    refine ⟨noError, ?_⟩
    rw [List.map_cons, ← payloads_decodePayloads hpayloads]
    exact congrArg (records.map Record.payload :: ·) hrest

theorem wellFormed_of_filled {bs cryptoIv cliPubKey : Bytes} {size : Nat} {payloads : List Bytes}
    (whole : chunkHeaderLength ≤ bs.length) (header : CompleteHeader bs size cryptoIv cliPubKey)
    (items : LaidItems size (bs.drop chunkHeaderLength) payloads)
    (filled : (ItemHeader.framing.frames payloads).length = size) :
    (FormatChunk.mk (bs.take chunkHeaderLength) payloads).WellFormed ∧
      bs.take (chunkHeaderLength + size) =
        (FormatChunk.mk (bs.take chunkHeaderLength) payloads).bytes := by
  have hlength : chunkHeaderLength = 176 := rfl
  have hfield : ∀ off len, off + len ≤ chunkHeaderLength →
      Bytes.slice (bs.take chunkHeaderLength) off len = Bytes.slice bs off len := by
    intro off len inside
    rw [Bytes.slice, Bytes.slice, List.drop_take, List.take_take, Nat.min_eq_left (by omega)]
  obtain ⟨htake, inside, sizes⟩ := items.filled filled
  constructor
  · constructor
    case whole => exact List.length_take_of_le whole
    case magic => rw [hfield 0 8 (by decide), header.magic]
    case size =>
      rw [hfield 8 8 (by decide), ← header.size]
      exact filled.symm
    case sizes => exact sizes
  · rw [List.take_add, htake]
    rfl

theorem format_of_accepted {n : Nat} {bs : Bytes} {chunks : List LaidChunk}
    (accepted : AcceptedChunks c n bs chunks) (inside : n ≤ bs.length)
    (filled : ∀ chunk ∈ chunks, chunk.Filled) (whole : counted chunks = n) :
    ∃ formatted : List FormatChunk, (∀ chunk ∈ formatted, chunk.WellFormed) ∧
      bs.take n = formatted.flatMap FormatChunk.bytes ∧
      chunks.map LaidChunk.payloads = formatted.map FormatChunk.payloads := by
  induction accepted with
  | done => exact ⟨[], by simp, rfl, rfl⟩
  | @chunk n bs cryptoIv cliPubKey size key payloads chunks more header agreed items decrypts rest
      ih =>
    obtain ⟨first, others⟩ := List.forall_mem_cons.mp filled
    have hcounted : counted (⟨size, cryptoIv, cliPubKey, payloads⟩ :: chunks) =
        chunkHeaderLength + size + counted chunks := by
      rw [counted, List.map_cons, List.sum_cons]
      rfl
    rw [hcounted] at whole
    obtain ⟨formatted, wellFormed, hbytes, hpayloads⟩ := ih (by
      rw [List.length_drop]
      omega) others (by omega)
    obtain ⟨head, htake⟩ := wellFormed_of_filled (by omega) header items first
    refine ⟨⟨bs.take chunkHeaderLength, payloads⟩ :: formatted,
      List.forall_mem_cons.mpr ⟨head, wellFormed⟩, ?_, ?_⟩
    · have hsplit : n = chunkHeaderLength + size + (n - (chunkHeaderLength + size)) := by omega
      rw [List.flatMap_cons, ← htake, ← hbytes, hsplit, List.take_add, Nat.add_sub_cancel_left]
    · rw [List.map_cons, List.map_cons, hpayloads]

theorem filled_of_format {n : Nat} {bs behind : Bytes} {chunks : List LaidChunk}
    (accepted : AcceptedChunks c n bs chunks) {formatted : List FormatChunk}
    (wellFormed : ∀ chunk ∈ formatted, chunk.WellFormed)
    (hn : n = (formatted.flatMap FormatChunk.bytes).length)
    (hbs : bs = formatted.flatMap FormatChunk.bytes ++ behind) :
    (∀ chunk ∈ chunks, chunk.Filled) ∧ counted chunks = n := by
  induction accepted generalizing formatted with
  | done => exact ⟨by simp, rfl⟩
  | @chunk n bs cryptoIv cliPubKey size key payloads chunks more header agreed items decrypts rest
      ih =>
    cases formatted with
    | nil =>
      rw [List.flatMap_nil, List.length_nil] at hn
      omega
    | cons head formatted =>
      obtain ⟨⟨whole, magic, hsize, sizes⟩, others⟩ := List.forall_mem_cons.mp wellFormed
      have hbytes : bs = head.header ++
          (head.items ++ (formatted.flatMap FormatChunk.bytes ++ behind)) := by
        rw [hbs, List.flatMap_cons, FormatChunk.bytes, List.append_assoc, List.append_assoc]
      -- both read the size in the header
      have same : size = head.items.length := by
        have hfield : Bytes.slice
            (head.header ++ (head.items ++ (formatted.flatMap FormatChunk.bytes ++ behind))) 8 8 =
              Bytes.slice head.header 8 8 :=
          Bytes.slice_append_left (by rw [whole]; decide) _
        rw [header.size, hbytes, hfield, hsize]
      have hbehind : bs.drop chunkHeaderLength =
          head.items ++ (formatted.flatMap FormatChunk.bytes ++ behind) := by
        rw [hbytes, List.drop_left' whole]
      have hnext : bs.drop (chunkHeaderLength + size) =
          formatted.flatMap FormatChunk.bytes ++ behind := by
        rw [← List.drop_drop, hbehind, same, List.drop_left]
      have hlength : n = chunkHeaderLength + size +
          (formatted.flatMap FormatChunk.bytes).length := by
        rw [hn, List.flatMap_cons, List.length_append, FormatChunk.bytes, List.length_append,
          whole, same]
      obtain ⟨filled, hcounted⟩ := ih others (by omega) hnext
      constructor
      · exact List.forall_mem_cons.mpr ⟨items.filled_of_frames same hbehind sizes, filled⟩
      · have hcons : counted (⟨size, cryptoIv, cliPubKey, payloads⟩ :: chunks) =
            chunkHeaderLength + size + counted chunks := by
          rw [counted, List.map_cons, List.sum_cons]
          rfl
        rw [hcons, hcounted]
        omega

end Chunks

/-- Whatever stands in the memory behind the content, `DecodeFile` accepts the format only, if
and only if, wherever it gets through a content of at least a chunk header, the items of each
chunk take up its size and the chunks take up the content. -/
theorem decodeFile_acceptsFormat_iff (c : Codec) (file : Loaded) (st : c.Stream) :
    AcceptsFormat file.content (decodeLoaded c file st) ↔
      (chunkHeaderLength ≤ file.content.length →
        ∀ chunks, AcceptedChunks c file.content.length (file.content ++ file.behind) chunks →
          (∀ chunk ∈ chunks, chunk.Filled) ∧ counted chunks = file.content.length) := by
  by_cases large : chunkHeaderLength ≤ file.content.length
  · rw [decodeLoaded, if_neg (Nat.not_lt.mpr large), forall_prop_of_true large]
    constructor
    · intro acceptsFormat chunks accepted
      obtain ⟨formatted, -, wellFormed, hbytes, -⟩ :=
        acceptsFormat (returns_of_accepted accepted (Nat.sub_zero _).symm List.drop_zero.symm _).1
      exact filled_of_format accepted wellFormed (by rw [← hbytes]) (by rw [← hbytes])
    · intro condition returns
      obtain ⟨chunks, accepted, hpayloads⟩ := accepted_of_returns returns
      rw [List.drop_zero, Nat.sub_zero] at accepted
      obtain ⟨filled, whole⟩ := condition chunks accepted
      obtain ⟨formatted, wellFormed, hbytes, hformatted⟩ :=
        format_of_accepted accepted file.length_le filled whole
      have hcontent : file.memory.bytes.take file.content.length = file.content := List.take_left
      rw [hcontent] at hbytes
      refine ⟨formatted, ?_, wellFormed, hbytes, hpayloads.trans hformatted⟩
      rintro rfl
      rw [hbytes] at large
      exact absurd large (by decide)
  · rw [decodeLoaded, if_pos (Nat.lt_of_not_le large)]
    exact iff_of_true (fun returns => by cases returns) (fun h => absurd h large)

section Example

def blankHeader (size : Nat) : Bytes :=
  (ChunkHeader.mk size (List.replicate 32 0) (List.replicate 128 0)).bytes

/-- A chunk of eight bytes with one item of 176, which are a chunk without items. -/
def straddlingFile : Loaded where
  content := blankHeader 8 ++ (ItemHeader.bytes 176 ++ blankHeader 0)
  behind := []
  length_lt := by decide +kernel

theorem straddlingFile_accepted :
    AcceptedChunks plainCodec straddlingFile.content.length straddlingFile.memory.bytes
      [⟨8, List.replicate 17 0, List.replicate 65 0, [blankHeader 0]⟩,
        ⟨0, List.replicate 17 0, List.replicate 65 0, []⟩] := by
  have items : LaidItems 8 (straddlingFile.memory.bytes.drop chunkHeaderLength)
      [blankHeader 0] := by
    have item : LaidItems 8 (straddlingFile.memory.bytes.drop chunkHeaderLength)
        [itemPayload (straddlingFile.memory.bytes.drop chunkHeaderLength) 176] :=
      LaidItems.item (by decide) (by constructor <;> decide +kernel) LaidItems.done
    exact item
  have header : CompleteHeader straddlingFile.memory.bytes 8 (List.replicate 17 0)
      (List.replicate 65 0) := by
    constructor <;> decide +kernel
  have last : CompleteHeader (straddlingFile.memory.bytes.drop (chunkHeaderLength + 8)) 0
      (List.replicate 17 0) (List.replicate 65 0) := by
    constructor <;> decide +kernel
  have hlength : straddlingFile.content.length = 360 := by decide +kernel
  rw [hlength]
  exact AcceptedChunks.chunk (by decide) header rfl items (by simp [plainCodec])
    (AcceptedChunks.chunk (by decide) last rfl LaidItems.done (by simp) AcceptedChunks.done)

/-- The item goes on beyond its chunk, and its payload is read a second time as a chunk. -/
theorem straddlingItem_accepted :
    (decodeLoaded plainCodec straddlingFile ()).error = none ∧
      (decodeLoaded plainCodec straddlingFile ()).payloads = [[blankHeader 0], []] ∧
      ¬ AcceptsFormat straddlingFile.content (decodeLoaded plainCodec straddlingFile ()) := by
  have large : ¬ straddlingFile.content.length < chunkHeaderLength := by decide +kernel
  obtain ⟨returns, hpayloads⟩ :=
    returns_of_accepted straddlingFile_accepted (Nat.sub_zero _).symm List.drop_zero.symm ()
  unfold decodeLoaded
  rw [if_neg large]
  refine ⟨returns, hpayloads, ?_⟩
  intro acceptsFormat
  obtain ⟨formatted, -, wellFormed, hbytes, -⟩ := acceptsFormat returns
  have hmemory : straddlingFile.memory.bytes =
      formatted.flatMap FormatChunk.bytes ++ straddlingFile.behind := by
    rw [← hbytes]
    rfl
  obtain ⟨filled, -⟩ := filled_of_format straddlingFile_accepted wellFormed (by rw [← hbytes])
    hmemory
  exact absurd (filled _ List.mem_cons_self) (by unfold LaidChunk.Filled; decide +kernel)

end Example

end FlashLog.Decode
