import FlashLog.Decode.DecodeFile
import FlashLog.Decode.ItemLoop

/-!
The files on which the decoder reads no byte outside the content: complete chunks of complete
items, up to the end or up to something that makes the decoder throw.
-/

set_option autoImplicit false
set_option relaxedAutoImplicit false

namespace FlashLog.Decode

open FlashLog.Support
open FlashLog.Sinks

variable {c : Codec}

section Grammar

/-- An item of `size` bytes behind a valid header, all of it there. -/
def CompleteItem (bs : Bytes) (size : Nat) : Prop :=
  ItemHeader.length + size ≤ bs.length ∧ ItemHeader.read bs = some size

def itemPayload (bs : Bytes) (size : Nat) : Bytes := Bytes.slice bs ItemHeader.length size

/-- The first `n` bytes are complete items that `Decrypt` accepts; the last may go on beyond
the `n` bytes. -/
inductive Items (key : c.Key) : Nat → Bytes → Prop
  | done {bs : Bytes} : Items key 0 bs
  | item {n size : Nat} {bs decrypted : Bytes} (more : 0 < n) (complete : CompleteItem bs size)
      (accepted : c.decrypt key (itemPayload bs size) = some decrypted)
      (rest : Items key (n - (ItemHeader.length + size)) (bs.drop (ItemHeader.length + size))) :
      Items key n bs

/-- Among the items of the first `n` bytes, behind complete ones only, stands a wrong magic
number or a complete item that `Decrypt` refuses. -/
inductive Stops (key : c.Key) : Nat → Bytes → Prop
  | magic {n : Nat} {bs : Bytes} (more : 0 < n) (whole : 4 ≤ bs.length)
      (wrong : Bytes.toNatLE (Bytes.slice bs 0 4) ≠ ItemHeader.kMagic) : Stops key n bs
  | refused {n size : Nat} {bs : Bytes} (more : 0 < n) (complete : CompleteItem bs size)
      (refused : c.decrypt key (itemPayload bs size) = none) : Stops key n bs
  | item {n size : Nat} {bs decrypted : Bytes} (more : 0 < n) (complete : CompleteItem bs size)
      (accepted : c.decrypt key (itemPayload bs size) = some decrypted)
      (rest : Stops key (n - (ItemHeader.length + size)) (bs.drop (ItemHeader.length + size))) :
      Stops key n bs

/-- The bytes of a chunk header that are read: the magic number, the size, 17 bytes of `iv` and
65 of `pub_key`. -/
structure CompleteHeader (bs : Bytes) (size : Nat) (cryptoIv cliPubKey : Bytes) : Prop where
  whole : 113 ≤ bs.length
  magic : Bytes.toNatLE (Bytes.slice bs 0 8) = ChunkHeader.kMagic
  size : size = Bytes.toNatLE (Bytes.slice bs 8 8)
  iv : cryptoIv = Bytes.slice bs 16 17
  pubKey : cliPubKey = Bytes.slice bs 48 65

/-- Complete chunks of complete items, up to the end or up to what makes the decoder throw: a
wrong magic number, a refused public key, a refused item. -/
inductive SafeChunks (c : Codec) : Bytes → Prop
  | done : SafeChunks c []
  | magic {bs : Bytes} (whole : 8 ≤ bs.length)
      (wrong : Bytes.toNatLE (Bytes.slice bs 0 8) ≠ ChunkHeader.kMagic) : SafeChunks c bs
  | key {bs cryptoIv cliPubKey : Bytes} {size : Nat}
      (header : CompleteHeader bs size cryptoIv cliPubKey)
      (refused : c.agree cryptoIv cliPubKey = none) : SafeChunks c bs
  | stops {bs cryptoIv cliPubKey : Bytes} {size : Nat} {key : c.Key}
      (header : CompleteHeader bs size cryptoIv cliPubKey)
      (agreed : c.agree cryptoIv cliPubKey = some key)
      (stops : Stops key size (bs.drop chunkHeaderLength)) : SafeChunks c bs
  | chunk {bs cryptoIv cliPubKey : Bytes} {size : Nat} {key : c.Key}
      (header : CompleteHeader bs size cryptoIv cliPubKey)
      (agreed : c.agree cryptoIv cliPubKey = some key)
      (items : Items key size (bs.drop chunkHeaderLength))
      (rest : SafeChunks c (bs.drop (chunkHeaderLength + size))) : SafeChunks c bs

end Grammar

section Item

variable {file : FileData} {pos : Nat} {key : c.Key} {st : c.Stream}

theorem FileData.read_drop (hpos : pos ≤ file.bytes.length) (off len : Nat)
    (inside : off + len ≤ (file.bytes.drop pos).length) :
    file.read (pos + off) len = .ok (Bytes.slice (file.bytes.drop pos) off len) := by
  rw [List.length_drop] at inside
  rw [FileData.read, if_pos (by omega), Bytes.slice, Bytes.slice, List.drop_drop]

theorem FileData.read_outside (off len : Nat)
    (outside : (file.bytes.drop pos).length < off + len) :
    file.read (pos + off) len = .error .outOfRange := by
  rw [List.length_drop] at outside
  rw [FileData.read, if_neg (by omega)]

theorem pos_le_of_drop {n : Nat} (hn : n ≤ (file.bytes.drop pos).length) (hpos : 0 < n) :
    pos ≤ file.bytes.length := by
  rw [List.length_drop] at hn
  omega

theorem ItemHeader.read_eq_some {bs : Bytes} {size : Nat} :
    ItemHeader.read bs = some size ↔
      Bytes.toNatLE (Bytes.slice bs 0 4) = ItemHeader.kMagic ∧
        size = Bytes.toNatLE (Bytes.slice bs 4 4) := by
  rw [ItemHeader.read]
  split
  · rename_i hmagic
    simp [hmagic, eq_comm]
  · rename_i hmagic
    simp [hmagic]

theorem decodeItemData_complete {size : Nat} (complete : CompleteItem (file.bytes.drop pos) size) :
    decodeItemData c file pos key st =
      match c.decrypt key (itemPayload (file.bytes.drop pos) size) with
      | none => .error .decrypt
      | some decrypted =>
        let (st, decompressed) := c.decompress st decrypted
        .ok (ItemHeader.length + size,
          ⟨itemPayload (file.bytes.drop pos) size, decrypted,
            c.format (c.parse decompressed).1⟩, st) := by
  obtain ⟨whole, hread⟩ := complete
  obtain ⟨hmagic, hsize⟩ := ItemHeader.read_eq_some.mp hread
  have hlength : ItemHeader.length = 8 := rfl
  have hpos := pos_le_of_drop whole (by omega)
  have readMagic := FileData.read_drop hpos 0 4 (by omega)
  have readSize := FileData.read_drop hpos 4 4 (by omega)
  have readPayload := FileData.read_drop hpos ItemHeader.length size whole
  rw [Nat.add_zero] at readMagic
  simp only [decodeItemData, readMagic, readSize, ← hsize, readPayload, bind, Except.bind]
  rw [if_neg (not_not_intro hmagic)]
  rfl

theorem decodeItemData_magic (whole : 4 ≤ (file.bytes.drop pos).length)
    (wrong : Bytes.toNatLE (Bytes.slice (file.bytes.drop pos) 0 4) ≠ ItemHeader.kMagic) :
    decodeItemData c file pos key st = .error .itemMagic := by
  have readMagic := FileData.read_drop (pos_le_of_drop whole (by decide)) 0 4 (by omega)
  rw [Nat.add_zero] at readMagic
  simp only [decodeItemData, readMagic, bind, Except.bind]
  rw [if_pos wrong]
  rfl

/-- Anything else in the place of an item makes `DecodeItemData` read outside the file. -/
theorem decodeItemData_cut
    (right : 4 ≤ (file.bytes.drop pos).length →
      Bytes.toNatLE (Bytes.slice (file.bytes.drop pos) 0 4) = ItemHeader.kMagic)
    (cut : ∀ size, ¬ CompleteItem (file.bytes.drop pos) size) :
    decodeItemData c file pos key st = .error .outOfRange := by
  by_cases whole : 4 ≤ (file.bytes.drop pos).length
  · have hmagic := right whole
    have hpos := pos_le_of_drop whole (by decide)
    have readMagic := FileData.read_drop hpos 0 4 (by omega)
    rw [Nat.add_zero] at readMagic
    simp only [decodeItemData, readMagic, bind, Except.bind]
    rw [if_neg (not_not_intro hmagic)]
    by_cases field : 4 + 4 ≤ (file.bytes.drop pos).length
    · have readSize := FileData.read_drop hpos 4 4 field
      have outside : (file.bytes.drop pos).length <
          ItemHeader.length + Bytes.toNatLE (Bytes.slice (file.bytes.drop pos) 4 4) := by
        by_contra inside
        exact cut _ ⟨Nat.le_of_not_lt inside, ItemHeader.read_eq_some.mpr ⟨hmagic, rfl⟩⟩
      simp only [readSize, FileData.read_outside _ _ outside]
    · simp only [FileData.read_outside 4 4 (Nat.lt_of_not_le field)]
  · have readMagic := FileData.read_outside 0 4 (Nat.lt_of_not_le whole)
    rw [Nat.add_zero] at readMagic
    simp only [decodeItemData, readMagic]
    rfl

theorem decodeItemData_returns {itemSize : Nat} {record : Record} {st' : c.Stream}
    (h : decodeItemData c file pos key st = .ok (itemSize, record, st')) :
    ∃ size decrypted, CompleteItem (file.bytes.drop pos) size ∧
      c.decrypt key (itemPayload (file.bytes.drop pos) size) = some decrypted ∧
        itemSize = ItemHeader.length + size := by
  by_cases wrong : 4 ≤ (file.bytes.drop pos).length ∧
      Bytes.toNatLE (Bytes.slice (file.bytes.drop pos) 0 4) ≠ ItemHeader.kMagic
  · rw [decodeItemData_magic wrong.1 wrong.2] at h
    cases h
  · by_cases complete : ∃ size, CompleteItem (file.bytes.drop pos) size
    · obtain ⟨size, complete⟩ := complete
      rw [decodeItemData_complete complete] at h
      split at h
      · cases h
      · rename_i decrypted accepted
        cases h
        exact ⟨size, decrypted, complete, accepted, rfl⟩
    · rw [decodeItemData_cut (by simpa using wrong) (by simpa using complete)] at h
      cases h

theorem decodeItemData_throws {e : DecodeError} (he : e ≠ .outOfRange)
    (h : decodeItemData c file pos key st = .error e) :
    (4 ≤ (file.bytes.drop pos).length ∧
        Bytes.toNatLE (Bytes.slice (file.bytes.drop pos) 0 4) ≠ ItemHeader.kMagic) ∨
      ∃ size, CompleteItem (file.bytes.drop pos) size ∧
        c.decrypt key (itemPayload (file.bytes.drop pos) size) = none := by
  by_cases wrong : 4 ≤ (file.bytes.drop pos).length ∧
      Bytes.toNatLE (Bytes.slice (file.bytes.drop pos) 0 4) ≠ ItemHeader.kMagic
  · exact Or.inl wrong
  · by_cases complete : ∃ size, CompleteItem (file.bytes.drop pos) size
    · obtain ⟨size, complete⟩ := complete
      rw [decodeItemData_complete complete] at h
      split at h
      · rename_i refused
        exact Or.inr ⟨size, complete, refused⟩
      · cases h
    · rw [decodeItemData_cut (by simpa using wrong) (by simpa using complete)] at h
      exact absurd (Except.error.inj h).symm he

end Item

section ItemLoop

variable {file : FileData} {chunkData size : Nat} {key : c.Key} {offset : Nat} {st : c.Stream}

theorem drop_item (k : Nat) :
    (file.bytes.drop (chunkData + offset)).drop k = file.bytes.drop (chunkData + (offset + k)) := by
  rw [List.drop_drop, Nat.add_assoc]

theorem items_of_ok {out : List Record × c.Stream}
    (h : decodeChunkItems c file chunkData size key offset st = .ok out) :
    Items key (size - offset) (file.bytes.drop (chunkData + offset)) := by
  induction offset, st using decodeChunkItems.induct c file chunkData size key generalizing out with
  | case1 offset st hmore e herror =>
    rw [decodeChunkItems_error hmore herror] at h
    cases h
  | case2 offset st hmore itemSize record st' hitem ih =>
    obtain ⟨payload, decrypted, complete, accepted, rfl⟩ := decodeItemData_returns hitem
    have inside := (decodeItemData_ok c hitem).2
    have hfile := file.length_lt
    rw [Nat.mod_eq_of_lt (by omega)] at ih
    rw [decodeChunkItems_item hmore hitem] at h
    cases hrest : decodeChunkItems c file chunkData size key
        (offset + (ItemHeader.length + payload)) st' with
    | error e =>
      rw [hrest] at h
      cases h
    | ok rest =>
      apply Items.item (Nat.sub_pos_of_lt hmore) complete accepted
      rw [drop_item, Nat.sub_sub]
      exact ih hrest
  | case3 offset st hdone =>
    rw [Nat.sub_eq_zero_of_le (Nat.le_of_not_lt hdone)]
    exact Items.done

theorem stops_of_error {e : DecodeError} (he : e ≠ .outOfRange)
    (h : decodeChunkItems c file chunkData size key offset st = .error e) :
    Stops key (size - offset) (file.bytes.drop (chunkData + offset)) := by
  induction offset, st using decodeChunkItems.induct c file chunkData size key with
  | case1 offset st hmore e' herror =>
    have hpos := Nat.sub_pos_of_lt hmore
    rw [decodeChunkItems_error hmore herror] at h
    obtain rfl := Except.error.inj h
    rcases decodeItemData_throws he herror with ⟨whole, wrong⟩ | ⟨payload, complete, refused⟩
    · exact Stops.magic hpos whole wrong
    · exact Stops.refused hpos complete refused
  | case2 offset st hmore itemSize record st' hitem ih =>
    obtain ⟨payload, decrypted, complete, accepted, rfl⟩ := decodeItemData_returns hitem
    have inside := (decodeItemData_ok c hitem).2
    have hfile := file.length_lt
    rw [Nat.mod_eq_of_lt (by omega)] at ih
    rw [decodeChunkItems_item hmore hitem] at h
    cases hrest : decodeChunkItems c file chunkData size key
        (offset + (ItemHeader.length + payload)) st' with
    | error e' =>
      rw [hrest] at h
      obtain rfl := Except.error.inj h
      apply Stops.item (Nat.sub_pos_of_lt hmore) complete accepted
      rw [drop_item, Nat.sub_sub]
      exact ih hrest
    | ok rest =>
      rw [hrest] at h
      cases h
  | case3 offset st hdone =>
    rw [decodeChunkItems_done hdone] at h
    cases h

theorem ok_of_items {n : Nat} {bs : Bytes} (items : Items key n bs) (hn : n = size - offset)
    (hbs : bs = file.bytes.drop (chunkData + offset)) :
    ∃ out, decodeChunkItems c file chunkData size key offset st = .ok out := by
  induction items generalizing offset st with
  | done => exact ⟨_, decodeChunkItems_done (by omega)⟩
  | @item n payload bs decrypted more complete accepted rest ih =>
    subst hn hbs
    have hitem : decodeItemData c file (chunkData + offset) key st = _ :=
      decodeItemData_complete complete
    rw [accepted] at hitem
    obtain ⟨out, hrest⟩ := @ih (offset + (ItemHeader.length + payload))
      (c.decompress st decrypted).1 (Nat.sub_sub _ _ _) (drop_item _)
    rw [decodeChunkItems_item (by omega) hitem, hrest]
    exact ⟨_, rfl⟩

theorem error_of_stops {n : Nat} {bs : Bytes} (stops : Stops key n bs) (hn : n = size - offset)
    (hbs : bs = file.bytes.drop (chunkData + offset)) :
    ∃ e, e ≠ .outOfRange ∧ decodeChunkItems c file chunkData size key offset st = .error e := by
  induction stops generalizing offset st with
  | magic more whole wrong =>
    subst hn hbs
    exact ⟨.itemMagic, by decide,
      decodeChunkItems_error (by omega) (decodeItemData_magic whole wrong)⟩
  | refused more complete refused =>
    subst hn hbs
    have hitem : decodeItemData c file (chunkData + offset) key st = _ :=
      decodeItemData_complete complete
    rw [refused] at hitem
    exact ⟨.decrypt, by decide, decodeChunkItems_error (by omega) hitem⟩
  | @item n payload bs decrypted more complete accepted rest ih =>
    subst hn hbs
    have hitem : decodeItemData c file (chunkData + offset) key st = _ :=
      decodeItemData_complete complete
    rw [accepted] at hitem
    obtain ⟨e, he, hrest⟩ := @ih (offset + (ItemHeader.length + payload))
      (c.decompress st decrypted).1 (Nat.sub_sub _ _ _) (drop_item _)
    refine ⟨e, he, ?_⟩
    rw [decodeChunkItems_item (by omega) hitem, hrest]
    rfl

end ItemLoop

section Chunk

variable {file : FileData} {pos : Nat} {st : c.Stream} {cryptoIv cliPubKey : Bytes} {size : Nat}

theorem decodeChunkData_magic (whole : 8 ≤ (file.bytes.drop pos).length)
    (wrong : Bytes.toNatLE (Bytes.slice (file.bytes.drop pos) 0 8) ≠ ChunkHeader.kMagic) :
    decodeChunkData c file pos st = .error .chunkMagic := by
  have readMagic := FileData.read_drop (pos_le_of_drop whole (by decide)) 0 8 (by omega)
  rw [Nat.add_zero] at readMagic
  simp only [decodeChunkData, readMagic, bind, Except.bind]
  rw [if_pos wrong]
  rfl

theorem decodeChunkData_header
    (header : CompleteHeader (file.bytes.drop pos) size cryptoIv cliPubKey) :
    decodeChunkData c file pos st =
      match c.agree cryptoIv cliPubKey with
      | none => .error .keyAgreement
      | some key =>
        (decodeChunkItems c file (pos + chunkHeaderLength) size key 0 st).map
          fun (records, st) => ((chunkHeaderLength + size) % 2 ^ 64, records, st) := by
  obtain ⟨whole, magic, rfl, rfl, rfl⟩ := header
  have hpos := pos_le_of_drop whole (by decide)
  have readMagic := FileData.read_drop hpos 0 8 (by omega)
  have readSize := FileData.read_drop hpos 8 8 (by omega)
  have readIv := FileData.read_drop hpos 16 17 (by omega)
  have readKey := FileData.read_drop hpos 48 65 (by omega)
  rw [Nat.add_zero] at readMagic
  simp only [decodeChunkData, readMagic, readSize, readIv, readKey, bind, Except.bind]
  rw [if_neg (not_not_intro magic)]
  cases c.agree _ _ with
  | none => rfl
  | some key =>
    simp only
    cases decodeChunkItems c file (pos + chunkHeaderLength) _ key 0 st <;> rfl

theorem decodeChunkData_cut
    (right : 8 ≤ (file.bytes.drop pos).length →
      Bytes.toNatLE (Bytes.slice (file.bytes.drop pos) 0 8) = ChunkHeader.kMagic)
    (cut : (file.bytes.drop pos).length < 113) :
    decodeChunkData c file pos st = .error .outOfRange := by
  by_cases whole : 8 ≤ (file.bytes.drop pos).length
  · have magic := right whole
    have hpos := pos_le_of_drop whole (by decide)
    have readMagic := FileData.read_drop hpos 0 8 (by omega)
    have readKey : file.read (pos + 48) 65 = _ := FileData.read_outside 48 65 cut
    rw [Nat.add_zero] at readMagic
    simp only [decodeChunkData, readMagic, bind, Except.bind]
    rw [if_neg (not_not_intro magic)]
    by_cases iv : 16 + 17 ≤ (file.bytes.drop pos).length
    · have readIv := FileData.read_drop hpos 16 17 iv
      simp only [readIv, readKey]
    · have readIv := FileData.read_outside 16 17 (Nat.lt_of_not_le iv)
      simp only [readIv]
  · have readMagic := FileData.read_outside 0 8 (Nat.lt_of_not_le whole)
    rw [Nat.add_zero] at readMagic
    simp only [decodeChunkData, readMagic]
    rfl

theorem header_cases (bs : Bytes) :
    (8 ≤ bs.length ∧ Bytes.toNatLE (Bytes.slice bs 0 8) ≠ ChunkHeader.kMagic) ∨
      CompleteHeader bs (Bytes.toNatLE (Bytes.slice bs 8 8)) (Bytes.slice bs 16 17)
        (Bytes.slice bs 48 65) ∨
      ((8 ≤ bs.length → Bytes.toNatLE (Bytes.slice bs 0 8) = ChunkHeader.kMagic) ∧
        bs.length < 113) := by
  by_cases wrong : 8 ≤ bs.length ∧ Bytes.toNatLE (Bytes.slice bs 0 8) ≠ ChunkHeader.kMagic
  · exact Or.inl wrong
  · have right : 8 ≤ bs.length → Bytes.toNatLE (Bytes.slice bs 0 8) = ChunkHeader.kMagic := by
      simpa using wrong
    by_cases whole : 113 ≤ bs.length
    · exact Or.inr (Or.inl ⟨whole, right (by omega), rfl, rfl, rfl⟩)
    · exact Or.inr (Or.inr ⟨right, Nat.lt_of_not_le whole⟩)

theorem chunkSize_eq {chunkData : Nat} {key : c.Key} {out : List Record × c.Stream}
    (h : decodeChunkItems c file chunkData size key 0 st = .ok out) :
    (chunkHeaderLength + size) % 2 ^ 64 = chunkHeaderLength + size := by
  have hlength : chunkHeaderLength = 176 := rfl
  have hfile := file.length_lt
  by_cases hmore : 0 < size
  · have inside := decodeChunkItems_ok h hmore
    omega
  · omega

theorem decodeChunkData_returns {chunkSize : Nat} {records : List Record} {st' : c.Stream}
    (h : decodeChunkData c file pos st = .ok (chunkSize, records, st')) :
    ∃ size cryptoIv cliPubKey key,
      CompleteHeader (file.bytes.drop pos) size cryptoIv cliPubKey ∧
        c.agree cryptoIv cliPubKey = some key ∧
        Items key size (file.bytes.drop (pos + chunkHeaderLength)) ∧
        chunkSize = chunkHeaderLength + size := by
  rcases header_cases (file.bytes.drop pos) with ⟨whole, wrong⟩ | header | ⟨right, cut⟩
  · rw [decodeChunkData_magic whole wrong] at h
    cases h
  · rw [decodeChunkData_header header] at h
    split at h
    · cases h
    · rename_i key agreed
      refine ⟨_, _, _, key, header, agreed, ?_⟩
      generalize Bytes.toNatLE (Bytes.slice (file.bytes.drop pos) 8 8) = size at h ⊢
      cases hitems : decodeChunkItems c file (pos + chunkHeaderLength) size key 0 st with
      | error e =>
        rw [hitems] at h
        cases h
      | ok out =>
        rw [hitems] at h
        cases h
        exact ⟨items_of_ok hitems, chunkSize_eq hitems⟩
  · rw [decodeChunkData_cut right cut] at h
    cases h

theorem safe_of_throws {e : DecodeError} (he : e ≠ .outOfRange)
    (h : decodeChunkData c file pos st = .error e) : SafeChunks c (file.bytes.drop pos) := by
  rcases header_cases (file.bytes.drop pos) with ⟨whole, wrong⟩ | header | ⟨right, cut⟩
  · exact SafeChunks.magic whole wrong
  · rw [decodeChunkData_header header] at h
    split at h
    · rename_i refused
      exact SafeChunks.key header refused
    · rename_i key agreed
      apply SafeChunks.stops header agreed
      generalize Bytes.toNatLE (Bytes.slice (file.bytes.drop pos) 8 8) = size at h ⊢
      cases hitems : decodeChunkItems c file (pos + chunkHeaderLength) size key 0 st with
      | error e' =>
        rw [hitems] at h
        obtain rfl := Except.error.inj h
        rw [List.drop_drop]
        exact stops_of_error he hitems
      | ok out =>
        rw [hitems] at h
        cases h
  · rw [decodeChunkData_cut right cut] at h
    exact absurd (Except.error.inj h).symm he

end Chunk

section ChunkLoop

variable {file : FileData} {offset : Nat} {st : c.Stream}

theorem safe_of_decodeChunks (h : (decodeChunks c file offset st).error ≠ some .outOfRange) :
    SafeChunks c (file.bytes.drop offset) := by
  induction offset, st using decodeChunks.induct c file with
  | case1 offset st hmore e herror =>
    rw [decodeChunks_error hmore herror] at h
    apply safe_of_throws _ herror
    rintro rfl
    exact h rfl
  | case2 offset st hmore chunkSize records st' hchunk ih =>
    have nowrap := (decodeChunkData_ok c hchunk).2
    rw [Nat.mod_eq_of_lt nowrap] at ih
    rw [decodeChunks_chunk hmore hchunk] at h
    obtain ⟨size, cryptoIv, cliPubKey, key, header, agreed, items, rfl⟩ :=
      decodeChunkData_returns hchunk
    apply SafeChunks.chunk header agreed
    · rw [List.drop_drop]
      exact items
    · rw [List.drop_drop]
      exact ih h
  | case3 offset st hdone =>
    rw [List.drop_eq_nil_of_le (Nat.le_of_not_lt hdone)]
    exact SafeChunks.done

theorem decodeChunks_throws {n : Nat} (whole : n ≤ (file.bytes.drop offset).length) (hn : 0 < n)
    {e : DecodeError} (he : e ≠ .outOfRange) (h : decodeChunkData c file offset st = .error e) :
    (decodeChunks c file offset st).error ≠ some .outOfRange := by
  rw [List.length_drop] at whole
  rw [decodeChunks_error (by omega) h]
  exact fun same => he (Option.some.inj same)

theorem decodeChunks_of_safe {bs : Bytes} (safe : SafeChunks c bs)
    (hbs : bs = file.bytes.drop offset) :
    (decodeChunks c file offset st).error ≠ some .outOfRange := by
  induction safe generalizing offset st with
  | done =>
    have hlength : offset + 0 ≥ file.bytes.length := by
      simpa using List.drop_eq_nil_iff.mp hbs.symm
    rw [decodeChunks_done (by omega)]
    exact Option.some_ne_none _ |>.symm
  | magic whole wrong =>
    subst hbs
    exact decodeChunks_throws whole (by decide) (by decide) (decodeChunkData_magic whole wrong)
  | @key bs cryptoIv cliPubKey size header refused =>
    subst hbs
    have hchunk : decodeChunkData c file offset st = _ := decodeChunkData_header header
    rw [refused] at hchunk
    exact decodeChunks_throws header.whole (by decide) (by decide) hchunk
  | @stops bs cryptoIv cliPubKey size key header agreed stops =>
    subst hbs
    have hchunk : decodeChunkData c file offset st = _ := decodeChunkData_header header
    obtain ⟨e, he, hitems⟩ : ∃ e, e ≠ .outOfRange ∧
        decodeChunkItems c file (offset + chunkHeaderLength) size key 0 st = .error e :=
      error_of_stops stops (Nat.sub_zero _).symm List.drop_drop
    rw [agreed] at hchunk
    simp only [hitems] at hchunk
    exact decodeChunks_throws header.whole (by decide) he hchunk
  | @chunk bs cryptoIv cliPubKey size key header agreed items rest ih =>
    subst hbs
    have hchunk : decodeChunkData c file offset st = _ := decodeChunkData_header header
    obtain ⟨out, hitems⟩ : ∃ out,
        decodeChunkItems c file (offset + chunkHeaderLength) size key 0 st = .ok out :=
      ok_of_items items (Nat.sub_zero _).symm List.drop_drop
    rw [agreed] at hchunk
    simp only [hitems, Except.map, chunkSize_eq hitems] at hchunk
    have hmore : offset < file.bytes.length := by
      have whole := header.whole
      rw [List.length_drop] at whole
      omega
    rw [decodeChunks_chunk hmore hchunk]
    exact ih List.drop_drop

end ChunkLoop

/-- `DecodeFile` ends on every file, and its loop over the chunks moves on; it reads inside the
content exactly where it stops at once, on less than a chunk header, or finds complete chunks of
complete items up to what makes it throw. -/
theorem decodeFile_safe_iff (c : Codec) (file : FileData) (st : c.Stream) :
    ((decodeFile c file st).error ≠ some .outOfRange ∧
      (decodeFile c file st).chunks.Pairwise
        (fun chunk later => chunk.offset + chunkHeaderLength ≤ later.offset)) ↔
      file.bytes.length < chunkHeaderLength ∨ SafeChunks c file.bytes := by
  rw [decodeFile]
  split
  · rename_i small
    simp [small]
  · rename_i large
    rw [and_iff_left decodeChunks_forward.1, or_iff_right large]
    constructor
    · exact safe_of_decodeChunks
    · intro safe
      exact decodeChunks_of_safe safe List.drop_zero.symm

/-- A codec that accepts every key and payload and leaves the payload as it is. -/
def plainCodec : Codec where
  Key := Unit
  Stream := Unit
  Msg := Bytes
  agree _ _ := some ()
  decrypt _ bs := some bs
  decompress st bs := (st, bs)
  parse bs := (bs, true)
  format msg := msg

set_option maxRecDepth 2000 in
/-- A file that ends behind the header of its first chunk, which announces an item. -/
def cutFile : FileData where
  bytes := Bytes.ofNatLE 8 ChunkHeader.kMagic ++ Bytes.ofNatLE 8 9 ++ List.replicate 160 0
  length_lt := by decide

set_option maxRecDepth 2000 in
theorem cutFile_header : CompleteHeader (cutFile.bytes.drop 0) 9 (List.replicate 17 0)
    (List.replicate 65 0) := by
  constructor <;> decide

theorem cutFile_unsafe :
    ¬ ∀ (c : Codec) (file : FileData) (st : c.Stream),
      (decodeFile c file st).error ≠ some .outOfRange ∧
        (decodeFile c file st).chunks.Pairwise
          (fun chunk later => chunk.offset + chunkHeaderLength ≤ later.offset) := by
  intro always
  have hlength : cutFile.bytes.length = 176 := by
    simp only [cutFile, List.length_append, Bytes.length_ofNatLE, List.length_replicate]
  have hitem : decodeItemData plainCodec cutFile (0 + chunkHeaderLength + 0) () () =
      .error .outOfRange := by
    have behind : (cutFile.bytes.drop (0 + chunkHeaderLength + 0)).length = 0 := by
      rw [List.length_drop, hlength]
      rfl
    apply decodeItemData_cut
    · intro whole
      omega
    · rintro size ⟨whole, -⟩
      have hpos : 0 < ItemHeader.length := by decide
      omega
  have hitems : decodeChunkItems plainCodec cutFile (0 + chunkHeaderLength) 9 () 0 () = _ :=
    decodeChunkItems_error (by decide) hitem
  have hchunk : decodeChunkData plainCodec cutFile 0 () = .error .outOfRange := by
    have hheader : decodeChunkData plainCodec cutFile 0 () = _ :=
      decodeChunkData_header cutFile_header
    have agreed : plainCodec.agree (List.replicate 17 0) (List.replicate 65 0) = some () := rfl
    rw [hheader, agreed]
    simp only [hitems]
    rfl
  have hfile : decodeFile plainCodec cutFile () = ⟨[], some .outOfRange⟩ := by
    have large : ¬ cutFile.bytes.length < chunkHeaderLength := by
      rw [hlength]
      decide
    unfold decodeFile
    rw [if_neg large, decodeChunks_error (by omega) hchunk]
  apply (always plainCodec cutFile ()).1
  rw [hfile]

end FlashLog.Decode
