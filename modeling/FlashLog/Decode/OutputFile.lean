import FlashLog.Decode.DecodeFile

/-!
`DecodeFile` with the variables it works on: `output_buf`, cleared for every chunk and appended
to item by item, the one global decompressor, and the output file, to which a chunk's text is
appended behind its last item. What an exception leaves in the file is the text of the chunks
before.
-/

set_option autoImplicit false
set_option relaxedAutoImplicit false

namespace FlashLog.Decode

open FlashLog.Support

variable (c : Codec)

/-- The buffer, the decompressor and the content of the output file; a file that is not there
counts as empty. -/
structure Work where
  outputBuf : Bytes
  stream : c.Stream
  output : Bytes

variable {c} in
/-- `WriteToFile`: the file is opened for appending. -/
def Work.writeToFile (w : Work c) : Work c := { w with output := w.output ++ w.outputBuf }

/-- The loop of `DecodeChunkData`. An item that throws leaves what was appended before it. -/
def decodeItemsInto (file : FileData) (chunkData size : Nat) (key : c.Key) (offset : Nat)
    (w : Work c) : Work c × Option DecodeError :=
  if offset < size then
    match h : decodeItemData c file (chunkData + offset) key w.stream with
    | .error e => (w, some e)
    | .ok (itemSize, record, stream) =>
      decodeItemsInto file chunkData size key ((offset + itemSize) % 2 ^ 64)
        { w with outputBuf := w.outputBuf ++ record.text ++ [10], stream }
  else (w, none)
termination_by file.bytes.length - (chunkData + offset)
decreasing_by
  have hitem := decodeItemData_ok c h
  have hpos : 0 < Sinks.ItemHeader.length := by decide
  have hfile := file.length_lt
  rw [Nat.mod_eq_of_lt (by omega)]
  omega

/-- What `DecodeChunkData` reads of a chunk header: the key that is agreed on, and the size. -/
def decodeChunkHeader (file : FileData) (pos : Nat) : Except DecodeError (c.Key × Nat) := do
  let magic ← file.read pos 8
  if Bytes.toNatLE magic ≠ Sinks.ChunkHeader.kMagic then throw .chunkMagic
  let cryptoIv ← file.read (pos + 16) 17
  let cliPubKey ← file.read (pos + 48) 65
  match c.agree cryptoIv cliPubKey with
  | none => throw .keyAgreement
  | some key => return (key, Bytes.toNatLE (← file.read (pos + 8) 8))

def decodeChunkInto (file : FileData) (pos : Nat) (w : Work c) : Work c × Except DecodeError Nat :=
  match decodeChunkHeader c file pos with
  | .error e => (w, .error e)
  | .ok (key, size) =>
    match decodeItemsInto c file (pos + chunkHeaderLength) size key 0 w with
    | (w, some e) => (w, .error e)
    | (w, none) => (w, .ok ((chunkHeaderLength + size) % 2 ^ 64))

def chunkText (records : List Record) : Bytes := records.flatMap fun record => record.text ++ [10]

section Chunk

variable {c} {file : FileData} {chunkData size : Nat} {key : c.Key} {offset pos : Nat} {w : Work c}

private theorem decodeItemsInto_throws (hmore : offset < size) {e : DecodeError}
    (h : decodeItemData c file (chunkData + offset) key w.stream = .error e) :
    decodeItemsInto c file chunkData size key offset w = (w, some e) := by
  rw [decodeItemsInto, if_pos hmore]
  split
  · rename_i h'
    rw [h] at h'
    obtain rfl := Except.error.inj h'
    rfl
  · rename_i h'
    rw [h] at h'
    cases h'

private theorem decodeItemsInto_item (hmore : offset < size) {itemSize : Nat} {record : Record}
    {stream : c.Stream}
    (h : decodeItemData c file (chunkData + offset) key w.stream =
      .ok (itemSize, record, stream)) :
    decodeItemsInto c file chunkData size key offset w =
      decodeItemsInto c file chunkData size key (offset + itemSize)
        { w with outputBuf := w.outputBuf ++ record.text ++ [10], stream } := by
  have inside := (decodeItemData_ok c h).2
  have hfile := file.length_lt
  rw [decodeItemsInto, if_pos hmore]
  split
  · rename_i h'
    rw [h] at h'
    cases h'
  · rename_i h'
    rw [h] at h'
    cases h'
    rw [Nat.mod_eq_of_lt (by omega)]

theorem decodeItemsInto_ok {records : List Record} {stream : c.Stream}
    (h : decodeChunkItems c file chunkData size key offset w.stream = .ok (records, stream)) :
    decodeItemsInto c file chunkData size key offset w =
      ({ w with outputBuf := w.outputBuf ++ chunkText records, stream }, none) := by
  generalize hst : w.stream = st at h
  induction offset, st using decodeChunkItems.induct c file chunkData size key
    generalizing w records with
  | case1 offset st hmore e herror =>
    rw [decodeChunkItems_error hmore herror] at h
    cases h
  | case2 offset st hmore itemSize record st' hitem ih =>
    have inside := (decodeItemData_ok c hitem).2
    have hfile := file.length_lt
    rw [Nat.mod_eq_of_lt (by omega)] at ih
    rw [decodeChunkItems_item hmore hitem] at h
    subst hst
    rw [decodeItemsInto_item hmore hitem]
    cases hrest : decodeChunkItems c file chunkData size key (offset + itemSize) st' with
    | error e =>
      rw [hrest] at h
      cases h
    | ok rest =>
      rw [hrest] at h
      obtain ⟨rfl, rfl⟩ := Prod.mk.inj (Except.ok.inj h)
      rw [ih (w := { w with outputBuf := w.outputBuf ++ record.text ++ [10], stream := st' })
        rfl hrest]
      simp [chunkText]
  | case3 offset st hdone =>
    rw [decodeChunkItems_done hdone] at h
    obtain ⟨rfl, rfl⟩ := Prod.mk.inj (Except.ok.inj h)
    subst hst
    rw [decodeItemsInto, if_neg hdone]
    simp [chunkText]

theorem decodeItemsInto_error {e : DecodeError}
    (h : decodeChunkItems c file chunkData size key offset w.stream = .error e) :
    ∃ outputBuf stream, decodeItemsInto c file chunkData size key offset w =
      ({ w with outputBuf, stream }, some e) := by
  generalize hst : w.stream = st at h
  induction offset, st using decodeChunkItems.induct c file chunkData size key generalizing w with
  | case1 offset st hmore e' herror =>
    rw [decodeChunkItems_error hmore herror] at h
    obtain rfl := Except.error.inj h
    subst hst
    exact ⟨w.outputBuf, w.stream, decodeItemsInto_throws hmore herror⟩
  | case2 offset st hmore itemSize record st' hitem ih =>
    have inside := (decodeItemData_ok c hitem).2
    have hfile := file.length_lt
    rw [Nat.mod_eq_of_lt (by omega)] at ih
    rw [decodeChunkItems_item hmore hitem] at h
    subst hst
    rw [decodeItemsInto_item hmore hitem]
    cases hrest : decodeChunkItems c file chunkData size key (offset + itemSize) st' with
    | error e' =>
      rw [hrest] at h
      obtain rfl := Except.error.inj h
      exact ih (w := { w with outputBuf := w.outputBuf ++ record.text ++ [10], stream := st' })
        rfl hrest
    | ok rest =>
      rw [hrest] at h
      cases h
  | case3 offset st hdone =>
    rw [decodeChunkItems_done hdone] at h
    cases h

theorem decodeChunkData_eq (st : c.Stream) :
    decodeChunkData c file pos st = (decodeChunkHeader c file pos).bind fun (key, size) =>
      (decodeChunkItems c file (pos + chunkHeaderLength) size key 0 st).map
        fun (records, st) => ((chunkHeaderLength + size) % 2 ^ 64, records, st) := by
  unfold decodeChunkData decodeChunkHeader
  cases file.read pos 8 with
  | error e => rfl
  | ok magic =>
    simp only [bind, Except.bind]
    split
    · rfl
    · cases file.read (pos + 16) 17 with
      | error e => rfl
      | ok cryptoIv =>
        cases file.read (pos + 48) 65 with
        | error e => rfl
        | ok cliPubKey =>
          simp only
          cases c.agree cryptoIv cliPubKey with
          | none => rfl
          | some key =>
            cases file.read (pos + 8) 8 with
            | error e => rfl
            | ok field =>
              simp only [pure, Except.pure]
              cases decodeChunkItems c file (pos + chunkHeaderLength) (Bytes.toNatLE field) key 0 st
                <;> rfl

theorem decodeChunkInto_ok {chunkSize : Nat} {records : List Record} {stream : c.Stream}
    (h : decodeChunkData c file pos w.stream = .ok (chunkSize, records, stream)) :
    decodeChunkInto c file pos w =
      ({ w with outputBuf := w.outputBuf ++ chunkText records, stream }, .ok chunkSize) := by
  rw [decodeChunkData_eq] at h
  rw [decodeChunkInto]
  cases hheader : decodeChunkHeader c file pos with
  | error e =>
    rw [hheader] at h
    cases h
  | ok header =>
    obtain ⟨key, size⟩ := header
    rw [hheader] at h
    simp only [Except.bind] at h
    cases hitems : decodeChunkItems c file (pos + chunkHeaderLength) size key 0 w.stream with
    | error e =>
      rw [hitems] at h
      cases h
    | ok out =>
      rw [hitems] at h
      cases h
      simp only [decodeItemsInto_ok hitems]

theorem decodeChunkInto_error {e : DecodeError} (w : Work c)
    (h : decodeChunkData c file pos w.stream = .error e) :
    ∃ outputBuf stream,
      decodeChunkInto c file pos w = ({ w with outputBuf, stream }, .error e) := by
  rw [decodeChunkData_eq] at h
  rw [decodeChunkInto]
  cases hheader : decodeChunkHeader c file pos with
  | error e' =>
    rw [hheader] at h
    cases h
    exact ⟨w.outputBuf, w.stream, rfl⟩
  | ok header =>
    obtain ⟨key, size⟩ := header
    rw [hheader] at h
    simp only [Except.bind] at h
    cases hitems : decodeChunkItems c file (pos + chunkHeaderLength) size key 0 w.stream with
    | error e' =>
      rw [hitems] at h
      cases h
      obtain ⟨outputBuf, stream, hloop⟩ := decodeItemsInto_error hitems
      exact ⟨outputBuf, stream, by simp only [hloop]⟩
    | ok out =>
      rw [hitems] at h
      cases h

theorem decodeChunkInto_size {w' : Work c} {chunkSize : Nat}
    (h : decodeChunkInto c file pos w = (w', .ok chunkSize)) :
    chunkHeaderLength ≤ chunkSize ∧ pos + chunkSize < 2 ^ 64 := by
  cases hchunk : decodeChunkData c file pos w.stream with
  | error e =>
    obtain ⟨outputBuf, stream, hinto⟩ := decodeChunkInto_error _ hchunk
    rw [hinto] at h
    cases h
  | ok out =>
    obtain ⟨size, records, stream⟩ := out
    rw [decodeChunkInto_ok hchunk] at h
    cases h
    exact decodeChunkData_ok c hchunk

end Chunk

def decodeChunksInto (file : FileData) (offset : Nat) (w : Work c) : Work c × Option DecodeError :=
  if offset < file.bytes.length then
    match h : decodeChunkInto c file offset { w with outputBuf := [] } with
    | (w, .error e) => (w, some e)
    | (w, .ok chunkSize) => decodeChunksInto file ((offset + chunkSize) % 2 ^ 64) w.writeToFile
  else (w, none)
termination_by file.bytes.length - offset
decreasing_by
  have hchunk := decodeChunkInto_size h
  have hpos : 0 < chunkHeaderLength := by decide
  rw [Nat.mod_eq_of_lt hchunk.2]
  omega

/-- `DecodeFile`, on what `ReadFile` has read and an output file with some content. -/
def decodeFileInto (file : FileData) (stream : c.Stream) (prior : Bytes) :
    Work c × Option DecodeError :=
  if file.bytes.length < chunkHeaderLength then (⟨[], stream, prior⟩, some .tooSmall)
  else decodeChunksInto c file 0 ⟨[], stream, prior⟩

/-- The chunks from `offset` on that are decoded one after the other, their texts, and where
that leads. -/
inductive DecodedTexts (file : FileData) : Nat → c.Stream → List Bytes → Nat → c.Stream → Prop
  | done {offset : Nat} {st : c.Stream} : DecodedTexts file offset st [] offset st
  | chunk {offset chunkSize last : Nat} {records : List Record} {st st' st'' : c.Stream}
      {texts : List Bytes} (more : offset < file.bytes.length)
      (decoded : decodeChunkData c file offset st = .ok (chunkSize, records, st'))
      (rest : DecodedTexts file (offset + chunkSize) st' texts last st'') :
      DecodedTexts file offset st (chunkText records :: texts) last st''

section File

variable {c} {file : FileData} {offset last : Nat} {st st' : c.Stream} {texts : List Bytes}

theorem decodeChunksInto_texts {w : Work c}
    (decoded : DecodedTexts c file offset w.stream texts last st) :
    ∃ outputBuf, decodeChunksInto c file offset w =
      decodeChunksInto c file last ⟨outputBuf, st, w.output ++ texts.flatten⟩ := by
  generalize hst : w.stream = first at decoded
  induction decoded generalizing w with
  | done =>
    subst hst
    exact ⟨w.outputBuf, by rw [List.flatten_nil, List.append_nil]⟩
  | @chunk offset chunkSize last records st st' st'' texts more decoded rest ih =>
    subst hst
    have hinto : decodeChunkInto c file offset { w with outputBuf := [] } = _ :=
      decodeChunkInto_ok decoded
    obtain ⟨outputBuf, hrest⟩ :=
      @ih ⟨chunkText records, st', w.output ++ chunkText records⟩ rfl
    have nowrap := (decodeChunkData_ok c decoded).2
    refine ⟨outputBuf, ?_⟩
    rw [List.flatten_cons, ← List.append_assoc, ← hrest, decodeChunksInto, if_pos more]
    split
    · rename_i h
      rw [hinto] at h
      cases h
    · rename_i h
      rw [hinto] at h
      cases h
      rw [Nat.mod_eq_of_lt nowrap]
      rfl

theorem decodedTexts_exists (file : FileData) (offset : Nat) (st : c.Stream) :
    ∃ texts last st', DecodedTexts c file offset st texts last st' ∧
      (file.bytes.length ≤ last ∨ last < file.bytes.length ∧
        ∃ e, decodeChunkData c file last st' = .error e) := by
  induction offset, st using decodeChunks.induct c file with
  | case1 offset st hmore e herror =>
    exact ⟨[], offset, st, DecodedTexts.done, Or.inr ⟨hmore, e, herror⟩⟩
  | case2 offset st hmore chunkSize records st' hchunk ih =>
    have nowrap := (decodeChunkData_ok c hchunk).2
    rw [Nat.mod_eq_of_lt nowrap] at ih
    obtain ⟨texts, last, st'', rest, ends⟩ := ih
    exact ⟨_, last, st'', DecodedTexts.chunk hmore hchunk rest, ends⟩
  | case3 offset st hdone =>
    exact ⟨[], offset, st, DecodedTexts.done, Or.inl (Nat.le_of_not_lt hdone)⟩

/-- How decoding ends behind the chunks before `last`: the content is used up, or the next chunk
throws. -/
def Ends (file : FileData) (last : Nat) (st : c.Stream) : Option DecodeError → Prop
  | none => file.bytes.length ≤ last
  | some e => last < file.bytes.length ∧ decodeChunkData c file last st = .error e

theorem decodeChunksInto_exact (file : FileData) (w : Work c) :
    ∃ texts last st, DecodedTexts c file 0 w.stream texts last st ∧
      (decodeChunksInto c file 0 w).1.output = w.output ++ texts.flatten ∧
      Ends file last st (decodeChunksInto c file 0 w).2 := by
  obtain ⟨texts, last, st, decoded, ends⟩ := decodedTexts_exists file 0 w.stream
  obtain ⟨outputBuf, hloop⟩ := decodeChunksInto_texts decoded
  refine ⟨texts, last, st, decoded, ?_⟩
  rw [hloop, decodeChunksInto]
  rcases ends with finished | ⟨more, e, throws⟩
  · rw [if_neg (Nat.not_lt.mpr finished)]
    exact ⟨rfl, finished⟩
  · rw [if_pos more]
    obtain ⟨buf, stream, hinto⟩ := decodeChunkInto_error
      ⟨[], st, w.output ++ texts.flatten⟩ throws
    split
    · rename_i h
      rw [hinto] at h
      cases h
      exact ⟨rfl, more, throws⟩
    · rename_i h
      rw [hinto] at h
      cases h

theorem decodeChunks_texts (decoded : DecodedTexts c file offset st texts last st') :
    (decodeChunks c file offset st).output =
        texts.flatten ++ (decodeChunks c file last st').output ∧
      (decodeChunks c file offset st).error = (decodeChunks c file last st').error := by
  induction decoded with
  | done => exact ⟨rfl, rfl⟩
  | chunk more decoded rest ih =>
    rw [decodeChunks_chunk more decoded, List.flatten_cons, List.append_assoc, ← ih.1]
    exact ⟨List.flatMap_cons, ih.2⟩

end File

/-- `DecodeFile` refuses a content of less than a chunk header and leaves the output file as it
is. Otherwise the file has its prior content, then the text of the chunks before the first one
that throws, or of all chunks if none does. -/
theorem decodeFile_output_exact (c : Codec) (file : FileData) (st : c.Stream) (prior : Bytes) :
    file.bytes.length < chunkHeaderLength ∧
        decodeFileInto c file st prior = (⟨[], st, prior⟩, some .tooSmall) ∨
      chunkHeaderLength ≤ file.bytes.length ∧
        ∃ texts last st', DecodedTexts c file 0 st texts last st' ∧
          (decodeFileInto c file st prior).1.output = prior ++ texts.flatten ∧
          Ends file last st' (decodeFileInto c file st prior).2 := by
  rw [decodeFileInto]
  split
  · rename_i small
    exact Or.inl ⟨small, rfl⟩
  · rename_i large
    exact Or.inr ⟨Nat.le_of_not_lt large, decodeChunksInto_exact file ⟨[], st, prior⟩⟩

theorem decodeFileInto_eq (c : Codec) (file : FileData) (st : c.Stream) (prior : Bytes) :
    (decodeFileInto c file st prior).1.output = prior ++ (decodeFile c file st).output ∧
      (decodeFileInto c file st prior).2 = (decodeFile c file st).error := by
  rw [decodeFileInto, decodeFile]
  split
  · exact ⟨(List.append_nil prior).symm, rfl⟩
  · obtain ⟨texts, last, st', decoded, hloop, ends⟩ :=
      decodeChunksInto_exact file (c := c) ⟨[], st, prior⟩
    obtain ⟨houtput, herror⟩ := decodeChunks_texts decoded
    rw [hloop, houtput, herror]
    cases herr : (decodeChunksInto c file 0 ⟨[], st, prior⟩).2 with
    | none =>
      rw [herr] at ends
      rw [decodeChunks_done (Nat.not_lt.mpr ends)]
      exact ⟨by simp [Decoded.output], rfl⟩
    | some e =>
      rw [herr] at ends
      rw [decodeChunks_error ends.1 ends.2]
      exact ⟨by simp [Decoded.output], rfl⟩

end FlashLog.Decode
