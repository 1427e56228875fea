import FlashLog.Decode.WrittenFile

/-!
What `DecodeFile` says of items that it cannot decode. `Decrypt` throws, but `Decompress` signals
a failure by an empty string and `ParseFromString` by its result, and neither is looked at: such
an item becomes a record like any other.
-/

set_option autoImplicit false
set_option relaxedAutoImplicit false

namespace FlashLog.Decode

open FlashLog.Support
open FlashLog.Sinks

variable (c : Codec)

/-- `Decompress` gives something, and it parses. -/
def Recognised (st : c.Stream) (decrypted : Bytes) : Prop :=
  (c.decompress st decrypted).2 ≠ [] ∧ (c.parse (c.decompress st decrypted).2).2 = true

section Property

/-- The records of a chunk whose items have all been decrypted, decompressed and parsed: each is
the formatting of the message that its item holds. -/
def ItemsParsed (key : c.Key) : c.Stream → List Bytes → List Record → c.Stream → Prop
  | st, [], records, st' => records = [] ∧ st' = st
  | st, payload :: payloads, records, st' =>
    ∃ decrypted msg rest, c.decrypt key payload = some decrypted ∧
      (c.decompress st decrypted).2 ≠ [] ∧ c.parse (c.decompress st decrypted).2 = (msg, true) ∧
      records = ⟨payload, decrypted, c.format msg⟩ :: rest ∧
      ItemsParsed key (c.decompress st decrypted).1 payloads rest st'

/-- The same of chunks. -/
def ChunksParsed : c.Stream → List LaidChunk → List (List Record) → Prop
  | _, [], written => written = []
  | st, chunk :: chunks, written =>
    ∃ key records st' rest, c.agree chunk.cryptoIv chunk.cliPubKey = some key ∧
      ItemsParsed c key st chunk.payloads records st' ∧ written = records :: rest ∧
      ChunksParsed st' chunks rest

/-- `DecodeFile` returns only if every item was decrypted, decompressed and parsed, and what it
has written are the messages of such items. -/
structure Reports (st : c.Stream) (chunks : List LaidChunk) (decoded : Decoded) : Prop where
  returns : decoded.error = none → ∃ written, ChunksParsed c st chunks written
  written : ∃ front, front <+: chunks ∧
    ChunksParsed c st front (decoded.chunks.map DecodedChunk.records)

end Property

section Condition

def streamAfter (key : c.Key) : c.Stream → List Bytes → c.Stream
  | st, [] => st
  | st, payload :: payloads =>
    match c.decrypt key payload with
    | none => st
    | some decrypted => streamAfter key (c.decompress st decrypted).1 payloads

/-- What is decrypted also decompresses and parses. -/
def ItemsRecognised (key : c.Key) : c.Stream → List Bytes → Prop
  | _, [] => True
  | st, payload :: payloads => ∀ decrypted, c.decrypt key payload = some decrypted →
    Recognised c st decrypted ∧ ItemsRecognised key (c.decompress st decrypted).1 payloads

/-- Up to the first chunk whose key is refused or in which `Decrypt` throws, what is decrypted
also decompresses and parses. -/
def ChunksRecognised : c.Stream → List LaidChunk → Prop
  | _, [] => True
  | st, chunk :: chunks => ∀ key, c.agree chunk.cryptoIv chunk.cliPubKey = some key →
    (∀ payload ∈ chunk.payloads, (c.decrypt key payload).isSome) →
      ItemsRecognised c key st chunk.payloads ∧
        ChunksRecognised (streamAfter c key st chunk.payloads) chunks

end Condition

section Items

variable {c} {key : c.Key}

theorem decodePayloads_isSome_iff (st : c.Stream) (payloads : List Bytes) :
    (decodePayloads c key st payloads).isSome ↔
      ∀ payload ∈ payloads, (c.decrypt key payload).isSome := by
  induction payloads generalizing st with
  | nil => simp [decodePayloads]
  | cons payload payloads ih =>
    rw [decodePayloads, List.forall_mem_cons]
    cases c.decrypt key payload with
    | none => simp
    | some decrypted => simp [ih]

theorem stream_decodePayloads {st st' : c.Stream} {payloads : List Bytes} {records : List Record}
    (h : decodePayloads c key st payloads = some (records, st')) :
    st' = streamAfter c key st payloads := by
  induction payloads generalizing st records with
  | nil =>
    obtain ⟨-, rfl⟩ := Prod.mk.inj (Option.some.inj h)
    rfl
  | cons payload payloads ih =>
    rw [decodePayloads] at h
    rw [streamAfter]
    cases hdecrypt : c.decrypt key payload with
    | none =>
      rw [hdecrypt] at h
      cases h
    | some decrypted =>
      rw [hdecrypt] at h
      obtain ⟨⟨rest, st''⟩, hrest, hout⟩ := Option.map_eq_some_iff.mp h
      obtain ⟨-, rfl⟩ := Prod.mk.inj hout
      exact ih hrest

theorem itemsParsed_iff {st st' : c.Stream} {payloads : List Bytes} {records : List Record}
    (h : decodePayloads c key st payloads = some (records, st')) :
    ItemsParsed c key st payloads records st' ↔ ItemsRecognised c key st payloads := by
  induction payloads generalizing st records with
  | nil =>
    obtain ⟨rfl, rfl⟩ := Prod.mk.inj (Option.some.inj h)
    exact iff_of_true ⟨rfl, rfl⟩ trivial
  | cons payload payloads ih =>
    rw [decodePayloads] at h
    rw [ItemsParsed, ItemsRecognised]
    cases hdecrypt : c.decrypt key payload with
    | none =>
      rw [hdecrypt] at h
      cases h
    | some decrypted =>
      rw [hdecrypt] at h
      obtain ⟨⟨rest, st''⟩, hrest, hout⟩ := Option.map_eq_some_iff.mp h
      obtain ⟨rfl, rfl⟩ := Prod.mk.inj hout
      have step := ih hrest
      constructor
      · rintro ⟨decrypted', msg, rest', hsame, filled, parsed, hrecords, others⟩ other hother
        obtain rfl := Option.some.inj hsame
        obtain rfl := Option.some.inj hother
        obtain ⟨-, rfl⟩ := List.cons.inj hrecords
        exact ⟨⟨filled, congrArg Prod.snd parsed⟩, step.mp others⟩
      · intro recognised
        obtain ⟨⟨filled, parsed⟩, others⟩ := recognised decrypted rfl
        exact ⟨decrypted, _, rest, rfl, filled, Prod.ext rfl parsed, rfl, step.mpr others⟩

theorem decodePayloads_of_parsed {st st' : c.Stream} {payloads : List Bytes}
    {records : List Record} (h : ItemsParsed c key st payloads records st') :
    decodePayloads c key st payloads = some (records, st') := by
  induction payloads generalizing st records with
  | nil =>
    obtain ⟨rfl, rfl⟩ := h
    rfl
  | cons payload payloads ih =>
    obtain ⟨decrypted, msg, rest, hdecrypt, -, parsed, rfl, others⟩ := h
    rw [decodePayloads, hdecrypt]
    simp only [ih others, parsed]
    rfl

end Items

section Chunks

variable {c} {key : c.Key} {st st' : c.Stream} {chunk : LaidChunk}
variable {records : List Record}

theorem chunksParsed_cons_iff (agreed : c.agree chunk.cryptoIv chunk.cliPubKey = some key)
    (h : decodePayloads c key st chunk.payloads = some (records, st'))
    (chunks : List LaidChunk) (written : List (List Record)) :
    ChunksParsed c st (chunk :: chunks) written ↔
      ItemsRecognised c key st chunk.payloads ∧
        ∃ rest, written = records :: rest ∧ ChunksParsed c st' chunks rest := by
  rw [← itemsParsed_iff h, ChunksParsed]
  constructor
  · rintro ⟨key', records', st'', rest, hagree, parsed, rfl, others⟩
    obtain rfl := Option.some.inj (agreed.symm.trans hagree)
    obtain ⟨rfl, rfl⟩ := Prod.mk.inj (Option.some.inj (h.symm.trans
      (decodePayloads_of_parsed parsed)))
    exact ⟨parsed, rest, rfl, others⟩
  · rintro ⟨parsed, rest, rfl, others⟩
    exact ⟨key, records, st', rest, agreed, parsed, rfl, others⟩

theorem reports_laid_iff (st : c.Stream) (chunks : List LaidChunk) :
    (((decodeLaid c st chunks).2 = none → ∃ written, ChunksParsed c st chunks written) ∧
      ∃ front, front <+: chunks ∧
        ChunksParsed c st front ((decodeLaid c st chunks).1.map Prod.snd)) ↔
      ChunksRecognised c st chunks := by
  induction chunks generalizing st with
  | nil => exact iff_of_true ⟨fun _ => ⟨[], rfl⟩, [], List.nil_prefix, rfl⟩ trivial
  | cons chunk chunks ih =>
    rw [ChunksRecognised]
    cases agreed : c.agree chunk.cryptoIv chunk.cliPubKey with
    | none =>
      rw [decodeLaid_refused agreed]
      exact iff_of_true ⟨nofun, [], List.nil_prefix, rfl⟩ nofun
    | some key =>
      cases hpayloads : decodePayloads c key st chunk.payloads with
      | none =>
        rw [decodeLaid_throws agreed hpayloads]
        refine iff_of_true ⟨nofun, [], List.nil_prefix, rfl⟩ ?_
        intro key' hkey accepted
        obtain rfl := Option.some.inj hkey
        rw [← decodePayloads_isSome_iff st, hpayloads] at accepted
        cases accepted
      | some out =>
        obtain ⟨records, st'⟩ := out
        have cons := chunksParsed_cons_iff agreed hpayloads
        have accepted := (decodePayloads_isSome_iff st chunk.payloads).mp (by rw [hpayloads]; rfl)
        have after := stream_decodePayloads hpayloads
        rw [decodeLaid_chunk agreed hpayloads]
        constructor
        · rintro ⟨returns, front, hfront, written⟩ key' hkey -
          obtain rfl := Option.some.inj hkey
          -- what is written begins with the first chunk
          cases front with
          | nil => cases written
          | cons first front =>
            obtain ⟨rfl, htail⟩ := List.cons_prefix_cons.mp hfront
            obtain ⟨items, rest, hrest, others⟩ := (cons front _).mp written
            obtain ⟨-, rfl⟩ := List.cons.inj hrest
            rw [← after]
            refine ⟨items, (ih st').mp ⟨fun noError => ?_, front, htail, others⟩⟩
            obtain ⟨all, hall⟩ := returns noError
            obtain ⟨-, rest, -, hrest⟩ := (cons chunks all).mp hall
            exact ⟨rest, hrest⟩
        · intro recognised
          obtain ⟨items, others⟩ := recognised key rfl accepted
          rw [← after] at others
          obtain ⟨returns, front, hfront, written⟩ := (ih st').mpr others
          refine ⟨fun noError => ?_, chunk :: front, List.cons_prefix_cons.mpr ⟨rfl, hfront⟩,
            (cons front _).mpr ⟨items, _, rfl, written⟩⟩
          obtain ⟨rest, hrest⟩ := returns noError
          exact ⟨records :: rest, (cons chunks _).mpr ⟨items, rest, rfl, hrest⟩⟩

end Chunks

/-- On a file with well-formed headers, `DecodeFile` reports every item that it cannot decode if
and only if, up to the first chunk that makes it throw, every item that `Decrypt` accepts also
decompresses to something and parses. -/
theorem decodeFile_reports_iff (file : FileData) (chunks : List LaidChunk)
    (laid : LaidChunks file.bytes chunks) (st : c.Stream) :
    Reports c st chunks (decodeFile c file st) ↔ ChunksRecognised c st chunks := by
  by_cases filled : file.bytes = []
  · rw [filled] at laid
    cases laid with
    | done =>
      have small : decodeFile c file st = ⟨[], some .tooSmall⟩ := by
        rw [decodeFile, if_pos]
        rw [filled]
        decide
      rw [small]
      exact iff_of_true ⟨fun noError => (by cases noError), [], List.nil_prefix, rfl⟩ trivial
    | chunk whole => exact absurd whole (by decide)
  · obtain ⟨hchunks, herror⟩ := decodeFile_laid (c := c) laid filled st
    have hrecords : (decodeFile c file st).chunks.map DecodedChunk.records =
        (decodeLaid c st chunks).1.map Prod.snd := by
      rw [← hchunks, List.map_map]
      rfl
    rw [← reports_laid_iff, ← herror, ← hrecords]
    exact ⟨fun h => ⟨h.returns, h.written⟩, fun h => ⟨h.1, h.2⟩⟩

section Example

/-- `Decrypt` takes whole blocks and drops three bytes of padding, `Decompress` fails on
everything, and the empty string parses as a message without fields. -/
def failingCodec : Codec where
  Key := Unit
  Stream := Unit
  Msg := Bytes
  agree _ _ := some ()
  decrypt _ bs := if bs.length % 16 = 0 then some (bs.take (bs.length - 3)) else none
  decompress st _ := (st, [])
  parse bs := (bs, true)
  format msg := 91 :: msg

def oneBlock : Bytes := [1, 2, 3, 4, 5, 6, 7, 8, 9, 10, 11, 12, 13, 3, 3, 3]

def oneItem (c : Codec) (key : c.Key) (decrypted : Bytes) : WrittenChunk c where
  header := ⟨24, List.replicate 32 0, List.replicate 128 0⟩
  key := key
  items := [(oneBlock, decrypted)]

def oneItemFile : FileData where
  bytes := (oneItem plainCodec () oneBlock).bytes
  length_lt := by decide +kernel

def oneItemChunk : LaidChunk := ⟨24, List.replicate 17 0, List.replicate 65 0, [oneBlock]⟩

theorem laid_oneItemFile : LaidChunks oneItemFile.bytes [oneItemChunk] := by
  have sound : ∀ w ∈ [oneItem plainCodec () oneBlock], w.Sound := by
    intro w hw
    obtain rfl := List.mem_singleton.mp hw
    exact ⟨rfl, rfl, by decide, by decide, rfl, by decide⟩
  have laid := laidChunks_written sound
  rw [List.flatMap_singleton] at laid
  exact laid

/-- The item of the file is not decompressed, and `DecodeFile` writes a record for it and
returns. -/
theorem failedItem_unreported :
    LaidChunks oneItemFile.bytes [oneItemChunk] ∧
      (decodeFile failingCodec oneItemFile ()).error = none ∧
      (decodeFile failingCodec oneItemFile ()).chunks.map (fun chunk => chunk.records) =
        [[⟨oneBlock, oneBlock.take 13, [91]⟩]] ∧
      ¬ Reports failingCodec () [oneItemChunk] (decodeFile failingCodec oneItemFile ()) := by
  have filled : oneItemFile.bytes ≠ [] := List.ne_nil_of_length_pos (by decide +kernel)
  obtain ⟨hchunks, herror⟩ := decodeFile_laid (c := failingCodec) laid_oneItemFile filled ()
  have hrecords := congrArg (List.map Prod.snd) hchunks
  rw [List.map_map] at hrecords
  refine ⟨laid_oneItemFile, herror, hrecords, ?_⟩
  intro reports
  obtain ⟨written, key, records, st', rest, agreed, items, -⟩ := reports.returns herror
  obtain ⟨decrypted, msg, others, hdecrypt, decompressed, -⟩ := items
  exact decompressed rfl

theorem decodeFile_reports_iff_plain :
    Reports plainCodec () [oneItemChunk] (decodeFile plainCodec oneItemFile ()) :=
  (decodeFile_reports_iff plainCodec oneItemFile [oneItemChunk] laid_oneItemFile ()).mpr
    fun _ _ _ => ⟨fun decrypted hdecrypted => ⟨⟨by
      obtain rfl := Option.some.inj hdecrypted
      decide, rfl⟩, trivial⟩, trivial⟩

end Example

end FlashLog.Decode
