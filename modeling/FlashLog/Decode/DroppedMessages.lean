import FlashLog.Decode.WriterRuns
import FlashLog.Sinks.MatchedLog
import FlashLog.Sinks.NumberedLog

/-!
What the decoder makes of the chunks written by a sequence of `Log` calls of which some fail. A
message that `Encrypt` drops is part of the stream, and zstd may refer to it in every later item
of the chunk.
-/

set_option autoImplicit false
set_option relaxedAutoImplicit false

namespace FlashLog.Decode

open FlashLog.Support FlashLog.Crypto FlashLog.Sinks
open FlashLog.Compress (ZstdCompress)
open FlashLog.Compress.ZstdCompress (decompressAll after)
open FlashLog.Mmap (StringImpl)
open FlashLog.Sinks.CallSequence
open FlashLog.Sinks.DroppedLog
open FlashLog.Sinks.ItemStream (Item)

variable {impl : StringImpl} (L : Library impl)

section Property

def libraryCodec (serPriKey : Bytes) {Msg : Type} (parse : Bytes → Msg × Bool)
    (format : Msg → Bytes) : Codec :=
  serverCodec L.lib serPriKey (fun (st : ZstdCompress L.z) data => st.decompress impl data) parse
    format

def payloads (xs : List (Item × Entry)) : List Bytes := xs.map fun x => x.1.data

/-- The chunks that the calls and a `Flush` behind them write, spread over any number of log
files and read with any states of the decompressor, give the messages of all calls that do not
fail, in order. -/
def Decodes (ls : List (Label Message)) : Prop :=
  ∀ (serPriKey : Bytes) (Msg : Type) (parse : Bytes → Msg × Bool) (format : Msg → Bytes)
    (files : List (ZstdCompress L.z × List LaidChunk)),
    let codec := libraryCodec L serPriKey parse format
    files.flatMap (fun file => file.2.map LaidChunk.payloads) =
        (L.after (ls ++ [.flush])).written.map payloads →
      (∀ file ∈ files, ∀ chunk ∈ file.2,
        codec.agree chunk.cryptoIv chunk.cliPubKey = some L.serverKey) →
      (∀ file ∈ files, (decodeLaid codec file.1 file.2).2 = none) ∧
        files.flatMap (fun file => (decodeLaid codec file.1 file.2).1.flatMap
          fun chunk => chunk.2.map Record.text) =
            (storedTexts ls).map fun text => format (parse text).1

end Property

section Items

variable {L}

def Encrypted (L : Library impl) (xs : List (Item × Entry)) : Prop :=
  payloads xs = (compressed xs).map (L.crypto.encrypt L.lib)

theorem frames_encrypted :
    Frames (logging L) (Encrypted L) fun _ xs => Encrypted L xs where
  good := fun _ _ encrypted => encrypted
  reset := fun _ => rfl
  drop := fun _ _ _ _ encrypted _ _ => encrypted
  push := by
    intro st xs m st' x encrypted h
    obtain ⟨-, -, -, encoded⟩ := pushed_cases h
    have hdata : x.1.data = L.crypto.encrypt L.lib x.1.compressed := encoded.data
    rw [Encrypted] at encrypted ⊢
    rw [compressed_push, List.map_append, ← encrypted, payloads, List.map_append]
    simp only [List.map_singleton, hdata]
    rfl

variable {serPriKey : Bytes} {Msg : Type} {parse : Bytes → Msg × Bool} {format : Msg → Bytes}

theorem decodePayloads_encrypted (outputs : List Bytes) (st : ZstdCompress L.z) :
    ∃ records, decodePayloads (libraryCodec L serPriKey parse format) L.serverKey st
        (outputs.map (L.crypto.encrypt L.lib)) = some (records, after impl st outputs) ∧
      records.map Record.text =
        (decompressAll impl st outputs).map fun text => format (parse text).1 := by
  induction outputs generalizing st with
  | nil => exact ⟨[], rfl, rfl⟩
  | cons output outputs ih =>
    obtain ⟨records, hrest, htexts⟩ := ih (st.decompress impl output).1
    have hdecrypt : (libraryCodec L serPriKey parse format).decrypt L.serverKey
        (L.crypto.encrypt L.lib output) = some output := L.decrypts output
    refine ⟨_, decodePayloads_cons hdecrypt hrest, ?_⟩
    rw [List.map_cons, htexts]
    rfl

theorem decodeLaid_encrypted {chunks : List LaidChunk} {written : List (List (Item × Entry))}
    (hpayloads : chunks.map LaidChunk.payloads = written.map payloads)
    (encrypted : ∀ xs ∈ written, Encrypted L xs)
    (agreed : ∀ chunk ∈ chunks, (libraryCodec L serPriKey parse format).agree chunk.cryptoIv
      chunk.cliPubKey = some L.serverKey) (st : ZstdCompress L.z) :
    (decodeLaid (libraryCodec L serPriKey parse format) st chunks).2 = none ∧
      ((decodeLaid (libraryCodec L serPriKey parse format) st chunks).1.flatMap
        fun chunk => chunk.2.map Record.text) =
        (decompressAll impl st (written.flatMap compressed)).map
          fun text => format (parse text).1 := by
  induction written generalizing chunks st with
  | nil =>
    obtain rfl := List.map_eq_nil_iff.mp hpayloads
    exact ⟨rfl, rfl⟩
  | cons xs written ih =>
    obtain ⟨chunk, chunks, rfl, hchunk, hchunks⟩ := List.map_eq_cons_iff.mp hpayloads
    obtain ⟨records, hdecoded, htexts⟩ :
        ∃ records, decodePayloads (libraryCodec L serPriKey parse format) L.serverKey st
            chunk.payloads = some (records, after impl st (compressed xs)) ∧
          records.map Record.text =
            (decompressAll impl st (compressed xs)).map fun text => format (parse text).1 := by
      rw [hchunk, encrypted xs List.mem_cons_self]
      exact decodePayloads_encrypted (compressed xs) st
    obtain ⟨noError, hrest⟩ := ih hchunks (fun ys hys => encrypted ys (List.mem_cons_of_mem _ hys))
      (fun c hc => agreed c (List.mem_cons_of_mem _ hc)) (after impl st (compressed xs))
    rw [decodeLaid_chunk (agreed chunk List.mem_cons_self) hdecoded]
    refine ⟨noError, ?_⟩
    rw [List.flatMap_cons, List.flatMap_cons, ZstdCompress.decompressAll_append, List.map_append,
      htexts, hrest]

theorem decodeLaid_files {files : List (ZstdCompress L.z × List LaidChunk)}
    {written : List (List (Item × Entry))}
    (hpayloads : files.flatMap (fun file => file.2.map LaidChunk.payloads) = written.map payloads)
    (encrypted : ∀ xs ∈ written, Encrypted L xs) (decodable : ∀ xs ∈ written, Decodable L xs)
    (clean : ∀ xs ∈ written, AllClean impl xs)
    (agreed : ∀ file ∈ files, ∀ chunk ∈ file.2,
      (libraryCodec L serPriKey parse format).agree chunk.cryptoIv chunk.cliPubKey =
        some L.serverKey) :
    (∀ file ∈ files, (decodeLaid (libraryCodec L serPriKey parse format) file.1 file.2).2 = none) ∧
      files.flatMap (fun file =>
        (decodeLaid (libraryCodec L serPriKey parse format) file.1 file.2).1.flatMap
          fun chunk => chunk.2.map Record.text) =
        (written.flatMap texts).map fun text => format (parse text).1 := by
  induction files generalizing written with
  | nil =>
    obtain rfl := List.map_eq_nil_iff.mp hpayloads.symm
    exact ⟨nofun, rfl⟩
  | cons file files ih =>
    rw [List.flatMap_cons] at hpayloads
    obtain ⟨front, rest, rfl, hfront, hrest⟩ := List.map_eq_append_iff.mp hpayloads.symm
    obtain ⟨noError, hfile⟩ := decodeLaid_encrypted hfront.symm
      (fun xs hxs => encrypted xs (List.mem_append_left _ hxs)) (agreed file List.mem_cons_self)
      file.1
    obtain ⟨noErrors, hfiles⟩ := ih hrest.symm
      (fun xs hxs => encrypted xs (List.mem_append_right _ hxs))
      (fun xs hxs => decodable xs (List.mem_append_right _ hxs))
      (fun xs hxs => clean xs (List.mem_append_right _ hxs))
      (fun f hf => agreed f (List.mem_cons_of_mem _ hf))
    refine ⟨List.forall_mem_cons.mpr ⟨noError, noErrors⟩, ?_⟩
    rw [List.flatMap_cons, hfile, hfiles, decompressAll_of_clean
      (fun xs hxs => decodable xs (List.mem_append_left _ hxs))
      (fun xs hxs => clean xs (List.mem_append_left _ hxs)), List.flatMap_append, List.map_append]

end Items

theorem written_encrypted (ls : List (Label Message)) :
    ∀ xs ∈ (L.after ls).written, Encrypted L xs :=
  (frames_encrypted.run (frames_encrypted.initial _) ls).written

variable {L}

theorem decompressAll_of_decodes (iv pubKey : Bytes)
    (agreed : (libraryCodec L [] (fun text => (text, true)) id).agree iv pubKey = some L.serverKey)
    {ls : List (Label Message)} (decodes : Decodes L ls) :
    decompressAll impl (ZstdCompress.new : ZstdCompress L.z)
      ((L.after (ls ++ [.flush])).written.flatMap compressed) = storedTexts ls := by
  let written := (L.after (ls ++ [.flush])).written
  let chunks : List LaidChunk := written.map fun xs => ⟨0, iv, pubKey, payloads xs⟩
  have hpayloads : chunks.map LaidChunk.payloads = written.map payloads := by
    rw [List.map_map]
    rfl
  have allAgreed : ∀ chunk ∈ chunks,
      (libraryCodec L [] (fun text => (text, true)) id).agree chunk.cryptoIv chunk.cliPubKey =
        some L.serverKey := by
    intro chunk hchunk
    obtain ⟨xs, -, rfl⟩ := List.mem_map.mp hchunk
    exact agreed
  obtain ⟨-, htexts⟩ := decodes [] Bytes (fun text => (text, true)) id [(ZstdCompress.new, chunks)]
    (by rw [List.flatMap_singleton]; exact hpayloads)
    (fun file hfile => by obtain rfl := List.mem_singleton.mp hfile; exact allAgreed)
  obtain ⟨-, hdecoded⟩ := decodeLaid_encrypted hpayloads (written_encrypted L (ls ++ [.flush]))
    allAgreed ZstdCompress.new
  rw [List.flatMap_singleton, hdecoded] at htexts
  simpa using htexts

theorem clean_of_numbered {ls : List (Label Message)}
    (decodes : Decodes (numberedLibrary impl (numberBytes ls)) ls) : Clean impl ls := by
  let L := numberedLibrary impl (numberBytes ls)
  have hall : decompressAll impl (ZstdCompress.new : ZstdCompress L.z)
      ((L.after (ls ++ [.flush])).written.flatMap compressed) =
        (L.after (ls ++ [.flush])).written.flatMap texts := by
    rw [storedTexts_written L]
    exact decompressAll_of_decodes L.crypto.iv [] rfl decodes
  refine (clean_iff_written L ls).mpr fun xs hxs => ?_
  obtain ⟨d, hxs'⟩ := decompressAll_of_written hall xs hxs
  exact written_told _ xs hxs (since_lt ls xs hxs) d hxs'

/-- Whatever the libraries do within their documentation, the messages of the calls that do not
fail are decoded, in order, if and only if each of them fits into the output buffer of
`Decompress` and none was dropped in the stream before it. -/
theorem dropped_harmless_iff (impl : StringImpl) (ls : List (Label Message)) :
    (∀ L : Library impl, Decodes L ls) ↔ Clean impl ls := by
  constructor
  · intro decodes
    exact clean_of_numbered (decodes _)
  · intro clean L serPriKey Msg parse format files codec hpayloads agreed
    rw [← storedTexts_written L]
    exact decodeLaid_files hpayloads (written_encrypted L _) (written_decodable L _)
      ((clean_iff_written L ls).mp clean) agreed

/-- Text of 300 bytes in which no two neighbours come again. -/
def ramp : Bytes := (List.range 300).map fun i => UInt8.ofNat (i * (i + 1) / 2)

/-- `Encrypt` fails on the second of three messages of one chunk, and the third has the same
text. -/
def encryptFailsBetween : List (Label Message) :=
  [.log ⟨[65], .none⟩ false, .log ⟨ramp, .encrypt⟩ false, .log ⟨ramp, .none⟩ false]

theorem ramp_ne_nil : ramp ≠ [] := List.ne_nil_of_length_pos (by simp [ramp])

theorem matched_encryptFailsBetween :
    (run ledger (initial []) encryptFailsBetween).items.map Entry.matched =
      [Compress.Matched.encode [] [65], Compress.Matched.encode ([65] ++ ramp) ramp] := by
  simp [run, encryptFailsBetween, step, Sink.log, ledger, initial, Sink.items, Message.Stored,
    ramp_ne_nil, Entry.matched, seenOf]

theorem storedTexts_encryptFailsBetween : storedTexts encryptFailsBetween = [[65], ramp] := by
  simp [storedTexts, messages, encryptFailsBetween, Message.Stored, ramp_ne_nil]

/-- The third message refers to the second, and is not decoded. -/
theorem encryptFailsBetween_breaks_later :
    ¬ Decodes (matchedLibrary .libstdcxx) encryptFailsBetween := by
  intro decodes
  let L := matchedLibrary .libstdcxx
  have hall := decompressAll_of_decodes L.crypto.iv [] rfl decodes
  have sized : ramp.length = 300 := by rw [ramp, List.length_map, List.length_range]
  have hfirst : ([65] : Bytes) ≠ [] := List.cons_ne_nil _ _
  have missed := Compress.Matched.decompressAll_missed .libstdcxx
    (ZstdCompress.new : ZstdCompress L.z) hfirst (x := ramp)
    (by rw [sized]; decide) (by rw [sized]; decide)
  rw [compressed_written, matched_encryptFailsBetween, storedTexts_encryptFailsBetween] at hall
  have hlast := missed.symm.trans hall
  exact ramp_ne_nil (List.singleton_inj.mp (List.cons.inj hlast).2).symm

end FlashLog.Decode
