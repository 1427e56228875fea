import FlashLog.Decode.OutputFile
import FlashLog.Decode.WrittenFile

/-!
What `DecodeFile` appends to the output file for files of whole chunks: it depends on the payloads
alone, and one decompressor goes through all of them.
-/

set_option autoImplicit false
set_option relaxedAutoImplicit false

namespace FlashLog.Decode

open FlashLog.Support
open FlashLog.Sinks

variable (c : Codec)

def printed : c.Stream → List Bytes → List Bytes × c.Stream
  | st, [] => ([], st)
  | st, payload :: payloads =>
    let (st, decompressed) := c.decompress st payload
    let (texts, st) := printed st payloads
    (c.format (c.parse decompressed).1 :: texts, st)

def lines (texts : List Bytes) : Bytes := texts.flatMap fun text => text ++ [10]

/-- `main` once for each of the log files, with one output file: its content, and how each of the
calls ends. -/
def decodeFiles (st : c.Stream) : List FileData → Bytes → Bytes × List (Option DecodeError)
  | [], prior => (prior, [])
  | file :: files, prior =>
    let decoded := decodeFileInto c file st prior
    let rest := decodeFiles st files decoded.1.output
    (rest.1, decoded.2 :: rest.2)

variable {c}

theorem printed_append (st : c.Stream) (front back : List Bytes) :
    printed c st (front ++ back) =
      ((printed c st front).1 ++ (printed c (printed c st front).2 back).1,
        (printed c (printed c st front).2 back).2) := by
  induction front generalizing st with
  | nil => rfl
  | cons payload front ih => simp only [List.cons_append, printed, ih]

theorem lines_append (front back : List Bytes) : lines (front ++ back) = lines front ++ lines back :=
  List.flatMap_append

section Written

variable {w : WrittenChunk c} {ws : List (WrittenChunk c)} {file : FileData}

theorem decodePayloads_printed {key : c.Key} {items : List (Bytes × Bytes)}
    (decrypts : ∀ x ∈ items, c.decrypt key x.1 = some x.2) (st : c.Stream) :
    ∃ records, decodePayloads c key st (items.map Prod.fst) =
        some (records, (printed c st (items.map Prod.snd)).2) ∧
      records.map Record.text = (printed c st (items.map Prod.snd)).1 := by
  induction items generalizing st with
  | nil => exact ⟨[], rfl, rfl⟩
  | cons item items ih =>
    obtain ⟨payload, decrypted⟩ := item
    have accepted : c.decrypt key payload = some decrypted := decrypts _ List.mem_cons_self
    obtain ⟨records, hrest, htexts⟩ :=
      ih (fun x hx => decrypts x (List.mem_cons_of_mem _ hx)) (c.decompress st decrypted).1
    refine ⟨_, decodePayloads_cons accepted hrest, ?_⟩
    rw [List.map_cons, htexts]
    rfl

theorem decodeLaid_printed (sound : ∀ w ∈ ws, w.Sound) (st : c.Stream) :
    (decodeLaid c st (ws.map WrittenChunk.laid)).2 = none ∧
      (decodeLaid c st (ws.map WrittenChunk.laid)).1.flatMap
          (fun chunk => chunk.2.map Record.text) =
        (printed c st (ws.flatMap fun w => w.items.map Prod.snd)).1 := by
  induction ws generalizing st with
  | nil => exact ⟨rfl, rfl⟩
  | cons w ws ih =>
    have hw := sound w List.mem_cons_self
    obtain ⟨records, hpayloads, htexts⟩ := decodePayloads_printed hw.decrypts st
    obtain ⟨noError, hrest⟩ := ih (fun w hw => sound w (List.mem_cons_of_mem _ hw))
      (printed c st (w.items.map Prod.snd)).2
    have hagree : c.agree w.laid.cryptoIv w.laid.cliPubKey = some w.key := hw.agreed
    have hlaid : decodePayloads c w.key st w.laid.payloads = _ := hpayloads
    rw [List.map_cons, decodeLaid_chunk hagree hlaid, List.flatMap_cons, List.flatMap_cons,
      printed_append, hrest, htexts]
    exact ⟨noError, rfl⟩

theorem decodeFile_printed (hbytes : file.bytes = ws.flatMap WrittenChunk.bytes) (hws : ws ≠ [])
    (sound : ∀ w ∈ ws, w.Sound) (st : c.Stream) (prior : Bytes) :
    (decodeFileInto c file st prior).1.output =
        prior ++ lines (printed c st (ws.flatMap fun w => w.items.map Prod.snd)).1 ∧
      (decodeFileInto c file st prior).2 = none := by
  obtain ⟨fully, -⟩ := decodeFile_written hbytes hws sound st
  have filled : file.bytes ≠ [] := by
    obtain ⟨w, ws, rfl⟩ := List.exists_cons_of_ne_nil hws
    intro empty
    have hlength := (sound w List.mem_cons_self).length_bytes
    have hpos : chunkHeaderLength = 176 := rfl
    rw [empty, List.flatMap_cons, eq_comm, List.append_eq_nil_iff] at hbytes
    rw [hbytes.1, List.length_nil] at hlength
    omega
  have laid : LaidChunks file.bytes (ws.map WrittenChunk.laid) := by
    rw [hbytes]
    exact laidChunks_written sound
  obtain ⟨hlaid, -⟩ := decodeFile_laid (c := c) laid filled st
  obtain ⟨-, htexts⟩ := decodeLaid_printed sound st
  obtain ⟨houtput, herror⟩ := decodeFileInto_eq c file st prior
  rw [houtput, herror, fully.noError]
  refine ⟨?_, rfl⟩
  rw [← htexts, ← hlaid, lines, Decoded.output, List.flatMap_map, List.flatMap_assoc]
  simp only [List.flatMap_map]

end Written

end FlashLog.Decode
