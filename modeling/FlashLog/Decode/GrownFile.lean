import FlashLog.Decode.DecodeSafety
import FlashLog.Support.Below

/-!
A log file only grows, and a process may die before a chunk is whole. What is decoded from a
beginning of a file is a beginning of what is decoded from all of it, and only a read outside the
beginning tells the two apart.
-/

set_option autoImplicit false
set_option relaxedAutoImplicit false

namespace FlashLog.Decode

open FlashLog.Support
open FlashLog.Sinks

variable {c : Codec} {file grown : FileData}

def FileData.Begins (file grown : FileData) : Prop := file.bytes <+: grown.bytes

theorem FileData.Begins.length_le (h : file.Begins grown) :
    file.bytes.length ≤ grown.bytes.length := List.IsPrefix.length_le h

theorem FileData.Begins.read (h : file.Begins grown) (pos len : Nat) :
    Below .outOfRange (file.read pos len) (grown.read pos len) := by
  by_cases inside : pos + len ≤ file.bytes.length
  · right
    obtain ⟨more, hmore⟩ := h
    have within : pos + len ≤ grown.bytes.length := by
      rw [← hmore, List.length_append]
      omega
    rw [FileData.read, FileData.read, if_pos inside, if_pos within, ← hmore,
      Bytes.slice_append_left inside]
  · left
    rw [FileData.read, if_neg inside]

theorem FileData.Begins.decodeItemData (h : file.Begins grown) (pos : Nat) (key : c.Key)
    (st : c.Stream) :
    Below .outOfRange (Decode.decodeItemData c file pos key st)
      (Decode.decodeItemData c grown pos key st) := by
  refine (h.read pos 4).bind fun magic => ?_
  split
  · exact Below.refl _
  · refine (h.read (pos + 4) 4).bind fun field => ?_
    exact (h.read _ _).bind fun payload => Below.refl _

theorem FileData.Begins.decodeChunkItems (h : file.Begins grown) (chunkData size : Nat)
    (key : c.Key) (offset : Nat) (st : c.Stream) :
    Below .outOfRange (Decode.decodeChunkItems c file chunkData size key offset st)
      (Decode.decodeChunkItems c grown chunkData size key offset st) := by
  induction offset, st using decodeChunkItems.induct c file chunkData size key with
  | case1 offset st hmore e hitem =>
    rw [decodeChunkItems_error hmore hitem]
    by_cases stopped : e = .outOfRange
    · exact Or.inl (stopped ▸ rfl)
    · have same := (h.decodeItemData (chunkData + offset) key st).error hitem stopped
      rw [decodeChunkItems_error hmore same]
      exact Below.refl _
  | case2 offset st hmore itemSize record st' hitem ih =>
    have same := (h.decodeItemData (chunkData + offset) key st).ok hitem
    have inside := (decodeItemData_ok c hitem).2
    have hfile := file.length_lt
    rw [Nat.mod_eq_of_lt (by omega)] at ih
    rw [decodeChunkItems_item hmore hitem, decodeChunkItems_item hmore same]
    exact ih.map _
  | case3 offset st hdone =>
    rw [decodeChunkItems_done hdone, decodeChunkItems_done hdone]
    exact Below.refl _

theorem FileData.Begins.decodeChunkData (h : file.Begins grown) (pos : Nat) (st : c.Stream) :
    Below .outOfRange (Decode.decodeChunkData c file pos st)
      (Decode.decodeChunkData c grown pos st) := by
  refine (h.read pos 8).bind fun magic => ?_
  split
  · exact Below.refl _
  · refine (h.read (pos + 16) 17).bind fun cryptoIv => ?_
    refine (h.read (pos + 48) 65).bind fun cliPubKey => ?_
    split
    · exact Below.refl _
    · refine (h.read (pos + 8) 8).bind fun field => ?_
      exact (h.decodeChunkItems _ _ _ _ _).bind fun items => Below.refl _

/-- How decoding more of a file goes on from where decoding less of it has ended: behind the last
chunk, anywhere in the chunk that was cut, or not at all. -/
inductive GoesOn (c : Codec) (grown : FileData) (length : Nat) (decoded : Decoded) : Decoded → Prop
  | ended (offset : Nat) (st : c.Stream) : decoded.error = none → length ≤ offset →
      GoesOn c grown length decoded
        ⟨decoded.chunks ++ (decodeChunks c grown offset st).chunks,
          (decodeChunks c grown offset st).error⟩
  | cut (rest : Decoded) : decoded.error = some .outOfRange →
      GoesOn c grown length decoded ⟨decoded.chunks ++ rest.chunks, rest.error⟩
  | failed : decoded.error ≠ none → GoesOn c grown length decoded decoded

theorem GoesOn.cons {length : Nat} {chunks : List DecodedChunk} {error : Option DecodeError}
    {decoded : Decoded} (chunk : DecodedChunk)
    (h : GoesOn c grown length ⟨chunks, error⟩ decoded) :
    GoesOn c grown length ⟨chunk :: chunks, error⟩ ⟨chunk :: decoded.chunks, decoded.error⟩ := by
  cases h with
  | ended offset st herror hlength => exact .ended offset st herror hlength
  | cut rest herror => exact .cut rest herror
  | failed herror => exact .failed herror

theorem FileData.Begins.decodeChunks (h : file.Begins grown) (offset : Nat) (st : c.Stream) :
    GoesOn c grown file.bytes.length (Decode.decodeChunks c file offset st)
      (Decode.decodeChunks c grown offset st) := by
  have longer := h.length_le
  induction offset, st using decodeChunks.induct c file with
  | case1 offset st hmore e hchunk =>
    rw [decodeChunks_error hmore hchunk]
    by_cases stopped : e = .outOfRange
    · subst stopped
      exact .cut (Decode.decodeChunks c grown offset st) rfl
    · have same := (h.decodeChunkData offset st).error hchunk stopped
      rw [decodeChunks_error (by omega) same]
      exact .failed fun h => by cases h
  | case2 offset st hmore chunkSize records st' hchunk ih =>
    have same := (h.decodeChunkData offset st).ok hchunk
    rw [Nat.mod_eq_of_lt (decodeChunkData_ok c hchunk).2] at ih
    rw [decodeChunks_chunk hmore hchunk, decodeChunks_chunk (by omega) same]
    exact ih.cons _
  | case3 offset st hdone =>
    rw [decodeChunks_done hdone]
    exact .ended offset st rfl (by omega)

theorem GoesOn.chunks_prefix {length : Nat} {decoded decoded' : Decoded}
    (h : GoesOn c grown length decoded decoded') : decoded.chunks <+: decoded'.chunks := by
  cases h with
  | ended offset st herror hlength => exact List.prefix_append _ _
  | cut rest herror => exact List.prefix_append _ _
  | failed herror => exact List.prefix_rfl

theorem output_begins {decoded decoded' : Decoded} (h : decoded.chunks <+: decoded'.chunks) :
    decoded.output <+: decoded'.output := by
  obtain ⟨rest, hrest⟩ := h
  rw [Decoded.output, Decoded.output, ← hrest, List.flatMap_append]
  exact List.prefix_append _ _

/-- Decoding a file that has grown. What came out of the shorter file comes out first; where the
shorter file was decoded to its end, decoding goes on behind it; and where it was rejected for
what it holds, the longer file is rejected alike. -/
theorem decodeFile_grown (c : Codec) (file grown : FileData) (begins : file.Begins grown)
    (st : c.Stream) :
    (decodeFile c file st).output <+: (decodeFile c grown st).output ∧
      ((decodeFile c file st).error = none →
        ∃ offset st', file.bytes.length ≤ offset ∧ decodeFile c grown st =
          ⟨(decodeFile c file st).chunks ++ (decodeChunks c grown offset st').chunks,
            (decodeChunks c grown offset st').error⟩) ∧
      ∀ e, (decodeFile c file st).error = some e → e ≠ .tooSmall → e ≠ .outOfRange →
        decodeFile c grown st = decodeFile c file st := by
  by_cases small : file.bytes.length < chunkHeaderLength
  · have rejected : decodeFile c file st = ⟨[], some .tooSmall⟩ := by
      rw [decodeFile, if_pos small]
    rw [rejected]
    refine ⟨List.nil_prefix, (fun complete => by cases complete), ?_⟩
    intro e he other
    exact absurd (Option.some.inj he).symm other
  · have large : ¬ grown.bytes.length < chunkHeaderLength := by
      have longer := begins.length_le
      omega
    have goesOn := begins.decodeChunks (c := c) 0 st
    rw [decodeFile, decodeFile, if_neg small, if_neg large]
    refine ⟨output_begins goesOn.chunks_prefix, ?_, ?_⟩
    · intro complete
      generalize Decode.decodeChunks c file 0 st = decoded at goesOn complete ⊢
      generalize Decode.decodeChunks c grown 0 st = decoded' at goesOn ⊢
      cases goesOn with
      | ended offset st' herror hlength => exact ⟨offset, st', hlength, rfl⟩
      | cut rest herror =>
        rw [complete] at herror
        cases herror
      | failed herror => exact absurd complete herror
    · intro e he small outside
      generalize Decode.decodeChunks c file 0 st = decoded at goesOn he ⊢
      generalize Decode.decodeChunks c grown 0 st = decoded' at goesOn ⊢
      cases goesOn with
      | ended offset st' herror hlength =>
        rw [he] at herror
        cases herror
      | cut rest herror =>
        rw [he] at herror
        exact absurd (Option.some.inj herror) outside
      | failed herror => rfl

def completedFile : FileData where
  bytes := cutFile.bytes ++ (Bytes.ofNatLE 4 ItemHeader.kMagic ++ Bytes.ofNatLE 4 1 ++ [65])
  length_lt := by
    simp only [cutFile, List.length_append, Bytes.length_ofNatLE, List.length_replicate,
      List.length_singleton]
    decide

theorem decodeFile_grown_completed :
    (decodeFile plainCodec cutFile ()).output <+: (decodeFile plainCodec completedFile ()).output ∧
      ((decodeFile plainCodec cutFile ()).error = none →
        ∃ offset st', cutFile.bytes.length ≤ offset ∧ decodeFile plainCodec completedFile () =
          ⟨(decodeFile plainCodec cutFile ()).chunks ++
              (decodeChunks plainCodec completedFile offset st').chunks,
            (decodeChunks plainCodec completedFile offset st').error⟩) ∧
      ∀ e, (decodeFile plainCodec cutFile ()).error = some e → e ≠ .tooSmall → e ≠ .outOfRange →
        decodeFile plainCodec completedFile () = decodeFile plainCodec cutFile () :=
  decodeFile_grown plainCodec cutFile completedFile (List.prefix_append _ _) ()

end FlashLog.Decode
