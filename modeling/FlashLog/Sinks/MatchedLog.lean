import FlashLog.Compress.MatchFrames
import FlashLog.Sinks.DroppedLog

/-!
The sink over a zstd that keeps what it has seen: an item that repeats a dropped message is a
match that goes back to it.
-/

set_option autoImplicit false
set_option relaxedAutoImplicit false

namespace FlashLog.Sinks.DroppedLog

open FlashLog.Support FlashLog.Crypto
open FlashLog.Compress (ZstdCompress)
open FlashLog.Compress.ZstdCompress (outputCapacity decompressAll)
open FlashLog.Mmap (StringImpl)
open FlashLog.Sinks.ItemStream (Encoder Item)
open FlashLog.Sinks.CallSequence

/-- Raw blocks and matches, of which a failing call keeps its input, and a cipher that marks its
output with key and vector. -/
def matchedLibrary (impl : StringImpl) : Library impl where
  z := Compress.Matched.zstd
  stream := Compress.Matched.stream
  broken := fun seen x => List.append seen x
  lib := tagged
  crypto := zeroCrypto
  serverKey := zeroCrypto
  encrypts := zeroCrypto_encrypts
  decrypts := zeroCrypto_decrypts

variable {impl : StringImpl}

abbrev MatchedState (impl : StringImpl) : Type :=
  Encoder (matchedLibrary impl).env.z × List Message

def seenOf (since : List Message) : Bytes := since.flatMap Message.text

def Entry.matched (x : Entry) : Bytes := Compress.Matched.encode (seenOf x.since) x.message.text

def Matched (xs : List (Item × Entry)) : Prop := ∀ x ∈ xs, x.1.compressed = x.2.matched

variable {st st' : MatchedState impl} {xs : List (Item × Entry)} {m : Message}

theorem seen_push {x : Item × Entry}
    (h : (logging (matchedLibrary impl)).encode st m = (st', some x)) :
    Compress.Matched.seen st'.1.compress = Compress.Matched.seen st.1.compress ++ m.text ∧
      x.1.compressed =
        Compress.Matched.encode (Compress.Matched.seen st.1.compress) m.text := by
  obtain ⟨-, -, -, encoded⟩ := pushed_cases h
  obtain ⟨size, hsize, hcompress⟩ := encoded.compress
  have hmatched := Compress.Matched.compress_eq st.1.compress encoded.nonempty hsize
  obtain ⟨hnext, hdata⟩ := Prod.mk.inj (hcompress.symm.trans hmatched)
  exact ⟨congrArg Compress.Matched.seen hnext, hdata⟩

theorem seen_drop (h : (logging (matchedLibrary impl)).encode st m = (st', none))
    (htext : m.text ≠ []) (failed : m.failure ≠ .none) :
    Compress.Matched.seen st'.1.compress = Compress.Matched.seen st.1.compress ++ m.text := by
  obtain ⟨hst, -⟩ := Prod.mk.inj h
  subst hst
  obtain ⟨text, failure⟩ := m
  cases failure with
  | none => exact absurd rfl failed
  | compress =>
    have hempty : ¬ text.isEmpty = true := fun hnil => htext (List.isEmpty_iff.mp hnil)
    simp only [Library.encode, if_neg hempty]
    rfl
  | encrypt =>
    obtain ⟨e', x, hencode⟩ := encode_some_of_ne_nil (matchedLibrary impl) st.1 htext
    have pushed : (logging (matchedLibrary impl)).encode st ⟨text, .none⟩ =
        ((e', if text.isEmpty then st.2 else st.2 ++ [⟨text, .none⟩]),
          some (x, ⟨⟨text, .none⟩, st.2⟩)) := by
      simp only [logging, Library.encode, hencode, Option.map_some]
    have seen := (seen_push pushed).1
    simp only [Library.encode, hencode]
    exact seen

theorem frames_matched : Frames (logging (matchedLibrary impl)) Matched
    fun st xs => Matched xs ∧ Compress.Matched.seen st.1.compress = seenOf st.2 where
  good := fun _ _ h => h.1
  reset := fun _ => ⟨List.forall_mem_nil _, rfl⟩
  drop := by
    intro st xs m st' ⟨matched, hseen⟩ _ h
    refine ⟨matched, ?_⟩
    obtain ⟨-, hcompress, hsince⟩ | ⟨htext, failed, hsince⟩ := dropped_cases h
    · rw [hcompress, hsince, hseen]
    · rw [seen_drop h htext failed, hsince, hseen, seenOf, seenOf, List.flatMap_append,
        List.flatMap_singleton]
  push := by
    intro st xs m st' x ⟨matched, hseen⟩ h
    obtain ⟨-, hsince, hentry, -⟩ := pushed_cases h
    obtain ⟨hnext, hdata⟩ := seen_push h
    refine ⟨List.forall_mem_append.mpr ⟨matched, List.forall_mem_singleton.mpr ?_⟩, ?_⟩
    · rw [hdata, hseen, hentry]
      rfl
    · rw [hnext, hsince, hseen, seenOf, seenOf, List.flatMap_append, List.flatMap_singleton]

theorem written_matched (ls : List (Label Message)) :
    ∀ xs ∈ ((matchedLibrary impl).after ls).written, Matched xs :=
  (frames_matched.run (frames_matched.initial _) ls).written

theorem compressed_written (ls : List (Label Message)) :
    ((matchedLibrary impl).after (ls ++ [.flush])).written.flatMap compressed =
      (run ledger (initial []) ls).items.map Entry.matched := by
  rw [written_ledger (matchedLibrary impl), List.map_map, List.map_flatten, ← List.flatMap_def]
  refine List.flatMap_congr fun xs hxs => ?_
  exact List.map_congr_left (written_matched _ xs hxs)

end FlashLog.Sinks.DroppedLog
