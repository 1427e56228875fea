import FlashLog.Sinks.CallSequence
import FlashLog.Sinks.ItemStream

/-!
`Log` calls that fail. `Compress` puts a message into the stream before `Encrypt` may fail and
before the item is stored, so later items refer to an input that no item holds.
-/

set_option autoImplicit false
set_option relaxedAutoImplicit false

namespace FlashLog.Sinks.DroppedLog

open FlashLog.Support FlashLog.Crypto
open FlashLog.Compress (Zstd ZstdCompress)
open FlashLog.Compress.ZstdCompress (outputCapacity InStep decompressAll after)
open FlashLog.Mmap (StringImpl)
open FlashLog.Sinks.DoubleBuffer (Pipeline)
open FlashLog.Sinks.ItemStream (Env Encoder Item)
open FlashLog.Sinks.CallSequence

/-- What fails in a `Log`: `Compress` returns 0, or `Encrypt` yields nothing. -/
inductive Failure
  | none | compress | encrypt
  deriving DecidableEq

structure Message where
  text : Bytes
  failure : Failure
  deriving DecidableEq

/-- `Compress` also returns 0 for an empty message. -/
def Message.Stored (m : Message) : Prop := m.text ≠ [] ∧ m.failure = .none

instance (m : Message) : Decidable m.Stored :=
  inferInstanceAs (Decidable (m.text ≠ [] ∧ m.failure = .none))

def storedTexts (ls : List (Label Message)) : List Bytes :=
  (messages ls).filterMap fun m => if m.Stored then some m.text else none

section Ledger

/-- A stored message, and the messages that went into the stream before it since the last
`ResetStream`. -/
structure Entry where
  message : Message
  since : List Message
  deriving DecidableEq

/-- What the calls store, with no regard to what `Compress` and `Encrypt` put out. -/
def ledger : Pipeline (List Message) Message Entry Unit where
  resetStream := fun _ => []
  encode := fun since m =>
    (if m.text.isEmpty then since else since ++ [m],
      if m.Stored then some ⟨m, since⟩ else none)
  keys := ()

variable (impl : StringImpl)

/-- The message fits into the output buffer of `Decompress`, and no message since the last
`ResetStream` was dropped. -/
def Entry.Clean (x : Entry) : Prop :=
  x.message.text.length ≤ outputCapacity impl ∧ ∀ m ∈ x.since, m.failure = .none

instance (x : Entry) : Decidable (x.Clean impl) :=
  inferInstanceAs (Decidable (_ ∧ ∀ m ∈ x.since, m.failure = .none))

/-- The condition on all stored messages of a sequence of calls. -/
def Clean (ls : List (Label Message)) : Prop :=
  ∀ x ∈ (run ledger (initial []) ls).items, x.Clean impl

instance (ls : List (Label Message)) : Decidable (Clean impl ls) :=
  inferInstanceAs (Decidable (∀ x ∈ (run ledger (initial []) ls).items, x.Clean impl))

end Ledger

/-- zstd and Crypto++ as documented, with the key that the decoder agrees on. -/
structure Library (impl : StringImpl) where
  z : Zstd
  stream : z.Stream
  /-- what a failing `ZSTD_compressStream2` makes of its context -/
  broken : z.Cctx → Bytes → z.Cctx
  lib : CryptoPP
  crypto : AESCrypto
  serverKey : AESCrypto
  encrypts : ∀ data, data ≠ [] → crypto.encrypt lib data ≠ []
  decrypts : ∀ data, serverKey.decrypt lib (crypto.encrypt lib data) = some data

variable {impl : StringImpl}

abbrev Library.env (L : Library impl) : Env := ⟨impl, L.z, L.lib, L.crypto⟩

def zeroCrypto : AESCrypto :=
  ⟨List.replicate agreedValueLength 0, List.replicate blockSize 0⟩

theorem zeroCrypto_encrypts : ∀ data, data ≠ [] → zeroCrypto.encrypt tagged data ≠ [] :=
  fun _ hdata => List.append_ne_nil_of_right_ne_nil _ hdata

theorem zeroCrypto_decrypts :
    ∀ data, zeroCrypto.decrypt tagged (zeroCrypto.encrypt tagged data) = some data := by
  intro data
  have sized : zeroCrypto.Sized := ⟨rfl, Nat.le_refl _⟩
  exact (AESCrypto.decrypt_encrypt_iff tagged_laws sized sized data).mpr ⟨rfl, rfl⟩

def Library.encode (L : Library impl) (e : Encoder L.env.z) (m : Message) :
    Encoder L.env.z × Option Item :=
  match m.failure with
  | .none => e.encode m.text
  | .compress =>
    let compressBuf := e.compressBuf.reserve impl (L.z.compressBound m.text.length)
    let cctx := if m.text.isEmpty then e.compress.cctx else L.broken e.compress.cctx m.text
    ({ e with compress := ⟨cctx, e.compress.dctx⟩, compressBuf }, none)
  | .encrypt => ((e.encode m.text).1, none)

def logging (L : Library impl) :
    Pipeline (Encoder L.env.z × List Message) Message (Item × Entry) Unit where
  resetStream := fun st => (st.1.resetStream, [])
  encode := fun st m =>
    (((L.encode st.1 m).1, if m.text.isEmpty then st.2 else st.2 ++ [m]),
      (L.encode st.1 m).2.map fun item => (item, ⟨m, st.2⟩))
  keys := ()

def Library.after (L : Library impl) (ls : List (Label Message)) :
    Sink (Encoder L.env.z × List Message) (Item × Entry) :=
  run (logging L) (initial (Encoder.new L.env, [])) ls

section Encode

variable (L : Library impl)

theorem encode_some_of_ne_nil (e : Encoder L.env.z) {text : Bytes} (htext : text ≠ []) :
    ∃ e' x, e.encode text = (e', some x) := by
  have room := Mmap.StdString.le_capacity_reserve impl e.compressBuf
    (L.z.compressBound text.length)
  have produced := ZstdCompress.compress_ne_nil L.stream e.compress htext room
  cases hencode : e.encode text with
  | mk e' item =>
    cases item with
    | some x => exact ⟨e', x, rfl⟩
    | none =>
      have encodes := ItemStream.encode_cases e text
      rw [hencode] at encodes
      cases encodes with
      | nothing compress buf hcompress =>
        exact absurd (congrArg Prod.snd hcompress) produced
      | unencrypted compress buf output hcompress houtput hdata =>
        exact absurd hdata (L.encrypts output houtput)

theorem isSome_encode (e : Encoder L.env.z) (m : Message) :
    (L.encode e m).2.isSome = decide m.Stored := by
  obtain ⟨text, failure⟩ := m
  cases failure with
  | none =>
    by_cases htext : text = []
    · subst htext
      rfl
    · obtain ⟨e', x, hencode⟩ := encode_some_of_ne_nil L e htext
      simp [Library.encode, hencode, Message.Stored, htext]
  | compress => simp [Library.encode, Message.Stored]
  | encrypt => simp [Library.encode, Message.Stored]

/-- The ledger follows the sink. -/
theorem follows_ledger : Follows (logging L) ledger Prod.snd Prod.snd where
  resetStream := fun _ => rfl
  encode := by
    intro st m
    have stored := isSome_encode L st.1 m
    refine Prod.ext rfl ?_
    simp only [ledger, logging, Option.map_map]
    cases hitem : (L.encode st.1 m).2 with
    | none =>
      rw [hitem] at stored
      rw [if_neg (of_decide_eq_false stored.symm)]
      rfl
    | some x =>
      rw [hitem] at stored
      rw [if_pos (of_decide_eq_true stored.symm)]
      rfl

theorem items_ledger (ls : List (Label Message)) :
    (run ledger (initial []) ls).items = (L.after ls).items.map Prod.snd := by
  have hrun : run ledger (initial []) ls = (L.after ls).map Prod.snd Prod.snd :=
    map_run (follows_ledger L) (initial (Encoder.new L.env, [])) ls
  rw [hrun]
  simp only [Sink.items, Sink.map, List.map_append, List.map_flatten]

theorem after_flush (ls : List (Label Message)) :
    L.after (ls ++ [.flush]) = (L.after ls).flush := List.foldl_append

theorem texts_items (ls : List (Label Message)) :
    (L.after ls).items.map (fun x => x.2.message.text) = storedTexts ls := by
  have stored : ∀ (since : List Message) (m : Message),
      (ledger.encode since m).2.map (fun x => x.message.text) =
        if m.Stored then some m.text else none := by
    intro since m
    simp only [ledger]
    split <;> rfl
  have hitems := items_run stored (initial []) ls
  rw [items_ledger L, List.map_map] at hitems
  exact hitems

end Encode

section Decodable

variable (L : Library impl)

def compressed (xs : List (Item × Entry)) : List Bytes := xs.map fun x => x.1.compressed

def texts (xs : List (Item × Entry)) : List Bytes := xs.map fun x => x.2.message.text

theorem compressed_push (xs : List (Item × Entry)) (x : Item × Entry) :
    compressed (xs ++ [x]) = compressed xs ++ [x.1.compressed] := List.map_append

theorem texts_push (xs : List (Item × Entry)) (x : Item × Entry) :
    texts (xs ++ [x]) = texts xs ++ [x.2.message.text] := List.map_append

def AllClean (impl : StringImpl) (xs : List (Item × Entry)) : Prop := ∀ x ∈ xs, x.2.Clean impl

/-- If all items are clean, a decompressor in any state gives back their texts. -/
def Decodable (xs : List (Item × Entry)) : Prop :=
  AllClean impl xs → ∀ d : ZstdCompress L.z, decompressAll impl d (compressed xs) = texts xs

/-- As long as no message was dropped since the last reset, a decompressor behind the items is
in step with the stream. -/
structure Following (st : Encoder L.env.z × List Message) (xs : List (Item × Entry)) : Prop where
  decodable : Decodable L xs
  inStep : AllClean impl xs → (∀ m ∈ st.2, m.failure = .none) →
    ∀ d : ZstdCompress L.z, InStep L.stream st.1.compress (after impl d (compressed xs))

theorem following_reset (st : Encoder L.env.z × List Message) :
    Following L ((logging L).resetStream st) [] where
  decodable := fun _ _ => rfl
  inStep := fun _ _ _ => Or.inl (L.stream.atStart_reset _)

variable {L} {st st' : Encoder L.env.z × List Message} {xs : List (Item × Entry)} {m : Message}

theorem dropped_cases (h : (logging L).encode st m = (st', none)) :
    (m.text = [] ∧ st'.1.compress = st.1.compress ∧ st'.2 = st.2) ∨
      (m.text ≠ [] ∧ m.failure ≠ .none ∧ st'.2 = st.2 ++ [m]) := by
  obtain ⟨hst, hnone⟩ := Prod.mk.inj h
  have unstored : ¬ m.Stored := by
    have stored := isSome_encode L st.1 m
    rw [Option.map_eq_none_iff.mp hnone] at stored
    exact of_decide_eq_false stored.symm
  subst hst
  by_cases htext : m.text = []
  · refine Or.inl ⟨htext, ?_, by simp [htext]⟩
    obtain ⟨text, failure⟩ := m
    subst htext
    cases failure <;> rfl
  · exact Or.inr ⟨htext, fun hfailure => unstored ⟨htext, hfailure⟩, by simp [htext]⟩

theorem pushed_cases {x : Item × Entry} (h : (logging L).encode st m = (st', some x)) :
    m.failure = .none ∧ st'.2 = st.2 ++ [m] ∧ x.2 = ⟨m, st.2⟩ ∧
      ItemStream.Encoded st.1 m.text st'.1 x.1 := by
  obtain ⟨hst, hsome⟩ := Prod.mk.inj h
  obtain ⟨item, hitem, rfl⟩ := Option.map_eq_some_iff.mp hsome
  have hstored : m.Stored := by
    have stored := isSome_encode L st.1 m
    rw [hitem] at stored
    exact of_decide_eq_true stored.symm
  have hencode : L.encode st.1 m = st.1.encode m.text := by
    rw [Library.encode, hstored.2]
  subst hst
  refine ⟨hstored.2, by simp [hstored.1], rfl, ItemStream.encode_some ?_⟩
  rw [hencode] at hitem ⊢
  exact Prod.ext rfl hitem

theorem Following.push {x : Item × Entry} (following : Following L st xs)
    (h : (logging L).encode st m = (st', some x)) : Following L st' (xs ++ [x]) := by
  obtain ⟨-, hsince, hentry, encoded⟩ := pushed_cases h
  obtain ⟨size, hsize, hcompress⟩ := encoded.compress
  -- both parts are about one more call of `Decompress`
  have pushed : AllClean impl (xs ++ [x]) → ∀ d : ZstdCompress L.z,
      decompressAll impl d (compressed (xs ++ [x])) = texts (xs ++ [x]) ∧
        InStep L.stream st'.1.compress (after impl d (compressed (xs ++ [x]))) := by
    intro clean d
    have before : AllClean impl xs := fun y hy => clean y (List.mem_append_left _ hy)
    have cleanx := clean x (List.mem_append_right _ List.mem_cons_self)
    rw [hentry] at cleanx
    obtain ⟨c', item, d', hitem, hdecompress, hnext⟩ := ZstdCompress.decompress_inStep L.stream impl
      (following.inStep before cleanx.2 d) encoded.nonempty hsize cleanx.1
    obtain ⟨rfl, rfl⟩ := Prod.mk.inj (hcompress.symm.trans hitem)
    rw [compressed_push, texts_push, hentry, ZstdCompress.decompressAll_append,
      ZstdCompress.after_append, following.decodable before d]
    simp only [decompressAll, after, hdecompress]
    exact ⟨trivial, hnext⟩
  exact ⟨fun clean d => (pushed clean d).1, fun clean _ d => (pushed clean d).2⟩

theorem Following.drop (following : Following L st xs)
    (h : (logging L).encode st m = (st', none)) : Following L st' xs := by
  refine ⟨following.decodable, fun clean kept d => ?_⟩
  obtain ⟨-, hcompress, hsince⟩ | ⟨-, failed, hsince⟩ := dropped_cases h
  · rw [hcompress]
    exact following.inStep clean (hsince ▸ kept) d
  · rw [hsince] at kept
    exact absurd (kept m (List.mem_append_right _ List.mem_cons_self)) failed

variable (L)

theorem frames_following : Frames (logging L) (Decodable L) (Following L) where
  good := fun _ _ following => following.decodable
  reset := following_reset L
  drop := fun _ _ _ _ following _ h => following.drop h
  push := fun _ _ _ _ _ following h => following.push h

theorem written_decodable (ls : List (Label Message)) :
    ∀ c ∈ (L.after ls).written, Decodable L c :=
  ((frames_following L).run ((frames_following L).initial _) ls).written

theorem written_ledger (ls : List (Label Message)) :
    (run ledger (initial []) ls).items =
      (L.after (ls ++ [.flush])).written.flatten.map Prod.snd := by
  rw [items_ledger L, after_flush, written_flush]

theorem clean_iff_written (ls : List (Label Message)) :
    Clean impl ls ↔ ∀ xs ∈ (L.after (ls ++ [.flush])).written, AllClean impl xs := by
  rw [Clean, written_ledger L]
  simp only [AllClean, List.forall_mem_map, List.mem_flatten]
  exact ⟨fun clean xs hxs x hx => clean x ⟨xs, hxs, hx⟩, fun clean x ⟨xs, hxs, hx⟩ =>
    clean xs hxs x hx⟩

theorem storedTexts_written (ls : List (Label Message)) :
    (L.after (ls ++ [.flush])).written.flatMap texts = storedTexts ls := by
  rw [← texts_items L, ← written_flush, ← after_flush, List.map_flatten]
  rfl

variable {L} {written : List (List (Item × Entry))}

theorem decompressAll_of_clean (decodable : ∀ xs ∈ written, Decodable L xs)
    (clean : ∀ xs ∈ written, AllClean impl xs) (d : ZstdCompress L.z) :
    decompressAll impl d (written.flatMap compressed) = written.flatMap texts := by
  induction written generalizing d with
  | nil => rfl
  | cons xs written ih =>
    rw [List.flatMap_cons, List.flatMap_cons, ZstdCompress.decompressAll_append,
      decodable xs List.mem_cons_self (clean xs List.mem_cons_self) d,
      ih (fun ys hys => decodable ys (List.mem_cons_of_mem _ hys))
        (fun ys hys => clean ys (List.mem_cons_of_mem _ hys))]

theorem decompressAll_of_written {d : ZstdCompress L.z}
    (hall : decompressAll impl d (written.flatMap compressed) = written.flatMap texts) :
    ∀ xs ∈ written, ∃ d : ZstdCompress L.z, decompressAll impl d (compressed xs) = texts xs := by
  induction written generalizing d with
  | nil => nofun
  | cons xs written ih =>
    rw [List.flatMap_cons, List.flatMap_cons, ZstdCompress.decompressAll_append] at hall
    have hlength : (decompressAll impl d (compressed xs)).length = (texts xs).length := by
      rw [ZstdCompress.length_decompressAll, compressed, texts, List.length_map, List.length_map]
    obtain ⟨hfirst, hrest⟩ := List.append_inj hall hlength
    exact List.forall_mem_cons.mpr ⟨⟨d, hfirst⟩, ih hrest⟩

end Decodable

end FlashLog.Sinks.DroppedLog
