import Mathlib.Algebra.Order.BigOperators.Group.List
import Mathlib.Algebra.Order.Group.Nat
import FlashLog.Compress.NumberedFrames
import FlashLog.Sinks.DroppedLog

/-!
The sink over a zstd that numbers its inputs: behind a dropped message the decompressor lags the
stream, and gives back none of the items up to the next reset.
-/

set_option autoImplicit false
set_option relaxedAutoImplicit false

namespace FlashLog.Sinks.DroppedLog

open FlashLog.Support FlashLog.Crypto
open FlashLog.Compress (ZstdCompress)
open FlashLog.Compress.Numbered (zstd taken given)
open FlashLog.Compress.ZstdCompress (outputCapacity decompressAll after)
open FlashLog.Mmap (StringImpl)
open FlashLog.Sinks.ItemStream (Encoder Item)
open FlashLog.Sinks.CallSequence

/-- Numbered blocks of which a failing call counts its input, and a cipher that marks its output
with key and vector. -/
def numberedLibrary (impl : StringImpl) (k : Nat) : Library impl where
  z := Compress.Numbered.zstd k
  stream := Compress.Numbered.stream k
  broken := fun n _ => Nat.succ n
  lib := tagged
  crypto := zeroCrypto
  serverKey := zeroCrypto
  encrypts := zeroCrypto_encrypts
  decrypts := zeroCrypto_decrypts

variable {impl : StringImpl} {k : Nat}

abbrev NumberedState (impl : StringImpl) (k : Nat) : Type :=
  Encoder (numberedLibrary impl k).env.z × List Message

variable {st st' : NumberedState impl k} {xs : List (Item × Entry)} {m : Message}

theorem taken_push {x : Item × Entry}
    (h : (logging (numberedLibrary impl k)).encode st m = (st', some x)) :
    taken st'.1.compress = taken st.1.compress + 1 ∧
      x.1.compressed = Compress.Numbered.encode k (taken st.1.compress) m.text := by
  obtain ⟨-, -, -, encoded⟩ := pushed_cases h
  obtain ⟨size, hsize, hcompress⟩ := encoded.compress
  have hnumbered := Compress.Numbered.compress_eq st.1.compress encoded.nonempty hsize
  obtain ⟨hnext, hdata⟩ := Prod.mk.inj (hcompress.symm.trans hnumbered)
  exact ⟨congrArg taken hnext, hdata⟩

theorem taken_drop (h : (logging (numberedLibrary impl k)).encode st m = (st', none))
    (htext : m.text ≠ []) (failed : m.failure ≠ .none) :
    taken st'.1.compress = taken st.1.compress + 1 := by
  obtain ⟨hst, -⟩ := Prod.mk.inj h
  subst hst
  obtain ⟨text, failure⟩ := m
  cases failure with
  | none => exact absurd rfl failed
  | compress =>
    have hempty : ¬ text.isEmpty = true := fun hnil => htext (List.isEmpty_iff.mp hnil)
    simp only [Library.encode, if_neg hempty]
    rfl
  | encrypt =>
    obtain ⟨e', x, hencode⟩ := encode_some_of_ne_nil (numberedLibrary impl k) st.1 htext
    have pushed : (logging (numberedLibrary impl k)).encode st ⟨text, .none⟩ =
        ((e', if text.isEmpty then st.2 else st.2 ++ [⟨text, .none⟩]),
          some (x, ⟨⟨text, .none⟩, st.2⟩)) := by
      simp only [logging, Library.encode, hencode, Option.map_some]
    have counted := (taken_push pushed).1
    simp only [Library.encode, hencode]
    exact counted

/-- An item that a decompressor gives back, from any state and with numbers that fit, shows that
the items are clean. -/
def Told (impl : StringImpl) (k : Nat) (xs : List (Item × Entry)) : Prop :=
  (∀ x ∈ xs, x.2.since.length < 256 ^ k) →
    ∀ d : ZstdCompress (zstd k),
      decompressAll impl d (compressed xs) = texts xs → AllClean impl xs

/-- The stream has counted all messages since the last reset, and a decompressor behind the
items not those that were dropped. -/
structure Counted (st : NumberedState impl k) (xs : List (Item × Entry)) : Prop where
  told : Told impl k xs
  count : taken st.1.compress = st.2.length
  start : xs = [] ↔ st.2 = []
  behind : xs ≠ [] → ∀ d : ZstdCompress (zstd k),
    given (after impl d (compressed xs)) ≤ st.2.length
  lost : xs ≠ [] → (∃ m ∈ st.2, m.failure ≠ .none) →
    ∀ d : ZstdCompress (zstd k),
      given (after impl d (compressed xs)) < st.2.length

theorem counted_reset (st : NumberedState impl k) :
    Counted ((logging (numberedLibrary impl k)).resetStream st) [] where
  told := fun _ _ _ => nofun
  count := rfl
  start := Iff.rfl.trans ⟨fun _ => rfl, fun _ => rfl⟩
  behind := fun h => absurd rfl h
  lost := fun h => absurd rfl h

theorem Counted.drop (counted : Counted st xs) (hxs : xs ≠ [])
    (h : (logging (numberedLibrary impl k)).encode st m = (st', none)) : Counted st' xs := by
  obtain ⟨-, hcompress, hsince⟩ | ⟨htext, failed, hsince⟩ := dropped_cases h
  · refine ⟨counted.told, ?_, ?_, ?_, ?_⟩
    · rw [hcompress, hsince]
      exact counted.count
    · rw [hsince]
      exact counted.start
    · rw [hsince]
      exact counted.behind
    · rw [hsince]
      exact counted.lost
  · have hlength : st'.2.length = st.2.length + 1 := by rw [hsince, List.length_append]; rfl
    have hbehind : ∀ d : ZstdCompress (zstd k),
        given (after impl d (compressed xs)) < st'.2.length := by
      intro d
      rw [hlength]
      exact Nat.lt_succ_of_le (counted.behind hxs d)
    refine ⟨counted.told, ?_, ?_, fun _ d => Nat.le_of_lt (hbehind d), fun _ _ => hbehind⟩
    · rw [taken_drop h htext failed, counted.count, hlength]
    · rw [hsince]
      exact ⟨fun hnil => absurd hnil hxs, fun hnil => absurd hnil (by simp)⟩

/-- What one more call of `Decompress` gives and counts: the first item always, a later one only
if it is the one that is due. -/
inductive Gives (st : NumberedState impl k) (xs : List (Item × Entry)) (text : Bytes)
    (d : ZstdCompress (zstd k)) :
    ZstdCompress (zstd k) × Bytes → Prop
  | first (d' : ZstdCompress (zstd k)) : xs = [] → given d' = 1 →
      Gives st xs text d (d', text.take (outputCapacity impl))
  | due (d' : ZstdCompress (zstd k)) : xs ≠ [] →
      Bytes.ofNatLE k st.2.length = Bytes.ofNatLE k (given d) → given d' = given d + 1 →
      Gives st xs text d (d', text.take (outputCapacity impl))
  | undue : xs ≠ [] → Gives st xs text d (d, [])

theorem Counted.gives {x : Item × Entry} (counted : Counted st xs)
    (h : (logging (numberedLibrary impl k)).encode st m = (st', some x))
    (d : ZstdCompress (zstd k)) :
    Gives st xs m.text d (d.decompress impl x.1.compressed) := by
  rw [(taken_push h).2, counted.count]
  by_cases hxs : xs = []
  · rw [counted.start.mp hxs, List.length_nil]
    have hdecompress : d.decompress impl (Compress.Numbered.encode k 0 m.text) = _ :=
      Compress.Numbered.decompress_first impl d m.text
    rw [hdecompress]
    exact .first _ hxs rfl
  · have hlength : st.2.length ≠ 0 := fun hzero =>
      hxs (counted.start.mpr (List.length_eq_zero_iff.mp hzero))
    have hdecompress : d.decompress impl (Compress.Numbered.encode k st.2.length m.text) = _ :=
      Compress.Numbered.decompress_later impl d m.text hlength
    rw [hdecompress]
    split
    · rename_i due
      exact .due _ hxs due rfl
    · exact .undue hxs

theorem Counted.clean_push {x : Item × Entry} (counted : Counted st xs)
    (h : (logging (numberedLibrary impl k)).encode st m = (st', some x))
    (d : ZstdCompress (zstd k)) (small : st.2.length < 256 ^ k)
    (output : ((after impl d (compressed xs)).decompress impl x.1.compressed).2 = m.text) :
    x.2.Clean impl := by
  obtain ⟨-, -, hentry, encoded⟩ := pushed_cases h
  have fits : m.text.take (outputCapacity impl) = m.text →
      m.text.length ≤ outputCapacity impl := by
    intro whole
    have hlength := congrArg List.length whole
    rw [List.length_take] at hlength
    omega
  have gives := counted.gives h (after impl d (compressed xs))
  rw [hentry]
  generalize (after impl d (compressed xs)).decompress impl x.1.compressed = result at gives output
  cases gives with
  | first d' hxs hgiven =>
    refine ⟨fits output, ?_⟩
    rw [counted.start.mp hxs]
    exact nofun
  | due d' hxs due hgiven =>
    refine ⟨fits output, fun lost hlost => ?_⟩
    have hbehind := counted.behind hxs d
    have hequal := Bytes.ofNatLE_inj small (Nat.lt_of_le_of_lt hbehind small) due
    by_contra failed
    have missed := counted.lost hxs ⟨lost, hlost, failed⟩ d
    omega
  | undue hxs => exact absurd output.symm encoded.nonempty

theorem Counted.told_push {x : Item × Entry} (counted : Counted st xs)
    (h : (logging (numberedLibrary impl k)).encode st m = (st', some x)) :
    Told impl k (xs ++ [x]) := by
  obtain ⟨-, -, hentry, -⟩ := pushed_cases h
  intro small d hall
  rw [compressed_push, texts_push, ZstdCompress.decompressAll_append, hentry] at hall
  obtain ⟨hbefore, hlast⟩ := List.append_inj' hall rfl
  have smallx := small x (List.mem_append_right _ List.mem_cons_self)
  rw [hentry] at smallx
  have before := counted.told (fun y hy => small y (List.mem_append_left _ hy)) d hbefore
  intro y hy
  rcases List.mem_append.mp hy with old | new
  · exact before y old
  · obtain rfl := List.mem_singleton.mp new
    exact counted.clean_push h d smallx (List.singleton_inj.mp hlast)

theorem Counted.given_push {x : Item × Entry} (counted : Counted st xs)
    (h : (logging (numberedLibrary impl k)).encode st m = (st', some x))
    (d : ZstdCompress (zstd k)) :
    xs = [] ∧ given (after impl d (compressed (xs ++ [x]))) = 1 ∨
      xs ≠ [] ∧ given (after impl d (compressed (xs ++ [x]))) ≤
        given (after impl d (compressed xs)) + 1 := by
  have hafter : after impl d (compressed (xs ++ [x])) =
      ((after impl d (compressed xs)).decompress impl x.1.compressed).1 := by
    rw [compressed_push, ZstdCompress.after_append]
    rfl
  have gives := counted.gives h (after impl d (compressed xs))
  rw [hafter]
  generalize (after impl d (compressed xs)).decompress impl x.1.compressed = next at gives
  cases gives with
  | first d' hxs hgiven => exact Or.inl ⟨hxs, hgiven⟩
  | due d' hxs due hgiven => exact Or.inr ⟨hxs, Nat.le_of_eq hgiven⟩
  | undue hxs => exact Or.inr ⟨hxs, Nat.le_succ _⟩

theorem Counted.push {x : Item × Entry} (counted : Counted st xs)
    (h : (logging (numberedLibrary impl k)).encode st m = (st', some x)) :
    Counted st' (xs ++ [x]) := by
  obtain ⟨stored, hsince, -, -⟩ := pushed_cases h
  have hlength : st'.2.length = st.2.length + 1 := by rw [hsince, List.length_append]; rfl
  refine ⟨counted.told_push h, ?_, ?_, fun _ d => ?_, fun _ lost d => ?_⟩
  · rw [(taken_push h).1, counted.count, hlength]
  · rw [hsince]
    exact ⟨fun hnil => absurd hnil (by simp), fun hnil => absurd hnil (by simp)⟩
  · obtain ⟨-, hgiven⟩ | ⟨hxs, hgiven⟩ := counted.given_push h d
    · omega
    · have hbehind := counted.behind hxs d
      omega
  · -- the message that was lost went into the stream before this one
    obtain ⟨m', hm', failed⟩ : ∃ m' ∈ st.2, m'.failure ≠ .none := by
      obtain ⟨m', hm', failed⟩ := lost
      rw [hsince] at hm'
      rcases List.mem_append.mp hm' with old | new
      · exact ⟨m', old, failed⟩
      · obtain rfl := List.mem_singleton.mp new
        exact absurd stored failed
    obtain ⟨hxs, -⟩ | ⟨hxs, hgiven⟩ := counted.given_push h d
    · rw [counted.start.mp hxs] at hm'
      cases hm'
    · have missed := counted.lost hxs ⟨m', hm', failed⟩ d
      omega

theorem frames_counted : Frames (logging (numberedLibrary impl k)) (Told impl k) Counted where
  good := fun _ _ counted => counted.told
  reset := counted_reset
  drop := fun _ _ _ _ counted hxs h => counted.drop hxs h
  push := fun _ _ _ _ _ counted h => counted.push h

theorem written_told (ls : List (Label Message)) :
    ∀ c ∈ ((numberedLibrary impl k).after ls).written, Told impl k c :=
  (frames_counted.run (frames_counted.initial _) ls).written

def numberBytes (ls : List (Label Message)) : Nat :=
  ((run ledger (initial []) ls).items.map fun x => x.since.length).sum

theorem since_lt (ls : List (Label Message)) :
    ∀ xs ∈ ((numberedLibrary impl k).after (ls ++ [.flush])).written, ∀ x ∈ xs,
      x.2.since.length < 256 ^ numberBytes ls := by
  intro xs hxs x hx
  have hentry : x.2 ∈ (run ledger (initial []) ls).items := by
    rw [written_ledger (numberedLibrary impl k)]
    exact List.mem_map_of_mem (List.mem_flatten.mpr ⟨xs, hxs, hx⟩)
  have hle : x.2.since.length ≤ numberBytes ls :=
    List.le_sum_of_mem (List.mem_map_of_mem (f := fun x : Entry => x.since.length) hentry)
  exact Nat.lt_of_le_of_lt hle (Nat.lt_pow_self (by decide))

end FlashLog.Sinks.DroppedLog
