import FlashLog.Formatter.EffectiveFormatter
import FlashLog.Support.Wire

/-!
`effective_msg.proto` in the wire format: numbers as base-128 numbers of their two's complement,
texts behind their lengths, and no field that is not set. An instance of what is promised of the
generated code.
-/

set_option autoImplicit false
set_option relaxedAutoImplicit false

namespace FlashLog.Formatter.WireFormat

open FlashLog.Support
open FlashLog.Support.Wire (Field Value)
open FlashLog.Decode.DecodeFormatter (EffectiveMsg)

def number (field : Nat) (n : Int) : List Field :=
  if n = 0 then [] else [⟨field, .varint (n % UInt64.size).toNat⟩]

def string (field : Nat) (bs : Bytes) : List Field :=
  if bs = [] then [] else [⟨field, .bytes bs⟩]

def fields (msg : EffectiveMsg) : List Field :=
  number 1 msg.level ++ number 2 msg.timestamp ++ number 3 msg.pid ++ number 4 msg.tid ++
    number 5 msg.line ++ string 6 msg.fileName ++ string 7 msg.funcName ++ string 8 msg.logInfo

/-- A field of the message, and whether a text is one. Unknown fields are passed over. -/
def setField (msg : EffectiveMsg) (field : Field) : EffectiveMsg × Bool :=
  match field.number, field.value with
  | 1, .varint n => ({ msg with level := (n : Int).bmod Int32.size }, true)
  | 2, .varint n => ({ msg with timestamp := (n : Int).bmod Int64.size }, true)
  | 3, .varint n => ({ msg with pid := (n : Int).bmod Int32.size }, true)
  | 4, .varint n => ({ msg with tid := (n : Int).bmod Int32.size }, true)
  | 5, .varint n => ({ msg with line := (n : Int).bmod Int32.size }, true)
  | 6, .bytes bs => ({ msg with fileName := bs }, decide (Utf8 bs))
  | 7, .bytes bs => ({ msg with funcName := bs }, decide (Utf8 bs))
  | 8, .bytes bs => ({ msg with logInfo := bs }, decide (Utf8 bs))
  | _, _ => (msg, true)

/-- Up to the first text that is none. -/
def setFields : EffectiveMsg → List Field → EffectiveMsg × Bool
  | msg, [] => (msg, true)
  | msg, field :: fields =>
    match setField msg field with
    | (msg, true) => setFields msg fields
    | (msg, false) => (msg, false)

def protobuf : Protobuf where
  serialize msg := Wire.write (fields msg)
  parse bs :=
    let (fields, complete) := Wire.read bs
    let (msg, valid) := setFields unset fields
    (msg, valid && complete)

section RoundTrip

theorem bmod_of_dvd {m : Nat} {n : Int} (dvd : m ∣ UInt64.size) (typed : n.bmod m = n) :
    (((n % UInt64.size).toNat : Nat) : Int).bmod m = n := by
  have hsize : (UInt64.size : Int) ≠ 0 := by decide
  have nonneg := Int.emod_nonneg n hsize
  have hdvd : (m : Int) ∣ (UInt64.size : Nat) := Int.natCast_dvd_natCast.mpr dvd
  rw [Int.toNat_of_nonneg nonneg, ← Int.emod_bmod, Int.emod_emod_of_dvd n hdvd, Int.emod_bmod, typed]

theorem setFields_append {msg next : EffectiveMsg} {front back : List Field}
    (h : setFields msg front = (next, true)) :
    setFields msg (front ++ back) = setFields next back := by
  induction front generalizing msg with
  | nil =>
    obtain rfl : msg = next := (Prod.mk.inj h).1
    rfl
  | cons field front ih =>
    rw [setFields] at h
    rw [List.cons_append, setFields]
    split at h
    · exact ih h
    · cases (Prod.mk.inj h).2

theorem setFields_number {field : Nat} {n : Int} {msg next : EffectiveMsg}
    (hzero : n = 0 → msg = next)
    (hset : setField msg ⟨field, .varint (n % UInt64.size).toNat⟩ = (next, true)) :
    setFields msg (number field n) = (next, true) := by
  rw [number]
  split
  · rename_i hn
    rw [hzero hn]
    rfl
  · simp only [setFields, hset]

theorem setFields_string {field : Nat} {bs : Bytes} {msg next : EffectiveMsg}
    (hempty : bs = [] → msg = next)
    (hset : setField msg ⟨field, .bytes bs⟩ = (next, decide (Utf8 bs))) (valid : Utf8 bs) :
    setFields msg (string field bs) = (next, true) := by
  rw [string]
  split
  · rename_i hbs
    rw [hempty hbs]
    rfl
  · simp only [setFields, hset, decide_eq_true valid]

theorem setFields_fields {msg : EffectiveMsg} (typed : Typed msg) :
    setFields unset (fields msg) = (msg, true) := by
  obtain ⟨level, timestamp, pid, tid, line, fileName, funcName, logInfo⟩ := msg
  obtain ⟨hlevel, htimestamp, hpid, htid, hline, hfileName, hfuncName, hlogInfo⟩ := typed
  have int32 : ∀ n : Int, IsInt32 n → (((n % UInt64.size).toNat : Nat) : Int).bmod Int32.size = n :=
    fun n typed => bmod_of_dvd (by decide) typed
  have int64 : ∀ n : Int, IsInt64 n → (((n % UInt64.size).toNat : Nat) : Int).bmod Int64.size = n :=
    fun n typed => bmod_of_dvd (by decide) typed
  have first : setFields unset (number 1 level) = (⟨level, 0, 0, 0, 0, [], [], []⟩, true) := by
    refine setFields_number (by rintro rfl; rfl) ?_
    simp only [setField, int32 level hlevel, unset]
  have second : setFields ⟨level, 0, 0, 0, 0, [], [], []⟩ (number 2 timestamp) =
      (⟨level, timestamp, 0, 0, 0, [], [], []⟩, true) := by
    refine setFields_number (by rintro rfl; rfl) ?_
    simp only [setField, int64 timestamp htimestamp]
  have third : setFields ⟨level, timestamp, 0, 0, 0, [], [], []⟩ (number 3 pid) =
      (⟨level, timestamp, pid, 0, 0, [], [], []⟩, true) := by
    refine setFields_number (by rintro rfl; rfl) ?_
    simp only [setField, int32 pid hpid]
  have fourth : setFields ⟨level, timestamp, pid, 0, 0, [], [], []⟩ (number 4 tid) =
      (⟨level, timestamp, pid, tid, 0, [], [], []⟩, true) := by
    refine setFields_number (by rintro rfl; rfl) ?_
    simp only [setField, int32 tid htid]
  have fifth : setFields ⟨level, timestamp, pid, tid, 0, [], [], []⟩ (number 5 line) =
      (⟨level, timestamp, pid, tid, line, [], [], []⟩, true) := by
    refine setFields_number (by rintro rfl; rfl) ?_
    simp only [setField, int32 line hline]
  have sixth : setFields ⟨level, timestamp, pid, tid, line, [], [], []⟩ (string 6 fileName) =
      (⟨level, timestamp, pid, tid, line, fileName, [], []⟩, true) :=
    setFields_string (by rintro rfl; rfl) rfl hfileName
  have seventh : setFields ⟨level, timestamp, pid, tid, line, fileName, [], []⟩
      (string 7 funcName) = (⟨level, timestamp, pid, tid, line, fileName, funcName, []⟩, true) :=
    setFields_string (by rintro rfl; rfl) rfl hfuncName
  have eighth : setFields ⟨level, timestamp, pid, tid, line, fileName, funcName, []⟩
      (string 8 logInfo) =
        (⟨level, timestamp, pid, tid, line, fileName, funcName, logInfo⟩, true) :=
    setFields_string (by rintro rfl; rfl) rfl hlogInfo
  simp only [fields, List.append_assoc]
  rw [setFields_append first, setFields_append second, setFields_append third,
    setFields_append fourth, setFields_append fifth, setFields_append sixth,
    setFields_append seventh, eighth]

theorem fits_of_mem {msg : EffectiveMsg} (small : (Wire.write (fields msg)).length < 2 ^ 31)
    {field : Field} (hfield : field ∈ fields msg) : field.Fits := by
  have numbers : ∀ k n, 0 < k → k < 9 → field ∈ number k n → field.Fits := by
    intro k n hpos hk hmem
    rw [number] at hmem
    split at hmem
    · cases hmem
    · obtain rfl := List.mem_singleton.mp hmem
      have hsize : (0 : Int) < UInt64.size := by decide
      have low := Int.emod_nonneg n (Int.ne_of_gt hsize)
      have high := Int.emod_lt_of_pos n hsize
      refine ⟨hpos, Nat.lt_trans hk (by decide), ?_⟩
      exact (Int.toNat_lt low).mpr high
  have strings : ∀ k bs, 0 < k → k < 9 → field ∈ string k bs → field.Fits := by
    intro k bs hpos hk hmem
    rw [string] at hmem
    split at hmem
    · cases hmem
    · obtain rfl := List.mem_singleton.mp hmem
      refine ⟨hpos, Nat.lt_trans hk (by decide), ?_⟩
      have hle := Wire.length_le_of_mem hfield
      exact Nat.lt_trans (Nat.lt_of_le_of_lt hle small) (by decide)
  simp only [fields, List.mem_append] at hfield
  rcases hfield with ((((((h | h) | h) | h) | h) | h) | h) | h
  · exact numbers 1 _ (by decide) (by decide) h
  · exact numbers 2 _ (by decide) (by decide) h
  · exact numbers 3 _ (by decide) (by decide) h
  · exact numbers 4 _ (by decide) (by decide) h
  · exact numbers 5 _ (by decide) (by decide) h
  · exact strings 6 _ (by decide) (by decide) h
  · exact strings 7 _ (by decide) (by decide) h
  · exact strings 8 _ (by decide) (by decide) h

theorem number_eq_nil {k : Nat} {n : Int} (h : number k n = []) : n = 0 := by
  rw [number] at h
  split at h
  · assumption
  · cases h

theorem string_eq_nil {k : Nat} {bs : Bytes} (h : string k bs = []) : bs = [] := by
  rw [string] at h
  split at h
  · assumption
  · cases h

theorem unset_of_fields {msg : EffectiveMsg} (h : fields msg = []) : msg = unset := by
  obtain ⟨level, timestamp, pid, tid, line, fileName, funcName, logInfo⟩ := msg
  simp only [fields, List.append_eq_nil_iff] at h
  obtain ⟨⟨⟨⟨⟨⟨⟨hlevel, htimestamp⟩, hpid⟩, htid⟩, hline⟩, hfileName⟩, hfuncName⟩, hlogInfo⟩ := h
  rw [number_eq_nil hlevel, number_eq_nil htimestamp, number_eq_nil hpid, number_eq_nil htid,
    number_eq_nil hline, string_eq_nil hfileName, string_eq_nil hfuncName, string_eq_nil hlogInfo]
  rfl

theorem documented : protobuf.Documented where
  parse_serialize msg typed small := by
    have fits : ∀ field ∈ fields msg, field.Fits := fun field hfield => fits_of_mem small hfield
    simp only [protobuf, Wire.read_write fits, setFields_fields typed, Bool.and_self]
  unset_of_empty msg _ h := unset_of_fields (Wire.write_eq_nil.mp h)

end RoundTrip

end FlashLog.Formatter.WireFormat
