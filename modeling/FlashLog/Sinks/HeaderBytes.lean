import FlashLog.Sinks.WriteFailure
import FlashLog.Support.Determined

/-!
The bytes that `CacheToFile_` passes to `ofs_.write`. The constructor of `ChunkHeader` leaves its
two arrays as the stack has them; a sink that encrypts copies its vector and its public key over
their beginning, the other sinks write them out as they are.
-/

set_option autoImplicit false
set_option relaxedAutoImplicit false

namespace FlashLog.Sinks

open FlashLog.Support
open FlashLog.Support.Machine (Meets outputs Determined determined_iff_meets)

/-- What the stack holds where the arrays `iv[32]` and `pub_key[128]` of a header are built. -/
structure HeaderStack where
  iv : Bytes
  pubKey : Bytes
  length_iv : iv.length = 32
  length_pubKey : pubKey.length = 128

def HeaderStack.filled (b : UInt8) : HeaderStack where
  iv := List.replicate 32 b
  pubKey := List.replicate 128 b
  length_iv := List.length_replicate
  length_pubKey := List.length_replicate

/-- The same outcomes and the same clock upon other stack memory. -/
def Io.upon (io : Io) (stack : HeaderStack) : Io := { io with stack := ⟨stack.iv, stack.pubKey⟩ }

theorem FileSink.guarded_eq {σ : Type} (body : FileSink σ → FileSink σ) (s : FileSink σ) :
    s.guarded body =
      if s.isSlaveFree = false ∧ s.cache ≠ [] then { body s with isSlaveFree := true }
      else { s with isSlaveFree := true } := by
  cases hfree : s.isSlaveFree with
  | true =>
    rw [guarded_of_free hfree, if_neg fun h => Bool.noConfusion h.1, ← hfree]
  | false =>
    have busy : ¬ s.isSlaveFree = true := by simp [hfree]
    by_cases empty : s.cache = []
    · rw [guarded_of_empty busy empty, if_neg fun h => h.2 empty]
    · rw [guarded_of_filled busy empty, if_pos ⟨rfl, empty⟩]

namespace SinkName

variable {σ : Type}

def Action.upon (stack : HeaderStack) : Action → Action
  | .cacheToFile io => .cacheToFile (io.upon stack)
  | a => a

instance (name : SinkName) (s : FileSink σ) : Decidable (name.Writes s) :=
  inferInstanceAs (Decidable (_ → _ ∧ _))

theorem writes_iff {name : SinkName} (h : name.doubleBuffered = true) (s : FileSink σ) :
    name.Writes s ↔ s.isSlaveFree = false ∧ s.cache ≠ [] :=
  forall_prop_of_true h

/-- The arguments of the two `ofs_.write` of a step. -/
def written (name : SinkName) (keys : Keys) (s : FileSink σ) : Action → Option (List Bytes)
  | .cacheToFile io =>
    if name.Writes s then some [(name.header keys io s).bytes, s.cache] else none
  | _ => none

variable (name : SinkName) (conf : Conf) (keys : Keys) (resetStream : σ → σ) (io : Io)
  (s : FileSink σ)

/-- What `CacheToFile_` leaves beside the stream and the directory. -/
def settled (t : FileSink σ) : FileSink σ :=
  { t with
    isSlaveFree := if name.doubleBuffered then true else t.isSlaveFree
    compress := if name = .compress then resetStream t.compress else t.compress }

theorem cacheToFile_eq :
    name.cacheToFile conf keys resetStream io s =
      if name.Writes s then
        name.settled resetStream (s.putChunk conf name.flag (name.header keys io s) io)
      else
        { s with isSlaveFree := true } := by
  cases name with
  | mmap | simple | protobuf | compress | crypto =>
    exact (if_pos fun h => absurd h Bool.false_ne_true).symm
  | effective | async =>
    exact (FileSink.guarded_eq _ s).trans (if_congr (writes_iff rfl s).symm rfl rfl)

def copied : Keys :=
  match name with
  | .effective | .crypto => keys
  | _ => ⟨[], []⟩

def Covers : Prop := 32 ≤ (name.copied keys).iv.length ∧ 128 ≤ (name.copied keys).pubKey.length

instance : Decidable (name.Covers keys) := inferInstanceAs (Decidable (_ ∧ _))

theorem header_upon (stack : HeaderStack) :
    name.header keys (io.upon stack) s =
      ⟨s.cache.length, (name.copied keys).iv ++ stack.iv.drop (name.copied keys).iv.length,
        (name.copied keys).pubKey ++ stack.pubKey.drop (name.copied keys).pubKey.length⟩ := by
  cases name with
  | effective | crypto =>
    simp only [header, copied, FileSink.keyedHeader, FileSink.plainHeader, ChunkHeader.copyKeys,
      Bytes.store, List.take_zero, List.nil_append, Nat.zero_add]
    rfl
  | _ => rfl

variable {name keys}

theorem Covers.header (covers : name.Covers keys) (stack : HeaderStack) :
    name.header keys (io.upon stack) s =
      ⟨s.cache.length, (name.copied keys).iv, (name.copied keys).pubKey⟩ := by
  rw [header_upon, List.drop_eq_nil_of_le (stack.length_iv ▸ covers.1),
    List.drop_eq_nil_of_le (stack.length_pubKey ▸ covers.2), List.append_nil, List.append_nil]

private theorem length_of_padding_eq {key : Bytes} {n : Nat}
    (h : key ++ (List.replicate n (0 : UInt8)).drop key.length =
      key ++ (List.replicate n (1 : UInt8)).drop key.length) : n ≤ key.length := by
  have same := List.append_cancel_left h
  rw [List.drop_replicate, List.drop_replicate] at same
  cases hrest : n - key.length with
  | zero => exact Nat.sub_eq_zero_iff_le.mp hrest
  | succ k =>
    rw [hrest] at same
    exact absurd (List.cons.inj same).1 (by decide)

theorem covers_of_bytes_eq
    (h : (name.header keys (io.upon (.filled 0)) s).bytes =
      (name.header keys (io.upon (.filled 1)) s).bytes) : name.Covers keys := by
  rw [header_upon, header_upon, ChunkHeader.bytes, ChunkHeader.bytes] at h
  obtain ⟨front, pubKey⟩ := List.append_inj' h (by
    simp only [HeaderStack.filled, List.length_append, List.length_drop, List.length_replicate])
  exact ⟨length_of_padding_eq (List.append_cancel_left front), length_of_padding_eq pubKey⟩

variable (name keys)

def stepUpon (s : FileSink σ) (label : Action × HeaderStack) : Option (FileSink σ) :=
  name.step conf keys resetStream s (label.1.upon label.2)

def writtenUpon (s : FileSink σ) (label : Action × HeaderStack) : Option (List Bytes) :=
  name.written keys s (label.1.upon label.2)

/-- A step that builds a header copies keys over all of its arrays. -/
def HeaderFilled (s : FileSink σ) : Action → Prop
  | .cacheToFile _ => name.Writes s → name.Covers keys
  | _ => True

variable {name keys}

theorem step_blind {s : FileSink σ} {a : Action} (filled : name.HeaderFilled keys s a)
    (stack stack' : HeaderStack) :
    name.stepUpon conf keys resetStream s (a, stack) =
        name.stepUpon conf keys resetStream s (a, stack') ∧
      name.writtenUpon keys s (a, stack) = name.writtenUpon keys s (a, stack') := by
  cases a with
  | writeToCache item | swapCache => exact ⟨rfl, rfl⟩
  | cacheToFile io =>
    simp only [stepUpon, writtenUpon, Action.upon, step, written, cacheToFile_eq]
    by_cases writes : name.Writes s
    · have covers := filled writes
      rw [covers.header io s stack, covers.header io s stack']
      exact ⟨rfl, rfl⟩
    · rw [if_neg writes, if_neg writes, if_neg writes, if_neg writes]
      exact ⟨rfl, rfl⟩

theorem step_shows {s : FileSink σ} {a : Action} (h : ¬ name.HeaderFilled keys s a) :
    ∃ stack stack' bs bs', name.writtenUpon keys s (a, stack) = some bs ∧
      name.writtenUpon keys s (a, stack') = some bs' ∧ bs ≠ bs' := by
  cases a with
  | writeToCache item | swapCache => exact absurd trivial h
  | cacheToFile io =>
    obtain ⟨writes, bare⟩ := Classical.not_imp.mp h
    refine ⟨.filled 0, .filled 1, _, _, if_pos writes, if_pos writes, ?_⟩
    intro same
    exact bare (covers_of_bytes_eq io s (List.cons.inj same).1)

/-- The bytes that a run of a file sink writes do not depend on the memory its headers are built
in if and only if no step builds a header, or the sink copies a vector and a public key as long
as the header's arrays. -/
theorem written_determined_iff (name : SinkName) (conf : Conf) (keys : Keys)
    (resetStream : σ → σ) (s : FileSink σ) (as : List Action) :
    Determined (name.stepUpon conf keys resetStream) (name.writtenUpon keys) s as ↔
      ∀ memories : List HeaderStack, memories.length = as.length →
        Meets (name.stepUpon conf keys resetStream)
          (fun s label => name.HeaderFilled keys s label.1) s (as.zip memories) := by
  have blind : ∀ s a stack stack', name.HeaderFilled keys s a →
      name.stepUpon conf keys resetStream s (a, stack) =
          name.stepUpon conf keys resetStream s (a, stack') ∧
        name.writtenUpon keys s (a, stack) = name.writtenUpon keys s (a, stack') :=
    fun _ _ stack stack' filled => step_blind conf resetStream filled stack stack'
  exact determined_iff_meets blind (fun _ _ bare => step_shows bare) s as

def oneMessage (name : SinkName) : List Action :=
  .writeToCache [65] :: (if name.doubleBuffered then [.swapCache] else []) ++ [.cacheToFile io]

private theorem oneMessage_written (name : SinkName) (io : Io) :
    ∃ s : FileSink Unit, ∀ b, outputs (name.stepUpon demoConf realKeys id)
      (name.writtenUpon realKeys) (name.initial [] [] [] ())
      ((name.oneMessage io).zip (List.replicate (name.oneMessage io).length (.filled b))) =
        [[(name.header realKeys (io.upon (.filled b)) s).bytes, s.cache]] := by
  cases name <;> exact ⟨_, fun _ => rfl⟩

theorem oneMessage_not_determined (name : SinkName) (io : Io) :
    ¬ Determined (name.stepUpon demoConf realKeys id) (name.writtenUpon realKeys)
      (name.initial [] [] [] ()) (name.oneMessage io) := by
  intro determined
  have both := determined (List.replicate _ (.filled 0)) (List.replicate _ (.filled 1))
    List.length_replicate List.length_replicate
  obtain ⟨s, hs⟩ := oneMessage_written name io
  rw [hs, hs] at both
  have same := (List.cons.inj (List.cons.inj both).1).1
  have covers : name.Covers realKeys := covers_of_bytes_eq io s same
  revert covers
  cases name <;> decide

/-- A sink that copies a public key of 65 bytes writes 63 bytes of the stack behind it; a sink that
copies nothing writes 160. -/
theorem oneMessage_leaks :
    ¬ Determined (SinkName.effective.stepUpon demoConf realKeys id)
        (SinkName.effective.writtenUpon realKeys) (SinkName.effective.initial [] [] [] ())
        (SinkName.effective.oneMessage (ioOfOpen true)) ∧
      ¬ Determined (SinkName.simple.stepUpon demoConf realKeys id)
        (SinkName.simple.writtenUpon realKeys) (SinkName.simple.initial [] [] [] ())
        (SinkName.simple.oneMessage (ioOfOpen true)) :=
  ⟨oneMessage_not_determined .effective _, oneMessage_not_determined .simple _⟩

end SinkName

end FlashLog.Sinks
