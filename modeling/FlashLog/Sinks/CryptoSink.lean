import FlashLog.Sinks.ChunkKeys
import FlashLog.Sinks.LockedBuffer

/-!
`CryptoSink` objects on one directory, one after the other. The constructor generates a key pair
and a vector; `Log` encrypts and pushes under `mtx_`, and `CacheToFile_` writes the whole of
`cache_` behind one header. `cache_` is memory of the process, so nothing in it outlives the
object.
-/

set_option autoImplicit false
set_option relaxedAutoImplicit false

namespace FlashLog.Sinks.CryptoSink

open FlashLog.Support FlashLog.Crypto
open FlashLog.Sinks.DoubleBuffer (Chunk)
open FlashLog.Sinks.ChunkKeys (Item Client Env)

/-- A running sink: the number of its construction, what the constructor generated, and the
buffer with the threads that use it. -/
structure Process (T : Type) where
  lifetime : Nat
  client : Client
  sink : LockedBuffer.Sink T Item

structure Directory (T : Type) where
  lifetimes : Nat
  process : Option (Process T)
  /-- the chunks of earlier objects -/
  past : List (Chunk Item Keys)

/-- `Log` is called with a text, as the formatter leaves it. -/
inductive Label (T : Type)
  | construct (t : T)
  | log (t : T) (text : Bytes)
  | flush (t : T)
  | thread (t : T) (filled : Bool)
  | exit
  deriving DecidableEq

variable {T σ μ : Type}

def empty : Directory T := ⟨0, none, []⟩

def encrypted (E : Env σ μ) (client : Client) (n : Nat) (text : Bytes) : Option Item :=
  let data := client.crypto.encrypt E.lib text
  if data.isEmpty then none else some ⟨data, text, n, false⟩

def Process.chunk (p : Process T) (e : Handoff.Emission Item) : Chunk Item Keys :=
  ⟨p.client.keys, e.sized, e.payload⟩

def Process.written (p : Process T) : List (Chunk Item Keys) := p.sink.written.map p.chunk

def Directory.chunks (d : Directory T) : List (Chunk Item Keys) :=
  d.past ++ (d.process.map Process.written).getD []

variable [DecidableEq T]

def Directory.act (d : Directory T) (a : LockedBuffer.Label T Item) : Option (Directory T) :=
  d.process.bind fun p =>
    (LockedBuffer.step p.sink a).map fun sink => { d with process := some { p with sink } }

def step (E : Env σ μ) (d : Directory T) : Label T → Option (Directory T)
  | .construct t =>
    match d.process with
    | some _ => none
    | none =>
      some { d with
        lifetimes := d.lifetimes + 1
        process := (E.client d.lifetimes).map fun client =>
          ⟨d.lifetimes, client, LockedBuffer.initial t []⟩ }
  | .log t text =>
    d.process.bind fun p =>
      match encrypted E p.client p.lifetime text with
      | none => some d
      | some x => d.act (.log t x)
  | .flush t => d.act (.flush t)
  | .thread t filled => d.act (.thread t filled)
  | .exit => d.process.map fun p => { d with process := none, past := d.past ++ p.written }

def emission (d : Directory T) : Label T → Option (Chunk Item Keys)
  | .thread t filled =>
    d.process.bind fun p => (LockedBuffer.emission p.sink (.thread t filled)).map p.chunk
  | _ => none

inductive Outcome (E : Env σ μ) (d : Directory T) : Label T → Directory T → Prop
  | started (t : T) : d.process = none → Outcome E d (.construct t) { d with
      lifetimes := d.lifetimes + 1
      process := (E.client d.lifetimes).map fun client =>
        ⟨d.lifetimes, client, LockedBuffer.initial t []⟩ }
  | dropped (t : T) (text : Bytes) : Outcome E d (.log t text) d
  | acted (l : Label T) (a : LockedBuffer.Label T Item) (p : Process T)
      (sink : LockedBuffer.Sink T Item) : d.process = some p →
      LockedBuffer.step p.sink a = some sink →
      (∀ t x, a = .log t x → x.lifetime = p.lifetime ∧
        x.data = p.client.crypto.encrypt E.lib x.given) →
      emission d l = (LockedBuffer.emission p.sink a).map p.chunk →
      Outcome E d l { d with process := some { p with sink } }
  | ended (p : Process T) : d.process = some p →
      Outcome E d .exit { d with process := none, past := d.past ++ p.written }

theorem act_cases {d next : Directory T} {a : LockedBuffer.Label T Item}
    (h : d.act a = some next) : ∃ p sink, d.process = some p ∧
      LockedBuffer.step p.sink a = some sink ∧
      next = { d with process := some { p with sink } } := by
  obtain ⟨p, hp, h⟩ := Option.bind_eq_some_iff.mp h
  obtain ⟨sink, hsink, rfl⟩ := Option.map_eq_some_iff.mp h
  exact ⟨p, sink, hp, hsink, rfl⟩

theorem outcome_of_step {E : Env σ μ} {d next : Directory T} {l : Label T}
    (h : step E d l = some next) : Outcome E d l next := by
  cases l with
  | construct t =>
    cases hprocess : d.process with
    | some p => simp [step, hprocess] at h
    | none =>
      simp only [step, hprocess] at h
      obtain rfl := Option.some.inj h
      exact .started t hprocess
  | log t text =>
    obtain ⟨p, hp, h⟩ := Option.bind_eq_some_iff.mp h
    split at h
    · obtain rfl := Option.some.inj h
      exact .dropped t text
    · rename_i x hx
      obtain ⟨q, sink, hq, hsink, rfl⟩ := act_cases h
      obtain rfl := Option.some.inj (hp.symm.trans hq)
      refine .acted _ (.log t x) p sink hp hsink ?_ rfl
      rintro t' x' same
      cases same
      unfold encrypted at hx
      obtain ⟨-, hx⟩ := Option.ite_none_left_eq_some.mp hx
      obtain rfl := Option.some.inj hx
      exact ⟨rfl, rfl⟩
  | flush t =>
    obtain ⟨p, sink, hp, hsink, rfl⟩ := act_cases h
    exact .acted _ (.flush t) p sink hp hsink (fun _ _ same => by cases same) rfl
  | thread t filled =>
    obtain ⟨p, sink, hp, hsink, rfl⟩ := act_cases h
    refine .acted _ (.thread t filled) p sink hp hsink (fun _ _ same => by cases same) ?_
    rw [emission, hp, Option.bind_some]
  | exit =>
    obtain ⟨p, hp, rfl⟩ := Option.map_eq_some_iff.mp h
    exact .ended p hp

theorem chunks_step {E : Env σ μ} {d next : Directory T} {l : Label T}
    (h : step E d l = some next) : next.chunks = d.chunks ++ (emission d l).toList := by
  cases outcome_of_step h with
  | started t hprocess =>
    simp only [Directory.chunks, hprocess, emission]
    cases E.client d.lifetimes <;> simp [Process.written, LockedBuffer.initial]
  | dropped t text => simp [emission]
  | acted l a p sink hprocess hsink made hemission =>
    rw [hemission]
    simp only [Directory.chunks, hprocess, Option.map_some, Option.getD_some, Process.written,
      LockedBuffer.written_step hsink, List.map_append, List.append_assoc]
    cases LockedBuffer.emission p.sink a <;> rfl
  | ended p hprocess => simp [Directory.chunks, hprocess, emission]

end FlashLog.Sinks.CryptoSink
