import FlashLog.Handler.LogHandle
import FlashLog.Sinks.LockedCalls
import FlashLog.Support.Shuffle

/-!
One `LogHandle` that many threads use at once. `Log` reads the atomic level and then goes through
the sinks, and so does `Flush`; nothing in the handle keeps the threads apart, so they meet only
at the locks of the sinks. The sinks are those with one lock and one buffer: `MMapSink`, and where
only the locks count `SimpleSink`, `ProtobufSink` and `CryptoSink` too, whose `MemoryBuffer` keeps
of an item no more than its length.
-/

set_option autoImplicit false
set_option relaxedAutoImplicit false

namespace FlashLog.Handler.Shared

open FlashLog.Support
open FlashLog.Sinks

inductive Pc
  | idle
  /-- `Log` with `ShouldLog` still to come -/
  | shouldLog (msg : LogMsg)
  /-- the loop of `Log_`, in front of sink `k` -/
  | log (msg : LogMsg) (k : Nat)
  /-- inside the `Log` of sink `k` -/
  | inLog (msg : LogMsg) (k : Nat)
  /-- the loop of `Flush`, in front of sink `k` -/
  | flush (k : Nat)
  /-- inside the `Flush` of sink `k` -/
  | inFlush (k : Nat)
  deriving DecidableEq

structure System (T ι : Type) where
  handle : LogHandle (LockedBuffer.Sink T ι)
  pc : T → Pc
  /-- the messages that `ShouldLog` let through, in order -/
  accepted : List (T × LogMsg)

inductive Label (T : Type)
  | setLevel (level : LogLevel)
  | log (t : T) (msg : LogMsg)
  | flush (t : T)
  | thread (t : T) (filled : Bool)

variable {T ι : Type} [DecidableEq T]

def System.goto (s : System T ι) (t : T) (pc : Pc) : System T ι :=
  { s with pc := Function.update s.pc t pc }

def System.setSink (s : System T ι) (k : Nat) (sink : LockedBuffer.Sink T ι) : System T ι :=
  { s with handle := { s.handle with sinks := s.handle.sinks.set k sink } }

def returned (sink : LockedBuffer.Sink T ι) (t : T) : Bool :=
  match sink.pc t with
  | .idle => true
  | _ => false

/-- A thread inside a call of sink `k` makes a step there and goes to `after` when it returns. -/
def System.inside (s : System T ι) (t : T) (k : Nat) (filled : Bool) (here after : Pc) :
    Option (System T ι) := do
  let sink ← s.handle.sinks[k]?
  let next ← LockedBuffer.step sink (.thread t filled)
  return (s.setSink k next).goto t (if returned next t then after else here)

/-- The next step of thread `t`. `encode k` is what the formatter and the cipher of sink `k` make
of a message; a sink whose cipher returns nothing leaves the message out. -/
def threadStep (encode : Nat → LogMsg → Option ι) (s : System T ι) (t : T) (filled : Bool) :
    Option (System T ι) :=
  match s.pc t with
  | .idle => none
  | .shouldLog msg =>
    if s.handle.shouldLog msg.level then
      some { s.goto t (.log msg 0) with accepted := s.accepted ++ [(t, msg)] }
    else some (s.goto t .idle)
  | .log msg k =>
    match s.handle.sinks[k]?, encode k msg with
    | none, _ => some (s.goto t .idle)
    | some _, none => some (s.goto t (.log msg (k + 1)))
    | some sink, some x =>
      (LockedBuffer.step sink (.log t x)).map fun next => (s.setSink k next).goto t (.inLog msg k)
  | .inLog msg k => s.inside t k filled (.inLog msg k) (.log msg (k + 1))
  | .flush k =>
    match s.handle.sinks[k]? with
    | none => some (s.goto t .idle)
    | some sink =>
      (LockedBuffer.step sink (.flush t)).map fun next => (s.setSink k next).goto t (.inFlush k)
  | .inFlush k => s.inside t k filled (.inFlush k) (.flush (k + 1))

/-- A thread calls the handle when it is in no other call. -/
def enter (s : System T ι) (t : T) (pc : Pc) : Option (System T ι) :=
  if s.pc t = .idle then some (s.goto t pc) else none

def step (encode : Nat → LogMsg → Option ι) (s : System T ι) : Label T → Option (System T ι)
  | .setLevel level => some { s with handle := s.handle.setLevel level }
  | .log t msg => enter s t (.shouldLog msg)
  | .flush t => enter s t (.flush 0)
  | .thread t filled => threadStep encode s t filled

/-- A handle over sinks that no thread is in a call of. -/
structure System.Fresh (s : System T ι) : Prop where
  idle : ∀ t, s.pc t = .idle
  accepted : s.accepted = []
  sinks : ∀ sink ∈ s.handle.sinks, sink.AtRest

section Steps

variable {encode : Nat → LogMsg → Option ι}

inductive Threaded (encode : Nat → LogMsg → Option ι) (s : System T ι) (t : T) :
    System T ι → Prop
  | accept (msg : LogMsg) : s.pc t = .shouldLog msg → s.handle.shouldLog msg.level = true →
      Threaded encode s t
        { s.goto t (.log msg 0) with accepted := s.accepted ++ [(t, msg)] }
  | reject (msg : LogMsg) : s.pc t = .shouldLog msg → s.handle.shouldLog msg.level = false →
      Threaded encode s t (s.goto t .idle)
  | logged (msg : LogMsg) (k : Nat) : s.pc t = .log msg k → s.handle.sinks[k]? = none →
      Threaded encode s t (s.goto t .idle)
  | dropped (msg : LogMsg) (k : Nat) (sink : LockedBuffer.Sink T ι) : s.pc t = .log msg k →
      s.handle.sinks[k]? = some sink → encode k msg = none →
      Threaded encode s t (s.goto t (.log msg (k + 1)))
  | log (msg : LogMsg) (k : Nat) (x : ι) (sink : LockedBuffer.Sink T ι) : s.pc t = .log msg k →
      s.handle.sinks[k]? = some sink → encode k msg = some x →
      Threaded encode s t ((s.setSink k (sink.goto t (.push x))).goto t (.inLog msg k))
  | inLog (msg : LogMsg) (k : Nat) (sink next : LockedBuffer.Sink T ι) (filled : Bool) :
      s.pc t = .inLog msg k → s.handle.sinks[k]? = some sink →
      LockedBuffer.step sink (.thread t filled) = some next →
      Threaded encode s t ((s.setSink k next).goto t
        (if returned next t then .log msg (k + 1) else .inLog msg k))
  | flushed (k : Nat) : s.pc t = .flush k → s.handle.sinks[k]? = none →
      Threaded encode s t (s.goto t .idle)
  | flush (k : Nat) (sink : LockedBuffer.Sink T ι) : s.pc t = .flush k →
      s.handle.sinks[k]? = some sink →
      Threaded encode s t ((s.setSink k (sink.goto t .lock)).goto t (.inFlush k))
  | inFlush (k : Nat) (sink next : LockedBuffer.Sink T ι) (filled : Bool) :
      s.pc t = .inFlush k → s.handle.sinks[k]? = some sink →
      LockedBuffer.step sink (.thread t filled) = some next →
      Threaded encode s t ((s.setSink k next).goto t
        (if returned next t then .flush (k + 1) else .inFlush k))

private theorem inside_eq_some {s next : System T ι} {t : T} {k : Nat} {filled : Bool}
    {here after : Pc} (h : s.inside t k filled here after = some next) :
    ∃ sink sink', s.handle.sinks[k]? = some sink ∧
      LockedBuffer.step sink (.thread t filled) = some sink' ∧
      next = (s.setSink k sink').goto t (if returned sink' t then after else here) := by
  obtain ⟨sink, hsink, h⟩ := Option.bind_eq_some_iff.mp h
  obtain ⟨sink', hstep, h⟩ := Option.bind_eq_some_iff.mp h
  exact ⟨sink, sink', hsink, hstep, (Option.some.inj h).symm⟩

theorem threaded_of_step {s next : System T ι} {t : T} {filled : Bool}
    (h : threadStep encode s t filled = some next) : Threaded encode s t next := by
  unfold threadStep at h
  split at h
  · cases h
  · rename_i msg hpc
    split at h
    · rename_i hlevel
      obtain rfl := Option.some.inj h
      exact .accept msg hpc hlevel
    · rename_i hlevel
      obtain rfl := Option.some.inj h
      exact .reject msg hpc (Bool.eq_false_iff.mpr hlevel)
  · rename_i msg k hpc
    split at h
    · rename_i hsink
      obtain rfl := Option.some.inj h
      exact .logged msg k hpc hsink
    · rename_i sink hsink hencode
      obtain rfl := Option.some.inj h
      exact .dropped msg k sink hpc hsink hencode
    · rename_i sink x hsink hencode
      obtain ⟨next', hstep, rfl⟩ := Option.map_eq_some_iff.mp h
      obtain ⟨-, -, rfl⟩ := LockedBuffer.enter_of_step hstep
      exact .log msg k x sink hpc hsink hencode
  · rename_i msg k hpc
    obtain ⟨sink, sink', hsink, hstep, rfl⟩ := inside_eq_some h
    exact .inLog msg k sink sink' filled hpc hsink hstep
  · rename_i k hpc
    split at h
    · rename_i hsink
      obtain rfl := Option.some.inj h
      exact .flushed k hpc hsink
    · rename_i sink hsink
      obtain ⟨next', hstep, rfl⟩ := Option.map_eq_some_iff.mp h
      obtain ⟨-, -, rfl⟩ := LockedBuffer.enter_of_step hstep
      exact .flush k sink hpc hsink
  · rename_i k hpc
    obtain ⟨sink, sink', hsink, hstep, rfl⟩ := inside_eq_some h
    exact .inFlush k sink sink' filled hpc hsink hstep

inductive Stepped (encode : Nat → LogMsg → Option ι) (s : System T ι) :
    Label T → System T ι → Prop
  | setLevel (level : LogLevel) :
      Stepped encode s (.setLevel level) { s with handle := s.handle.setLevel level }
  | log (t : T) (msg : LogMsg) : s.pc t = .idle →
      Stepped encode s (.log t msg) (s.goto t (.shouldLog msg))
  | flush (t : T) : s.pc t = .idle → Stepped encode s (.flush t) (s.goto t (.flush 0))
  | thread (t : T) (filled : Bool) (next : System T ι) : Threaded encode s t next →
      Stepped encode s (.thread t filled) next

theorem stepped_of_step {s next : System T ι} {a : Label T} (h : step encode s a = some next) :
    Stepped encode s a next := by
  cases a with
  | setLevel level =>
    obtain rfl := Option.some.inj h
    exact .setLevel level
  | log t msg =>
    obtain ⟨hpc, h⟩ := Option.ite_none_right_eq_some.mp h
    obtain rfl := Option.some.inj h
    exact .log t msg hpc
  | flush t =>
    obtain ⟨hpc, h⟩ := Option.ite_none_right_eq_some.mp h
    obtain rfl := Option.some.inj h
    exact .flush t hpc
  | thread t filled => exact .thread t filled next (threaded_of_step h)

end Steps

end FlashLog.Handler.Shared
