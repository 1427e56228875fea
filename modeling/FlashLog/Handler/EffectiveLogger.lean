import FlashLog.Formatter.EffectiveFormatter
import FlashLog.Sinks.StreamedOutputs

/-!
A `LogHandle` with one `EffectiveSink`, as the example sets it up: a call goes through the macro,
the level filter and the formatter before it reaches the sink. A run of the handle is the run of
its sink on the calls that pass.
-/

set_option autoImplicit false
set_option relaxedAutoImplicit false

namespace FlashLog.Handler

open FlashLog.Support FlashLog.Sinks
open FlashLog.Support.Machine (run Meets run_cons run_nil)
open FlashLog.Decode.DecodeFormatter (EffectiveMsg)
open FlashLog.Formatter (Protobuf Moment effectiveMsg)
open FlashLog.Sinks.ItemStream (Env)
open FlashLog.Sinks.AtomicCalls (Label)

variable {E : Env}

/-- A statement of the program: a macro with its place and its text, a new level, a flush, or a
task that the sink's executor runs. -/
inductive Event
  | call (statement : LogMacro) (file : StringView) (line : UInt32) (function : StringView)
      (text : StringView) (moment : Moment) (filled : Bool)
  | setLevel (level : LogLevel)
  | flush (io io' : Io)
  | cacheToFile (io : Io)

section Model

variable (pb : Protobuf) (conf : Conf) (keys : Keys) (page activeLevel : Nat)

/-- `Log` of the sink: the formatted message goes on to the compressor. -/
def sinkLog (moment : Moment) (filled : Bool) (msg : LogMsg) (sink : AtomicCalls.Sink E) :
    Option (AtomicCalls.Sink E) :=
  AtomicCalls.step conf keys page sink (.log (Formatter.format pb msg moment) filled)

def step (handle : LogHandle (AtomicCalls.Sink E)) :
    Event → Option (LogHandle (AtomicCalls.Sink E))
  | .call statement file line function text moment filled =>
    (statement.expand activeLevel (sinkLog pb conf keys page moment filled) file line function text
      (some handle)).bind id
  | .setLevel level => some (handle.setLevel level)
  | .flush io io' =>
    handle.flush fun sink => AtomicCalls.step conf keys page sink (.flush io io')
  | .cacheToFile io => do
    let sinks ← handle.sinks.mapM fun sink =>
      AtomicCalls.step conf keys page sink (.cacheToFile io)
    return { handle with sinks }

end Model

def message (statement : LogMacro) (file : StringView) (line : UInt32) (function : StringView)
    (text : StringView) : LogMsg :=
  ⟨statement.level, LogSourceLoc.new file line function, text⟩

/-- A statement is compiled in, and its level passes the filter. -/
def Passes (activeLevel : Nat) (level : LogLevel) (statement : LogMacro) : Prop :=
  activeLevel ≤ statement.threshold ∧ level.toNat ≤ statement.level.toNat

instance (activeLevel : Nat) (level : LogLevel) (statement : LogMacro) :
    Decidable (Passes activeLevel level statement) :=
  inferInstanceAs (Decidable (_ ∧ _))

def accepted (activeLevel : Nat) : LogLevel → List Event → List EffectiveMsg
  | _, [] => []
  | level, .call statement file line function text moment _ :: events =>
    if Passes activeLevel level statement then
      effectiveMsg (message statement file line function text) moment ::
        accepted activeLevel level events
    else accepted activeLevel level events
  | _, .setLevel level :: events => accepted activeLevel level events
  | level, .flush _ _ :: events => accepted activeLevel level events
  | level, .cacheToFile _ :: events => accepted activeLevel level events

def calls (pb : Protobuf) (activeLevel : Nat) : LogLevel → List Event → List Label
  | _, [] => []
  | level, .call statement file line function text moment filled :: events =>
    if Passes activeLevel level statement then
      .log (Formatter.format pb (message statement file line function text) moment) filled ::
        calls pb activeLevel level events
    else calls pb activeLevel level events
  | _, .setLevel level :: events => calls pb activeLevel level events
  | level, .flush io io' :: events => .flush io io' :: calls pb activeLevel level events
  | level, .cacheToFile io :: events => .cacheToFile io :: calls pb activeLevel level events

def levelAfter : LogLevel → List Event → LogLevel
  | level, [] => level
  | _, .setLevel level :: events => levelAfter level events
  | level, _ :: events => levelAfter level events

section Runs

variable {pb : Protobuf} {conf : Conf} {keys : Keys} {page activeLevel : Nat}

def single (level : LogLevel) (sink : AtomicCalls.Sink E) : LogHandle (AtomicCalls.Sink E) :=
  ⟨[sink], level⟩

theorem mapM_single {α : Type} (f : α → Option α) (a : α) :
    [a].mapM f = (f a).map fun b => [b] := by
  rw [List.mapM_cons]
  cases f a <;> rfl

theorem call_passes {level : LogLevel} {statement : LogMacro} {sink : AtomicCalls.Sink E}
    {file function text : StringView} {line : UInt32} {moment : Moment} {filled : Bool}
    (passes : Passes activeLevel level statement) :
    step pb conf keys page activeLevel (single level sink)
        (.call statement file line function text moment filled) =
      (AtomicCalls.step conf keys page sink (.log
        (Formatter.format pb (message statement file line function text) moment) filled)).map
          (single level) := by
  have should : (single level sink).shouldLog statement.level = true := decide_eq_true passes.2
  simp only [step, LogMacro.expand, if_pos passes.1, LogHandle.log, if_pos should,
    LogHandle.logMsg]
  rw [show (single level sink).sinks = [sink] from rfl, mapM_single]
  simp only [sinkLog, message]
  cases AtomicCalls.step conf keys page sink (.log
      (Formatter.format pb ⟨statement.level, LogSourceLoc.new file line function, text⟩ moment)
      filled) <;> rfl

theorem call_filtered {level : LogLevel} {statement : LogMacro} {sink : AtomicCalls.Sink E}
    {file function text : StringView} {line : UInt32} {moment : Moment} {filled : Bool}
    (filtered : ¬ Passes activeLevel level statement) :
    step pb conf keys page activeLevel (single level sink)
        (.call statement file line function text moment filled) = some (single level sink) := by
  by_cases compiled : activeLevel ≤ statement.threshold
  · have low : ¬ (single level sink).shouldLog statement.level = true := by
      intro should
      exact filtered ⟨compiled, of_decide_eq_true should⟩
    simp only [step, LogMacro.expand, if_pos compiled, LogHandle.log, if_neg low]
    rfl
  · simp only [step, LogMacro.expand, if_neg compiled]
    rfl

theorem run_single (level : LogLevel) (sink : AtomicCalls.Sink E) (events : List Event) :
    run (step pb conf keys page activeLevel) (single level sink) events =
      (run (AtomicCalls.step conf keys page) sink (calls pb activeLevel level events)).map
        (single (levelAfter level events)) := by
  induction events generalizing level sink with
  | nil => rfl
  | cons event events ih =>
    -- a label of the sink, and the rest of the run behind it
    have behind : ∀ (label : Label),
        step pb conf keys page activeLevel (single level sink) event =
          (AtomicCalls.step conf keys page sink label).map (single level) →
        run (step pb conf keys page activeLevel) (single level sink) (event :: events) =
          (run (AtomicCalls.step conf keys page) sink
            (label :: calls pb activeLevel level events)).map
              (single (levelAfter level events)) := by
      intro label hstep
      rw [run_cons, hstep, run_cons]
      cases AtomicCalls.step conf keys page sink label with
      | none => rfl
      | some next => exact ih level next
    cases event with
    | call statement file line function text moment filled =>
      rw [calls]
      split
      · rename_i passes
        exact behind _ (call_passes passes)
      · rename_i filtered
        rw [run_cons, call_filtered filtered, Option.bind_some]
        exact ih level sink
    | setLevel next =>
      rw [run_cons]
      exact ih next sink
    | flush io io' =>
      refine behind (.flush io io') ?_
      rw [step, LogHandle.flush, show (single level sink).sinks = [sink] from rfl, mapM_single]
      cases AtomicCalls.step conf keys page sink (.flush io io') <;> rfl
    | cacheToFile io =>
      refine behind (.cacheToFile io) ?_
      rw [step, show (single level sink).sinks = [sink] from rfl, mapM_single]
      cases AtomicCalls.step conf keys page sink (.cacheToFile io) <;> rfl

theorem texts_calls (level : LogLevel) (events : List Event) :
    (calls pb activeLevel level events).flatMap Label.texts =
      (accepted activeLevel level events).map pb.serialize := by
  induction events generalizing level with
  | nil => rfl
  | cons event events ih =>
    cases event with
    | call statement file line function text moment filled =>
      rw [calls, accepted]
      split
      · rw [List.flatMap_cons, List.map_cons, ih]
        rfl
      · exact ih level
    | setLevel next => exact ih next
    | flush io io' =>
      rw [calls, List.flatMap_cons, ih]
      rfl
    | cacheToFile io =>
      rw [calls, List.flatMap_cons, ih]
      rfl

theorem calls_flush (level : LogLevel) (events : List Event) (io io' : Io) :
    calls pb activeLevel level (events ++ [.flush io io']) =
      calls pb activeLevel level events ++ [.flush io io'] := by
  induction events generalizing level with
  | nil => rfl
  | cons event events ih =>
    cases event with
    | call statement file line function text moment filled =>
      rw [List.cons_append, calls, calls]
      split
      · rw [ih, List.cons_append]
      · exact ih level
    | setLevel next => exact ih next
    | flush io io' => exact congrArg (_ :: ·) (ih level)
    | cacheToFile io => exact congrArg (_ :: ·) (ih level)

end Runs

end FlashLog.Handler
