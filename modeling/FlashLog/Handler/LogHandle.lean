import FlashLog.Support.Bytes

/-!
The front end: levels, source locations, `LogHandle` with its level filter and its list of sinks,
and the macros of `logger.h`. What a sink does with a message is a parameter.
-/

set_option autoImplicit false
set_option relaxedAutoImplicit false

namespace FlashLog.Handler

open FlashLog.Support

abbrev StringView := Bytes

inductive LogLevel
  | kTrace | kDebug | kInfo | kWarn | kError | kFatal | kOff
  deriving DecidableEq

/-- `LOGGER_LEVEL_TRACE` to `LOGGER_LEVEL_OFF`. -/
def LogLevel.toNat : LogLevel → Nat
  | .kTrace => 0
  | .kDebug => 1
  | .kInfo => 2
  | .kWarn => 3
  | .kError => 4
  | .kFatal => 5
  | .kOff => 6

def rfind (c : UInt8) : StringView → Option Nat
  | [] => none
  | b :: bs =>
    match rfind c bs with
    | some pos => some (pos + 1)
    | none => if b = c then some 0 else none

structure LogSourceLoc where
  fileName : StringView
  line : UInt32
  funcName : StringView
  deriving DecidableEq

def slash : UInt8 := '/'.toUInt8

def backslash : UInt8 := '\\'.toUInt8

namespace LogSourceLoc

def empty : LogSourceLoc := ⟨[], 0, []⟩

/-- The constructor takes the directories away. -/
def new (fileNameIn : StringView) (lineIn : UInt32) (funcNameIn : StringView) : LogSourceLoc :=
  if fileNameIn.isEmpty then ⟨fileNameIn, lineIn, funcNameIn⟩
  else
    match rfind slash fileNameIn with
    | some pos => ⟨fileNameIn.drop (pos + 1), lineIn, funcNameIn⟩
    | none =>
      match rfind backslash fileNameIn with
      | some pos => ⟨fileNameIn.drop (pos + 1), lineIn, funcNameIn⟩
      | none => ⟨fileNameIn, lineIn, funcNameIn⟩

end LogSourceLoc

structure LogMsg where
  level : LogLevel
  location : LogSourceLoc
  message : StringView
  deriving DecidableEq

structure LogHandle (Sink : Type) where
  sinks : List Sink
  level : LogLevel

namespace LogHandle

variable {Sink : Type}

/-- The constructor from one sink or from a list. -/
def new (sinks : List Sink) : LogHandle Sink := ⟨sinks, .kInfo⟩

def setLevel (handle : LogHandle Sink) (level : LogLevel) : LogHandle Sink := { handle with level }

def shouldLog (handle : LogHandle Sink) (level : LogLevel) : Bool :=
  decide (handle.level.toNat ≤ level.toNat)

variable {m : Type → Type} [Monad m]

/-- `Log_`. -/
def logMsg (log : LogMsg → Sink → m Sink) (msg : LogMsg) (handle : LogHandle Sink) :
    m (LogHandle Sink) := do
  let sinks ← handle.sinks.mapM (log msg)
  return { handle with sinks }

def log (log : LogMsg → Sink → m Sink) (level : LogLevel) (loc : LogSourceLoc)
    (msgStr : StringView) (handle : LogHandle Sink) : m (LogHandle Sink) :=
  if handle.shouldLog level then handle.logMsg log ⟨level, loc, msgStr⟩ else pure handle

def flush (flush : Sink → m Sink) (handle : LogHandle Sink) : m (LogHandle Sink) := do
  let sinks ← handle.sinks.mapM flush
  return { handle with sinks }

end LogHandle

/-- The macros with the level that each of them passes on; it is `kError` for `LOG_OFF`. -/
inductive LogMacro
  | logTrace | logDebug | logInfo | logWarn | logError | logCritical | logOff
  deriving DecidableEq

def LogMacro.level : LogMacro → LogLevel
  | .logTrace => .kTrace
  | .logDebug => .kDebug
  | .logInfo => .kInfo
  | .logWarn => .kWarn
  | .logError => .kError
  | .logCritical => .kFatal
  | .logOff => .kError

/-- The level that `LOGGER_ACTIVE_LEVEL` is compared with. -/
def LogMacro.threshold : LogMacro → Nat
  | .logTrace => 0
  | .logDebug => 1
  | .logInfo => 2
  | .logWarn => 3
  | .logError => 4
  | .logCritical => 5
  | .logOff => 6

section Macros

variable {Sink : Type} {m : Type → Type} [Monad m]

/-- A macro at a place of the program, through the handle that `LOGGER_INIT` has set; `text` is
what `fmt` makes of the arguments. -/
def LogMacro.expand (activeLevel : Nat) (log : LogMsg → Sink → m Sink) (call : LogMacro)
    (file : StringView) (line : UInt32) (function : StringView) (text : StringView) :
    Option (LogHandle Sink) → m (Option (LogHandle Sink))
  | none => pure none
  | some handle => do
    if activeLevel ≤ call.threshold then
      let handle ← handle.log log call.level (LogSourceLoc.new file line function) text
      return some handle
    else return some handle

end Macros

end FlashLog.Handler
