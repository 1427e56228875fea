import FlashLog.Decode.Formatter
import FlashLog.Handler.LogHandle
import FlashLog.Support.Delimited

/-!
`DefaultFormatter`, which every sink but `EffectiveSink` and `ProtobufSink` starts with: a message
becomes one text of bracketed fields, with the message at the end. The fields can be read back.
-/

set_option autoImplicit false
set_option relaxedAutoImplicit false

namespace FlashLog.Formatter.DefaultFormatter

open FlashLog.Support FlashLog.Handler
open FlashLog.Decode.DecodeFormatter (text)

/-- `kLogLevelStrp`, an array of characters with the zero that ends it. Its comment begins with
`debug`, but the first character stands for `kTrace`. -/
def kLogLevelStrp : Bytes := text "DIWEO" ++ [0]

/-- What `Format` reads when it is called: the system clock as `fmt` prints it, and
`GetProcessId` and `GetThreadId`. -/
structure Moment where
  now : Bytes
  pid : Nat
  tid : Nat

/-- `Format` appends to the buffer. The level `kOff` is read from outside the array. -/
def format (msg : LogMsg) (moment : Moment) (dest : Bytes) : Option Bytes :=
  (kLogLevelStrp[msg.level.toNat]?).map fun letter =>
    dest ++ (text "[" ++ moment.now ++ text "] [" ++ [letter] ++ text "] [" ++
      msg.location.fileName ++ text ":" ++ decimalDigits msg.location.line.toNat ++ text "] [" ++
      decimalDigits moment.pid ++ text ":" ++ decimalDigits moment.tid ++ text "] " ++ msg.message)

def levelOf (letter : UInt8) : Option LogLevel :=
  [LogLevel.kTrace, .kDebug, .kInfo, .kWarn, .kError, .kFatal].find? fun level =>
    kLogLevelStrp[level.toNat]? = some letter

structure Line where
  now : Bytes
  level : LogLevel
  fileName : Bytes
  line : Nat
  pid : Nat
  tid : Nat
  message : Bytes
  deriving DecidableEq

def colon : UInt8 := ':'.toUInt8

def bracket : UInt8 := ']'.toUInt8

/-- Each field ends at the next bracket or colon; the line number is behind the last colon of its
field. -/
def readLine (bs : Bytes) : Option Line := do
  let bs ← bs.dropPrefix? (text "[")
  let (now, bs) ← upTo bracket bs
  let bs ← bs.dropPrefix? (text " [")
  let (letters, bs) ← upTo bracket bs
  let level ← letters.head?.bind levelOf
  let bs ← bs.dropPrefix? (text " [")
  let (place, bs) ← upTo bracket bs
  let (fileName, line) ← upToLast colon place
  let line ← readDecimal line
  let bs ← bs.dropPrefix? (text " [")
  let (pid, bs) ← upTo colon bs
  let pid ← readDecimal pid
  let (tid, bs) ← upTo bracket bs
  let tid ← readDecimal tid
  let message ← bs.dropPrefix? (text " ")
  return ⟨now, level, fileName, line, pid, tid, message⟩

/-- The level has a character, and neither the clock nor the file name has a bracket in it. -/
structure Readable (msg : LogMsg) (moment : Moment) : Prop where
  level : msg.level ≠ .kOff
  now : bracket ∉ moment.now
  fileName : bracket ∉ msg.location.fileName

def shown (msg : LogMsg) (moment : Moment) : Line where
  now := moment.now
  level := msg.level
  fileName := msg.location.fileName
  line := msg.location.line.toNat
  pid := moment.pid
  tid := moment.tid
  message := msg.message

section Lines

variable {msg : LogMsg} {moment : Moment}

theorem levelOf_letter {level : LogLevel} (h : level ≠ .kOff) :
    ∃ letter, kLogLevelStrp[level.toNat]? = some letter ∧ letter ≠ bracket ∧
      levelOf letter = some level := by
  cases level with
  | kOff => exact absurd rfl h
  | _ => exact ⟨_, rfl, by decide, by decide⟩

theorem readLine_format (readable : Readable msg moment) :
    (format msg moment []).bind readLine = some (shown msg moment) := by
  obtain ⟨letter, hletter, plain, hlevel⟩ := levelOf_letter readable.level
  have digits (b : UInt8) (n : Nat) (h : isDecimalDigit b = false) := not_mem_decimalDigits h n
  have hline := digits colon msg.location.line.toNat rfl
  have hplace : bracket ∉
      msg.location.fileName ++ colon :: decimalDigits msg.location.line.toNat := by
    simp only [List.mem_append, List.mem_cons, not_or]
    exact ⟨readable.fileName, by decide, digits bracket _ rfl⟩
  have letters : bracket ∉ [letter] := by
    simpa using plain.symm
  have htext : format msg moment [] = some (text "[" ++ (moment.now ++ bracket ::
      (text " [" ++ ([letter] ++ bracket :: (text " [" ++
        ((msg.location.fileName ++ colon :: decimalDigits msg.location.line.toNat) ++ bracket ::
          (text " [" ++ (decimalDigits moment.pid ++ colon :: (decimalDigits moment.tid ++
            bracket :: (text " " ++ msg.message)))))))))) := by
    rw [format, hletter]
    simp [text, bracket, colon]
  rw [htext, Option.bind_some, readLine]
  simp only [dropPrefix?_append, upTo_append readable.now, upTo_append letters, upTo_append hplace,
    upToLast_append _ hline, hlevel, upTo_append (digits colon moment.pid rfl),
    upTo_append (digits bracket moment.tid rfl), readDecimal_decimalDigits, List.head?_cons, bind,
    Option.bind, pure]
  rfl

def Made (bs : Bytes) : Prop := ∃ msg moment, Readable msg moment ∧ format msg moment [] = some bs

theorem readLines_made {texts : List Bytes} (made : ∀ bs ∈ texts, Made bs) :
    ∃ entries : List (LogMsg × Moment), (∀ e ∈ entries, Readable e.1 e.2) ∧
      entries.map (fun e => format e.1 e.2 []) = texts.map some ∧
      texts.mapM readLine = some (entries.map fun e => shown e.1 e.2) := by
  induction texts with
  | nil => exact ⟨[], nofun, rfl, rfl⟩
  | cons bs texts ih =>
    obtain ⟨msg, moment, readable, hformat⟩ := made bs List.mem_cons_self
    obtain ⟨entries, readables, hformats, hlines⟩ :=
      ih fun bs hbs => made bs (List.mem_cons_of_mem _ hbs)
    have hline := readLine_format readable
    rw [hformat, Option.bind_some] at hline
    refine ⟨(msg, moment) :: entries, List.forall_mem_cons.mpr ⟨readable, readables⟩, ?_, ?_⟩
    · rw [List.map_cons, List.map_cons, hformat, hformats]
    · simp only [List.mapM_cons, hline, hlines, bind, Option.bind, pure, List.map_cons]

end Lines

end FlashLog.Formatter.DefaultFormatter
