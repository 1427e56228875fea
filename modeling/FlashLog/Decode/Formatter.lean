import FlashLog.Support.Bytes

/-!
The decoder's `DecodeFormatter`: a pattern is parsed once into a list of formatters, each of
which appends a field of the message, or text of the pattern, to the output.
-/

set_option autoImplicit false
set_option relaxedAutoImplicit false

namespace FlashLog.Decode.DecodeFormatter

open FlashLog.Support

def text (s : String) : Bytes := s.toList.map Char.toUInt8

def percent : UInt8 := '%'.toUInt8

structure EffectiveMsg where
  level : Int
  timestamp : Int
  pid : Int
  tid : Int
  line : Int
  fileName : Bytes
  funcName : Bytes
  logInfo : Bytes

def getLevelStr (level : Int) : Bytes :=
  match level with
  | 0 => text "V"
  | 1 => text "D"
  | 2 => text "I"
  | 3 => text "W"
  | 4 => text "E"
  | 5 => text "F"
  | _ => text "U"

inductive FlagFormatter
  | aggregate (str : Bytes)
  | logLevel
  | timestampDate
  | timestampSeconds
  | timestampMilliseconds
  | processId
  | threadId
  | line
  | fileName
  | funcName
  | logInfo
  deriving DecidableEq

def getFormatterByFlag (flag : UInt8) : FlagFormatter :=
  match Char.ofUInt8 flag with
  | 'l' => .logLevel
  | 'D' => .timestampDate
  | 'S' => .timestampSeconds
  | 'M' => .timestampMilliseconds
  | 'p' => .processId
  | 't' => .threadId
  | '#' => .line
  | 'F' => .fileName
  | 'f' => .funcName
  | 'v' => .logInfo
  | _ => .aggregate [percent, flag]

/-- Hand the pending characters over to the list, if there are any. -/
def pushUserChars (formatters : List FlagFormatter) (userChars : Option Bytes) :
    List FlagFormatter :=
  match userChars with
  | none => formatters
  | some str => formatters ++ [.aggregate str]

def parseLoop (formatters : List FlagFormatter) (userChars : Option Bytes) :
    Bytes → List FlagFormatter × Option Bytes
  | [] => (formatters, userChars)
  | c :: rest =>
    if c = percent then
      match rest with
      -- the `break` at the end of the pattern
      | [] => (pushUserChars formatters userChars, none)
      | flag :: rest =>
        parseLoop (pushUserChars formatters userChars ++ [getFormatterByFlag flag]) none rest
    else
      parseLoop formatters (some (userChars.getD [] ++ [c])) rest

/-- `ParsePattern` clears the list that an earlier pattern has left. -/
def parsePattern (pattern : Bytes) : List FlagFormatter :=
  let parsed := parseLoop [] none pattern
  pushUserChars parsed.1 parsed.2

/-- `SetPattern`, upon the formatters of the pattern before. -/
def setPattern (_ : List FlagFormatter) (pattern : Bytes) : List FlagFormatter :=
  parsePattern pattern

/-- What `%s` prints of a string. -/
def cString (bs : Bytes) : Bytes := bs.takeWhile (· ≠ 0)

/-- `std::to_string`, and what `%d` and `%lld` print. -/
def decimal (n : Int) : Bytes := text (toString n)

/-- `CombineLogMsg`: `snprintf` keeps 1023 characters. -/
def combineLogMsg (msg : EffectiveMsg) : Bytes :=
  (text "[" ++ decimal msg.level ++ text "][" ++ decimal msg.timestamp ++ text "][" ++
    decimal msg.pid ++ text ":" ++ decimal msg.tid ++ text "][" ++ cString msg.fileName ++
    text ":" ++ cString msg.funcName ++ text ":" ++ decimal msg.line ++ text "]").take 1023 ++
  msg.logInfo

section Format

-- `MillisecondsToDateString` reads the local time with the C library.
variable (millisecondsToDateString : Int → Bytes) (msg : EffectiveMsg)

def FlagFormatter.output : FlagFormatter → Bytes
  | .aggregate str => str
  | .logLevel => getLevelStr msg.level
  | .timestampDate => millisecondsToDateString msg.timestamp
  | .timestampSeconds => decimal (msg.timestamp.tdiv 1000)
  | .timestampMilliseconds => decimal msg.timestamp
  | .processId => decimal msg.pid
  | .threadId => decimal msg.tid
  | .line => decimal msg.line
  | .fileName => msg.fileName
  | .funcName => msg.funcName
  | .logInfo => msg.logInfo

def format (formatters : List FlagFormatter) (dest : Bytes) : Bytes :=
  if !formatters.isEmpty then
    formatters.foldl (fun dest formatter => dest ++ formatter.output millisecondsToDateString msg)
      dest
  else
    dest ++ combineLogMsg msg

def field (flag : UInt8) : Option Bytes :=
  match Char.ofUInt8 flag with
  | 'l' => some (getLevelStr msg.level)
  | 'D' => some (millisecondsToDateString msg.timestamp)
  | 'S' => some (decimal (msg.timestamp.tdiv 1000))
  | 'M' => some (decimal msg.timestamp)
  | 'p' => some (decimal msg.pid)
  | 't' => some (decimal msg.tid)
  | '#' => some (decimal msg.line)
  | 'F' => some msg.fileName
  | 'f' => some msg.funcName
  | 'v' => some msg.logInfo
  | _ => none

/-- A pattern read from left to right: each percent sign with a flag becomes the field, all else
is copied. -/
def substitute : Bytes → Bytes
  | [] => []
  | [c] => [c]
  | c :: d :: rest =>
    if c = percent then
      (field millisecondsToDateString msg d).getD [c, d] ++ substitute rest
    else
      c :: substitute (d :: rest)

end Format

/-- A percent sign that no character follows, once all others are paired. -/
def unpaired : Bytes → Bytes
  | [] => []
  | [c] => if c = percent then [c] else []
  | c :: d :: rest => if c = percent then unpaired rest else unpaired (d :: rest)

section Substitution

variable {millisecondsToDateString : Int → Bytes} {msg : EffectiveMsg}

theorem output_getFormatterByFlag (flag : UInt8) :
    (getFormatterByFlag flag).output millisecondsToDateString msg =
      (field millisecondsToDateString msg flag).getD [percent, flag] := by
  rw [getFormatterByFlag, field]
  split <;> rfl

variable (millisecondsToDateString msg) in
def rendered (formatters : List FlagFormatter) : Bytes :=
  formatters.flatMap fun formatter => formatter.output millisecondsToDateString msg

theorem rendered_append (formatters formatters' : List FlagFormatter) :
    rendered millisecondsToDateString msg (formatters ++ formatters') =
      rendered millisecondsToDateString msg formatters ++
        rendered millisecondsToDateString msg formatters' :=
  List.flatMap_append

theorem rendered_pushUserChars (formatters : List FlagFormatter) (userChars : Option Bytes) :
    rendered millisecondsToDateString msg (pushUserChars formatters userChars) =
      rendered millisecondsToDateString msg formatters ++ userChars.getD [] := by
  cases userChars with
  | none => exact (List.append_nil _).symm
  | some str =>
    rw [pushUserChars, rendered_append]
    exact congrArg _ (List.append_nil str)

theorem format_eq {formatters : List FlagFormatter} (filled : formatters ≠ []) (dest : Bytes) :
    format millisecondsToDateString msg formatters dest =
      dest ++ rendered millisecondsToDateString msg formatters := by
  have hfilled : (!formatters.isEmpty) = true := by
    rw [Bool.not_eq_true', List.isEmpty_eq_false_iff]
    exact filled
  rw [format, if_pos hfilled, rendered, List.foldl_append_eq_append, List.flatMap]

theorem substitute_percent (flag : UInt8) (rest : Bytes) :
    substitute millisecondsToDateString msg (percent :: flag :: rest) =
      (getFormatterByFlag flag).output millisecondsToDateString msg ++
        substitute millisecondsToDateString msg rest := by
  rw [substitute, if_pos rfl, output_getFormatterByFlag]

theorem substitute_other {c : UInt8} (other : c ≠ percent) (rest : Bytes) :
    substitute millisecondsToDateString msg (c :: rest) =
      c :: substitute millisecondsToDateString msg rest := by
  cases rest with
  | nil => rfl
  | cons d rest => rw [substitute, if_neg other]

theorem unpaired_percent (flag : UInt8) (rest : Bytes) :
    unpaired (percent :: flag :: rest) = unpaired rest := by
  rw [unpaired, if_pos rfl]

theorem unpaired_other {c : UInt8} (other : c ≠ percent) (rest : Bytes) :
    unpaired (c :: rest) = unpaired rest := by
  cases rest with
  | nil => exact if_neg other
  | cons d rest => rw [unpaired, if_neg other]

theorem rendered_parseLoop (formatters : List FlagFormatter) (userChars : Option Bytes)
    (pattern : Bytes) :
    rendered millisecondsToDateString msg (pushUserChars
        (parseLoop formatters userChars pattern).1 (parseLoop formatters userChars pattern).2) ++
        unpaired pattern =
      rendered millisecondsToDateString msg formatters ++ userChars.getD [] ++
        substitute millisecondsToDateString msg pattern := by
  fun_induction parseLoop formatters userChars pattern with
  | case1 formatters userChars =>
    rw [rendered_pushUserChars]
    rfl
  | case2 formatters userChars =>
    rw [pushUserChars, rendered_pushUserChars]
    rfl
  | case3 formatters userChars flag rest ih =>
    rw [unpaired_percent, substitute_percent, ih, rendered_append, rendered_pushUserChars]
    simp only [rendered, List.flatMap_singleton, Option.getD_none, List.append_nil,
      List.append_assoc]
  | case4 formatters userChars c rest other ih =>
    rw [unpaired_other other, substitute_other other, ih]
    simp only [Option.getD_some, List.append_assoc, List.singleton_append]

theorem rendered_parsePattern (pattern : Bytes) :
    rendered millisecondsToDateString msg (parsePattern pattern) ++ unpaired pattern =
      substitute millisecondsToDateString msg pattern :=
  rendered_parseLoop [] none pattern

omit millisecondsToDateString msg in
theorem parseLoop_filled {formatters : List FlagFormatter} {userChars : Option Bytes}
    (filled : pushUserChars formatters userChars ≠ []) (pattern : Bytes) :
    pushUserChars (parseLoop formatters userChars pattern).1
      (parseLoop formatters userChars pattern).2 ≠ [] := by
  fun_induction parseLoop formatters userChars pattern with
  | case1 formatters userChars => exact filled
  | case2 formatters userChars => exact filled
  | case3 formatters userChars flag rest ih => exact ih (List.append_ne_nil_of_right_ne_nil _ nofun)
  | case4 formatters userChars c rest other ih =>
    exact ih (List.append_ne_nil_of_right_ne_nil _ nofun)

theorem parsePattern_filled {pattern : Bytes} (nonempty : pattern ≠ [])
    (more : pattern ≠ [percent]) : parsePattern pattern ≠ [] := by
  cases pattern with
  | nil => exact absurd rfl nonempty
  | cons c rest =>
    by_cases at_percent : c = percent
    · subst at_percent
      cases rest with
      | nil => exact absurd rfl more
      | cons flag rest =>
        have first : pushUserChars [getFormatterByFlag flag] none ≠ [] := List.cons_ne_nil _ _
        exact parseLoop_filled first rest
    · have first : pushUserChars [] (some [c]) ≠ [] := List.cons_ne_nil _ _
      have next : parseLoop [] none (c :: rest) = parseLoop [] (some [c]) rest := by
        conv_lhs => unfold parseLoop
        exact if_neg at_percent
      rw [parsePattern, next]
      exact parseLoop_filled first rest

theorem combineLogMsg_ne (msg : EffectiveMsg) : combineLogMsg msg ≠ [percent] := by
  intro h
  have bracket : text "[" = [91] := rfl
  simp only [combineLogMsg, bracket, List.append_assoc,
    List.take_succ_cons, List.cons_append] at h
  have first : 91 = percent := (List.cons.inj h).1
  exact absurd first (by decide)

/-- After any earlier patterns, a pattern is formatted as the substitution says if and only if no
percent sign is left unpaired at its end. -/
theorem format_setPattern_iff (earlier : List Bytes) (pattern : Bytes) (nonempty : pattern ≠ [])
    (millisecondsToDateString : Int → Bytes) (msg : EffectiveMsg) (dest : Bytes) :
    format millisecondsToDateString msg (setPattern (earlier.foldl setPattern []) pattern) dest =
        dest ++ substitute millisecondsToDateString msg pattern ↔
      unpaired pattern = [] := by
  have parsed : setPattern (earlier.foldl setPattern []) pattern = parsePattern pattern := rfl
  rw [parsed]
  by_cases lone : pattern = [percent]
  · subst lone
    constructor
    · intro heq
      exact absurd (List.append_cancel_left heq) (combineLogMsg_ne msg)
    · intro paired
      exact absurd paired (by decide)
  · rw [format_eq (parsePattern_filled nonempty lone), List.append_cancel_left_eq,
      ← rendered_parsePattern]
    exact List.self_eq_append_right

end Substitution

def blank : EffectiveMsg := ⟨2, 0, 1, 1, 7, [], [], []⟩

example : substitute (fun _ => []) blank (text "%%l %l 5%") = text "%%l I 5%" := by decide

theorem format_setPattern_levels :
    format (fun _ => []) blank (setPattern ([text "%"].foldl setPattern []) (text "%%l %l")) [] =
      [] ++ substitute (fun _ => []) blank (text "%%l %l") := by
  exact (format_setPattern_iff [text "%"] (text "%%l %l") (by decide) (fun _ => []) blank []).mpr
    (by decide)

/-- A percent sign at the end is lost; a pattern of nothing else prints the whole message. -/
theorem format_loses_percent :
    format (fun _ => []) blank (setPattern [] (text "5%")) [] = text "5" ∧
      substitute (fun _ => []) blank (text "5%") = text "5%" ∧
      format (fun _ => []) blank (setPattern [] (text "%")) [] = text "[2][0][1:1][::7]" ∧
      substitute (fun _ => []) blank (text "%") = text "%" ∧
      format (fun _ => []) blank (setPattern [] (text "5%")) [] ≠
        [] ++ substitute (fun _ => []) blank (text "5%") := by
  decide

end FlashLog.Decode.DecodeFormatter
