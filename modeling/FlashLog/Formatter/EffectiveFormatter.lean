import FlashLog.Decode.Formatter
import FlashLog.Handler.LogHandle

/-!
`EffectiveFormatter`: a message becomes a serialized `EffectiveMsg`. The code that the build
generates for `effective_msg.proto` is a parameter; `Protobuf.Documented` states what is promised
of it.
-/

set_option autoImplicit false
set_option relaxedAutoImplicit false

namespace FlashLog.Formatter

open FlashLog.Support FlashLog.Handler
open FlashLog.Decode.DecodeFormatter (EffectiveMsg)

/-- `SerializeToArray` into as many bytes as `ByteSizeLong` says, and `ParseFromString`: the
message, and whether it was complete. -/
structure Protobuf where
  serialize : EffectiveMsg → Bytes
  parse : Bytes → EffectiveMsg × Bool

def unset : EffectiveMsg := ⟨0, 0, 0, 0, 0, [], [], []⟩

def Utf8 (bs : Bytes) : Prop := (ByteArray.mk bs.toArray).IsValidUTF8

instance (bs : Bytes) : Decidable (Utf8 bs) :=
  inferInstanceAs (Decidable (ByteArray.mk bs.toArray).IsValidUTF8)

/-- The value is one of `int32_t`: the conversion to it leaves it as it is. -/
def IsInt32 (n : Int) : Prop := n.bmod Int32.size = n

def IsInt64 (n : Int) : Prop := n.bmod Int64.size = n

instance (n : Int) : Decidable (IsInt32 n) := inferInstanceAs (Decidable (_ = _))

instance (n : Int) : Decidable (IsInt64 n) := inferInstanceAs (Decidable (_ = _))

structure Typed (msg : EffectiveMsg) : Prop where
  level : IsInt32 msg.level
  timestamp : IsInt64 msg.timestamp
  pid : IsInt32 msg.pid
  tid : IsInt32 msg.tid
  line : IsInt32 msg.line
  fileName : Utf8 msg.fileName
  funcName : Utf8 msg.funcName
  logInfo : Utf8 msg.logInfo

/-- A message of less than 2 GiB is parsed as it was, and only fields that are set take space. -/
structure Protobuf.Documented (pb : Protobuf) : Prop where
  parse_serialize : ∀ msg, Typed msg → (pb.serialize msg).length < 2 ^ 31 →
    pb.parse (pb.serialize msg) = (msg, true)
  unset_of_empty : ∀ msg, Typed msg → pb.serialize msg = [] → msg = unset

def toInt32 (n : Nat) : Int := (n : Int).bmod Int32.size

/-- What the formatter reads when it is called: the system clock in milliseconds, and
`GetProcessId` and `GetThreadId`. -/
structure Moment where
  now : Int
  pid : Nat
  tid : Nat

def effectiveMsg (msg : LogMsg) (moment : Moment) : EffectiveMsg where
  level := msg.level.toNat
  timestamp := moment.now
  pid := toInt32 moment.pid
  tid := toInt32 moment.tid
  line := toInt32 msg.location.line.toNat
  fileName := msg.location.fileName
  funcName := msg.location.funcName
  logInfo := msg.message

/-- `Format`: the buffer is resized and filled. -/
def format (pb : Protobuf) (msg : LogMsg) (moment : Moment) : Bytes :=
  pb.serialize (effectiveMsg msg moment)

section Messages

variable {msg : LogMsg} {moment : Moment}

theorem isInt32_toInt32 (n : Nat) : IsInt32 (toInt32 n) := Int.bmod_bmod

theorem isInt32_level (level : LogLevel) : IsInt32 level.toNat := by
  cases level <;> decide

theorem typed_effectiveMsg (clock : IsInt64 moment.now) (fileName : Utf8 msg.location.fileName)
    (funcName : Utf8 msg.location.funcName) (message : Utf8 msg.message) :
    Typed (effectiveMsg msg moment) where
  level := isInt32_level msg.level
  timestamp := clock
  pid := by simp only [effectiveMsg, isInt32_toInt32]
  tid := by simp only [effectiveMsg, isInt32_toInt32]
  line := by simp only [effectiveMsg, isInt32_toInt32]
  fileName := fileName
  funcName := funcName
  logInfo := message

end Messages

end FlashLog.Formatter
