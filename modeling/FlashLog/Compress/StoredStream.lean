import FlashLog.Compress.ZlibCompress

/-!
The zlib format with stored blocks only, in both directions: `deflate` writes every byte as a block
of its own and ends a flush with an empty block, and `inflate` takes a byte at a time.
-/

set_option autoImplicit false
set_option relaxedAutoImplicit false

namespace FlashLog.Compress.StoredStream

open FlashLog.Support

def block (b : UInt8) : Bytes := [0x00, 0x01, 0x00, 0xfe, 0xff, b]

def emptyBlock : Bytes := [0x00, 0x00, 0x00, 0xff, 0xff]

def blocks (x : Bytes) : Bytes := x.flatMap block ++ emptyBlock

/-- All that a flush writes; the state of the compressor is whether the header is written. -/
def encode (started : Bool) (x : Bytes) : Bytes :=
  if started then blocks x else [0x78, 0xda] ++ blocks x

/-- Where a decompressor is: in the header of the stream, in the header of a block, or in front of
so many bytes of a block. -/
inductive Place
  | header (missing : Nat)
  | block (taken : Bytes)
  | stored (missing : Nat)
  deriving DecidableEq

/-- The next byte of the stream, with the byte that is written for it. -/
def feed (b : UInt8) : Place → Place × Option UInt8
  | .header missing => (if missing ≤ 1 then .block [] else .header (missing - 1), none)
  | .block taken =>
    if taken.length < 4 then (.block (taken ++ [b]), none)
    else
      let missing := Bytes.toNatLE ((taken.drop 1).take 2)
      (if missing = 0 then .block [] else .stored missing, none)
  | .stored missing => (if missing ≤ 1 then .block [] else .stored (missing - 1), some b)

/-- Bytes that are taken one by one, as long as there is room: how many, what is written for them,
and the place behind them. -/
def take : Place → Bytes → Nat → Nat × Bytes × Place
  | place, [], _ => (0, [], place)
  | place, b :: bs, room =>
    match feed b place, room with
    | (next, none), room =>
      let (consumed, output, last) := take next bs room
      (consumed + 1, output, last)
    | (_, some _), 0 => (0, [], place)
    | (next, some out), room + 1 =>
      let (consumed, output, last) := take next bs room
      (consumed + 1, out :: output, last)

def decode : Place → Bytes → Place × Bytes
  | place, [] => (place, [])
  | place, b :: bs =>
    let (last, output) := decode (feed b place).1 bs
    (last, (feed b place).2.toList ++ output)

def zlib : Zlib where
  DeflateStream := Bool
  InflateStream := Place
  deflateInit2 := false
  inflateInit2 := .header 2
  deflate := fun started x room =>
    if (encode started x).length ≤ room then ⟨.ok, x.length, encode started x, true⟩
    else ⟨.failed, 0, [], started⟩
  inflate := fun place bs room =>
    let (consumed, output, last) := take place bs room
    ⟨if consumed = 0 then .bufError else .ok, consumed, output, last⟩

def behind (started : Bool) : Place := if started then .block [] else .header 2

section Decode

theorem decode_blocks (x : Bytes) : decode (.block []) (blocks x) = (.block [], x) := by
  induction x with
  | nil => decide
  | cons b x ih =>
    have hsplit : blocks (b :: x) = 0x00 :: 0x01 :: 0x00 :: 0xfe :: 0xff :: b :: blocks x := rfl
    have hdecode : decode (.block []) (0x00 :: 0x01 :: 0x00 :: 0xfe :: 0xff :: b :: blocks x) =
        ((decode (.block []) (blocks x)).1, b :: (decode (.block []) (blocks x)).2) := rfl
    rw [hsplit, hdecode, ih]

theorem decode_encode (started : Bool) (x : Bytes) :
    decode (behind started) (encode started x) = (.block [], x) := by
  cases started with
  | true => exact decode_blocks x
  | false =>
    have hdecode : decode (.header 2) (0x78 :: 0xda :: blocks x) =
        ((decode (.block []) (blocks x)).1, (decode (.block []) (blocks x)).2) := rfl
    show decode (.header 2) (0x78 :: 0xda :: blocks x) = _
    rw [hdecode, decode_blocks]

theorem take_decode (place : Place) (bs : Bytes) (room : Nat) :
    (take place bs room).1 ≤ bs.length ∧
      (take place bs room).2.1 ++ (decode (take place bs room).2.2
        (bs.drop (take place bs room).1)).2 = (decode place bs).2 ∧
      (decode (take place bs room).2.2 (bs.drop (take place bs room).1)).1 =
        (decode place bs).1 := by
  induction bs generalizing place room with
  | nil => exact ⟨Nat.zero_le _, rfl, rfl⟩
  | cons b bs ih =>
    rcases hfeed : feed b place with ⟨next, _ | out⟩
    · obtain ⟨le, output, last⟩ := ih next room
      simp only [take, decode, hfeed, List.length_cons, List.drop_succ_cons, Option.toList_none,
        List.nil_append]
      exact ⟨Nat.succ_le_succ le, output, last⟩
    · cases room with
      | zero =>
        simp only [take, hfeed, List.drop_zero, List.nil_append]
        exact ⟨Nat.zero_le _, trivial, trivial⟩
      | succ room =>
        obtain ⟨le, output, last⟩ := ih next room
        simp only [take, decode, hfeed, List.length_cons, List.drop_succ_cons, Option.toList_some,
          List.cons_append, List.nil_append, output]
        exact ⟨Nat.succ_le_succ le, trivial, last⟩

theorem take_pos (place : Place) {bs : Bytes} (h : bs ≠ []) {room : Nat} (roomy : 0 < room) :
    0 < (take place bs room).1 := by
  obtain ⟨b, bs, rfl⟩ := List.exists_cons_of_ne_nil h
  obtain ⟨room, rfl⟩ := Nat.exists_eq_succ_of_ne_zero (Nat.ne_of_gt roomy)
  rcases hfeed : feed b place with ⟨next, _ | out⟩ <;> simp [take, hfeed]

end Decode

theorem length_encode_le (started : Bool) (x : Bytes) :
    (encode started x).length ≤ 7 + 6 * x.length := by
  have hblocks : (blocks x).length = 6 * x.length + 5 := by
    rw [blocks, List.length_append]
    congr 1
    induction x with
    | nil => rfl
    | cons b x ih =>
      rw [List.flatMap_cons, List.length_append, ih, List.length_cons]
      show 6 + _ = _
      omega
  cases started with
  | true =>
    show (blocks x).length ≤ _
    omega
  | false =>
    show (blocks x).length + 2 ≤ _
    omega

private theorem deflate_eq {started : Bool} {x : Bytes} {size : Nat}
    (h : 7 + 6 * x.length ≤ size) :
    zlib.deflate started x size = ⟨.ok, x.length, encode started x, true⟩ :=
  if_pos ((length_encode_le started x).trans h)

/-- Stored blocks behave as documented. -/
def flushed : zlib.Flushed where
  atStart := fun started => started = false
  between := fun started place bs out => decode place bs = (behind started, out)
  room := fun n => 7 + 6 * n
  atStart_init := rfl
  between_init := by
    rintro started rfl
    rfl
  flushes := by
    intro (started : Bool) x size _ roomy
    rw [deflate_eq roomy]
    exact ⟨rfl, (length_encode_le started x).trans roomy, Bool.noConfusion⟩
  header := by
    rintro (started : Bool) x size _ roomy rfl
    rw [deflate_eq roomy]
    exact ⟨blocks x, rfl⟩
  block := by
    intro (started : Bool) x size hx roomy (hstart : ¬ started = false)
    obtain rfl : started = true := Bool.not_eq_false _ |>.mp hstart
    rw [deflate_eq roomy]
    obtain ⟨b, x, rfl⟩ := List.exists_cons_of_ne_nil hx
    exact ⟨0x00, _, rfl, by decide, fun _ => rfl⟩
  encodes := by
    intro (started : Bool) (place : Place) x size _ roomy (h : (place, []) = (behind started, []))
    obtain rfl : place = behind started := (Prod.mk.inj h).1
    rw [deflate_eq roomy]
    exact decode_encode started x
  whole := by
    intro (started : Bool) (place : Place) out (h : (place, []) = (behind started, out))
    exact (Prod.mk.inj h).2.symm
  decodes := by
    intro (started : Bool) (place : Place) bs out size (h : decode place bs = (behind started, out))
      filled roomy
    obtain ⟨le, output, last⟩ := take_decode place bs size
    have pos := take_pos place filled roomy
    rw [h] at output last
    have houtput : (take place bs size).2.1 ++ _ = out := output
    refine ⟨if_neg (Nat.ne_of_gt pos), le, Or.inl pos, ⟨_, houtput⟩, ?_⟩
    refine Prod.ext last ?_
    show (decode (take place bs size).2.2 (bs.drop (take place bs size).1)).2 =
      out.drop (take place bs size).2.1.length
    rw [← houtput, List.drop_left]

end FlashLog.Compress.StoredStream
