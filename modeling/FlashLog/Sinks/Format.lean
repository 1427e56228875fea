import FlashLog.Support.Bytes
import FlashLog.Support.Framing

/-!
The headers in front of every item and every chunk of a log file, as the bytes that
lie in memory.
-/

set_option autoImplicit false
set_option relaxedAutoImplicit false

namespace FlashLog.Sinks

open FlashLog.Support

namespace ItemHeader

def kMagic : Nat := 0xbe5fba11

/-- `sizeof(ItemHeader)`: two fields of 32 bits. -/
def length : Nat := 8

def bytes (size : Nat) : Bytes := Bytes.ofNatLE 4 kMagic ++ Bytes.ofNatLE 4 size

@[simp] theorem length_bytes (size : Nat) : (bytes size).length = length := by
  rw [bytes, List.length_append, Bytes.length_ofNatLE, Bytes.length_ofNatLE, length]

theorem bytes_mod (size : Nat) : bytes (size % 2 ^ 32) = bytes size := by
  have hpow : 2 ^ 32 = 256 ^ 4 := by decide
  rw [bytes, bytes, hpow, Bytes.ofNatLE_mod]

def read (bs : Bytes) : Option Nat :=
  if Bytes.toNatLE (Bytes.slice bs 0 4) = kMagic then some (Bytes.toNatLE (Bytes.slice bs 4 4))
  else none

theorem slice_magic (size : Nat) (rest : Bytes) :
    Bytes.slice (bytes size ++ rest) 0 4 = Bytes.ofNatLE 4 kMagic := by
  rw [Bytes.slice, bytes, List.append_assoc, List.drop_zero]
  exact List.take_left' (Bytes.length_ofNatLE 4 kMagic)

theorem slice_size (size : Nat) (rest : Bytes) :
    Bytes.slice (bytes size ++ rest) 4 4 = Bytes.ofNatLE 4 size := by
  rw [Bytes.slice, bytes, List.append_assoc, List.drop_left' (Bytes.length_ofNatLE 4 kMagic)]
  exact List.take_left' (Bytes.length_ofNatLE 4 size)

theorem read_bytes {size : Nat} (hsize : size < 2 ^ 32) (rest : Bytes) :
    read (bytes size ++ rest) = some size := by
  have hmagic : Bytes.toNatLE (Bytes.ofNatLE 4 kMagic) = kMagic := by
    rw [Bytes.toNatLE_ofNatLE]
    rfl
  rw [read, slice_magic, if_pos hmagic, slice_size, Bytes.toNatLE_ofNatLE_four,
    Nat.mod_eq_of_lt hsize]

/-- The items of a buffer or a chunk: a header, then as many bytes as it says. -/
def framing : Framing UInt8 where
  headerLength := length
  headerLength_pos := by decide
  bound := 2 ^ 32
  header := bytes
  read := read
  length_header := length_bytes
  read_header := fun _ rest hsize => read_bytes hsize rest

end ItemHeader

/-- The client's public key and the initialisation vector of a sink that encrypts. -/
structure Keys where
  iv : Bytes
  pubKey : Bytes
  deriving DecidableEq

structure ChunkHeader where
  size : Nat
  iv : Bytes
  pubKey : Bytes

namespace ChunkHeader

def kMagic : Nat := 0xdeadbeefdada1100

/-- A header on the stack. The constructor sets the magic number and the size only;
`stack` is what the arrays happen to hold. -/
def onStack (stack : Keys) (size : Nat) : ChunkHeader := ⟨size, stack.iv, stack.pubKey⟩

/-- The two `memcpy` of a sink that encrypts. -/
def copyKeys (header : ChunkHeader) (keys : Keys) : ChunkHeader :=
  { header with
    iv := Bytes.store header.iv 0 keys.iv
    pubKey := Bytes.store header.pubKey 0 keys.pubKey }

def bytes (header : ChunkHeader) : Bytes :=
  Bytes.ofNatLE 8 kMagic ++ Bytes.ofNatLE 8 header.size ++ header.iv ++ header.pubKey

theorem bytes_ne_nil (header : ChunkHeader) : header.bytes ≠ [] := by
  intro hnil
  have hlen := congrArg List.length hnil
  simp only [bytes, List.length_append, Bytes.length_ofNatLE, List.length_nil] at hlen
  omega

end ChunkHeader

end FlashLog.Sinks
