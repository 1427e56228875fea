import FlashLog.Support.Bytes

/-!
Key agreement and encryption. What Crypto++ computes is a parameter; around it stand
the hexadecimal forms, the generated values and `AESCrypto` as the source has them.
-/

set_option autoImplicit false
set_option relaxedAutoImplicit false

namespace FlashLog.Crypto

open FlashLog.Support

/-- The functions of Crypto++ behind the source: ECDH on secp256r1 and AES in CBC mode with
padding. `agree` is `none` when `Agree` returns false, `cbcDecrypt` when it throws. -/
structure CryptoPP where
  publicKey : Bytes → Bytes
  agree : Bytes → Bytes → Option Bytes
  cbcEncrypt : Bytes → Bytes → Bytes → Bytes
  cbcDecrypt : Bytes → Bytes → Bytes → Option Bytes

/-- `CryptoPP::AES::BLOCKSIZE`. -/
def blockSize : Nat := 16

/-- `PublicKeyLength()` of secp256r1. -/
def publicKeyLength : Nat := 65

/-- `AgreedValueLength()` of secp256r1. -/
def agreedValueLength : Nat := 32

structure CryptoPP.Laws (lib : CryptoPP) : Prop where
  length_publicKey : ∀ pri, (lib.publicKey pri).length = publicKeyLength
  length_agree : ∀ pri pub key, lib.agree pri pub = some key → key.length = agreedValueLength
  agree_comm : ∀ a b, lib.agree a (lib.publicKey b) = lib.agree b (lib.publicKey a)
  decrypt_encrypt : ∀ key iv key' iv' data, key.length = agreedValueLength →
    key'.length = agreedValueLength → iv.length = blockSize → iv'.length = blockSize →
    (lib.cbcDecrypt key iv (lib.cbcEncrypt key' iv' data) = some data ↔ key = key' ∧ iv = iv')

section Hex

/-- The digits of `HexEncoder`: upper case, no separators. -/
def hexDigit (n : Nat) : UInt8 := if n < 10 then UInt8.ofNat (48 + n) else UInt8.ofNat (55 + n)

/-- `HexDecoder` reads digits of either case and passes over everything else. -/
def hexValue (c : UInt8) : Option Nat :=
  if 48 ≤ c.toNat ∧ c.toNat ≤ 57 then some (c.toNat - 48)
  else if 65 ≤ c.toNat ∧ c.toNat ≤ 70 then some (c.toNat - 55)
  else if 97 ≤ c.toNat ∧ c.toNat ≤ 102 then some (c.toNat - 87)
  else none

def binaryKeyToHex : Bytes → Bytes
  | [] => []
  | b :: bs => hexDigit (b.toNat / 16) :: hexDigit (b.toNat % 16) :: binaryKeyToHex bs

/-- Two digits a byte; a digit left over at the end yields nothing. -/
def pairDigits : List Nat → Bytes
  | high :: low :: digits => UInt8.ofNat (16 * high + low) :: pairDigits digits
  | _ => []

def hexKeyToBinary (hex : Bytes) : Bytes := pairDigits (hex.filterMap hexValue)

@[simp] theorem length_binaryKeyToHex (bs : Bytes) :
    (binaryKeyToHex bs).length = 2 * bs.length := by
  induction bs with
  | nil => rfl
  | cons b bs ih =>
    simp only [binaryKeyToHex, List.length_cons, ih]
    omega

theorem hexValue_hexDigit {n : Nat} (h : n < 16) : hexValue (hexDigit n) = some n := by
  have all : ∀ n < 16, hexValue (hexDigit n) = some n := by decide
  exact all n h

theorem hexKeyToBinary_binaryKeyToHex (bs : Bytes) : hexKeyToBinary (binaryKeyToHex bs) = bs := by
  induction bs with
  | nil => rfl
  | cons b bs ih =>
    have hb : b.toNat < 256 := b.toNat_lt
    have high : b.toNat / 16 < 16 := by omega
    have low : b.toNat % 16 < 16 := Nat.mod_lt _ (by decide)
    have whole : UInt8.ofNat (16 * (b.toNat / 16) + b.toNat % 16) = b := by
      rw [Nat.div_add_mod]
      exact UInt8.ofNat_toNat
    rw [hexKeyToBinary] at ih ⊢
    rw [binaryKeyToHex, List.filterMap_cons_some (hexValue_hexDigit high),
      List.filterMap_cons_some (hexValue_hexDigit low), pairDigits, whole, ih]

end Hex

structure Draw where
  priKey : Bytes
  ivBlock : Bytes
  length_ivBlock : ivBlock.length = blockSize

def genECDHKey (lib : CryptoPP) (draw : Draw) : Bytes × Bytes :=
  (draw.priKey, lib.publicKey draw.priKey)

/-- `none` where the source throws `Failed to generate shared key`. -/
def genECDHSharedKey (lib : CryptoPP) (clientPri serverPub : Bytes) : Option Bytes :=
  lib.agree clientPri serverPub

/-- The vector in hexadecimal: 32 characters for 16 random bytes. -/
def generateIV (draw : Draw) : Bytes := binaryKeyToHex draw.ivBlock

theorem length_generateIV (draw : Draw) : (generateIV draw).length = 2 * blockSize := by
  rw [generateIV, length_binaryKeyToHex, draw.length_ivBlock]

structure AESCrypto where
  key : Bytes
  iv : Bytes

namespace AESCrypto

variable (lib : CryptoPP)

/-- The cipher reads one block from `iv_.data()`. -/
def vector (crypto : AESCrypto) : Bytes := crypto.iv.take blockSize

def encrypt (crypto : AESCrypto) (data : Bytes) : Bytes :=
  lib.cbcEncrypt crypto.key crypto.vector data

def decrypt (crypto : AESCrypto) (data : Bytes) : Option Bytes :=
  lib.cbcDecrypt crypto.key crypto.vector data

/-- A key of the agreed length and a vector of at least a block. -/
structure Sized (crypto : AESCrypto) : Prop where
  key : crypto.key.length = agreedValueLength
  iv : blockSize ≤ crypto.iv.length

theorem Sized.length_vector {crypto : AESCrypto} (h : crypto.Sized) :
    crypto.vector.length = blockSize := by
  rw [vector, List.length_take]
  exact Nat.min_eq_left h.iv

variable {lib}

theorem decrypt_encrypt_iff (laws : lib.Laws) {crypto other : AESCrypto} (hcrypto : crypto.Sized)
    (hother : other.Sized) (data : Bytes) :
    crypto.decrypt lib (other.encrypt lib data) = some data ↔
      crypto.key = other.key ∧ crypto.vector = other.vector :=
  laws.decrypt_encrypt _ _ _ _ data hcrypto.key hother.key hcrypto.length_vector
    hother.length_vector

end AESCrypto

section Tagged

/-- A library for runs on fixed inputs: the agreed key is the bytewise sum of the two padded
keys, and a ciphertext starts with the key and the vector it was made under. -/
def tagged : CryptoPP where
  publicKey pri := Bytes.setLength pri publicKeyLength
  agree pri pub := some (List.zipWith (· + ·) (Bytes.setLength pri agreedValueLength)
    (Bytes.setLength pub agreedValueLength))
  cbcEncrypt key iv data := key ++ iv ++ data
  cbcDecrypt key iv bs :=
    if bs.take (key ++ iv).length = key ++ iv then some (bs.drop (key ++ iv).length) else none

private theorem setLength_setLength (bs : Bytes) {m n : Nat} (h : n ≤ m) :
    Bytes.setLength (Bytes.setLength bs m) n = Bytes.setLength bs n := by
  apply List.ext_getElem
  · simp
  · intro i hi _
    rw [Bytes.length_setLength] at hi
    simp only [Bytes.setLength, List.getElem_append, List.getElem_take, List.length_take,
      List.length_append, List.length_replicate, List.getElem_replicate]
    grind

theorem tagged_laws : tagged.Laws where
  length_publicKey pri := Bytes.length_setLength _ _
  length_agree pri pub key h := by
    obtain rfl := Option.some.inj h
    rw [List.length_zipWith, Bytes.length_setLength, Bytes.length_setLength, Nat.min_self]
  agree_comm a b := by
    have hle : agreedValueLength ≤ publicKeyLength := by decide
    simp only [tagged, setLength_setLength _ hle]
    rw [List.zipWith_comm]
    simp only [UInt8.add_comm]
  decrypt_encrypt key iv key' iv' data hkey hkey' hiv hiv' := by
    have hlen : (key ++ iv).length = (key' ++ iv').length := by
      simp only [List.length_append, hkey, hkey', hiv, hiv']
    simp only [tagged, hlen, List.take_left, List.drop_left]
    constructor
    · intro h
      have same : key' ++ iv' = key ++ iv := by
        by_contra different
        rw [if_neg different] at h
        cases h
      have parts := List.append_inj same (hkey'.trans hkey.symm)
      exact ⟨parts.1.symm, parts.2.symm⟩
    · rintro ⟨rfl, rfl⟩
      rw [if_pos rfl]

end Tagged

end FlashLog.Crypto
