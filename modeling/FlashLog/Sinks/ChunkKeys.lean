import FlashLog.Crypto.AESCrypto
import FlashLog.Sinks.Conservation
import FlashLog.Sinks.Format
import FlashLog.Sinks.Lifetimes

/-!
The keys in the header of a chunk. Every construction of `EffectiveSink` generates a key
pair and a vector; `CacheToFile_` puts them in front of whatever the slave buffer holds.
Where no exchange comes between `Size()` and the write, a chunk is readable exactly if no item in
it was left by an earlier lifetime.
-/

set_option autoImplicit false
set_option relaxedAutoImplicit false

namespace FlashLog.Decode

open FlashLog.Support FlashLog.Crypto FlashLog.Sinks

/-- The cipher that `DecodeChunkData` makes from a chunk's header and the server's key. -/
def chunkCrypto (lib : CryptoPP) (serPriKey : Bytes) (header : ChunkHeader) : Option AESCrypto :=
  let cryptoIv := Bytes.slice header.iv 0 17
  let cliPubKey := Bytes.slice header.pubKey 0 65
  (genECDHSharedKey lib (hexKeyToBinary serPriKey) cliPubKey).map fun sharedKey =>
    ⟨sharedKey, cryptoIv⟩

end FlashLog.Decode

namespace FlashLog.Sinks.ChunkKeys

open FlashLog.Support FlashLog.Crypto FlashLog.Decode
open FlashLog.Support.Machine (run Meets guarded_run_iff_meets meets_of_invariant)
open FlashLog.Sinks.DoubleBuffer (Pipeline Chunk)
open FlashLog.Sinks.Lifetimes (Directory step emission SwapOutsideSized)

/-- An encrypted item, with the bytes that were given to `Encrypt`, the number of the
construction whose cipher was used, and whether a crash kept its payload from the buffer. -/
structure Item where
  data : Bytes
  given : Bytes
  lifetime : Nat
  torn : Bool

/-- What a crash between the two `Push` of `WriteToCache_` leaves of an item. -/
def Item.tear (x : Item) : Item := { x with torn := true }

def Item.stored (x : Item) : Bytes :=
  ItemHeader.bytes x.data.length ++ if x.torn then [] else x.data

/-- The key pair's public half and the cipher of one construction. -/
structure Client where
  pubKey : Bytes
  crypto : AESCrypto

def Client.keys (client : Client) : Keys := ⟨client.crypto.iv, client.pubKey⟩

/-- What the lifetimes on one directory share, and the random values of each construction.
`compress` is the formatter and `Compress`; it yields nothing when `Compress` returns 0. -/
structure Env (σ μ : Type) where
  lib : CryptoPP
  serverPubKey : Bytes
  draws : List Draw
  stream : σ
  resetStream : σ → σ
  compress : σ → μ → σ × Bytes

variable {T σ μ : Type}

namespace Env

variable (E : Env σ μ)

/-- What construction number `n` generates, unless the key agreement throws. -/
def client (n : Nat) : Option Client :=
  E.draws[n]?.bind fun draw =>
    let keys := genECDHKey E.lib draw
    (genECDHSharedKey E.lib keys.1 (hexKeyToBinary E.serverPubKey)).map fun sharedKey =>
      ⟨keys.2, ⟨sharedKey, generateIV draw⟩⟩

/-- `Log` between the formatter and `WriteToCache_`. -/
def encode (client : Client) (n : Nat) (st : σ) (m : μ) : σ × Option Item :=
  match E.compress st m with
  | (st, compressed) =>
    if compressed.isEmpty then (st, none)
    else
      let data := client.crypto.encrypt E.lib compressed
      if data.isEmpty then (st, none) else (st, some ⟨data, compressed, n, false⟩)

def pipeline (n : Nat) : Option (Pipeline σ μ Item Keys) :=
  (E.client n).map fun client =>
    { resetStream := E.resetStream, encode := E.encode client n, keys := client.keys }

/-- The generated keys and vectors of different constructions are different. -/
def Fresh : Prop :=
  ∀ i j ci cj, E.client i = some ci → E.client j = some cj →
    ci.crypto.key = cj.crypto.key → ci.crypto.vector = cj.crypto.vector → i = j

/-- The item was encrypted by the cipher of its construction. -/
def Encrypted (x : Item) : Prop :=
  ∃ client, E.client x.lifetime = some client ∧ x.data = client.crypto.encrypt E.lib x.given

variable {E}

theorem encrypted_of_encode {n : Nat} {P : Pipeline σ μ Item Keys} (hP : E.pipeline n = some P)
    {st : σ} {m : μ} {x : Item} (h : (P.encode st m).2 = some x) :
    x.lifetime = n ∧ x.torn = false ∧ E.Encrypted x := by
  obtain ⟨client, hclient, rfl⟩ := Option.map_eq_some_iff.mp hP
  simp only [encode] at h
  split at h
  · cases h
  · split at h
    · cases h
    · obtain rfl := Option.some.inj h
      exact ⟨rfl, rfl, client, hclient, rfl⟩

theorem client_sized (laws : E.lib.Laws) {n : Nat} {client : Client}
    (h : E.client n = some client) :
    client.crypto.Sized ∧ client.crypto.iv.length = 32 ∧ client.pubKey.length = 65 := by
  obtain ⟨draw, -, hshared⟩ := Option.bind_eq_some_iff.mp h
  obtain ⟨sharedKey, hagree, rfl⟩ := Option.map_eq_some_iff.mp hshared
  have hiv : (generateIV draw).length = 32 := length_generateIV draw
  refine ⟨⟨laws.length_agree _ _ _ hagree, ?_⟩, hiv, laws.length_publicKey _⟩
  simp only [hiv]
  decide

end Env

section Header

/-- The arrays `iv[32]` and `pub_key[128]` of a header on the stack. -/
structure Arrays (stack : Keys) : Prop where
  iv : stack.iv.length = 32
  pubKey : stack.pubKey.length = 128

def header (stack : Keys) (c : Chunk Item Keys) : ChunkHeader :=
  (ChunkHeader.onStack stack (c.sized.flatMap Item.stored).length).copyKeys
    c.keys

/-- The header carries the public key and the vector of the item's encryption, and the decoder
gets from it and the server's private key what was given to `Encrypt`; without its payload
an item cannot be decrypted. -/
structure Readable (E : Env σ μ) (serPriKey : Bytes) (header : ChunkHeader) (x : Item) : Prop where
  carries : ∃ client, E.client x.lifetime = some client ∧ header.iv = client.crypto.iv ∧
    Bytes.slice header.pubKey 0 client.pubKey.length = client.pubKey
  whole : x.torn = false
  decrypts : (chunkCrypto E.lib serPriKey header).bind (fun crypto => crypto.decrypt E.lib x.data) =
    some x.given

/-- What `CacheToFile_` writes behind the header: as many bytes as the header says, from a buffer
that has `behind` in the mapping behind its contents. -/
def payloadBytes (stack : Keys) (c : Chunk Item Keys) (behind : Bytes) : Bytes :=
  (c.payload.flatMap Item.stored ++ behind).take (header stack c).size

/-- Whatever the stack and the rest of the mapping held, the bytes behind the header are whole
items, and every one of them is readable. -/
def ChunkReadable (E : Env σ μ) (serPriKey : Bytes) (c : Chunk Item Keys) : Prop :=
  ∀ stack, Arrays stack →
    (∀ behind, payloadBytes stack c behind = c.payload.flatMap Item.stored) ∧
      ∀ x ∈ c.payload, Readable E serPriKey (header stack c) x

variable {E : Env σ μ} {serPriKey : Bytes} {stack : Keys} {client : Client} {n : Nat}

theorem header_iv (hstack : Arrays stack) (hiv : client.crypto.iv.length = 32)
    {c : Chunk Item Keys} (hkeys : c.keys = client.keys) :
    (header stack c).iv = client.crypto.iv := by
  have hlength : stack.iv.length = client.crypto.iv.length := hstack.iv.trans hiv.symm
  simp only [header, ChunkHeader.copyKeys, ChunkHeader.onStack, hkeys, Client.keys]
  exact Bytes.store_whole hlength

theorem header_pubKey (hstack : Arrays stack) (hpub : client.pubKey.length = 65)
    {c : Chunk Item Keys} (hkeys : c.keys = client.keys) :
    Bytes.slice (header stack c).pubKey 0 client.pubKey.length = client.pubKey := by
  simp only [header, ChunkHeader.copyKeys, ChunkHeader.onStack, hkeys, Client.keys]
  apply Bytes.slice_store_same
  rw [hstack.pubKey, hpub]
  decide

theorem payloadBytes_of_whole {c : Chunk Item Keys} (whole : c.Whole) (stack : Keys)
    (behind : Bytes) : payloadBytes stack c behind = c.payload.flatMap Item.stored := by
  have size : (header stack c).size = (c.payload.flatMap Item.stored).length := by
    rw [← whole]
    rfl
  rw [payloadBytes, size, List.take_left]

theorem chunkCrypto_header (laws : E.lib.Laws)
    (server : hexKeyToBinary E.serverPubKey = E.lib.publicKey (hexKeyToBinary serPriKey))
    (hclient : E.client n = some client) (hstack : Arrays stack) {c : Chunk Item Keys}
    (hkeys : c.keys = client.keys) :
    ∃ crypto, chunkCrypto E.lib serPriKey (header stack c) = some crypto ∧ crypto.Sized ∧
      crypto.key = client.crypto.key ∧ crypto.vector = client.crypto.vector := by
  obtain ⟨hsized, hiv, hpub⟩ := Env.client_sized laws hclient
  have hslice := header_pubKey hstack hpub hkeys
  rw [hpub] at hslice
  obtain ⟨draw, -, hshared⟩ := Option.bind_eq_some_iff.mp hclient
  obtain ⟨sharedKey, hagree, rfl⟩ := Option.map_eq_some_iff.mp hshared
  have hserver : genECDHSharedKey E.lib (hexKeyToBinary serPriKey) (genECDHKey E.lib draw).2 =
      some sharedKey := by
    rw [← hagree, server]
    exact laws.agree_comm _ _
  refine ⟨⟨sharedKey, (generateIV draw).take 17⟩, ?_, ⟨hsized.key, ?_⟩, rfl, ?_⟩
  · simp only [chunkCrypto]
    rw [hslice, hserver, header_iv hstack hiv hkeys]
    rfl
  · have hlength : (generateIV draw).length = 32 := hiv
    simp only [List.length_take, hlength]
    decide
  · simp only [AESCrypto.vector, List.take_take]
    rfl

theorem readable_iff (laws : E.lib.Laws)
    (server : hexKeyToBinary E.serverPubKey = E.lib.publicKey (hexKeyToBinary serPriKey))
    (fresh : E.Fresh) (hclient : E.client n = some client) (hstack : Arrays stack)
    {c : Chunk Item Keys} (hkeys : c.keys = client.keys) {x : Item} (hx : E.Encrypted x) :
    Readable E serPriKey (header stack c) x ↔ x.lifetime = n ∧ x.torn = false := by
  obtain ⟨hsized, hiv, hpub⟩ := Env.client_sized laws hclient
  obtain ⟨crypto, hcrypto, hcryptoSized, hkey, hvector⟩ :=
    chunkCrypto_header laws server hclient hstack hkeys
  obtain ⟨owner, howner, hdata⟩ := hx
  have hownerSized : owner.crypto.Sized := (Env.client_sized laws howner).1
  have hdecrypt : (chunkCrypto E.lib serPriKey (header stack c)).bind
      (fun crypto => crypto.decrypt E.lib x.data) = some x.given ↔
        client.crypto.key = owner.crypto.key ∧ client.crypto.vector = owner.crypto.vector := by
    rw [hcrypto, Option.bind_some, hdata,
      AESCrypto.decrypt_encrypt_iff laws hcryptoSized hownerSized, hkey, hvector]
  constructor
  · intro readable
    obtain ⟨sameKey, sameVector⟩ := hdecrypt.mp readable.decrypts
    exact ⟨(fresh n x.lifetime client owner hclient howner sameKey sameVector).symm,
      readable.whole⟩
  · rintro ⟨hlifetime, whole⟩
    have same : owner = client := by
      rw [hlifetime, hclient] at howner
      exact (Option.some.inj howner).symm
    subst same
    exact ⟨⟨owner, howner, header_iv hstack hiv hkeys, header_pubKey hstack hpub hkeys⟩, whole,
      hdecrypt.mpr ⟨rfl, rfl⟩⟩

end Header

section Runs

/-- A `CacheToFile_` that writes finds no item of an earlier lifetime in the slave buffer. -/
def OwnItems (d : Directory T σ μ Item Keys) (a : Lifetimes.Label T μ) : Prop :=
  ∀ p ∈ d.process, (emission d a).isSome = true → ∀ x ∈ p.sink.slave, x.lifetime = p.lifetime

instance (d : Directory T σ μ Item Keys) (a : Lifetimes.Label T μ) : Decidable (OwnItems d a) :=
  inferInstanceAs (Decidable (∀ p ∈ d.process, (emission d a).isSome = true →
    ∀ x ∈ p.sink.slave, x.lifetime = p.lifetime))

/-- A process goes on with the keys it has generated, every item in the files was encrypted
by the cipher of its construction, and a torn item ended the lifetime that encrypted it. -/
structure Sound (E : Env σ μ) (d : Directory T σ μ Item Keys) : Prop where
  process : ∀ p ∈ d.process, E.pipeline p.lifetime = some p.pipeline
  started : ∀ p ∈ d.process, p.lifetime < d.lifetimes
  items : ∀ x ∈ d.items, E.Encrypted x
  earlier : ∀ x ∈ d.items, x.lifetime < d.lifetimes
  torn : ∀ x ∈ d.items, x.torn = true → ∀ p ∈ d.process, x.lifetime ≠ p.lifetime

variable {E : Env σ μ} {serPriKey : Bytes}

theorem fresh_sound : Sound E (.fresh : Directory T σ μ Item Keys) := by
  constructor
  case process | started =>
    intro p hp
    cases hp
  case items | earlier | torn =>
    intro x hx
    cases hx

theorem chunkReadable_iff (laws : E.lib.Laws)
    (server : hexKeyToBinary E.serverPubKey = E.lib.publicKey (hexKeyToBinary serPriKey))
    (fresh : E.Fresh) {d : Directory T σ μ Item Keys} (inv : Sound E d)
    {a : Lifetimes.Label T μ} {c : Chunk Item Keys} (h : emission d a = some c)
    (whole : c.Whole) : ChunkReadable E serPriKey c ↔ OwnItems d a := by
  obtain ⟨p, hp, hkeys, hpayload⟩ := Lifetimes.emission_spec h
  obtain ⟨client, hclient, hpipeline⟩ := Option.map_eq_some_iff.mp (inv.process p hp)
  rw [← hpipeline] at hkeys
  have readable : ∀ stack, Arrays stack → ∀ x ∈ p.sink.slave,
      (Readable E serPriKey (header stack c) x ↔ x.lifetime = p.lifetime) := by
    intro stack hstack x hx
    have hitem : x ∈ d.items := by
      rw [Directory.items, hp]
      exact List.mem_append_left _ hx
    rw [readable_iff laws server fresh hclient hstack hkeys (inv.items x hitem)]
    refine and_iff_left_of_imp ?_
    intro hlifetime
    cases htorn : x.torn
    · rfl
    · exact absurd hlifetime (inv.torn x hitem htorn p hp)
  constructor
  · intro hread p' hp' _ x hx
    obtain rfl := Option.some.inj (hp.symm.trans hp')
    have hstack : Arrays ⟨List.replicate 32 0, List.replicate 128 0⟩ :=
      ⟨List.length_replicate, List.length_replicate⟩
    exact (readable _ hstack x hx).mp ((hread _ hstack).2 x (by rw [hpayload]; exact hx))
  · intro own stack hstack
    refine ⟨payloadBytes_of_whole whole stack, fun x hx => ?_⟩
    rw [hpayload] at hx
    exact (readable stack hstack x hx).mpr (own p hp (by rw [h]; rfl) x hx)

variable [DecidableEq T]

theorem sound_step {d next : Directory T σ μ Item Keys} {a : Lifetimes.Label T μ}
    (inv : Sound E d) (h : step E.pipeline E.stream Item.tear d a = some next) :
    Sound E next := by
  have grown : d.lifetimes ≤ next.lifetimes := Lifetimes.lifetimes_step h
  constructor
  case process =>
    intro p hp
    rcases Lifetimes.process_step h hp with ⟨before, hbefore, hlifetime, hpipeline⟩ | ⟨-, -, hnew⟩
    · rw [hlifetime, hpipeline]
      exact inv.process before hbefore
    · exact hnew
  case started =>
    intro p hp
    rcases Lifetimes.process_step h hp with ⟨before, hbefore, hlifetime, -⟩ | ⟨-, hnew, -⟩
    · rw [hlifetime]
      exact Nat.lt_of_lt_of_le (inv.started before hbefore) grown
    · exact hnew
  case items =>
    intro x hx
    rcases Lifetimes.items_step h hx with old | ⟨p, hp, st, m, y, hencode, rfl | ⟨rfl, -⟩⟩
    · exact inv.items x old
    · exact (Env.encrypted_of_encode (inv.process p hp) hencode).2.2
    · exact (Env.encrypted_of_encode (inv.process p hp) hencode).2.2
  case earlier =>
    intro x hx
    rcases Lifetimes.items_step h hx with old | ⟨p, hp, st, m, y, hencode, made⟩
    · exact Nat.lt_of_lt_of_le (inv.earlier x old) grown
    · have hlifetime : x.lifetime = p.lifetime := by
        obtain ⟨hy, -, -⟩ := Env.encrypted_of_encode (inv.process p hp) hencode
        rcases made with rfl | ⟨rfl, -⟩
        · exact hy
        · exact hy
      rw [hlifetime]
      exact Nat.lt_of_lt_of_le (inv.started p hp) grown
  case torn =>
    intro x hx htorn p hp
    rcases Lifetimes.items_step h hx with old | ⟨q, hq, st, m, y, hencode, rfl | ⟨-, ended⟩⟩
    · rcases Lifetimes.process_step h hp with ⟨before, hbefore, hlifetime, -⟩ | ⟨hnew, -, -⟩
      · rw [hlifetime]
        exact inv.torn x old htorn before hbefore
      · exact Nat.ne_of_lt (Nat.lt_of_lt_of_le (inv.earlier x old) hnew)
    · obtain ⟨-, whole, -⟩ := Env.encrypted_of_encode (inv.process q hq) hencode
      rw [whole] at htorn
      cases htorn
    · rw [ended] at hp
      cases hp

theorem run_readable_iff (laws : E.lib.Laws)
    (server : hexKeyToBinary E.serverPubKey = E.lib.publicKey (hexKeyToBinary serPriKey))
    (fresh : E.Fresh) {start d : Directory T σ μ Item Keys} (inv : Sound E start)
    (whole : start.Whole) {as : List (Lifetimes.Label T μ)}
    (outside : Meets (step E.pipeline E.stream Item.tear) SwapOutsideSized start as)
    (hrun : run (step E.pipeline E.stream Item.tear) start as = some d) :
    (∀ c ∈ d.chunks, ChunkReadable E serPriKey c) ↔
      (∀ c ∈ start.chunks, ChunkReadable E serPriKey c) ∧
        Meets (step E.pipeline E.stream Item.tear) OwnItems start as := by
  have preserved : ∀ (d : Directory T σ μ Item Keys) (a : Lifetimes.Label T μ) (next),
      Sound E d ∧ d.Whole → SwapOutsideSized d a →
        step E.pipeline E.stream Item.tear d a = some next → Sound E next ∧ next.Whole :=
    fun d a next inv guard h => ⟨sound_step inv.1 h, Lifetimes.whole_step inv.2 guard h⟩
  refine guarded_run_iff_meets (G := fun d => ∀ c ∈ d.chunks, ChunkReadable E serPriKey c)
    preserved ?_ ⟨inv, whole⟩ outside hrun
  intro d a next inv guard h
  have chunks := Lifetimes.chunks_step h
  cases hemission : emission d a with
  | none =>
    have own : OwnItems d a := by
      intro p _ hwrite
      rw [hemission] at hwrite
      cases hwrite
    simp [chunks, hemission, own]
  | some c =>
    have written : c ∈ next.chunks := by simp [chunks, hemission]
    have whole : c.Whole := (preserved d a next inv guard h).2.chunks c written
    rw [chunks, hemission, ← chunkReadable_iff laws server fresh inv.1 hemission whole]
    simp [or_imp, forall_and]

theorem ownItems_of_findsEmptyFiles {as : List (Lifetimes.Label T μ)}
    {d : Directory T σ μ Item Keys}
    (hrun : run (step E.pipeline E.stream Item.tear) .fresh as = some d)
    (hempty : Meets (step E.pipeline E.stream Item.tear) Lifetimes.FindsEmptyFiles .fresh as) :
    Meets (step E.pipeline E.stream Item.tear) OwnItems .fresh as := by
  refine meets_of_invariant (I := fun d => Sound E d ∧ Lifetimes.Own d) ?_ ?_
    ⟨fresh_sound, fun p hp => by cases hp⟩ hempty hrun
  · intro d a next inv guard h
    exact ⟨sound_step inv.1 h, Lifetimes.own_step inv.2 guard h⟩
  · intro d a inv _ _ p hp _ x hx
    have hitem : x ∈ d.items := by
      rw [Directory.items, hp]
      exact List.mem_append_left _ hx
    obtain ⟨st, m, hencode⟩ := inv.2 p hp x hitem
    exact (Env.encrypted_of_encode (inv.1.process p hp) hencode).1

end Runs

/-- Over any number of lifetimes on one directory in which no exchange comes between `Size()` and
the write of a chunk: every chunk carries the keys of all its items and decodes if and only if no
`CacheToFile_` wrote items left by an earlier lifetime. -/
theorem readable_iff_ownItems [DecidableEq T] (E : Env σ μ) (serPriKey : Bytes)
    (laws : E.lib.Laws)
    (server : hexKeyToBinary E.serverPubKey = E.lib.publicKey (hexKeyToBinary serPriKey))
    (fresh : E.Fresh) (as : List (Lifetimes.Label T μ)) (d : Directory T σ μ Item Keys)
    (hrun : run (step E.pipeline E.stream Item.tear) .fresh as = some d)
    (outside : Meets (step E.pipeline E.stream Item.tear) SwapOutsideSized .fresh as) :
    (∀ c ∈ d.chunks, ChunkReadable E serPriKey c) ↔
      Meets (step E.pipeline E.stream Item.tear) OwnItems .fresh as := by
  rw [run_readable_iff laws server fresh fresh_sound Lifetimes.fresh_whole outside hrun]
  refine and_iff_right ?_
  intro c hc
  cases hc

/-- Two constructions whose client keys are 1 and 2, for a server whose key is 3; messages are
single bytes and are not compressed. -/
def twoDraws : Env Unit Nat where
  lib := tagged
  serverPubKey := binaryKeyToHex (tagged.publicKey [3])
  draws := [⟨[1], List.replicate blockSize 1, rfl⟩, ⟨[2], List.replicate blockSize 2, rfl⟩]
  stream := ()
  resetStream := id
  compress st m := (st, [UInt8.ofNat m])

theorem twoDraws_server : hexKeyToBinary twoDraws.serverPubKey =
    twoDraws.lib.publicKey (hexKeyToBinary (binaryKeyToHex [3])) := by
  rw [hexKeyToBinary_binaryKeyToHex]
  exact hexKeyToBinary_binaryKeyToHex _

theorem twoDraws_fresh : twoDraws.Fresh := by
  have first : ∀ n c, twoDraws.client n = some c →
      c.crypto.key.head?.map UInt8.toNat = some (n + 4) := by
    intro n c h
    rcases n with _ | _ | n
    · obtain rfl := Option.some.inj h
      rfl
    · obtain rfl := Option.some.inj h
      rfl
    · cases h
  intro i j ci cj hi hj hkey _
  have same := first i ci hi
  rw [hkey, first j cj hj] at same
  have hsum : j + 4 = i + 4 := Option.some.inj same
  omega

def flushedLifetimes : List (Lifetimes.Label Unit Nat) :=
  .construct () :: (DoubleBuffer.logThenFlush 7).map .act ++
    .exit :: .construct () :: (DoubleBuffer.logThenFlush 8).map .act

theorem readable_iff_ownItems_flushed :
    ∃ d, run (step twoDraws.pipeline twoDraws.stream Item.tear) .fresh flushedLifetimes = some d ∧
      ∀ c ∈ d.chunks, ChunkReadable twoDraws (binaryKeyToHex [3]) c := by
  obtain ⟨d, hrun⟩ := Option.isSome_iff_exists.mp (show
    (run (step twoDraws.pipeline twoDraws.stream Item.tear) .fresh flushedLifetimes).isSome =
      true by decide)
  refine ⟨d, hrun, ?_⟩
  exact (readable_iff_ownItems twoDraws (binaryKeyToHex [3]) tagged_laws twoDraws_server
    twoDraws_fresh flushedLifetimes d hrun (by decide)).mpr (by decide)

/-- The first lifetime crashes after one `Log`; the constructor of the second recovers the
item from `master_mmap` and the worker writes it. -/
def crashedLifetime : List (Lifetimes.Label Unit Nat) :=
  let caller := Lifetimes.Label.act (DoubleBuffer.Label.thread () false)
  let worker := Lifetimes.Label.act DoubleBuffer.Label.worker
  [.construct (), caller, caller, .act (.log () 7), caller, caller, caller, .exit,
    .construct (), caller, caller, caller, worker, caller, caller, caller, caller, caller,
    worker, worker, worker, worker, worker]

theorem recoveredChunk_unreadable :
    ¬ ∀ (as : List (Lifetimes.Label Unit Nat)) (d : Directory Unit Unit Nat Item Keys),
      run (step twoDraws.pipeline twoDraws.stream Item.tear) .fresh as = some d →
        ∀ c ∈ d.chunks, ChunkReadable twoDraws (binaryKeyToHex [3]) c := by
  intro always
  obtain ⟨d, hrun⟩ := Option.isSome_iff_exists.mp (show
    (run (step twoDraws.pipeline twoDraws.stream Item.tear) .fresh crashedLifetime).isSome =
      true by decide)
  have own := (run_readable_iff tagged_laws twoDraws_server twoDraws_fresh fresh_sound
    Lifetimes.fresh_whole (by decide) hrun).mp (always crashedLifetime d hrun)
  exact absurd own.2 (by decide)

end FlashLog.Sinks.ChunkKeys
