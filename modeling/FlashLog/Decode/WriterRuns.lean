import Mathlib.Data.List.Forall2
import FlashLog.Decode.WrittenFile
import FlashLog.Sinks.StreamedOutputs

/-!
`EffectiveSink` and `DecodeFile` agree on the format of the log files: with the server's private
key the decoder hands to `Decompress` what `Compress` returned, over whole runs of the sink.
-/

set_option autoImplicit false
set_option relaxedAutoImplicit false

namespace FlashLog.Decode

open FlashLog.Support FlashLog.Crypto FlashLog.Sinks
open FlashLog.Support.Machine (run Meets)
open FlashLog.Compress (ZstdCompress)
open FlashLog.Compress.ZstdCompress (decompressAll)
open FlashLog.Mmap (Disk)
open FlashLog.Sinks.ItemStream (Env)
open FlashLog.Sinks.AtomicCalls

/-- `DecodeChunkData` and `DecodeItemData` with the server's private key. Decompressor, parser
and formatter are left open. -/
def serverCodec (lib : CryptoPP) (serPriKey : Bytes) {Stream Msg : Type}
    (decompress : Stream → Bytes → Stream × Bytes) (parse : Bytes → Msg × Bool)
    (format : Msg → Bytes) : Codec where
  Key := AESCrypto
  Stream := Stream
  Msg := Msg
  agree cryptoIv cliPubKey :=
    (genECDHSharedKey lib (hexKeyToBinary serPriKey) cliPubKey).map fun sharedKey =>
      ⟨sharedKey, cryptoIv⟩
  decrypt crypto data := crypto.decrypt lib data
  decompress := decompress
  parse := parse
  format := format

/-- The client's public key and the cipher that the constructor makes, unless the key agreement
throws. -/
def clientKeys (lib : CryptoPP) (serverPubKey : Bytes) (draw : Draw) :
    Option (Bytes × AESCrypto) :=
  let keys := genECDHKey lib draw
  (genECDHSharedKey lib keys.1 (hexKeyToBinary serverPubKey)).map fun sharedKey =>
    (keys.2, ⟨sharedKey, generateIV draw⟩)

/-- What the format relies on: public keys have their length, both sides agree on one key, and
`Decrypt` inverts `Encrypt` under one key and one block of the vector. -/
structure Agreement (lib : CryptoPP) : Prop where
  length_publicKey : ∀ pri, (lib.publicKey pri).length = publicKeyLength
  agree_comm : ∀ a b, lib.agree a (lib.publicKey b) = lib.agree b (lib.publicKey a)
  decrypt_encrypt : ∀ key iv data, iv.length = blockSize →
    lib.cbcDecrypt key iv (lib.cbcEncrypt key iv data) = some data

section Format

variable {E : Env} {serverPubKey serPriKey : Bytes} {draw : Draw} {pubKey : Bytes}
variable {Stream Msg : Type} {decompress : Stream → Bytes → Stream × Bytes}
variable {parse : Bytes → Msg × Bool} {format : Msg → Bytes}

/-- The cipher that the decoder makes: it reads 17 characters of the vector. -/
def serverKey (lib : CryptoPP) (serPriKey : Bytes)
    (decompress : Stream → Bytes → Stream × Bytes) (parse : Bytes → Msg × Bool)
    (format : Msg → Bytes) (crypto : AESCrypto) :
    (serverCodec lib serPriKey decompress parse format).Key :=
  (⟨crypto.key, crypto.iv.take 17⟩ : AESCrypto)

def writtenChunk (E : Env) (pubKey : Bytes)
    (codec : Codec) (key : codec.Key) (c : FiledChunk) : WrittenChunk codec where
  header := c.header E ⟨E.crypto.iv, pubKey⟩
  key := key
  items := c.outputs.map fun x => (E.crypto.encrypt E.lib x.bytes, x.bytes)

theorem writtenChunk_frames (codec : Codec) (key : codec.Key) (c : FiledChunk) :
    (writtenChunk E pubKey codec key c).frames = stored E c.outputs := by
  rw [WrittenChunk.frames, writtenChunk, stored, List.map_map]
  rfl

theorem writtenChunk_bytes (codec : Codec) (key : codec.Key) (c : FiledChunk) :
    (writtenChunk E pubKey codec key c).bytes = c.bytes E ⟨E.crypto.iv, pubKey⟩ := by
  rw [WrittenChunk.bytes, writtenChunk_frames]
  rfl

theorem writtenChunk_sound (agrees : Agreement E.lib)
    (server : hexKeyToBinary serverPubKey = E.lib.publicKey (hexKeyToBinary serPriKey))
    (generated : clientKeys E.lib serverPubKey draw = some (pubKey, E.crypto))
    {c : FiledChunk} (sound : c.Sound E) :
    (writtenChunk E pubKey (serverCodec E.lib serPriKey decompress parse format)
      (serverKey E.lib serPriKey decompress parse format E.crypto) c).Sound := by
  obtain ⟨sharedKey, hagree, hkeys⟩ := Option.map_eq_some_iff.mp generated
  obtain ⟨hpubKey, hcrypto⟩ := Prod.mk.inj hkeys
  have hiv : E.crypto.iv.length = 32 := by
    rw [← hcrypto]
    exact length_generateIV draw
  have hpub : pubKey.length = 65 := by
    rw [← hpubKey]
    exact agrees.length_publicKey _
  have hvector : (c.header E ⟨E.crypto.iv, pubKey⟩).iv = E.crypto.iv :=
    Bytes.store_whole (sound.arrays.1.trans hiv.symm)
  have room : 0 + pubKey.length ≤ c.stack.pubKey.length := by
    rw [hpub, sound.arrays.2]
    decide
  have hslice : Bytes.slice (c.header E ⟨E.crypto.iv, pubKey⟩).pubKey 0 65 = pubKey := by
    rw [← hpub]
    exact Bytes.slice_store_same room
  refine ⟨?_, ?_, ?_, ?_, ?_, ?_⟩
  · exact (congrArg List.length hvector).trans hiv
  · exact (Bytes.length_store room).trans sound.arrays.2
  · rw [writtenChunk_frames]
    rfl
  · rw [writtenChunk_frames]
    exact sound.small
  · have hserver : genECDHSharedKey E.lib (hexKeyToBinary serPriKey) pubKey = some sharedKey := by
      rw [← hagree, ← hpubKey, server]
      exact agrees.agree_comm _ _
    simp only [writtenChunk, serverCodec, hslice, hvector, hserver]
    rw [← hcrypto]
    rfl
  · intro x hx
    obtain ⟨output, -, rfl⟩ := List.mem_map.mp hx
    have hblock : (E.crypto.iv.take 17).take blockSize = E.crypto.vector := by
      rw [List.take_take]
      rfl
    have hsixteen : E.crypto.vector.length = blockSize := by
      rw [AESCrypto.vector, List.length_take, hiv]
      rfl
    simp only [serverCodec, writtenChunk, serverKey, AESCrypto.decrypt]
    rw [AESCrypto.vector, hblock]
    exact agrees.decrypt_encrypt _ _ _ hsixteen

theorem decodeFile_logFile (agrees : Agreement E.lib)
    (server : hexKeyToBinary serverPubKey = E.lib.publicKey (hexKeyToBinary serPriKey))
    (generated : clientKeys E.lib serverPubKey draw = some (pubKey, E.crypto))
    {file : FileData} {logFile : LogFile}
    (hbytes : file.bytes = (logFile.entry E ⟨E.crypto.iv, pubKey⟩).2)
    (nonempty : logFile.chunks ≠ []) (sound : ∀ c ∈ logFile.chunks, c.Sound E) (st : Stream) :
    let decoded := decodeFile (serverCodec E.lib serPriKey decompress parse format) file st
    FullyRead file decoded ∧
      decoded.inputs = logFile.chunks.map fun c => c.outputs.map Output.bytes := by
  let codec := serverCodec E.lib serPriKey decompress parse format
  let key : codec.Key := serverKey E.lib serPriKey decompress parse format E.crypto
  have hwritten : file.bytes =
      (logFile.chunks.map (writtenChunk E pubKey codec key)).flatMap WrittenChunk.bytes := by
    rw [hbytes, List.flatMap_map]
    simp only [writtenChunk_bytes]
    rfl
  have hsound : ∀ w ∈ logFile.chunks.map (writtenChunk E pubKey codec key), w.Sound := by
    intro w hw
    obtain ⟨c, hc, rfl⟩ := List.mem_map.mp hw
    exact writtenChunk_sound agrees server generated (sound c hc)
  have hsome : logFile.chunks.map (writtenChunk E pubKey codec key) ≠ [] :=
    fun hnil => nonempty (List.map_eq_nil_iff.mp hnil)
  obtain ⟨fully, hinputs⟩ := decodeFile_written hwritten hsome hsound st
  refine ⟨fully, hinputs.trans ?_⟩
  rw [List.map_map]
  refine List.map_congr_left fun c _ => ?_
  simp only [Function.comp_apply, writtenChunk, List.map_map]
  rfl

theorem decodeFile_logFiles (agrees : Agreement E.lib)
    (server : hexKeyToBinary serverPubKey = E.lib.publicKey (hexKeyToBinary serPriKey))
    (generated : clientKeys E.lib serverPubKey draw = some (pubKey, E.crypto))
    {files : List FileData} {logFiles : List LogFile}
    (hfiles : files.map FileData.bytes =
      (logFiles.map (LogFile.entry E ⟨E.crypto.iv, pubKey⟩)).map Prod.snd)
    (nonempty : ∀ logFile ∈ logFiles, logFile.chunks ≠ [])
    (sound : ∀ logFile ∈ logFiles, ∀ c ∈ logFile.chunks, c.Sound E) :
    List.Forall₂ (fun file chunks => ∀ st : Stream,
      let decoded := decodeFile (serverCodec E.lib serPriKey decompress parse format) file st
      FullyRead file decoded ∧
        decoded.inputs = chunks.map fun chunk => chunk.map Output.bytes)
      files (logFiles.map fun file => file.chunks.map FiledChunk.outputs) := by
  induction logFiles generalizing files with
  | nil =>
    obtain rfl := List.map_eq_nil_iff.mp hfiles
    exact List.Forall₂.nil
  | cons logFile logFiles ih =>
    cases files with
    | nil => cases hfiles
    | cons file files =>
      obtain ⟨hbytes, hrest⟩ := List.cons.inj hfiles
      refine List.Forall₂.cons (fun st => ?_) (ih hrest
        (fun file hfile => nonempty file (List.mem_cons_of_mem _ hfile))
        (fun file hfile => sound file (List.mem_cons_of_mem _ hfile)))
      rw [List.map_map]
      exact decodeFile_logFile agrees server generated hbytes (nonempty _ List.mem_cons_self)
        (sound _ List.mem_cons_self) st

end Format

section Runs

variable {Stream Msg : Type}

theorem flatten_chunks (logFiles : List LogFile) :
    (logFiles.map fun file => file.chunks.map FiledChunk.outputs).flatten =
      (logFiles.flatMap LogFile.chunks).map FiledChunk.outputs := by
  rw [List.flatMap_def, List.map_flatten, List.map_map]
  rfl

/-- Every file is read fully, `Decompress` is called on the outputs of `Compress` in their order,
and the first of a chunk, and no other, was compressed right behind a `ResetStream`. -/
def ReadsBack (codec : Codec) (files : List FileData) (outputs : List Output) : Prop :=
  ∃ groups : List (List (List Output)), groups.flatten.flatten = outputs ∧
    (∀ chunk ∈ groups.flatten, ∃ x xs, chunk = x :: xs ∧ x.afterReset = true ∧
      ∀ y ∈ xs, y.afterReset = false) ∧
    List.Forall₂ (fun file chunks => ∀ st : codec.Stream,
      FullyRead file (decodeFile codec file st) ∧
        (decodeFile codec file st).inputs = chunks.map fun chunk => chunk.map Output.bytes)
      files groups

/-- With the server's private key, `DecodeFile` reads back the log files of every run that ends
with a flush and the destructor: what `Compress` returned for the messages of its `Log` calls. -/
theorem decodeFile_returns_outputs (E : Env) (agrees : Agreement E.lib) (encrypts : E.Encrypts)
    (serverPubKey serPriKey : Bytes)
    (server : hexKeyToBinary serverPubKey = E.lib.publicKey (hexKeyToBinary serPriKey))
    (draw : Draw) (pubKey : Bytes)
    (generated : clientKeys E.lib serverPubKey draw = some (pubKey, E.crypto))
    (decompress : Stream → Bytes → Stream × Bytes) (parse : Bytes → Msg × Bool)
    (format : Msg → Bytes) (conf : Conf) (page : Nat) (hpage : 0 < page) (io₀ io io' : Io)
    (as : List Label)
    (meets : ∀ s₀ : Sink E,
      construct conf ⟨E.crypto.iv, pubKey⟩ page Disk.blank [] io₀ = .ok s₀ →
        Meets (step conf ⟨E.crypto.iv, pubKey⟩ page) Allowed s₀ (as ++ [.flush io io'])) :
    ∃ s₀ s : Sink E,
      construct conf ⟨E.crypto.iv, pubKey⟩ page Disk.blank [] io₀ = .ok s₀ ∧
      run (step conf ⟨E.crypto.iv, pubKey⟩ page) s₀ (as ++ [.flush io io']) = some s ∧
      Returned (as.flatMap Label.texts) s.outputs s.encoder.compress ∧
      ∀ files : List FileData, files.map FileData.bytes = s.destroy.map Prod.snd →
        ReadsBack (serverCodec E.lib serPriKey decompress parse format) files s.outputs := by
  obtain ⟨s₀, s, hnew, hrun, f, logFiles, shows, filed, order⟩ := run_flushed encrypts hpage meets
  have returned := returned_run (returned_construct hpage hnew) hrun
  rw [List.nil_append, List.flatMap_append] at returned
  have htexts : as.flatMap Label.texts ++ [Label.flush io io'].flatMap Label.texts =
      as.flatMap Label.texts := List.append_nil _
  rw [htexts] at returned
  refine ⟨s₀, s, hnew, hrun, returned, fun files hfiles => ?_⟩
  refine ⟨logFiles.map fun file => file.chunks.map FiledChunk.outputs, ?_, ?_, ?_⟩
  · rw [flatten_chunks, ← order]
    exact (List.flatMap_def ..).symm
  · intro chunk hchunk
    rw [flatten_chunks] at hchunk
    obtain ⟨c, hc, rfl⟩ := List.mem_map.mp hchunk
    have sound := filed.chunks c hc
    obtain ⟨x, xs, hcons⟩ := List.exists_cons_of_ne_nil sound.nonempty
    have opens := sound.opens
    rw [hcons] at opens ⊢
    exact ⟨x, xs, rfl, opens.first x rfl, opens.rest⟩
  · have hdestroy : s.destroy = logFiles.map (LogFile.entry E ⟨E.crypto.iv, pubKey⟩) := by
      rw [← filed.tidy.close, shows.same]
      rfl
    rw [hdestroy] at hfiles
    exact decodeFile_logFiles agrees server generated hfiles filed.nonempty
      fun file hfile c hc => filed.chunks c (List.mem_flatMap.mpr ⟨file, hfile, hc⟩)

end Runs

section Demo

theorem agreement_tagged : Agreement tagged where
  length_publicKey := tagged_laws.length_publicKey
  agree_comm := tagged_laws.agree_comm
  decrypt_encrypt key iv data _ := by
    simp only [tagged, List.take_left, List.drop_left, if_pos]

def demoDraw : Draw := ⟨[7], List.replicate 16 0xab, rfl⟩

def demoPriKey : Bytes := [48, 66]

def demoPubKey : Bytes := binaryKeyToHex (tagged.publicKey (hexKeyToBinary demoPriKey))

/-- Raw blocks, and the cipher that the constructor makes with the drawn values. -/
def demoEnv : Env where
  impl := .libstdcxx
  z := Compress.Stored.zstd
  lib := tagged
  crypto := ((clientKeys tagged demoPubKey demoDraw).map Prod.snd).getD ⟨[], []⟩

theorem demoEnv_encrypts : demoEnv.Encrypts := by
  intro data hdata
  exact List.append_ne_nil_of_right_ne_nil _ hdata

/-- A working stream that hands on 40 bytes with every write. -/
def demoIo : Io := ⟨"20260311053351", true, ⟨none, 40⟩, ⟨none, 40⟩,
  ⟨List.replicate 32 0, List.replicate 128 0⟩⟩

theorem fine_demoIo : Fine demoIo where
  working := ⟨rfl, rfl, rfl⟩
  dated := List.all_eq_true.mp (show demoIo.time.toList.all Char.isDigit = true by decide)
  arrays := ⟨List.length_replicate, List.length_replicate⟩

theorem allowed_log {s : Sink demoEnv} {f : FileSink (ItemStream.Encoder demoEnv.z)}
    (shows : Shows s f) {text : Bytes} {filled : Bool}
    (small : ∀ item ∈ ((opened f).encode text).2,
      f.master.length + ItemHeader.length + item.data.length < 2 ^ 32) :
    Allowed s (.log text filled) := by
  intro size hsize item hitem
  obtain rfl := Except.ok.inj (shows.master.size.symm.trans hsize)
  apply small item
  have hencoder : f.compress = s.encoder := by rw [shows.same]; rfl
  rw [opened, hencoder]
  exact hitem

def demoConf : Conf := ⟨"demo", 64⟩

def demoKeys : Keys := ⟨demoEnv.crypto.iv, tagged.publicKey [7]⟩

def twoLogs : List Label :=
  [.log [104, 105] true, .log [106] false, .cacheToFile demoIo]

private theorem meets_twoLogs (s₀ : Sink demoEnv)
    (hnew : construct demoConf demoKeys 4096 Disk.blank [] demoIo = .ok s₀) :
    Meets (step demoConf demoKeys 4096) Allowed s₀ (twoLogs ++ [.flush demoIo demoIo]) := by
  obtain ⟨s, hnew', shows, -⟩ :
      ∃ s : Sink demoEnv, construct demoConf demoKeys 4096 Disk.blank [] demoIo = .ok s ∧
        Shows s (SinkName.effective.initial [] [] [] (ItemStream.Encoder.new demoEnv)) ∧
        s.outputs = [] := construct_shows (by decide) demoIo
  obtain rfl := Except.ok.inj (hnew'.symm.trans hnew)
  obtain ⟨next, hlog, shows', -⟩ := shows.log (show 0 < 4096 by decide) [104, 105] true
    (by decide +kernel)
  refine ⟨allowed_log shows (by decide +kernel), fun s₁ h₁ => ?_⟩
  have hstep : step demoConf demoKeys 4096 s (.log [104, 105] true) = some next := by
    rw [step, hlog]
    rfl
  obtain rfl := Option.some.inj (hstep.symm.trans h₁)
  refine ⟨allowed_log shows' (by decide +kernel), fun _ _ => ⟨fine_demoIo, fun _ _ => ?_⟩⟩
  exact ⟨⟨fine_demoIo, fine_demoIo⟩, fun _ _ => trivial⟩

theorem decodeFile_returns_outputs_twoLogs :
    ∃ s₀ s : Sink demoEnv,
      construct demoConf demoKeys 4096 Disk.blank [] demoIo = .ok s₀ ∧
      run (step demoConf demoKeys 4096) s₀ (twoLogs ++ [.flush demoIo demoIo]) = some s ∧
      ∀ files : List FileData, files.map FileData.bytes = s.destroy.map Prod.snd →
        ReadsBack (serverCodec demoEnv.lib demoPriKey (fun (st : Unit) data => (st, data))
          (fun data => (data, true)) id) files s.outputs ∧
        decompressAll .libstdcxx (ZstdCompress.new : ZstdCompress demoEnv.z)
          (s.outputs.map Output.bytes) = [[104, 105], [106]] := by
  obtain ⟨s₀, s, hnew, hrun, returned, reads⟩ :=
    decodeFile_returns_outputs demoEnv agreement_tagged demoEnv_encrypts demoPubKey demoPriKey
      (hexKeyToBinary_binaryKeyToHex _) demoDraw (tagged.publicKey [7]) rfl
      (fun (st : Unit) data => (st, data)) (fun data => (data, true)) id demoConf 4096 (by decide)
      demoIo demoIo demoIo twoLogs meets_twoLogs
  refine ⟨s₀, s, hnew, hrun, fun files hfiles => ⟨reads files hfiles, ?_⟩⟩
  obtain ⟨xs, houtputs, htexts, streamed⟩ := returned.streamed Compress.Stored.stream (by decide)
  -- the first output of the first chunk is one behind a reset
  obtain ⟨groups, hgroups, opens, -⟩ := reads files hfiles
  have first : ∀ x ∈ xs.head?, x.1.afterReset = true := by
    intro x hx
    have hhead : x.1 ∈ s.outputs.head? := by
      rw [← houtputs, List.head?_map, Option.mem_def.mp hx]
      rfl
    rw [← hgroups] at hhead
    cases hflat : groups.flatten with
    | nil =>
      rw [hflat] at hhead
      cases hhead
    | cons chunk rest =>
      obtain ⟨y, ys, rfl, reset, -⟩ := opens chunk (by rw [hflat]; exact List.mem_cons_self)
      rw [hflat] at hhead
      obtain rfl := Option.some.inj hhead
      exact reset
  have fits : ∀ x ∈ xs, x.2.length ≤ ZstdCompress.outputCapacity .libstdcxx := by
    intro x hx
    have hmem : x.2 ∈ twoLogs.flatMap Label.texts := htexts ▸ List.mem_map_of_mem hx
    refine Nat.le_trans ?_ (ZstdCompress.le_outputCapacity .libstdcxx)
    exact (show ∀ text ∈ twoLogs.flatMap Label.texts, text.length ≤ 10240 by decide) x.2 hmem
  have hback := (streamed.decompresses Compress.Stored.stream .libstdcxx (List.nil_append xs).symm
    first fits ZstdCompress.new).1
  have hbytes : outputBytes xs = s.outputs.map Output.bytes := by
    rw [← houtputs, List.map_map]
    rfl
  rw [hbytes, htexts] at hback
  exact hback

end Demo

end FlashLog.Decode
