import FlashLog.Decode.PrintedText
import FlashLog.Decode.WriterRuns
import FlashLog.Formatter.WireFormat
import FlashLog.Handler.EffectiveLogger

/-!
From the statements of a program to the text that the decoder prints: over whole runs of a handle
with an `EffectiveSink`, each statement that passes the filter becomes one line.
-/

set_option autoImplicit false
set_option relaxedAutoImplicit false

namespace FlashLog.Decode

open FlashLog.Support FlashLog.Crypto FlashLog.Sinks
open FlashLog.Support.Machine (run Meets)
open FlashLog.Compress (Zstd ZstdCompress)
open FlashLog.Compress.ZstdCompress (decompressAll)
open FlashLog.Mmap (Disk StringImpl)
open FlashLog.Formatter (Protobuf Typed unset)
open FlashLog.Handler (Event LogHandle accepted calls single)
open FlashLog.Sinks.ItemStream (Env)
open FlashLog.Sinks.AtomicCalls
open FlashLog.Decode.DecodeFormatter (EffectiveMsg text getLevelStr decimal)

def zstdCodec (lib : CryptoPP) (serPriKey : Bytes) (z : Zstd) (impl : StringImpl)
    (pb : Protobuf) (format : EffectiveMsg → Bytes) : Codec :=
  serverCodec lib serPriKey (fun (st : ZstdCompress z) data => st.decompress impl data) pb.parse
    format

def mainPattern : Bytes := text "[%l][%D:%S][%p:%t][%F:%f:%#]%v"

def mainCodec (lib : CryptoPP) (serPriKey : Bytes) (z : Zstd) (impl : StringImpl) (pb : Protobuf)
    (millisecondsToDateString : Int → Bytes) : Codec :=
  zstdCodec lib serPriKey z impl pb fun msg =>
    DecodeFormatter.format millisecondsToDateString msg (DecodeFormatter.setPattern [] mainPattern)
      []

def line (millisecondsToDateString : Int → Bytes) (msg : EffectiveMsg) : Bytes :=
  text "[" ++ getLevelStr msg.level ++ text "][" ++ millisecondsToDateString msg.timestamp ++
    text ":" ++ decimal (msg.timestamp.tdiv 1000) ++ text "][" ++ decimal msg.pid ++ text ":" ++
    decimal msg.tid ++ text "][" ++ msg.fileName ++ text ":" ++ msg.funcName ++ text ":" ++
    decimal msg.line ++ text "]" ++ msg.logInfo

/-- A message that survives: its fields have values of their types, it is set, and it takes at
most the 10 KiB that `Decompress` has room for. -/
structure Printable (pb : Protobuf) (msg : EffectiveMsg) : Prop where
  typed : Typed msg
  set : msg ≠ unset
  short : (pb.serialize msg).length ≤ 1024 * 10

section Lines

variable {millisecondsToDateString : Int → Bytes} {msg : EffectiveMsg}

theorem parsePattern_mainPattern : DecodeFormatter.parsePattern mainPattern =
    [.aggregate (text "["), .logLevel, .aggregate (text "]["), .timestampDate,
      .aggregate (text ":"), .timestampSeconds, .aggregate (text "]["), .processId,
      .aggregate (text ":"), .threadId, .aggregate (text "]["), .fileName, .aggregate (text ":"),
      .funcName, .aggregate (text ":"), .line, .aggregate (text "]"), .logInfo] := by
  decide +kernel

theorem format_mainPattern :
    DecodeFormatter.format millisecondsToDateString msg (DecodeFormatter.setPattern [] mainPattern)
      [] = line millisecondsToDateString msg := by
  rw [DecodeFormatter.setPattern, parsePattern_mainPattern, DecodeFormatter.format_eq (by simp)]
  simp only [DecodeFormatter.rendered, List.flatMap_cons, List.flatMap_nil,
    DecodeFormatter.FlagFormatter.output, line, List.append_assoc, List.nil_append,
    List.append_nil]

end Lines

section Files

variable {E : Env} {serverPubKey serPriKey : Bytes} {draw : Draw} {pubKey : Bytes}
variable {impl : StringImpl} {pb : Protobuf} {millisecondsToDateString : Int → Bytes}

variable {format : EffectiveMsg → Bytes}

theorem printed_zstdCodec (st : ZstdCompress E.z) (payloads : List Bytes) :
    (printed (zstdCodec E.lib serPriKey E.z impl pb format) st payloads).1 =
      (decompressAll impl st payloads).map fun bs => format (pb.parse bs).1 := by
  induction payloads generalizing st with
  | nil => rfl
  | cons payload payloads ih => exact congrArg (_ :: ·) (ih _)

theorem decodeFile_messages (stream : E.z.Stream) (agrees : Agreement E.lib)
    (server : hexKeyToBinary serverPubKey = E.lib.publicKey (hexKeyToBinary serPriKey))
    (generated : clientKeys E.lib serverPubKey draw = some (pubKey, E.crypto))
    {file : FileData} {logFile : LogFile}
    (hbytes : file.bytes = (logFile.entry E ⟨E.crypto.iv, pubKey⟩).2)
    (nonempty : logFile.chunks ≠ []) (sound : ∀ c ∈ logFile.chunks, c.Sound E)
    {front xs : List (Output × Bytes)} {c : ZstdCompress E.z} (streamed : Streamed (front ++ xs) c)
    (hxs : xs.map Prod.fst = logFile.chunks.flatMap FiledChunk.outputs)
    (fits : ∀ x ∈ xs, x.2.length ≤ ZstdCompress.outputCapacity impl) (st : ZstdCompress E.z)
    (prior : Bytes) :
    let work := decodeFileInto (zstdCodec E.lib serPriKey E.z impl pb format)
      file st prior
    work.1.output = prior ++ lines (xs.map fun x => format (pb.parse x.2).1) ∧
      work.2 = none := by
  let codec := zstdCodec E.lib serPriKey E.z impl pb format
  let key : codec.Key := (⟨E.crypto.key, E.crypto.iv.take 17⟩ : AESCrypto)
  let ws := logFile.chunks.map (writtenChunk E pubKey codec key)
  have hwritten : file.bytes = ws.flatMap WrittenChunk.bytes := by
    rw [hbytes, List.flatMap_map]
    simp only [writtenChunk_bytes]
    rfl
  have hsound : ∀ w ∈ ws, w.Sound := by
    intro w hw
    obtain ⟨c, hc, rfl⟩ := List.mem_map.mp hw
    exact writtenChunk_sound agrees server generated (sound c hc)
  have hsome : ws ≠ [] := fun hnil => nonempty (List.map_eq_nil_iff.mp hnil)
  -- the items of all chunks are the outputs, one after the other
  have hitems : (ws.flatMap fun w => w.items.map Prod.snd) = outputBytes xs := by
    have houtputs : outputBytes xs = (xs.map Prod.fst).map Output.bytes := by
      rw [List.map_map]
      rfl
    rw [houtputs, hxs, List.flatMap_map, List.map_flatMap]
    refine List.flatMap_congr fun c _ => ?_
    rw [writtenChunk, List.map_map]
    rfl
  have first : ∀ x ∈ xs.head?, x.1.afterReset = true := by
    intro x hx
    obtain ⟨c, cs, hcons⟩ := List.exists_cons_of_ne_nil nonempty
    have hc := sound c (by rw [hcons]; exact List.mem_cons_self)
    obtain ⟨y, ys, hys⟩ := List.exists_cons_of_ne_nil hc.nonempty
    apply hc.opens.first
    rw [hcons, List.flatMap_cons, hys, List.cons_append] at hxs
    obtain ⟨x', xs', rfl, hy, -⟩ := List.map_eq_cons_iff.mp hxs
    obtain rfl := Option.some.inj hx
    rw [hys, ← hy]
    rfl
  obtain ⟨htexts, -⟩ := streamed.decompresses stream impl rfl first fits st
  obtain ⟨houtput, herror⟩ := decodeFile_printed (c := codec) hwritten hsome hsound st prior
  refine ⟨?_, herror⟩
  rw [houtput, hitems, printed_zstdCodec, htexts, List.map_map]
  rfl

theorem decodeFiles_messages (stream : E.z.Stream) (agrees : Agreement E.lib)
    (server : hexKeyToBinary serverPubKey = E.lib.publicKey (hexKeyToBinary serPriKey))
    (generated : clientKeys E.lib serverPubKey draw = some (pubKey, E.crypto))
    {files : List FileData} {logFiles : List LogFile}
    (hfiles : files.map FileData.bytes =
      (logFiles.map (LogFile.entry E ⟨E.crypto.iv, pubKey⟩)).map Prod.snd)
    (nonempty : ∀ logFile ∈ logFiles, logFile.chunks ≠ [])
    (sound : ∀ logFile ∈ logFiles, ∀ c ∈ logFile.chunks, c.Sound E)
    {front xs : List (Output × Bytes)} {c : ZstdCompress E.z} (streamed : Streamed (front ++ xs) c)
    (hxs : xs.map Prod.fst = filedOutputs logFiles)
    (fits : ∀ x ∈ xs, x.2.length ≤ ZstdCompress.outputCapacity impl) (st : ZstdCompress E.z)
    (prior : Bytes) :
    decodeFiles (zstdCodec E.lib serPriKey E.z impl pb format) st files prior =
      (prior ++ lines (xs.map fun x => format (pb.parse x.2).1),
        files.map fun _ => none) := by
  induction logFiles generalizing files front xs prior with
  | nil =>
    obtain rfl := List.map_eq_nil_iff.mp hfiles
    obtain rfl := List.map_eq_nil_iff.mp hxs
    exact congrArg₂ Prod.mk (List.append_nil prior).symm rfl
  | cons logFile logFiles ih =>
    cases files with
    | nil => cases hfiles
    | cons file files =>
      obtain ⟨hbytes, hrest⟩ := List.cons.inj hfiles
      rw [filedOutputs, List.flatMap_cons, List.flatMap_append] at hxs
      obtain ⟨ys, zs, rfl, hys, hzs⟩ := List.map_eq_append_iff.mp hxs
      rw [← List.append_assoc] at streamed
      obtain ⟨c', before⟩ := streamed.front
      obtain ⟨houtput, herror⟩ :
          (decodeFileInto (zstdCodec E.lib serPriKey E.z impl pb format) file st prior).1.output =
              prior ++ lines (ys.map fun x => format (pb.parse x.2).1) ∧
            (decodeFileInto (zstdCodec E.lib serPriKey E.z impl pb format) file st prior).2 =
              none :=
        decodeFile_messages stream agrees server generated hbytes (nonempty _ List.mem_cons_self)
          (sound _ List.mem_cons_self) before hys
          (fun x hx => fits x (List.mem_append_left _ hx)) st prior
      have hlater := ih hrest (fun file hfile => nonempty file (List.mem_cons_of_mem _ hfile))
        (fun file hfile => sound file (List.mem_cons_of_mem _ hfile)) streamed hzs
        (fun x hx => fits x (List.mem_append_right _ hx))
        (prior ++ lines (ys.map fun x => format (pb.parse x.2).1))
      simp only [decodeFiles, houtput, herror, hlater, List.map_append, lines_append,
        List.append_assoc, List.map_cons]

end Files

section Runs

variable {E : Env} {impl : StringImpl} {pb : Protobuf} {millisecondsToDateString : Int → Bytes}

theorem nonempty_of_printable (documented : pb.Documented) {msgs : List EffectiveMsg}
    (printable : ∀ msg ∈ msgs, Printable pb msg) :
    ∀ bs ∈ msgs.map pb.serialize, bs ≠ [] := by
  intro bs hbs hnil
  obtain ⟨msg, hmsg, rfl⟩ := List.mem_map.mp hbs
  have hprintable := printable msg hmsg
  exact hprintable.set (documented.unset_of_empty msg hprintable.typed hnil)

theorem parse_printable (documented : pb.Documented) {msgs : List EffectiveMsg}
    (printable : ∀ msg ∈ msgs, Printable pb msg) :
    (msgs.map pb.serialize).map (fun bs => (pb.parse bs).1) = msgs := by
  rw [List.map_map]
  refine (List.map_congr_left fun msg hmsg => ?_).trans (List.map_id msgs)
  have hprintable := printable msg hmsg
  have small : (pb.serialize msg).length < 2 ^ 31 :=
    Nat.lt_of_le_of_lt hprintable.short (by decide)
  exact congrArg Prod.fst (documented.parse_serialize msg hprintable.typed small)

/-- A handle with one `EffectiveSink` runs through any statements, flushes and tasks of the
executor, up to a flush and the destructor. With the server's private key, `main` on each of the
log files then appends to the output file one line for each statement that passed the filters, in
order, and nothing else. -/
theorem decodeFiles_accepted (E : Env) (stream : E.z.Stream) (agrees : Agreement E.lib)
    (encrypts : E.Encrypts) (pb : Protobuf) (documented : pb.Documented)
    (serverPubKey serPriKey : Bytes)
    (server : hexKeyToBinary serverPubKey = E.lib.publicKey (hexKeyToBinary serPriKey))
    (draw : Draw) (pubKey : Bytes)
    (generated : clientKeys E.lib serverPubKey draw = some (pubKey, E.crypto))
    (impl : StringImpl) (millisecondsToDateString : Int → Bytes) (conf : Conf) (page : Nat)
    (hpage : 0 < page) (io₀ io io' : Io) (activeLevel : Nat) (events : List Event)
    (meets : ∀ s₀ : Sink E,
      construct conf ⟨E.crypto.iv, pubKey⟩ page Disk.blank [] io₀ = .ok s₀ →
        Meets (AtomicCalls.step conf ⟨E.crypto.iv, pubKey⟩ page) Allowed s₀
          (calls pb activeLevel .kInfo (events ++ [.flush io io'])))
    (printable : ∀ msg ∈ accepted activeLevel .kInfo events, Printable pb msg) :
    ∃ (s₀ s : Sink E) (handle : LogHandle (Sink E)),
      construct conf ⟨E.crypto.iv, pubKey⟩ page Disk.blank [] io₀ = .ok s₀ ∧
      run (Handler.step pb conf ⟨E.crypto.iv, pubKey⟩ page activeLevel) (LogHandle.new [s₀])
        (events ++ [.flush io io']) = some handle ∧
      handle.sinks = [s] ∧
      ∀ files : List FileData, files.map FileData.bytes = s.destroy.map Prod.snd →
        ∀ (st : ZstdCompress E.z) (prior : Bytes),
          decodeFiles (mainCodec E.lib serPriKey E.z impl pb millisecondsToDateString) st files
              prior =
            (prior ++ lines ((accepted activeLevel .kInfo events).map
                (line millisecondsToDateString)),
              files.map fun _ => none) := by
  have hcalls : calls pb activeLevel .kInfo (events ++ [.flush io io']) =
      calls pb activeLevel .kInfo events ++ [.flush io io'] := Handler.calls_flush _ _ _ _
  rw [hcalls] at meets
  obtain ⟨s₀, s, hnew, hrun, f, logFiles, shows, filed, order⟩ := run_flushed encrypts hpage meets
  refine ⟨s₀, s, single (Handler.levelAfter .kInfo (events ++ [Event.flush io io'])) s, hnew, ?_, rfl,
    fun files hfiles st prior => ?_⟩
  · have hsingle : run (Handler.step pb conf ⟨E.crypto.iv, pubKey⟩ page activeLevel)
        (single .kInfo s₀) (events ++ [Event.flush io io']) = _ :=
      Handler.run_single .kInfo s₀ (events ++ [Event.flush io io'])
    rw [hcalls, hrun] at hsingle
    exact hsingle
  · have htexts : (calls pb activeLevel .kInfo events ++ [Label.flush io io']).flatMap Label.texts =
        (accepted activeLevel .kInfo events).map pb.serialize := by
      rw [List.flatMap_append, Handler.texts_calls]
      exact List.append_nil _
    have nonempty := nonempty_of_printable documented printable
    rw [← htexts] at nonempty
    obtain ⟨xs, houtputs, hmessages, streamed⟩ :=
      (returned_run (returned_construct hpage hnew) hrun).streamed stream nonempty
    rw [List.nil_append, htexts] at hmessages
    have fits : ∀ x ∈ xs, x.2.length ≤ ZstdCompress.outputCapacity impl := by
      intro x hx
      have hmem : x.2 ∈ xs.map Prod.snd := List.mem_map_of_mem hx
      rw [hmessages] at hmem
      obtain ⟨msg, hmsg, hserialize⟩ := List.mem_map.mp hmem
      rw [← hserialize]
      exact Nat.le_trans (printable msg hmsg).short (ZstdCompress.le_outputCapacity impl)
    have hdestroy : s.destroy = logFiles.map (LogFile.entry E ⟨E.crypto.iv, pubKey⟩) := by
      rw [← filed.tidy.close, shows.same]
      rfl
    rw [hdestroy] at hfiles
    have hprinted : decodeFiles (mainCodec E.lib serPriKey E.z impl pb millisecondsToDateString) st
        files prior = _ :=
      decodeFiles_messages stream agrees server generated hfiles filed.nonempty
        (fun file hfile c hc => filed.chunks c (List.mem_flatMap.mpr ⟨file, hfile, hc⟩))
        ((List.nil_append xs).symm ▸ streamed) (houtputs.trans order.symm) fits st prior
    have hlines : (xs.map fun x => line millisecondsToDateString (pb.parse x.2).1) =
        (accepted activeLevel .kInfo events).map (line millisecondsToDateString) := by
      have hparsed := congrArg (List.map (line millisecondsToDateString))
        (parse_printable documented printable)
      rw [← hmessages, List.map_map, List.map_map] at hparsed
      exact hparsed
    rw [hprinted]
    simp only [format_mainPattern, hlines]

end Runs

section Demo

def demoMoment : Formatter.Moment := ⟨1773206031123, 4711, 4712⟩

/-- Two messages that pass, between two that are filtered. -/
def demoEvents : List Event :=
  [.call .logDebug (text "src/a.cc") 7 (text "main") (text "no") demoMoment false,
    .call .logInfo (text "src/a.cc") 8 (text "main") (text "hi") demoMoment true,
    .setLevel .kError,
    .call .logWarn (text "src/a.cc") 9 (text "main") (text "no") demoMoment false,
    .call .logError [] 10 [] (text "j") demoMoment false,
    .cacheToFile demoIo]

private theorem meets_demoEvents (s₀ : Sink demoEnv)
    (hnew : construct demoConf demoKeys 4096 Disk.blank [] demoIo = .ok s₀) :
    Meets (step demoConf demoKeys 4096) Allowed s₀ (calls Formatter.WireFormat.protobuf 0 .kInfo
      (demoEvents ++ [.flush demoIo demoIo])) := by
  obtain ⟨s, hnew', shows, -⟩ :
      ∃ s : Sink demoEnv, construct demoConf demoKeys 4096 Disk.blank [] demoIo = .ok s ∧
        Shows s (SinkName.effective.initial [] [] [] (ItemStream.Encoder.new demoEnv)) ∧
        s.outputs = [] := construct_shows (by decide) demoIo
  obtain rfl := Except.ok.inj (hnew'.symm.trans hnew)
  let first := Formatter.format Formatter.WireFormat.protobuf
    (Handler.message .logInfo (text "src/a.cc") 8 (text "main") (text "hi")) demoMoment
  let second := Formatter.format Formatter.WireFormat.protobuf
    (Handler.message .logError [] 10 [] (text "j")) demoMoment
  have hcalls : calls Formatter.WireFormat.protobuf 0 .kInfo
      (demoEvents ++ [.flush demoIo demoIo]) =
        [.log first true, .log second false, .cacheToFile demoIo, .flush demoIo demoIo] := rfl
  rw [hcalls]
  obtain ⟨next, hlog, shows', -⟩ := shows.log (show 0 < 4096 by decide) first true
    (by decide +kernel)
  refine ⟨allowed_log shows (by decide +kernel), fun s₁ h₁ => ?_⟩
  have hstep : AtomicCalls.step demoConf demoKeys 4096 s (.log first true) = some next := by
    rw [AtomicCalls.step, hlog]
    rfl
  obtain rfl := Option.some.inj (hstep.symm.trans h₁)
  refine ⟨allowed_log shows' (by decide +kernel), fun _ _ => ⟨fine_demoIo, fun _ _ => ?_⟩⟩
  exact ⟨⟨fine_demoIo, fine_demoIo⟩, fun _ _ => trivial⟩

example : line (fun _ => text "2026-03-11 05:13:51")
    (Formatter.effectiveMsg (Handler.message .logInfo (text "src/a.cc") 8 (text "main") (text "hi"))
      demoMoment) =
    text "[I][2026-03-11 05:13:51:1773206031][4711:4712][a.cc:main:8]hi" := by
  decide +kernel

theorem printable_demoEvents : ∀ msg ∈ accepted 0 .kInfo demoEvents,
    Printable Formatter.WireFormat.protobuf msg := by
  have both : accepted 0 .kInfo demoEvents =
      [Formatter.effectiveMsg (Handler.message .logInfo (text "src/a.cc") 8 (text "main")
          (text "hi")) demoMoment,
        Formatter.effectiveMsg (Handler.message .logError [] 10 [] (text "j")) demoMoment] := by
    rfl
  rw [both]
  have typed : ∀ (statement : Handler.LogMacro) (file function bs : Bytes) (at_line : UInt32),
      Formatter.Utf8 (Handler.LogSourceLoc.new file at_line function).fileName →
      Formatter.Utf8 (Handler.LogSourceLoc.new file at_line function).funcName →
      Formatter.Utf8 bs →
      Typed (Formatter.effectiveMsg (Handler.message statement file at_line function bs)
        demoMoment) :=
    fun _ _ _ _ _ hfile hfunction hbs =>
      Formatter.typed_effectiveMsg (by decide) hfile hfunction hbs
  intro msg hmsg
  rcases List.mem_cons.mp hmsg with rfl | hmsg
  · refine ⟨typed _ _ _ _ _ ?_ ?_ ?_, ?_, ?_⟩
    · decide +kernel
    · decide +kernel
    · decide +kernel
    · intro h
      exact absurd (congrArg EffectiveMsg.timestamp h) (by decide)
    · decide +kernel
  · obtain rfl := List.mem_singleton.mp hmsg
    refine ⟨typed _ _ _ _ _ ?_ ?_ ?_, ?_, ?_⟩
    · decide +kernel
    · decide +kernel
    · decide +kernel
    · intro h
      exact absurd (congrArg EffectiveMsg.timestamp h) (by decide)
    · decide +kernel

theorem decodeFiles_accepted_demoEvents :
    ∃ (s₀ s : Sink demoEnv) (handle : LogHandle (Sink demoEnv)),
      construct demoConf demoKeys 4096 Disk.blank [] demoIo = .ok s₀ ∧
      run (Handler.step Formatter.WireFormat.protobuf demoConf demoKeys 4096 0) (LogHandle.new [s₀])
        (demoEvents ++ [.flush demoIo demoIo]) = some handle ∧
      handle.sinks = [s] ∧
      ∀ files : List FileData, files.map FileData.bytes = s.destroy.map Prod.snd →
        ∀ (st : ZstdCompress demoEnv.z) (prior : Bytes),
          decodeFiles (mainCodec demoEnv.lib demoPriKey demoEnv.z .libstdcxx
              Formatter.WireFormat.protobuf fun _ => []) st files prior =
            (prior ++ lines ((accepted 0 .kInfo demoEvents).map (line fun _ => [])),
              files.map fun _ => none) :=
  decodeFiles_accepted demoEnv Compress.Stored.stream agreement_tagged demoEnv_encrypts
    Formatter.WireFormat.protobuf Formatter.WireFormat.documented demoPubKey demoPriKey
    (hexKeyToBinary_binaryKeyToHex _) demoDraw (tagged.publicKey [7]) rfl .libstdcxx (fun _ => [])
    demoConf 4096 (by decide) demoIo demoIo demoIo 0 demoEvents meets_demoEvents
    printable_demoEvents

end Demo

end FlashLog.Decode
