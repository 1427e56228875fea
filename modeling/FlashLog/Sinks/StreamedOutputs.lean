import FlashLog.Sinks.FiledOutputs

/-!
What the outputs of `Compress` in a run of `EffectiveSink` are made of: one compressor has put them
out, message by message, and any decompressor gives back a series of them that starts right
behind a reset.
-/

set_option autoImplicit false
set_option relaxedAutoImplicit false

namespace FlashLog.Sinks.AtomicCalls

open FlashLog.Support
open FlashLog.Compress (ZstdCompress)
open FlashLog.Compress.ZstdCompress (decompressAll after InStep)
open FlashLog.Mmap (StringImpl Disk)
open FlashLog.Sinks.ItemStream (Env Encoder)

variable {E : Env}

def compressor (c : ZstdCompress E.z) (x : Output) : ZstdCompress E.z :=
  if x.afterReset then c.resetStream else c

inductive Streamed : List (Output × Bytes) → ZstdCompress E.z → Prop
  | new : Streamed [] ZstdCompress.new
  | output {xs : List (Output × Bytes)} {c c' : ZstdCompress E.z} (x : Output × Bytes) (size : Nat)
      (before : Streamed xs c) (nonempty : x.2 ≠ []) (room : E.z.compressBound x.2.length ≤ size)
      (compressed : (compressor c x.1).compress x.2 size = (c', x.1.bytes)) :
      Streamed (xs ++ [x]) c'

theorem Streamed.front {front back : List (Output × Bytes)} {c : ZstdCompress E.z}
    (h : Streamed (front ++ back) c) : ∃ c' : ZstdCompress E.z, Streamed front c' := by
  induction back using List.reverseRecOn generalizing c with
  | nil =>
    rw [List.append_nil] at h
    exact ⟨c, h⟩
  | append_singleton back y ih =>
    rw [← List.append_assoc] at h
    generalize hxs : front ++ back ++ [y] = xs at h
    cases h with
    | new => exact absurd hxs (List.append_ne_nil_of_right_ne_nil _ (List.cons_ne_nil _ _))
    | output x size before nonempty room compressed =>
      obtain ⟨rfl, -⟩ := List.append_inj' hxs rfl
      exact ih before

def outputBytes (xs : List (Output × Bytes)) : List Bytes := xs.map fun x => x.1.bytes

theorem Streamed.decompresses (stream : E.z.Stream) (impl : StringImpl)
    {xs front back : List (Output × Bytes)} {c : ZstdCompress E.z} (h : Streamed xs c)
    (split : xs = front ++ back) (first : ∀ x ∈ back.head?, x.1.afterReset = true)
    (fits : ∀ x ∈ back, x.2.length ≤ ZstdCompress.outputCapacity impl) (d : ZstdCompress E.z) :
    decompressAll impl d (outputBytes back) = back.map Prod.snd ∧
      (back ≠ [] → InStep stream c (after impl d (outputBytes back))) := by
  induction h generalizing back with
  | new =>
    obtain ⟨-, rfl⟩ := List.append_eq_nil_iff.mp split.symm
    exact ⟨rfl, fun filled => absurd rfl filled⟩
  | @output xs c c' x size before nonempty room compressed ih =>
    rcases List.eq_nil_or_concat back with rfl | ⟨back, y, rfl⟩
    · exact ⟨rfl, fun filled => absurd rfl filled⟩
    rw [List.concat_eq_append] at split first fits ⊢
    rw [← List.append_assoc] at split
    obtain ⟨hxs, hx⟩ := List.append_inj' split rfl
    obtain rfl : x = y := List.head_eq_of_cons_eq hx
    have firstBack : ∀ y ∈ back.head?, y.1.afterReset = true := by
      intro y hy
      apply first y
      rw [List.head?_append, Option.mem_def.mp hy]
      rfl
    obtain ⟨htexts, hstep⟩ :=
      ih hxs firstBack fun y hy => fits y (List.mem_append_left _ hy)
    have inStep : InStep stream (compressor c x.1) (after impl d (outputBytes back)) := by
      rw [compressor]
      split
      · exact Or.inl (stream.atStart_reset _)
      · rename_i hreset
        apply hstep
        rintro rfl
        exact hreset (first x rfl)
    obtain ⟨c₁, item, d', hcompress, hdecompress, hnext⟩ := ZstdCompress.decompress_inStep stream
      impl inStep nonempty room (fits x (List.mem_append_right _ List.mem_cons_self))
    obtain ⟨rfl, rfl⟩ := Prod.mk.inj (compressed.symm.trans hcompress)
    have hbytes : outputBytes (back ++ [x]) = outputBytes back ++ [x.1.bytes] := by
      rw [outputBytes, List.map_append]
      rfl
    rw [hbytes, ZstdCompress.decompressAll_append, ZstdCompress.after_append, htexts,
      List.map_append]
    simp only [decompressAll, after, hdecompress]
    exact ⟨rfl, fun _ => hnext⟩

/-- What a compressor has returned for its messages, one after the other; nothing stands for a
size of 0. -/
inductive Returned : List Bytes → List Output → ZstdCompress E.z → Prop
  | new : Returned [] [] ZstdCompress.new
  | log {texts : List Bytes} {outputs : List Output} {c c' : ZstdCompress E.z} {output : Bytes}
      (text : Bytes) (reset : Bool) (size : Nat) (before : Returned texts outputs c)
      (room : E.z.compressBound text.length ≤ size)
      (compressed : (if reset then c.resetStream else c).compress text size = (c', output)) :
      Returned (texts ++ [text]) (outputs ++ if output.isEmpty then [] else [⟨output, reset⟩]) c'

theorem Returned.streamed (stream : E.z.Stream) {texts : List Bytes} {outputs : List Output}
    {c : ZstdCompress E.z} (h : Returned texts outputs c)
    (nonempty : ∀ text ∈ texts, text ≠ []) :
    ∃ xs, xs.map Prod.fst = outputs ∧ xs.map Prod.snd = texts ∧ Streamed xs c := by
  induction h with
  | new => exact ⟨[], rfl, rfl, Streamed.new⟩
  | @log texts outputs c c' output text reset size before room compressed ih =>
    obtain ⟨xs, houtputs, htexts, streamed⟩ :=
      ih fun text htext => nonempty text (List.mem_append_left _ htext)
    have filled : text ≠ [] := nonempty text (List.mem_append_right _ List.mem_cons_self)
    have produced : output ≠ [] := by
      have := ZstdCompress.compress_ne_nil stream (if reset then c.resetStream else c) filled room
      rwa [compressed] at this
    have hisEmpty : ¬ output.isEmpty = true := fun htrue => produced (List.isEmpty_iff.mp htrue)
    refine ⟨xs ++ [(⟨output, reset⟩, text)], ?_, ?_, ?_⟩
    · rw [if_neg hisEmpty, List.map_append, houtputs]
      rfl
    · rw [List.map_append, htexts]
      rfl
    · exact Streamed.output (⟨output, reset⟩, text) size streamed filled room compressed

section Runs

variable {conf : Conf} {keys : Keys} {page : Nat} {s next : Sink E}

theorem encode_compress (e : Encoder E.z) (text : Bytes) :
    ∃ size, E.z.compressBound text.length ≤ size ∧
      (e.compress.compress text size).1 = (e.encode text).1.compress ∧
      compressed e text = if (e.compress.compress text size).2.isEmpty then []
        else [(e.compress.compress text size).2] := by
  refine ⟨_, Mmap.StdString.le_capacity_reserve E.impl e.compressBuf
    (E.z.compressBound text.length), ?_, rfl⟩
  have encodes := ItemStream.encode_cases e text
  generalize e.encode text = out at encodes
  cases encodes with
  | nothing compress buf hcompress => rw [hcompress]
  | unencrypted compress buf output hcompress houtput hdata => rw [hcompress]
  | item compress buf output hcompress houtput => rw [hcompress]

theorem log_encoder {text : Bytes} {filled : Bool} (h : s.log page text filled = .ok next) :
    ∃ reset : Bool, ∃ e : Encoder E.z,
      e = (if reset then s.encoder.resetStream else s.encoder) ∧
      next.encoder = (e.encode text).1 ∧
      next.outputs = s.outputs ++ (compressed e text).map (⟨·, reset⟩) := by
  rw [Sink.log] at h
  cases hsize : s.masterMmap.size s.disk with
  | error fault =>
    rw [hsize] at h
    cases h
  | ok size =>
    refine ⟨decide (size = 0), if size = 0 then s.encoder.resetStream else s.encoder, ?_, ?_⟩
    · by_cases hzero : size = 0 <;> simp [hzero]
    · generalize hopened : (if size = 0 then s.encoder.resetStream else s.encoder) = e
      simp only [hsize, bind, Except.bind, hopened] at h
      cases hencode : e.encode text with
      | mk encoder item =>
        rw [hencode] at h
        cases item with
        | none =>
          obtain rfl := Except.ok.inj h
          exact ⟨rfl, rfl⟩
        | some item =>
          simp only at h
          cases hwrite : MMapCallers.writeToCache page s.masterMmap s.disk item.data with
          | error fault =>
            rw [hwrite] at h
            cases h
          | ok out =>
            rw [hwrite] at h
            obtain rfl := Except.ok.inj h
            cases filled with
            | false => exact ⟨rfl, rfl⟩
            | true =>
              simp only [if_true]
              rw [Sink.swapCache]
              split <;> exact ⟨rfl, rfl⟩

theorem Returned.log_sink {texts : List Bytes} (returned : Returned texts s.outputs s.encoder.compress)
    {text : Bytes} {filled : Bool} (h : s.log page text filled = .ok next) :
    Returned (texts ++ [text]) next.outputs next.encoder.compress := by
  obtain ⟨reset, e, he, hencoder, hnext⟩ := log_encoder h
  obtain ⟨size, room, hcompress, hcompressed⟩ := encode_compress e text
  have hcompressor : e.compress =
      if reset then s.encoder.compress.resetStream else s.encoder.compress := by
    rw [he]
    cases reset <;> rfl
  have houtputs : next.outputs = s.outputs ++
      if (e.compress.compress text size).2.isEmpty then []
      else [⟨(e.compress.compress text size).2, reset⟩] := by
    rw [hnext, hcompressed]
    split <;> rfl
  rw [houtputs, hencoder, ← hcompress]
  exact Returned.log text reset size returned room (by rw [← hcompressor])

theorem cacheToFile_encoder {io : Io} (h : s.cacheToFile conf keys io = .ok next) :
    next.encoder = s.encoder ∧ next.outputs = s.outputs := by
  rw [Sink.cacheToFile] at h
  split at h
  · obtain rfl := Except.ok.inj h
    exact ⟨rfl, rfl⟩
  · cases hsize : s.slaveMmap.size s.disk with
    | error fault =>
      rw [hsize] at h
      cases h
    | ok size =>
      rw [hsize] at h
      simp only [bind, Except.bind] at h
      split at h
      · obtain rfl := Except.ok.inj h
        exact ⟨rfl, rfl⟩
      · cases hcontents : s.slaveMmap.contents s.disk with
        | error fault =>
          rw [hcontents] at h
          cases h
        | ok data =>
          rw [hcontents] at h
          simp only at h
          cases hclear : s.slaveMmap.clear s.disk with
          | error fault =>
            rw [hclear] at h
            cases h
          | ok out =>
            rw [hclear] at h
            obtain rfl := Except.ok.inj h
            exact ⟨rfl, rfl⟩

theorem swapCache_encoder (s : Sink E) :
    s.swapCache.encoder = s.encoder ∧ s.swapCache.outputs = s.outputs := by
  rw [Sink.swapCache]
  split <;> exact ⟨rfl, rfl⟩

theorem flush_encoder {io io' : Io} (h : s.flush conf keys io io' = .ok next) :
    next.encoder = s.encoder ∧ next.outputs = s.outputs := by
  rw [Sink.flush] at h
  cases hfirst : s.cacheToFile conf keys io with
  | error fault =>
    rw [hfirst] at h
    cases h
  | ok first =>
    rw [hfirst] at h
    have before := cacheToFile_encoder hfirst
    have swapped := swapCache_encoder first
    have last := cacheToFile_encoder h
    exact ⟨last.1.trans (swapped.1.trans before.1), last.2.trans (swapped.2.trans before.2)⟩

theorem ok_of_toOption {ε α : Type} {x : Except ε α} {a : α} (h : x.toOption = some a) :
    x = .ok a := by
  cases x with
  | error e => cases h
  | ok b =>
    obtain rfl := Option.some.inj h
    rfl

def Label.texts : Label → List Bytes
  | .log text _ => [text]
  | .flush _ _ => []
  | .cacheToFile _ => []

theorem returned_step {texts : List Bytes} (returned : Returned texts s.outputs s.encoder.compress)
    {a : Label} (h : step conf keys page s a = some next) :
    Returned (texts ++ a.texts) next.outputs next.encoder.compress := by
  have same : ∀ {next : Sink E}, next.encoder = s.encoder ∧ next.outputs = s.outputs →
      Returned (texts ++ []) next.outputs next.encoder.compress := by
    intro next ⟨hencoder, houtputs⟩
    rw [hencoder, houtputs, List.append_nil]
    exact returned
  cases a with
  | log text filled => exact returned.log_sink (ok_of_toOption h)
  | flush io io' => exact same (flush_encoder (ok_of_toOption h))
  | cacheToFile io => exact same (cacheToFile_encoder (ok_of_toOption h))

theorem returned_run {as : List Label} {texts : List Bytes}
    (returned : Returned texts s.outputs s.encoder.compress)
    (h : Machine.run (step conf keys page) s as = some next) :
    Returned (texts ++ as.flatMap Label.texts) next.outputs next.encoder.compress := by
  induction as generalizing s texts with
  | nil =>
    obtain rfl := Option.some.inj h
    rw [List.flatMap_nil, List.append_nil]
    exact returned
  | cons a as ih =>
    rw [Machine.run_cons] at h
    obtain ⟨s', hstep, hrest⟩ := Option.bind_eq_some_iff.mp h
    rw [List.flatMap_cons, ← List.append_assoc]
    exact ih (returned_step returned hstep) hrest

theorem returned_construct (hpage : 0 < page) {io₀ : Io}
    (hnew : construct conf keys page Disk.blank [] io₀ = .ok s) :
    Returned [] s.outputs s.encoder.compress := by
  obtain ⟨s', hnew', shows, houtputs⟩ :
      ∃ s' : Sink E, construct conf keys page Disk.blank [] io₀ = .ok s' ∧
        Shows s' (SinkName.effective.initial [] [] [] (Encoder.new E)) ∧
        s'.outputs = [] := construct_shows hpage io₀
  obtain rfl := Except.ok.inj (hnew'.symm.trans hnew)
  have hencoder : s'.encoder = Encoder.new E := (congrArg FileSink.compress shows.same).symm
  rw [houtputs, hencoder]
  exact Returned.new

end Runs

end FlashLog.Sinks.AtomicCalls
