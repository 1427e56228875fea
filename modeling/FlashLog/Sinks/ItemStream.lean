import Mathlib.Data.List.Chain
import FlashLog.Compress.RoundTrip
import FlashLog.Crypto.AESCrypto
import FlashLog.Sinks.CompressSink

/-!
The locked section of `EffectiveSink::Log` as an encoder of messages into items, with the
resets of its stream counted, and the lists of items that a decoder can read on their own.
-/

set_option autoImplicit false
set_option relaxedAutoImplicit false

namespace FlashLog.Sinks.ItemStream

open FlashLog.Support FlashLog.Crypto
open FlashLog.Compress (Zstd ZstdCompress)
open FlashLog.Mmap (StringImpl StdString)

/-- `compress_` and `compress_buf_`, the number of `ResetStream` calls so far, and whether
`Compress` has put out nothing since the last of them. -/
structure Encoder (z : Zstd) where
  compress : ZstdCompress z
  compressBuf : StdString
  resets : Nat
  fresh : Bool

/-- An item, with the text and the output of `Compress` it was made of, the number of
`ResetStream` calls before it and whether it is the first output after one. -/
structure Item where
  text : Bytes
  compressed : Bytes
  data : Bytes
  resets : Nat
  fresh : Bool
  deriving DecidableEq

/-- What the encoder calls: zstd and Crypto++. -/
structure Env where
  impl : StringImpl
  z : Zstd
  lib : CryptoPP
  crypto : AESCrypto

variable (E : Env)

def Encoder.new : Encoder E.z := ⟨ZstdCompress.new, StdString.empty E.impl, 0, false⟩

variable {E}

def Encoder.resetStream (e : Encoder E.z) : Encoder E.z :=
  { e with compress := e.compress.resetStream, resets := e.resets + 1, fresh := true }

/-- `Compress` and `Encrypt` of a formatted message; nothing if either yields nothing. -/
def Encoder.encode (e : Encoder E.z) (text : Bytes) : Encoder E.z × Option Item :=
  let buf := e.compressBuf.reserve E.impl (E.z.compressBound text.length)
  match e.compress.compress text buf.capacity with
  | (compress, output) =>
    if output.isEmpty then ({ e with compress, compressBuf := buf }, none)
    else
      let data := E.crypto.encrypt E.lib output
      ({ e with compress, compressBuf := CompressSink.fill buf output, fresh := false },
        if data.isEmpty then none else some ⟨text, output, data, e.resets, e.fresh⟩)

/-- The items decode with no other chunk: the first is the first output after a reset, a reset
between two items starts a new frame with the second, and a new decompressor gives back the
texts, if each fits into its output buffer. -/
structure SelfContained (E : Env) (xs : List Item) : Prop where
  first : ∀ x ∈ xs.head?, x.fresh = true
  resets : xs.IsChain fun x y => x.resets ≠ y.resets → y.fresh = true
  frames : ∀ x ∈ xs, x.fresh = true → [0x28, 0xb5, 0x2f, 0xfd] <+: x.compressed
  decodes : (∀ x ∈ xs, x.text.length ≤ ZstdCompress.outputCapacity E.impl) →
    ZstdCompress.decompressAll E.impl (ZstdCompress.new : ZstdCompress E.z)
      (xs.map Item.compressed) = xs.map Item.text

/-- The encoder can go on behind the items. -/
structure Ready (stream : E.z.Stream) (e : Encoder E.z) (xs : List Item) : Prop where
  selfContained : SelfContained E xs
  empty : xs = [] → e.fresh = true
  last : ∀ x ∈ xs.getLast?, x.resets ≠ e.resets → e.fresh = true
  atStart : e.fresh = true → stream.atStart e.compress.cctx
  inStep : (∀ x ∈ xs, x.text.length ≤ ZstdCompress.outputCapacity E.impl) →
    ZstdCompress.InStep stream e.compress
      (ZstdCompress.after E.impl ZstdCompress.new (xs.map Item.compressed))

theorem selfContained_nil : SelfContained E [] where
  first := nofun
  resets := List.IsChain.nil
  frames := nofun
  decodes := fun _ => rfl

variable {stream : E.z.Stream}

theorem ready_resetStream (e : Encoder E.z) : Ready stream e.resetStream [] where
  selfContained := selfContained_nil
  empty := fun _ => rfl
  last := nofun
  atStart := fun _ => stream.atStart_reset _
  inStep := fun _ => Or.inl (stream.atStart_reset _)

theorem ready_new {xs : List Item} (h : SelfContained E xs) (hxs : xs ≠ [])
    (before : ∀ x ∈ xs, x.resets = 0) : Ready stream (Encoder.new E) xs where
  selfContained := h
  empty := fun hnil => absurd hnil hxs
  last := by
    intro x hx later
    exact absurd (before x (List.mem_of_mem_getLast? hx)) later
  atStart := nofun
  inStep := fun _ => Or.inl stream.atStart_create

section Encode

variable {e e' : Encoder E.z} {text : Bytes}

/-- An `Encrypt` of something yields something. -/
def Env.Encrypts (E : Env) : Prop := ∀ data, data ≠ [] → E.crypto.encrypt E.lib data ≠ []

/-- How `encode` goes, by what `Compress` and `Encrypt` yield. -/
inductive Encodes (e : Encoder E.z) (text : Bytes) : Encoder E.z × Option Item → Prop
  | nothing (compress : ZstdCompress E.z) (buf : StdString) :
      e.compress.compress text
          (e.compressBuf.reserve E.impl (E.z.compressBound text.length)).capacity =
        (compress, []) →
      Encodes e text ({ e with compress, compressBuf := buf }, none)
  | unencrypted (compress : ZstdCompress E.z) (buf : StdString) (output : Bytes) :
      e.compress.compress text
          (e.compressBuf.reserve E.impl (E.z.compressBound text.length)).capacity =
        (compress, output) →
      output ≠ [] → E.crypto.encrypt E.lib output = [] →
      Encodes e text ({ e with compress, compressBuf := buf, fresh := false }, none)
  | item (compress : ZstdCompress E.z) (buf : StdString) (output : Bytes) :
      e.compress.compress text
          (e.compressBuf.reserve E.impl (E.z.compressBound text.length)).capacity =
        (compress, output) →
      output ≠ [] →
      Encodes e text ({ e with compress, compressBuf := buf, fresh := false },
        some ⟨text, output, E.crypto.encrypt E.lib output, e.resets, e.fresh⟩)

theorem encode_cases (e : Encoder E.z) (text : Bytes) : Encodes e text (e.encode text) := by
  cases hcompress : e.compress.compress text
      (e.compressBuf.reserve E.impl (E.z.compressBound text.length)).capacity with
  | mk compress output =>
    by_cases houtput : output.isEmpty = true
    · obtain rfl := List.isEmpty_iff.mp houtput
      simp only [Encoder.encode, hcompress, if_pos houtput]
      exact .nothing compress _ hcompress
    · have produced : output ≠ [] := fun hnil => houtput (List.isEmpty_iff.mpr hnil)
      by_cases hdata : (E.crypto.encrypt E.lib output).isEmpty = true
      · simp only [Encoder.encode, hcompress, if_neg houtput, if_pos hdata]
        exact .unencrypted compress _ output hcompress produced (List.isEmpty_iff.mp hdata)
      · simp only [Encoder.encode, hcompress, if_neg houtput, if_neg hdata]
        exact .item compress _ output hcompress produced

theorem encode_none (stream : E.z.Stream) (encrypts : E.Encrypts)
    (h : e.encode text = (e', none)) :
    e'.compress = e.compress ∧ e'.resets = e.resets ∧ e'.fresh = e.fresh := by
  have room := StdString.le_capacity_reserve E.impl e.compressBuf (E.z.compressBound text.length)
  by_cases htext : text = []
  · subst htext
    obtain rfl := (Prod.mk.inj h).1
    exact ⟨rfl, rfl, rfl⟩
  · have produced := ZstdCompress.compress_ne_nil stream e.compress htext room
    have encodes := encode_cases e text
    rw [h] at encodes
    cases encodes with
    | nothing compress buf hcompress =>
      rw [hcompress] at produced
      exact absurd rfl produced
    | unencrypted compress buf output hcompress houtput hdata =>
      exact absurd hdata (encrypts output houtput)

/-- What an item says of the text and the encoder it came from. -/
structure Encoded (e : Encoder E.z) (text : Bytes) (e' : Encoder E.z) (x : Item) : Prop where
  nonempty : text ≠ []
  compress : ∃ size, E.z.compressBound text.length ≤ size ∧
    e.compress.compress text size = (e'.compress, x.compressed)
  text : x.text = text
  data : x.data = E.crypto.encrypt E.lib x.compressed
  resets : x.resets = e.resets
  fresh : x.fresh = e.fresh
  resets' : e'.resets = e.resets
  fresh' : e'.fresh = false

theorem encode_some {x : Item} (h : e.encode text = (e', some x)) : Encoded e text e' x := by
  have room := StdString.le_capacity_reserve E.impl e.compressBuf (E.z.compressBound text.length)
  have htext : text ≠ [] := by
    rintro rfl
    cases (Prod.mk.inj h).2
  have encodes := encode_cases e text
  rw [h] at encodes
  cases encodes with
  | item compress buf output hcompress houtput =>
    exact ⟨htext, ⟨_, room, hcompress⟩, rfl, rfl, rfl, rfl, rfl, rfl⟩

end Encode

section Push

variable {e e' : Encoder E.z} {text : Bytes} {xs : List Item} {x : Item}

private theorem first_push (ready : Ready stream e xs) (hx : x.fresh = e.fresh) :
    ∀ y ∈ (xs ++ [x]).head?, y.fresh = true := by
  intro y hy
  cases xs with
  | nil =>
    obtain rfl : x = y := Option.some.inj hy
    exact hx.trans (ready.empty rfl)
  | cons x' xs => exact ready.selfContained.first y hy

private theorem frame_push (ready : Ready stream e xs) (h : Encoded e text e' x)
    (fresh : x.fresh = true) : [0x28, 0xb5, 0x2f, 0xfd] <+: x.compressed := by
  obtain ⟨size, hsize, hcompress⟩ := h.compress
  obtain ⟨cctx, data, hflush⟩ := stream.flushes e.compress.cctx text size h.nonempty hsize
  have hdata := hcompress.symm.trans (ZstdCompress.compress_of_flushes h.nonempty hflush)
  rw [(Prod.mk.inj hdata).2]
  exact stream.magic _ _ _ _ _ h.nonempty hsize (ready.atStart (h.fresh.symm.trans fresh)) hflush

private theorem decodes_push (ready : Ready stream e xs) (h : Encoded e text e' x)
    (fits : ∀ y ∈ xs ++ [x], y.text.length ≤ ZstdCompress.outputCapacity E.impl) :
    ZstdCompress.decompressAll E.impl (ZstdCompress.new : ZstdCompress E.z)
        ((xs ++ [x]).map Item.compressed) = (xs ++ [x]).map Item.text ∧
      ZstdCompress.InStep stream e'.compress
        (ZstdCompress.after E.impl ZstdCompress.new ((xs ++ [x]).map Item.compressed)) := by
  have before : ∀ y ∈ xs, y.text.length ≤ ZstdCompress.outputCapacity E.impl :=
    fun y hy => fits y (List.mem_append_left _ hy)
  have short : text.length ≤ ZstdCompress.outputCapacity E.impl := by
    rw [← h.text]
    exact fits x (List.mem_append_right _ List.mem_cons_self)
  obtain ⟨size, hsize, hcompress⟩ := h.compress
  obtain ⟨c', item, d', hitem, hdecompress, hnext⟩ := ZstdCompress.decompress_inStep stream E.impl
    (ready.inStep before) h.nonempty hsize short
  obtain ⟨rfl, rfl⟩ := Prod.mk.inj (hcompress.symm.trans hitem)
  simp only [List.map_append, List.map_singleton, ZstdCompress.decompressAll_append,
    ZstdCompress.after_append, ready.selfContained.decodes before, ZstdCompress.decompressAll,
    ZstdCompress.after, hdecompress, h.text]
  exact ⟨trivial, hnext⟩

theorem Ready.push (ready : Ready stream e xs) (h : Encoded e text e' x) :
    Ready stream e' (xs ++ [x]) where
  selfContained :=
    { first := first_push ready h.fresh
      resets := by
        refine List.isChain_append.mpr ⟨ready.selfContained.resets, List.isChain_singleton _, ?_⟩
        intro y hy z hz reset
        obtain rfl : x = z := Option.some.inj hz
        rw [h.fresh]
        rw [h.resets] at reset
        exact ready.last y hy reset
      frames := by
        intro y hy fresh
        rcases List.mem_append.mp hy with hold | hnew
        · exact ready.selfContained.frames y hold fresh
        · obtain rfl := List.mem_singleton.mp hnew
          exact frame_push ready h fresh
      decodes := fun fits => (decodes_push ready h fits).1 }
  empty := fun hnil => absurd hnil (by simp)
  last := by
    intro y hy reset
    rw [List.getLast?_append, List.getLast?_singleton] at hy
    obtain rfl : x = y := Option.some.inj hy
    rw [h.resets, h.resets'] at reset
    exact absurd rfl reset
  atStart := by
    intro fresh
    rw [h.fresh'] at fresh
    cases fresh
  inStep := fun fits => (decodes_push ready h fits).2

theorem Ready.congr (ready : Ready stream e xs) (hcompress : e'.compress = e.compress)
    (hresets : e'.resets = e.resets) (hfresh : e'.fresh = e.fresh) : Ready stream e' xs where
  selfContained := ready.selfContained
  empty := by
    rw [hfresh]
    exact ready.empty
  last := by
    rw [hfresh, hresets]
    exact ready.last
  atStart := by
    rw [hfresh, hcompress]
    exact ready.atStart
  inStep := by
    rw [hcompress]
    exact ready.inStep

end Push

end FlashLog.Sinks.ItemStream
