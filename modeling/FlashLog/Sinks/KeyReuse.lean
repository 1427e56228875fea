import FlashLog.Sinks.CryptoSink

/-!
Which chunks share their keys. `EffectiveSink` and `CryptoSink` generate a key pair and a vector
in the constructor and never again, so all chunks of one construction carry the same pair and
all its items are encrypted under the same key and vector: two chunks are apart exactly if they
come from different constructions and no construction has items in both. The items of a chunk of
`CryptoSink` are those that were pushed for it, though its `MemoryBuffer` holds zeros in their place.
-/

set_option autoImplicit false
set_option relaxedAutoImplicit false

namespace FlashLog.Sinks.KeyReuse

open FlashLog.Support FlashLog.Crypto
open FlashLog.Support.Machine (run Meets run_iff_meets)
open FlashLog.Sinks.DoubleBuffer (Chunk)
open FlashLog.Sinks.ChunkKeys (Item Client Env Sound)
open FlashLog.Sinks.Lifetimes (Directory emission)

variable {T σ μ : Type}

/-- Every call of `GenerateIV` and `GenECDHKey` yields a fresh value: the keys in the header and
the key and vector of the cipher differ from one construction to the next. -/
structure FreshValues (E : Env σ μ) : Prop where
  generateIV : ∀ (i j : Nat) (di dj : Draw), E.draws[i]? = some di → E.draws[j]? = some dj →
    Crypto.generateIV di = Crypto.generateIV dj → i = j
  cipher : E.Fresh

/-- Different keys in the two headers, and no two items under one key and vector. -/
structure Apart (E : Env σ μ) (c c' : Chunk Item Keys) : Prop where
  keys : c.keys ≠ c'.keys
  items : ∀ x ∈ c.payload, ∀ y ∈ c'.payload, x.torn = false → y.torn = false →
    ∀ cx cy, E.client x.lifetime = some cx → E.client y.lifetime = some cy →
      ¬ (cx.crypto.key = cy.crypto.key ∧ cx.crypto.vector = cy.crypto.vector)

/-- No construction has encrypted an item of both. -/
def SharesNone (xs ys : List Item) : Prop :=
  ∀ x ∈ xs, ∀ y ∈ ys, x.torn = false → y.torn = false → x.lifetime ≠ y.lifetime

instance (xs ys : List Item) : Decidable (SharesNone xs ys) :=
  inferInstanceAs (Decidable (∀ x ∈ xs, ∀ y ∈ ys, x.torn = false → y.torn = false →
    x.lifetime ≠ y.lifetime))

structure WrittenBy (E : Env σ μ) (n : Nat) (c : Chunk Item Keys) : Prop where
  keys : ∃ client, E.client n = some client ∧ c.keys = client.keys
  items : ∀ x ∈ c.payload, E.Encrypted x

variable {E : Env σ μ}

theorem client_keys_ne (fresh : FreshValues E) {i j : Nat} {ci cj : Client}
    (hi : E.client i = some ci) (hj : E.client j = some cj) (other : i ≠ j) :
    ci.keys ≠ cj.keys := by
  intro same
  obtain ⟨di, hdi, hci⟩ := Option.bind_eq_some_iff.mp hi
  obtain ⟨dj, hdj, hcj⟩ := Option.bind_eq_some_iff.mp hj
  obtain ⟨_, -, rfl⟩ := Option.map_eq_some_iff.mp hci
  obtain ⟨_, -, rfl⟩ := Option.map_eq_some_iff.mp hcj
  exact other (fresh.generateIV i j di dj hdi hdj (congrArg Keys.iv same))

theorem apart_iff (fresh : FreshValues E) {n n' : Nat} {c c' : Chunk Item Keys}
    (hc : WrittenBy E n c) (hc' : WrittenBy E n' c') :
    Apart E c c' ↔ n ≠ n' ∧ SharesNone c.payload c'.payload := by
  obtain ⟨client, hclient, hkeys⟩ := hc.keys
  obtain ⟨client', hclient', hkeys'⟩ := hc'.keys
  constructor
  · intro apart
    constructor
    · rintro rfl
      obtain rfl := Option.some.inj (hclient.symm.trans hclient')
      exact apart.keys (hkeys.trans hkeys'.symm)
    · intro x hx y hy wholeX wholeY same
      obtain ⟨cx, hcx, -⟩ := hc.items x hx
      have hcy : E.client y.lifetime = some cx := same ▸ hcx
      exact apart.items x hx y hy wholeX wholeY cx cx hcx hcy ⟨rfl, rfl⟩
  · rintro ⟨other, shares⟩
    constructor
    · rw [hkeys, hkeys']
      exact client_keys_ne fresh hclient hclient' other
    · intro x hx y hy wholeX wholeY cx cy hcx hcy ⟨sameKey, sameVector⟩
      exact shares x hx y hy wholeX wholeY
        (fresh.cipher x.lifetime y.lifetime cx cy hcx hcy sameKey sameVector)

theorem pairwise_apart_append (fresh : FreshValues E) {n : Nat}
    {past written : List (Chunk Item Keys)} {c : Chunk Item Keys}
    (hpast : ∀ b ∈ past, ∃ m, m ≠ n ∧ WrittenBy E m b)
    (hwritten : ∀ b ∈ written, WrittenBy E n b) (hc : WrittenBy E n c) :
    (past ++ written ++ [c]).Pairwise (Apart E) ↔
      (past ++ written).Pairwise (Apart E) ∧
        (written = [] ∧ ∀ b ∈ past, SharesNone b.payload c.payload) := by
  rw [List.pairwise_append]
  simp only [List.pairwise_singleton, true_and, List.mem_singleton, forall_eq, List.mem_append]
  refine and_congr_right fun _ => ?_
  constructor
  · intro apart
    constructor
    · apply List.eq_nil_iff_forall_not_mem.mpr
      intro b hb
      exact ((apart_iff fresh (hwritten b hb) hc).mp (apart b (Or.inr hb))).1 rfl
    · intro b hb
      obtain ⟨m, -, hm⟩ := hpast b hb
      exact ((apart_iff fresh hm hc).mp (apart b (Or.inl hb))).2
  · rintro ⟨none, shares⟩ b (hb | hb)
    · obtain ⟨m, other, hm⟩ := hpast b hb
      exact (apart_iff fresh hm hc).mpr ⟨other, shares b hb⟩
    · rw [none] at hb
      cases hb

section EffectiveSink

/-- A `CacheToFile_` that writes is the first of its construction, and finds no item of a
construction that has an item in an earlier chunk. -/
def WritesOnce (d : Directory T σ μ Item Keys) (a : Lifetimes.Label T μ) : Prop :=
  ∀ p ∈ d.process, (emission d a).isSome = true →
    p.sink.written.length = 0 ∧ ∀ c ∈ d.past, SharesNone c.payload p.sink.slave

instance (d : Directory T σ μ Item Keys) (a : Lifetimes.Label T μ) : Decidable (WritesOnce d a) :=
  inferInstanceAs (Decidable (∀ p ∈ d.process, (emission d a).isSome = true →
    p.sink.written.length = 0 ∧ ∀ c ∈ d.past, SharesNone c.payload p.sink.slave))

structure Provenance (E : Env σ μ) (d : Directory T σ μ Item Keys) : Prop where
  sound : Sound E d
  past : ∀ c ∈ d.past, ∃ n, n < d.lifetimes ∧ (∀ p ∈ d.process, n ≠ p.lifetime) ∧
    WrittenBy E n c
  written : ∀ p ∈ d.process, ∀ c ∈ p.sink.written, WrittenBy E p.lifetime c

theorem emission_writtenBy {d : Directory T σ μ Item Keys} (sound : Sound E d)
    {a : Lifetimes.Label T μ} {c : Chunk Item Keys} (h : emission d a = some c)
    {p : Lifetimes.Process T σ μ Item Keys} (hp : p ∈ d.process) : WrittenBy E p.lifetime c := by
  obtain ⟨q, hq, hkeys, hpayload⟩ := Lifetimes.emission_spec h
  obtain rfl := Option.some.inj (hq.symm.trans hp)
  obtain ⟨client, hclient, hpipeline⟩ := Option.map_eq_some_iff.mp (sound.process q hp)
  refine ⟨⟨client, hclient, by rw [hkeys, ← hpipeline]⟩, fun x hx => sound.items x ?_⟩
  rw [hpayload] at hx
  rw [Directory.items, hp]
  exact List.mem_append_left _ hx

theorem fresh_provenance : Provenance E (.fresh : Directory T σ μ Item Keys) := by
  refine ⟨ChunkKeys.fresh_sound, ?_, ?_⟩
  · intro c hc
    cases hc
  · intro p hp
    cases hp

variable [DecidableEq T]

theorem provenance_step {d next : Directory T σ μ Item Keys} {a : Lifetimes.Label T μ}
    (inv : Provenance E d) (h : Lifetimes.step E.pipeline E.stream Item.tear d a = some next) :
    Provenance E next := by
  have sound := ChunkKeys.sound_step inv.sound h
  cases Lifetimes.outcome_of_step h with
  | started t hprocess hnext =>
    subst hnext
    refine ⟨sound, ?_, ?_⟩
    · intro c hc
      obtain ⟨n, early, -, hn⟩ := inv.past c hc
      refine ⟨n, Nat.lt_succ_of_lt early, fun p hp => ?_, hn⟩
      obtain ⟨pipeline, -, rfl⟩ := Option.map_eq_some_iff.mp hp
      exact Nat.ne_of_lt early
    · intro p hp c hc
      obtain ⟨pipeline, -, rfl⟩ := Option.map_eq_some_iff.mp hp
      cases hc
  | acted b p sink hprocess hsink hnext =>
    subst hnext
    refine ⟨sound, ?_, ?_⟩
    · intro c hc
      obtain ⟨n, early, other, hn⟩ := inv.past c hc
      refine ⟨n, early, fun q hq => ?_, hn⟩
      obtain rfl := Option.some.inj hq
      exact other p hprocess
    · intro q hq c hc
      obtain rfl := Option.some.inj hq
      have grown : sink.written = p.sink.written ++ (emission d (.act b)).toList := by
        rw [DoubleBuffer.written_step hsink]
        simp [emission, hprocess]
      have hc' : c ∈ p.sink.written ++ (emission d (.act b)).toList := grown ▸ hc
      rcases List.mem_append.mp hc' with old | new
      · exact inv.written p hprocess c old
      · show WrittenBy E p.lifetime c
        exact emission_writtenBy inv.sound (Option.mem_toList.mp new) hprocess
  | ended p hprocess hnext | torn t p x hprocess hpushing hnext =>
    subst hnext
    refine ⟨sound, ?_, ?_⟩
    · intro c hc
      rcases List.mem_append.mp hc with old | new
      · obtain ⟨n, early, -, hn⟩ := inv.past c old
        exact ⟨n, early, fun _ hq => (by cases hq), hn⟩
      · exact ⟨p.lifetime, inv.sound.started p hprocess, fun _ hq => (by cases hq),
          inv.written p hprocess c new⟩
    · intro q hq
      cases hq

theorem apart_step_iff (fresh : FreshValues E) {d next : Directory T σ μ Item Keys}
    {a : Lifetimes.Label T μ} (inv : Provenance E d)
    (h : Lifetimes.step E.pipeline E.stream Item.tear d a = some next) :
    next.chunks.Pairwise (Apart E) ↔ d.chunks.Pairwise (Apart E) ∧ WritesOnce d a := by
  rw [Lifetimes.chunks_step h]
  cases hemission : emission d a with
  | none =>
    have once : WritesOnce d a := by
      intro p _ hwrite
      rw [hemission] at hwrite
      cases hwrite
    simp [once]
  | some c =>
    obtain ⟨p, hp, -, hpayload⟩ := Lifetimes.emission_spec hemission
    have chunks : d.chunks = d.past ++ p.sink.written := by
      rw [Directory.chunks, hp]
      rfl
    have past : ∀ b ∈ d.past, ∃ m, m ≠ p.lifetime ∧ WrittenBy E m b := by
      intro b hb
      obtain ⟨m, -, other, hm⟩ := inv.past b hb
      exact ⟨m, other p hp, hm⟩
    rw [chunks, Option.toList_some, pairwise_apart_append fresh past (inv.written p hp)
      (emission_writtenBy inv.sound hemission hp)]
    refine and_congr_right fun _ => ?_
    constructor
    · rintro ⟨none, shares⟩ q hq -
      obtain rfl := Option.some.inj (hp.symm.trans hq)
      exact ⟨by rw [none]; rfl, hpayload ▸ shares⟩
    · intro once
      obtain ⟨none, shares⟩ := once p hp (by rw [hemission]; rfl)
      exact ⟨List.eq_nil_of_length_eq_zero none, hpayload ▸ shares⟩

theorem run_apart_iff (fresh : FreshValues E) {d : Directory T σ μ Item Keys}
    {as : List (Lifetimes.Label T μ)}
    (hrun : run (Lifetimes.step E.pipeline E.stream Item.tear) .fresh as = some d) :
    d.chunks.Pairwise (Apart E) ↔
      Meets (Lifetimes.step E.pipeline E.stream Item.tear) WritesOnce .fresh as := by
  have both := run_iff_meets (fun _ _ _ inv h => provenance_step inv h)
    (fun _ _ _ inv h => apart_step_iff fresh inv h) fresh_provenance hrun
  rw [both]
  exact and_iff_right List.Pairwise.nil

end EffectiveSink

section CryptoSink

/-- A `CacheToFile_` of `CryptoSink` is the first of its construction. -/
def CryptoWritesOnce [DecidableEq T] (d : CryptoSink.Directory T) (a : CryptoSink.Label T) : Prop :=
  ∀ p ∈ d.process, (CryptoSink.emission d a).isSome = true → p.sink.written.length = 0

structure FilledBy (E : Env σ μ) (n : Nat) (c : Chunk Item Keys) : Prop where
  writtenBy : WrittenBy E n c
  own : ∀ x ∈ c.payload, x.lifetime = n

structure CryptoProvenance (E : Env σ μ) (d : CryptoSink.Directory T) : Prop where
  process : ∀ p ∈ d.process, p.lifetime < d.lifetimes ∧ E.client p.lifetime = some p.client ∧
    p.sink.All fun x => x.lifetime = p.lifetime ∧ E.Encrypted x
  past : ∀ c ∈ d.past, ∃ n, n < d.lifetimes ∧ (∀ p ∈ d.process, n ≠ p.lifetime) ∧ FilledBy E n c
  written : ∀ p ∈ d.process, ∀ c ∈ p.written, FilledBy E p.lifetime c

theorem empty_provenance : CryptoProvenance E (CryptoSink.empty : CryptoSink.Directory T) := by
  refine ⟨?_, ?_, ?_⟩
  · intro p hp
    cases hp
  · intro c hc
    cases hc
  · intro p hp
    cases hp

variable [DecidableEq T]

instance (d : CryptoSink.Directory T) (a : CryptoSink.Label T) :
    Decidable (CryptoWritesOnce d a) :=
  inferInstanceAs (Decidable (∀ p ∈ d.process, (CryptoSink.emission d a).isSome = true →
    p.sink.written.length = 0))

theorem chunk_filledBy {p : CryptoSink.Process T} (client : E.client p.lifetime = some p.client)
    (all : p.sink.All fun x => x.lifetime = p.lifetime ∧ E.Encrypted x)
    {a : LockedBuffer.Label T Item} {e : Handoff.Emission Item}
    (h : LockedBuffer.emission p.sink a = some e) : FilledBy E p.lifetime (p.chunk e) := by
  have items := LockedBuffer.emission_all all h
  exact ⟨⟨⟨p.client, client, rfl⟩, fun x hx => (items x hx).2⟩, fun x hx => (items x hx).1⟩

theorem cryptoProvenance_step {d next : CryptoSink.Directory T} {l : CryptoSink.Label T}
    (inv : CryptoProvenance E d) (h : CryptoSink.step E d l = some next) :
    CryptoProvenance E next := by
  cases CryptoSink.outcome_of_step h with
  | dropped t text => exact inv
  | started t hprocess =>
    refine ⟨?_, ?_, ?_⟩
    · intro p hp
      obtain ⟨client, hclient, rfl⟩ := Option.map_eq_some_iff.mp hp
      refine ⟨Nat.lt_succ_self _, hclient, fun x hx => (by cases hx), ?_⟩
      intro u x hpc
      simp [LockedBuffer.initial] at hpc
    · intro c hc
      obtain ⟨n, early, -, hn⟩ := inv.past c hc
      refine ⟨n, Nat.lt_succ_of_lt early, fun p hp => ?_, hn⟩
      obtain ⟨client, -, rfl⟩ := Option.map_eq_some_iff.mp hp
      exact Nat.ne_of_lt early
    · intro p hp c hc
      obtain ⟨client, -, rfl⟩ := Option.map_eq_some_iff.mp hp
      cases hc
  | acted l a p sink hprocess hsink made hemission =>
    obtain ⟨early, client, all⟩ := inv.process p hprocess
    refine ⟨?_, ?_, ?_⟩
    · intro q hq
      obtain rfl := Option.some.inj hq
      refine ⟨early, client, LockedBuffer.all_step all ?_ hsink⟩
      intro t x same
      obtain ⟨own, data⟩ := made t x same
      exact ⟨own, p.client, own ▸ client, data⟩
    · intro c hc
      obtain ⟨n, before, other, hn⟩ := inv.past c hc
      refine ⟨n, before, fun q hq => ?_, hn⟩
      obtain rfl := Option.some.inj hq
      exact other p hprocess
    · intro q hq c hc
      obtain rfl := Option.some.inj hq
      obtain ⟨e, he, rfl⟩ := List.mem_map.mp hc
      rw [LockedBuffer.written_step hsink] at he
      rcases List.mem_append.mp he with old | new
      · exact inv.written p hprocess _ (List.mem_map_of_mem old)
      · exact chunk_filledBy client all (Option.mem_toList.mp new)
  | ended p hprocess =>
    refine ⟨fun q hq => (by cases hq), ?_, fun q hq => (by cases hq)⟩
    intro c hc
    rcases List.mem_append.mp hc with old | new
    · obtain ⟨n, before, -, hn⟩ := inv.past c old
      exact ⟨n, before, fun _ hq => (by cases hq), hn⟩
    · exact ⟨p.lifetime, (inv.process p hprocess).1, fun _ hq => (by cases hq),
        inv.written p hprocess c new⟩

theorem crypto_apart_step_iff (fresh : FreshValues E) {d next : CryptoSink.Directory T}
    {l : CryptoSink.Label T} (inv : CryptoProvenance E d) (h : CryptoSink.step E d l = some next) :
    next.chunks.Pairwise (Apart E) ↔ d.chunks.Pairwise (Apart E) ∧ CryptoWritesOnce d l := by
  rw [CryptoSink.chunks_step h]
  cases hemission : CryptoSink.emission d l with
  | none =>
    have once : CryptoWritesOnce d l := by
      intro p _ hwrite
      rw [hemission] at hwrite
      cases hwrite
    simp [once]
  | some c =>
    cases CryptoSink.outcome_of_step h with
    | started t hprocess | dropped t text | ended p hprocess => cases hemission
    | acted l a p sink hp hsink made same =>
      obtain ⟨e, he, rfl⟩ := Option.map_eq_some_iff.mp (same.symm.trans hemission)
      obtain ⟨-, client, all⟩ := inv.process p hp
      have filled := chunk_filledBy client all he
      have chunks : d.chunks = d.past ++ p.written := by
        rw [CryptoSink.Directory.chunks, hp]
        rfl
      have past : ∀ b ∈ d.past, ∃ m, m ≠ p.lifetime ∧ FilledBy E m b := by
        intro b hb
        obtain ⟨m, -, other, hm⟩ := inv.past b hb
        exact ⟨m, other p hp, hm⟩
      have shares : ∀ b ∈ d.past, SharesNone b.payload (p.chunk e).payload := by
        intro b hb x hx y hy _ _ sameLifetime
        obtain ⟨m, other, hm⟩ := past b hb
        exact other ((hm.own x hx).symm.trans (sameLifetime.trans (filled.own y hy)))
      rw [chunks, Option.toList_some, pairwise_apart_append fresh
        (fun b hb => (past b hb).imp fun m hm => ⟨hm.1, hm.2.writtenBy⟩)
        (fun b hb => (inv.written p hp b hb).writtenBy) filled.writtenBy]
      refine and_congr_right fun _ => ?_
      constructor
      · rintro ⟨none, -⟩ q hq -
        obtain rfl := Option.some.inj (hp.symm.trans hq)
        have empty : p.sink.written = [] := List.map_eq_nil_iff.mp none
        rw [empty]
        rfl
      · intro once
        have none := once p hp (by rw [hemission]; rfl)
        refine ⟨?_, shares⟩
        rw [CryptoSink.Process.written, List.eq_nil_of_length_eq_zero none]
        rfl

omit [DecidableEq T] in
theorem CryptoProvenance.chunks {d : CryptoSink.Directory T} (h : CryptoProvenance E d) :
    ∀ c ∈ d.chunks, ∃ n, FilledBy E n c := by
  intro c hc
  rcases List.mem_append.mp hc with old | new
  · obtain ⟨n, -, -, filled⟩ := h.past c old
    exact ⟨n, filled⟩
  · cases hprocess : d.process with
    | none => simp [hprocess] at new
    | some p =>
      rw [hprocess] at new
      exact ⟨p.lifetime, h.written p hprocess c new⟩

theorem FilledBy.apart (fresh : FreshValues E) {n n' : Nat} {c c' : Chunk Item Keys}
    (hc : FilledBy E n c) (hc' : FilledBy E n' c') (keys : c.keys ≠ c'.keys) : Apart E c c' := by
  have other : n ≠ n' := by
    rintro rfl
    obtain ⟨client, hclient, hkeys⟩ := hc.writtenBy.keys
    obtain ⟨client', hclient', hkeys'⟩ := hc'.writtenBy.keys
    obtain rfl := Option.some.inj (hclient.symm.trans hclient')
    exact keys (hkeys.trans hkeys'.symm)
  refine (apart_iff fresh hc.writtenBy hc'.writtenBy).mpr ⟨other, ?_⟩
  intro x hx y hy _ _ same
  exact other ((hc.own x hx).symm.trans (same.trans (hc'.own y hy)))

theorem run_crypto_apart_iff (fresh : FreshValues E) {d : CryptoSink.Directory T}
    {as : List (CryptoSink.Label T)} (hrun : run (CryptoSink.step E) CryptoSink.empty as = some d) :
    d.chunks.Pairwise (Apart E) ↔
      Meets (CryptoSink.step E) CryptoWritesOnce CryptoSink.empty as := by
  have both := run_iff_meets (fun _ _ _ inv h => cryptoProvenance_step inv h)
    (fun _ _ _ inv h => crypto_apart_step_iff fresh inv h) empty_provenance hrun
  rw [both]
  exact and_iff_right List.Pairwise.nil

theorem run_crypto_keys_iff (fresh : FreshValues E) {d : CryptoSink.Directory T}
    {as : List (CryptoSink.Label T)} (hrun : run (CryptoSink.step E) CryptoSink.empty as = some d) :
    d.chunks.Pairwise (fun c c' => c.keys ≠ c'.keys) ↔ d.chunks.Pairwise (Apart E) := by
  have inv := Machine.run_preserves _ (fun _ _ _ inv h => cryptoProvenance_step inv h)
    empty_provenance hrun
  constructor
  · refine List.Pairwise.imp_of_mem fun {c c'} hc hc' keys => ?_
    obtain ⟨n, filled⟩ := inv.chunks c hc
    obtain ⟨n', filled'⟩ := inv.chunks c' hc'
    exact filled.apart fresh filled' keys
  · exact List.Pairwise.imp fun apart => apart.keys

end CryptoSink

/-- If every `GenerateIV` and `GenECDHKey` yields a fresh value, the chunks of a run of
`EffectiveSink` without an exchange between `Size()` and the write, or of `CryptoSink`, have key
pairs and vectors of their own, and no two of them items under one key and vector, exactly if every
construction writes one chunk at most and leaves no items for another one when it has items in a
chunk. For `CryptoSink` that is so whether or not the items count that its buffer does not keep. -/
theorem chunksApart_iff [DecidableEq T] (E : Env σ μ) (fresh : FreshValues E) :
    (∀ (as : List (Lifetimes.Label T μ)) (d : Directory T σ μ Item Keys),
      run (Lifetimes.step E.pipeline E.stream Item.tear) .fresh as = some d →
      Meets (Lifetimes.step E.pipeline E.stream Item.tear) Lifetimes.SwapOutsideSized .fresh as →
      (∀ c ∈ d.chunks, c.Whole) ∧
        (d.chunks.Pairwise (Apart E) ↔
          Meets (Lifetimes.step E.pipeline E.stream Item.tear) WritesOnce .fresh as)) ∧
    ∀ (as : List (CryptoSink.Label T)) (d : CryptoSink.Directory T),
      run (CryptoSink.step E) CryptoSink.empty as = some d →
      (d.chunks.Pairwise (Apart E) ↔
        Meets (CryptoSink.step E) CryptoWritesOnce CryptoSink.empty as) ∧
      (d.chunks.Pairwise (fun c c' => c.keys ≠ c'.keys) ↔
        Meets (CryptoSink.step E) CryptoWritesOnce CryptoSink.empty as) := by
  constructor
  · intro as d hrun outside
    exact ⟨Lifetimes.run_whole outside hrun, run_apart_iff fresh hrun⟩
  · intro as d hrun
    have apart_iff := run_crypto_apart_iff fresh hrun
    exact ⟨apart_iff, (run_crypto_keys_iff fresh hrun).trans apart_iff⟩

theorem twoDraws_freshValues : FreshValues ChunkKeys.twoDraws := by
  refine ⟨?_, ChunkKeys.twoDraws_fresh⟩
  intro i j di dj hi hj same
  have first : ∀ (n : Nat) (draw : Draw), ChunkKeys.twoDraws.draws[n]? = some draw →
      draw.ivBlock.head?.map UInt8.toNat = some (n + 1) := by
    intro n draw h
    rcases n with _ | _ | n
    · obtain rfl := Option.some.inj h
      rfl
    · obtain rfl := Option.some.inj h
      rfl
    · cases h
  have blocks : di.ivBlock = dj.ivBlock := by
    rw [← hexKeyToBinary_binaryKeyToHex di.ivBlock, ← hexKeyToBinary_binaryKeyToHex dj.ivBlock]
    exact congrArg hexKeyToBinary same
  have sameFirst := first i di hi
  rw [blocks, first j dj hj] at sameFirst
  have hsum : j + 1 = i + 1 := Option.some.inj sameFirst
  omega

theorem chunksApart_iff_flushedLifetimes :
    ∃ d, run (Lifetimes.step ChunkKeys.twoDraws.pipeline ChunkKeys.twoDraws.stream Item.tear)
        .fresh ChunkKeys.flushedLifetimes = some d ∧
      d.chunks.Pairwise (Apart ChunkKeys.twoDraws) := by
  obtain ⟨d, hrun⟩ := Option.isSome_iff_exists.mp (show
    (run (Lifetimes.step ChunkKeys.twoDraws.pipeline ChunkKeys.twoDraws.stream Item.tear) .fresh
      ChunkKeys.flushedLifetimes).isSome = true by decide)
  refine ⟨d, hrun, ?_⟩
  exact ((chunksApart_iff ChunkKeys.twoDraws twoDraws_freshValues).1 _ d hrun (by decide)).2.mpr
    (by decide)

def flushedTwice : List (Lifetimes.Label Unit Nat) :=
  .construct () :: (DoubleBuffer.logThenFlush 7 ++ (DoubleBuffer.logThenFlush 8).drop 2).map .act

theorem flushedTwice_reuses_keys :
    ¬ ∀ (as : List (Lifetimes.Label Unit Nat)) (d : Directory Unit Unit Nat Item Keys),
      run (Lifetimes.step ChunkKeys.twoDraws.pipeline ChunkKeys.twoDraws.stream Item.tear) .fresh
        as = some d → d.chunks.Pairwise (Apart ChunkKeys.twoDraws) := by
  intro always
  obtain ⟨d, hrun⟩ := Option.isSome_iff_exists.mp (show
    (run (Lifetimes.step ChunkKeys.twoDraws.pipeline ChunkKeys.twoDraws.stream Item.tear) .fresh
      flushedTwice).isSome = true by decide)
  have once := (run_apart_iff twoDraws_freshValues hrun).mp (always flushedTwice d hrun)
  exact absurd once (by decide)

end FlashLog.Sinks.KeyReuse
