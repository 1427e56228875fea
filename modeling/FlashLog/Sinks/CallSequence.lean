import FlashLog.Sinks.DoubleBuffer

/-!
The calls of one thread on `EffectiveSink`, each taken as one step, with `CacheToFile_` at any
point between them: a task without a posted one finds the flag free and returns. Buffers and
chunks are lists of items.
-/

set_option autoImplicit false
set_option relaxedAutoImplicit false

namespace FlashLog.Sinks.CallSequence

open FlashLog.Sinks.DoubleBuffer (Pipeline)

structure Sink (σ ι : Type) where
  stream : σ
  isSlaveFree : Bool
  master : List ι
  slave : List ι
  /-- the payloads of the chunks -/
  written : List (List ι)
  emptied : isSlaveFree = true → slave = []

inductive Label (μ : Type)
  | log (m : μ) (filled : Bool)
  | flush
  | cacheToFile
  deriving DecidableEq

variable {σ τ μ ι κ η θ : Type}

/-- Behind the constructor on an empty directory. -/
def initial (stream : σ) : Sink σ ι := ⟨stream, true, [], [], [], fun _ => rfl⟩

def Sink.swapCache (s : Sink σ ι) : Sink σ ι :=
  if s.isSlaveFree then
    { s with isSlaveFree := false, master := s.slave, slave := s.master, emptied := nofun }
  else s

def Sink.cacheToFile (s : Sink σ ι) : Sink σ ι :=
  if s.isSlaveFree then s
  else if s.slave.isEmpty then
    { s with isSlaveFree := true, slave := [], emptied := fun _ => rfl }
  else
    { s with
      isSlaveFree := true, slave := [], written := s.written ++ [s.slave]
      emptied := fun _ => rfl }

/-- `Log`; `filled` is the outcome of `GetRatio() > 0.8`. -/
def Sink.log (P : Pipeline σ μ ι η) (s : Sink σ ι) (m : μ) (filled : Bool) : Sink σ ι :=
  match P.encode (if s.master.isEmpty then P.resetStream s.stream else s.stream) m with
  | (stream, none) => { s with stream }
  | (stream, some x) =>
    let s := { s with stream, master := s.master ++ [x] }
    if filled then s.swapCache else s

/-- `Flush`: it posts `CacheToFile_` and waits, twice. -/
def Sink.flush (s : Sink σ ι) : Sink σ ι := s.cacheToFile.swapCache.cacheToFile

def step (P : Pipeline σ μ ι η) (s : Sink σ ι) : Label μ → Sink σ ι
  | .log m filled => s.log P m filled
  | .flush => s.flush
  | .cacheToFile => s.cacheToFile

def run (P : Pipeline σ μ ι η) (s : Sink σ ι) (ls : List (Label μ)) : Sink σ ι :=
  ls.foldl (step P) s

def messages (ls : List (Label μ)) : List μ :=
  ls.filterMap fun
    | .log m _ => some m
    | _ => none

section Frames

/-- What makes the chunks of every run good: the stream is ready for an empty buffer when it has
been reset, and stays ready for a buffer that items were pushed into. -/
structure Frames (P : Pipeline σ μ ι η) (Good : List ι → Prop) (Ready : σ → List ι → Prop) :
    Prop where
  good : ∀ st xs, Ready st xs → Good xs
  reset : ∀ st, Ready (P.resetStream st) []
  drop : ∀ st xs m st', Ready st xs → xs ≠ [] → P.encode st m = (st', none) → Ready st' xs
  push : ∀ st xs m st' x, Ready st xs → P.encode st m = (st', some x) → Ready st' (xs ++ [x])

/-- The stream is ready for a buffer that is not empty, and the rest is good. -/
structure Framed (Good : List ι → Prop) (Ready : σ → List ι → Prop) (s : Sink σ ι) : Prop where
  master : s.master ≠ [] → Ready s.stream s.master
  slave : Good s.slave
  written : ∀ c ∈ s.written, Good c

variable {P : Pipeline σ μ ι η} {Good : List ι → Prop} {Ready : σ → List ι → Prop} {s : Sink σ ι}

theorem Frames.nil (h : Frames P Good Ready) (st : σ) : Good [] := h.good _ _ (h.reset st)

theorem Framed.swapCache (h : Frames P Good Ready) (framed : Framed Good Ready s) :
    Framed Good Ready s.swapCache := by
  rw [Sink.swapCache]
  split
  · rename_i free
    have good : Good s.master := by
      by_cases hmaster : s.master = []
      · rw [hmaster]
        exact h.nil s.stream
      · exact h.good _ _ (framed.master hmaster)
    exact ⟨fun filled => absurd (s.emptied free) filled, good, framed.written⟩
  · exact framed

theorem Framed.cacheToFile (h : Frames P Good Ready) (framed : Framed Good Ready s) :
    Framed Good Ready s.cacheToFile := by
  rw [Sink.cacheToFile]
  split
  · exact framed
  · split
    · exact ⟨framed.master, h.nil s.stream, framed.written⟩
    · refine ⟨framed.master, h.nil s.stream, fun c hc => ?_⟩
      rcases List.mem_append.mp hc with old | new
      · exact framed.written c old
      · obtain rfl := List.mem_singleton.mp new
        exact framed.slave

theorem Framed.opened (h : Frames P Good Ready) (framed : Framed Good Ready s) :
    Ready (if s.master.isEmpty then P.resetStream s.stream else s.stream) s.master := by
  cases hmaster : s.master with
  | nil => exact h.reset s.stream
  | cons x xs =>
    rw [← hmaster, if_neg (by rw [hmaster]; exact Bool.false_ne_true)]
    exact framed.master (by rw [hmaster]; exact List.cons_ne_nil x xs)

theorem Framed.log (h : Frames P Good Ready) (framed : Framed Good Ready s) (m : μ)
    (filled : Bool) : Framed Good Ready (s.log P m filled) := by
  have ready := framed.opened h
  rw [Sink.log]
  cases hencode : P.encode (if s.master.isEmpty then P.resetStream s.stream else s.stream) m with
  | mk stream item =>
    cases item with
    | none => exact ⟨fun hmaster => h.drop _ _ _ _ ready hmaster hencode, framed.slave,
        framed.written⟩
    | some x =>
      have pushed : Framed Good Ready { s with stream, master := s.master ++ [x] } :=
        ⟨fun _ => h.push _ _ _ _ _ ready hencode, framed.slave, framed.written⟩
      cases filled with
      | true => exact pushed.swapCache h
      | false => exact pushed

theorem Framed.step (h : Frames P Good Ready) (framed : Framed Good Ready s) (l : Label μ) :
    Framed Good Ready (step P s l) := by
  cases l with
  | log m filled => exact framed.log h m filled
  | flush => exact ((framed.cacheToFile h).swapCache h).cacheToFile h
  | cacheToFile => exact framed.cacheToFile h

theorem Frames.run (h : Frames P Good Ready) (framed : Framed Good Ready s) (ls : List (Label μ)) :
    Framed Good Ready (run P s ls) := by
  induction ls generalizing s with
  | nil => exact framed
  | cons l ls ih => exact ih (framed.step h l)

theorem Frames.initial (h : Frames P Good Ready) (st : σ) : Framed Good Ready (initial st) :=
  ⟨fun filled => absurd rfl filled, h.nil st, nofun⟩

end Frames

section Map

def Sink.map (f : σ → τ) (g : ι → κ) (s : Sink σ ι) : Sink τ κ where
  stream := f s.stream
  isSlaveFree := s.isSlaveFree
  master := s.master.map g
  slave := s.slave.map g
  written := s.written.map (List.map g)
  emptied := fun free => by rw [s.emptied free, List.map_nil]

/-- One pipeline does on the images what the other does. -/
structure Follows (P : Pipeline σ μ ι η) (Q : Pipeline τ μ κ θ) (f : σ → τ) (g : ι → κ) :
    Prop where
  resetStream : ∀ st, Q.resetStream (f st) = f (P.resetStream st)
  encode : ∀ st m, Q.encode (f st) m = (f (P.encode st m).1, (P.encode st m).2.map g)

variable {P : Pipeline σ μ ι η} {Q : Pipeline τ μ κ θ} {f : σ → τ} {g : ι → κ}

theorem map_swapCache (s : Sink σ ι) : (s.map f g).swapCache = s.swapCache.map f g := by
  rw [Sink.swapCache, Sink.swapCache, apply_ite (Sink.map f g)]
  rfl

theorem map_cacheToFile (s : Sink σ ι) : (s.map f g).cacheToFile = s.cacheToFile.map f g := by
  have hfree : (s.map f g).isSlaveFree = s.isSlaveFree := rfl
  have hempty : (s.map f g).slave.isEmpty = s.slave.isEmpty := List.isEmpty_map
  rw [Sink.cacheToFile, Sink.cacheToFile, hfree, hempty]
  by_cases free : s.isSlaveFree = true
  · rw [if_pos free, if_pos free]
  · rw [if_neg free, if_neg free]
    by_cases hslave : s.slave.isEmpty = true
    · rw [if_pos hslave, if_pos hslave]
      rfl
    · rw [if_neg hslave, if_neg hslave]
      simp only [Sink.map, List.map_append, List.map_cons, List.map_nil]

theorem map_log (h : Follows P Q f g) (s : Sink σ ι) (m : μ) (filled : Bool) :
    (s.map f g).log Q m filled = (s.log P m filled).map f g := by
  have hempty : (s.map f g).master.isEmpty = s.master.isEmpty := List.isEmpty_map
  have hstream : (if s.master.isEmpty then Q.resetStream (f s.stream) else f s.stream) =
      f (if s.master.isEmpty then P.resetStream s.stream else s.stream) := by
    rw [h.resetStream, apply_ite f]
  have hencode := h.encode (if s.master.isEmpty then P.resetStream s.stream else s.stream) m
  rw [← hstream] at hencode
  rw [Sink.log, Sink.log, hempty]
  simp only [Sink.map] at hencode ⊢
  rw [hencode]
  cases P.encode (if s.master.isEmpty then P.resetStream s.stream else s.stream) m with
  | mk stream item =>
    cases item with
    | none => rfl
    | some x =>
      simp only [Option.map_some]
      cases filled with
      | true =>
        have hswap := map_swapCache (f := f) (g := g) { s with stream, master := s.master ++ [x] }
        simp only [Sink.map, List.map_append, List.map_cons, List.map_nil] at hswap
        exact hswap
      | false =>
        simp only [List.map_append, List.map_cons, List.map_nil, Bool.false_eq_true, if_false]

theorem map_step (h : Follows P Q f g) (s : Sink σ ι) (l : Label μ) :
    step Q (s.map f g) l = (step P s l).map f g := by
  cases l with
  | log m filled => exact map_log h s m filled
  | flush =>
    simp only [step, Sink.flush, map_cacheToFile, map_swapCache]
  | cacheToFile => exact map_cacheToFile s

theorem map_run (h : Follows P Q f g) (s : Sink σ ι) (ls : List (Label μ)) :
    run Q (s.map f g) ls = (run P s ls).map f g := by
  induction ls generalizing s with
  | nil => rfl
  | cons l ls ih =>
    rw [run, List.foldl_cons, map_step h]
    exact ih (step P s l)

end Map

section Items

def Sink.items (s : Sink σ ι) : List ι := s.written.flatten ++ s.slave ++ s.master

theorem items_swapCache (s : Sink σ ι) : s.swapCache.items = s.items := by
  rw [Sink.swapCache]
  split
  · rename_i free
    simp only [Sink.items, s.emptied free, List.append_nil]
  · rfl

theorem items_cacheToFile (s : Sink σ ι) : s.cacheToFile.items = s.items := by
  rw [Sink.cacheToFile]
  split
  · rfl
  · split
    · rename_i hempty
      simp only [Sink.items, List.isEmpty_iff.mp hempty]
    · simp only [Sink.items, List.flatten_append, List.flatten_singleton, List.append_nil]

theorem items_flush (s : Sink σ ι) : s.flush.items = s.items := by
  rw [Sink.flush, items_cacheToFile, items_swapCache, items_cacheToFile]

theorem isSlaveFree_cacheToFile (s : Sink σ ι) : s.cacheToFile.isSlaveFree = true := by
  rw [Sink.cacheToFile]
  split
  · assumption
  · split <;> rfl

theorem cacheToFile_of_free {s : Sink σ ι} (free : s.isSlaveFree = true) : s.cacheToFile = s := by
  rw [Sink.cacheToFile, if_pos free]

theorem written_flush (s : Sink σ ι) : s.flush.written.flatten = s.items := by
  have free := isSlaveFree_cacheToFile s
  have hmaster : s.flush.master = [] := by
    have swapped : s.cacheToFile.swapCache.master = [] := by
      rw [Sink.swapCache, if_pos free]
      exact s.cacheToFile.emptied free
    have kept : ∀ s : Sink σ ι, s.cacheToFile.master = s.master := by
      intro s
      rw [Sink.cacheToFile]
      split
      · rfl
      · split <;> rfl
    rw [Sink.flush, kept, swapped]
  have hslave : s.flush.slave = [] := by
    have busy : s.cacheToFile.swapCache.isSlaveFree = false := by
      rw [Sink.swapCache, if_pos free]
    rw [Sink.flush, Sink.cacheToFile, if_neg (by rw [busy]; exact Bool.false_ne_true)]
    split <;> rfl
  have hitems := items_flush s
  rwa [Sink.items, hmaster, hslave, List.append_nil, List.append_nil] at hitems

variable {P : Pipeline σ μ ι η} {g : ι → κ} {keeps : μ → Option κ}

theorem items_run (h : ∀ st m, (P.encode st m).2.map g = keeps m) (s : Sink σ ι)
    (ls : List (Label μ)) :
    (run P s ls).items.map g = s.items.map g ++ (messages ls).filterMap keeps := by
  induction ls generalizing s with
  | nil => rw [messages, List.filterMap_nil, List.filterMap_nil, List.append_nil]; rfl
  | cons l ls ih =>
    have hrest : (run P s (l :: ls)).items.map g =
        (step P s l).items.map g ++ (messages ls).filterMap keeps := ih (step P s l)
    rw [hrest]
    cases l with
    | log m filled =>
      have hkeeps := h (if s.master.isEmpty then P.resetStream s.stream else s.stream) m
      have hmessages : messages (.log m filled :: ls) = m :: messages ls := rfl
      have hlogged : (s.log P m filled).items.map g = s.items.map g ++ (keeps m).toList := by
        rw [← hkeeps, Sink.log]
        cases P.encode (if s.master.isEmpty then P.resetStream s.stream else s.stream) m with
        | mk stream item =>
          cases item with
          | none => exact (List.append_nil _).symm
          | some x =>
            have pushed : (Sink.items { s with stream, master := s.master ++ [x] }).map g =
                s.items.map g ++ [g x] := by
              simp only [Sink.items, ← List.append_assoc, List.map_append, List.map_singleton]
            cases filled with
            | true => exact (congrArg (List.map g) (items_swapCache _)).trans pushed
            | false => exact pushed
      rw [step, hlogged, hmessages, List.append_assoc]
      cases hm : keeps m with
      | none => rw [List.filterMap_cons_none hm]; rfl
      | some x => rw [List.filterMap_cons_some hm]; rfl
    | flush => rw [step, items_flush]; rfl
    | cacheToFile => rw [step, items_cacheToFile]; rfl

end Items

end FlashLog.Sinks.CallSequence
