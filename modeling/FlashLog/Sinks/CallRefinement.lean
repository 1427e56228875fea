import FlashLog.Sinks.CallSequence

/-!
Sequences of calls are runs of the double-buffer protocol with one calling thread, in which the
strand worker takes its tasks between the calls.
-/

set_option autoImplicit false
set_option relaxedAutoImplicit false

namespace FlashLog.Sinks.CallSequence

open FlashLog.Support
open FlashLog.Sinks.DoubleBuffer (Pipeline Caller Wait workerStep threadStep afterPost afterWait)

variable {σ μ ι η : Type}

inductive Call (μ : Type)
  | log (m : μ)
  | flush
  deriving DecidableEq

def Label.call : Label μ → Option (Call μ)
  | .log m _ => some (.log m)
  | .flush => some .flush
  | .cacheToFile => none

def entered : DoubleBuffer.Label Unit μ → Option (Call μ)
  | .log _ m => some (.log m)
  | .flush _ => some .flush
  | _ => none

/-- The protocol with one calling thread gets from one state to the other with these calls. -/
def Reaches (P : Pipeline σ μ ι η) (S : DoubleBuffer.Sink Unit σ μ ι η) (calls : List (Call μ))
    (S' : DoubleBuffer.Sink Unit σ μ ι η) : Prop :=
  Machine.ReachesBy (DoubleBuffer.step .effective P) entered S calls S'

/-- A state of the protocol between two calls and two tasks. -/
structure Shows (P : Pipeline σ μ ι η) (s : Sink σ ι) (S : DoubleBuffer.Sink Unit σ μ ι η) :
    Prop where
  stream : S.stream = s.stream
  isSlaveFree : S.isSlaveFree = s.isSlaveFree
  master : S.master = s.master
  slave : S.slave = s.slave
  written : S.written = s.written.map fun xs => ⟨P.keys, xs, xs⟩
  constructed : S.constructed = true
  resting : S.worker = .idle

variable {P : Pipeline σ μ ι η} {s : Sink σ ι} {S S' : DoubleBuffer.Sink Unit σ μ ι η}

theorem Reaches.worker (h : workerStep P S = some S') : Reaches P S [] S' := by
  have taken : DoubleBuffer.step .effective P S .worker = some S' := h
  exact Machine.ReachesBy.single taken

/-- A posted task is one `CacheToFile_`. -/
theorem cacheToFile_shows (h : Shows P s S) {queue : List (DoubleBuffer.Task Unit)}
    (hqueue : S.queue = .cacheToFile :: queue) :
    ∃ S', Reaches P S [] S' ∧ Shows P s.cacheToFile S' ∧ S'.queue = queue ∧ S'.pc = S.pc ∧
      S'.notified = S.notified := by
  obtain ⟨stream, free, master, slave, written, constructed, resting⟩ := h
  have take : Reaches P S [] { S with queue, worker := .load } :=
    Reaches.worker (by simp only [workerStep, resting, hqueue])
  by_cases hfree : s.isSlaveFree = true
  · have load : Reaches P { S with queue, worker := .load } [] { S with queue, worker := .idle } :=
      Reaches.worker (by simp only [workerStep, free, hfree, if_pos])
    refine ⟨_, take.trans load, ?_, rfl, rfl, rfl⟩
    rw [Sink.cacheToFile, if_pos hfree]
    exact ⟨stream, free, master, slave, written, constructed, rfl⟩
  · have load : Reaches P { S with queue, worker := .load } [] { S with queue, worker := .empty } :=
      Reaches.worker (by simp only [workerStep, free, if_neg hfree])
    by_cases hslave : s.slave.isEmpty = true
    · have empty : Reaches P { S with queue, worker := .empty } []
          { S with queue, worker := .store } :=
        Reaches.worker (by simp only [workerStep, slave, if_pos hslave])
      have store : Reaches P { S with queue, worker := .store } []
          { S with queue, isSlaveFree := true, worker := .idle } := Reaches.worker rfl
      refine ⟨_, ((take.trans load).trans empty).trans store, ?_, rfl, rfl, rfl⟩
      rw [Sink.cacheToFile, if_neg hfree, if_pos hslave]
      exact ⟨stream, rfl, master, slave.trans (List.isEmpty_iff.mp hslave), written, constructed,
        rfl⟩
    · have empty : Reaches P { S with queue, worker := .empty } []
          { S with queue, worker := .size } :=
        Reaches.worker (by simp only [workerStep, slave, if_neg hslave])
      have emit : Reaches P { S with queue, worker := .size } [] { S with
          queue, written := S.written ++ [⟨P.keys, S.slave, S.slave⟩], slave := []
          isSlaveFree := true, worker := .idle } := ⟨[.worker, .worker, .worker, .worker], rfl, rfl⟩
      refine ⟨_, ((take.trans load).trans empty).trans emit, ?_, rfl, rfl, rfl⟩
      rw [Sink.cacheToFile, if_neg hfree, if_neg hslave]
      exact ⟨stream, rfl, master, rfl, by simp [written, slave], constructed, rfl⟩

theorem drain_shows {n : Nat} (h : Shows P s S) {queue : List (DoubleBuffer.Task Unit)}
    (hqueue : S.queue = List.replicate n .cacheToFile ++ queue)
    (posted : s.isSlaveFree = false → 0 < n) :
    ∃ S', Reaches P S [] S' ∧ Shows P s.cacheToFile S' ∧ S'.queue = queue ∧ S'.pc = S.pc ∧
      S'.notified = S.notified := by
  induction n generalizing s S with
  | zero =>
    have free : s.isSlaveFree = true := by
      by_contra busy
      exact absurd (posted (Bool.not_eq_true _ ▸ busy)) (Nat.lt_irrefl 0)
    rw [cacheToFile_of_free free]
    exact ⟨S, Machine.ReachesBy.refl S, h, hqueue, rfl, rfl⟩
  | succ n ih =>
    obtain ⟨S₁, hfirst, hS₁, hqueue₁, hpc₁, hnotified₁⟩ := cacheToFile_shows h hqueue
    have free := isSlaveFree_cacheToFile s
    obtain ⟨S₂, hrest, hS₂, hqueue₂, hpc₂, hnotified₂⟩ := ih hS₁ hqueue₁
      (fun busy => by rw [free] at busy; cases busy)
    rw [cacheToFile_of_free free] at hS₂
    exact ⟨S₂, hfirst.trans hrest, hS₂, hqueue₂, hpc₂.trans hpc₁, hnotified₂.trans hnotified₁⟩

/-- `SwapCache_` and the `AsyncCacheToFile_` behind it. -/
theorem swapCache_shows (h : Shows P s S) {k : Caller} (hpc : S.pc () = .loadFree k) :
    ∃ S', Reaches P S [] S' ∧ Shows P s.swapCache S' ∧ S'.pc () = afterPost k ∧
      S'.queue = S.queue ++ [.cacheToFile] := by
  obtain ⟨stream, free, master, slave, written, constructed, resting⟩ := h
  by_cases hfree : s.isSlaveFree = true
  · refine ⟨{ S with
        isSlaveFree := false, master := S.slave, slave := S.master, swapped := !S.swapped
        pc := Function.update S.pc () (afterPost k), queue := S.queue ++ [.cacheToFile] },
      ⟨List.replicate 4 (.thread () false), ?_, rfl⟩, ?_, by simp, rfl⟩
    · simp [List.replicate, DoubleBuffer.step, threadStep, hpc, free, hfree, DoubleBuffer.Sink.goto,
        DoubleBuffer.Sink.postTask, constructed]
    · rw [Sink.swapCache, if_pos hfree]
      exact ⟨stream, rfl, slave, master, written, constructed, resting⟩
  · refine ⟨{ S with
        pc := Function.update S.pc () (afterPost k), queue := S.queue ++ [.cacheToFile] },
      ⟨List.replicate 2 (.thread () false), ?_, rfl⟩, ?_, by simp, rfl⟩
    · simp [List.replicate, DoubleBuffer.step, threadStep, hpc, free, hfree, DoubleBuffer.Sink.goto,
        DoubleBuffer.Sink.postTask, constructed]
    · rw [Sink.swapCache, if_neg hfree]
      exact ⟨stream, free, master, slave, written, constructed, resting⟩

/-- `WAIT_TASKS_COMPLETED`: the tasks before the notification run. -/
theorem wait_shows (h : Shows P s S) {w : Wait} {n : Nat} (hpc : S.pc () = .mark w)
    (hqueue : S.queue = List.replicate n .cacheToFile) (posted : s.isSlaveFree = false → 0 < n) :
    ∃ S', Reaches P S [] S' ∧ Shows P s.cacheToFile S' ∧ S'.pc () = afterWait w ∧ S'.queue = [] := by
  have mark : Reaches P S [] { S with
      notified := Function.update S.notified () false, queue := S.queue ++ [.notify ()]
      pc := Function.update S.pc () (.wait w) } :=
    ⟨[.thread () false], by simp [DoubleBuffer.step, threadStep, hpc, DoubleBuffer.Sink.goto,
      DoubleBuffer.Sink.postTask], rfl⟩
  have marked : Shows P s { S with
      notified := Function.update S.notified () false, queue := S.queue ++ [.notify ()]
      pc := Function.update S.pc () (.wait w) } :=
    ⟨h.stream, h.isSlaveFree, h.master, h.slave, h.written, h.constructed, h.resting⟩
  obtain ⟨S₁, drain, hS₁, hqueue₁, hpc₁, -⟩ := drain_shows marked
    (show S.queue ++ [.notify ()] = List.replicate n .cacheToFile ++ [.notify ()] by
      rw [hqueue]) posted
  have waiting : S₁.pc () = .wait w := by simp [hpc₁]
  have wake : Reaches P S₁ [] { S₁ with
      queue := [], notified := Function.update S₁.notified () true
      pc := Function.update S₁.pc () (afterWait w) } :=
    ⟨[.worker, .thread () false], by
      simp [DoubleBuffer.step, workerStep, threadStep, hS₁.resting, hqueue₁, waiting,
        DoubleBuffer.Sink.goto], rfl⟩
  exact ⟨_, (mark.trans drain).trans wake,
    ⟨hS₁.stream, hS₁.isSlaveFree, hS₁.master, hS₁.slave, hS₁.written, hS₁.constructed,
      hS₁.resting⟩, by simp, rfl⟩

/-- Between two calls: every filled slave buffer has a task in the queue. -/
structure Rests (P : Pipeline σ μ ι η) (s : Sink σ ι) (S : DoubleBuffer.Sink Unit σ μ ι η) :
    Prop where
  shows : Shows P s S
  pc : S.pc () = .idle
  queue : ∃ n, S.queue = List.replicate n .cacheToFile ∧ (s.isSlaveFree = false → 0 < n)

theorem log_rests (h : Rests P s S) (m : μ) (filled : Bool) :
    ∃ S', Reaches P S [.log m] S' ∧ Rests P (s.log P m filled) S' := by
  obtain ⟨⟨stream, free, master, slave, written, constructed, resting⟩, pc, n, hqueue, posted⟩ := h
  have opened : Reaches P S [.log m] { S with
      stream := if s.master.isEmpty then P.resetStream s.stream else s.stream
      pc := Function.update S.pc () (.push m) } :=
    ⟨[.log () m, .thread () false], by
      simp [DoubleBuffer.step, DoubleBuffer.enter, DoubleBuffer.beginLog, threadStep, pc,
        constructed, master, stream, DoubleBuffer.Sink.goto], rfl⟩
  cases hencode : P.encode (if s.master.isEmpty then P.resetStream s.stream else s.stream) m with
  | mk stream' item =>
    cases item with
    | none =>
      have hlog : s.log P m filled = { s with stream := stream' } := by rw [Sink.log, hencode]
      generalize (if s.master.isEmpty then P.resetStream s.stream else s.stream) = st
        at opened hencode
      have failed : Reaches P { S with stream := st, pc := Function.update S.pc () (.push m) } []
          { S with stream := stream', pc := Function.update S.pc () .idle } :=
        ⟨[.thread () false], by
          simp [DoubleBuffer.step, threadStep, hencode, DoubleBuffer.Sink.goto], rfl⟩
      rw [hlog]
      exact ⟨_, opened.trans failed, ⟨rfl, free, master, slave, written, constructed, resting⟩,
        by simp, n, hqueue, posted⟩
    | some x =>
      let pushed : Sink σ ι := { s with stream := stream', master := s.master ++ [x] }
      have hlog : s.log P m filled = if filled then pushed.swapCache else pushed := by
        rw [Sink.log, hencode]
      generalize (if s.master.isEmpty then P.resetStream s.stream else s.stream) = st
        at opened hencode
      have push : ∀ next, (next = if filled then .loadFree .log else .idle) →
          Reaches P { S with stream := st, pc := Function.update S.pc () (.push m) } []
            { S with
              stream := stream', master := S.master ++ [x], pushed := S.pushed ++ [x]
              pc := Function.update S.pc () next } := by
        rintro next rfl
        exact ⟨[.thread () false, .thread () filled], by
          simp [DoubleBuffer.step, threadStep, hencode, DoubleBuffer.Sink.goto], rfl⟩
      have shows : ∀ next : DoubleBuffer.Pc μ, Shows P pushed { S with
          stream := stream', master := S.master ++ [x], pushed := S.pushed ++ [x]
          pc := Function.update S.pc () next } := fun _ =>
        ⟨rfl, free, congrArg (· ++ [x]) master, slave, written, constructed, resting⟩
      rw [hlog]
      cases filled with
      | false => exact ⟨_, opened.trans (push _ rfl), shows _, by simp, n, hqueue, posted⟩
      | true =>
        obtain ⟨S', hswap, hS', hpc', hqueue'⟩ := swapCache_shows (shows (.loadFree .log))
          (k := .log) (by simp)
        refine ⟨S', (opened.trans (push _ rfl)).trans hswap, hS', hpc', n + 1, ?_,
          fun _ => Nat.succ_pos n⟩
        rw [hqueue', List.replicate_succ']
        exact congrArg (· ++ [.cacheToFile]) hqueue

theorem flush_rests (h : Rests P s S) :
    ∃ S', Reaches P S [.flush] S' ∧ Rests P s.flush S' := by
  obtain ⟨⟨stream, free, master, slave, written, constructed, resting⟩, pc, n, hqueue, posted⟩ := h
  have enter : Reaches P S [.flush] { S with
      queue := S.queue ++ [.cacheToFile], pc := Function.update S.pc () (.mark .first) } :=
    ⟨[.flush (), .thread () false], by
      simp [DoubleBuffer.step, DoubleBuffer.enter, threadStep, pc, constructed,
        DoubleBuffer.Sink.goto, DoubleBuffer.Sink.postTask], rfl⟩
  have shows : Shows P s { S with
      queue := S.queue ++ [.cacheToFile], pc := Function.update S.pc () (.mark .first) } :=
    ⟨stream, free, master, slave, written, constructed, resting⟩
  have hqueue' : S.queue ++ [.cacheToFile] = List.replicate (n + 1) .cacheToFile := by
    rw [hqueue, List.replicate_succ']
  obtain ⟨S₁, first, hS₁, hpc₁, hqueue₁⟩ := wait_shows shows (w := .first) (by simp) hqueue'
    fun _ => Nat.succ_pos n
  obtain ⟨S₂, swap, hS₂, hpc₂, hqueue₂⟩ := swapCache_shows hS₁ (k := .flush) hpc₁
  rw [hqueue₁] at hqueue₂
  obtain ⟨S₃, second, hS₃, hpc₃, hqueue₃⟩ := wait_shows hS₂ (w := .second) (n := 1) hpc₂ hqueue₂
    fun _ => Nat.one_pos
  have emptied := isSlaveFree_cacheToFile s.cacheToFile.swapCache
  refine ⟨S₃, ((enter.trans first).trans swap).trans second, hS₃, hpc₃, 0, hqueue₃, fun busy => ?_⟩
  rw [Sink.flush, emptied] at busy
  cases busy

theorem step_rests (h : Rests P s S) (l : Label μ) :
    ∃ S', Reaches P S l.call.toList S' ∧ Rests P (step P s l) S' := by
  cases l with
  | log m filled => exact log_rests h m filled
  | flush => exact flush_rests h
  | cacheToFile =>
    obtain ⟨shows, pc, n, hqueue, posted⟩ := h
    have free := isSlaveFree_cacheToFile s
    have busyFalse : ∀ k, s.cacheToFile.isSlaveFree = false → 0 < k := fun _ busy => by
      rw [free] at busy
      cases busy
    cases n with
    | zero =>
      obtain ⟨S', drain, hS', hqueue', hpc', -⟩ := drain_shows shows
        (hqueue.trans (List.append_nil _).symm) posted
      exact ⟨S', drain, hS', hpc' ▸ pc, 0, hqueue', busyFalse 0⟩
    | succ n =>
      obtain ⟨S', task, hS', hqueue', hpc', -⟩ := cacheToFile_shows shows hqueue
      exact ⟨S', task, hS', hpc' ▸ pc, n, hqueue', busyFalse n⟩

theorem run_rests (h : Rests P s S) (ls : List (Label μ)) :
    ∃ S', Reaches P S (ls.filterMap Label.call) S' ∧ Rests P (run P s ls) S' := by
  induction ls generalizing s S with
  | nil => exact ⟨S, Machine.ReachesBy.refl S, h⟩
  | cons l ls ih =>
    obtain ⟨S₁, first, h₁⟩ := step_rests h l
    obtain ⟨S₂, rest, h₂⟩ := ih h₁
    have calls : (l :: ls).filterMap Label.call = l.call.toList ++ ls.filterMap Label.call := by
      rw [List.filterMap_cons]
      cases l.call <;> rfl
    rw [calls]
    exact ⟨S₂, first.trans rest, h₂⟩

/-- Behind the constructor, every sequence of calls is carried out by a run of the protocol that
enters the same calls and returns from all of them. -/
theorem protocol_shows (P : Pipeline σ μ ι η) (stream : σ) (ls : List (Label μ)) :
    ∃ S, Reaches P (DoubleBuffer.initial .effective () stream [] []) (ls.filterMap Label.call) S ∧
      Rests P (run P (initial stream) ls) S := by
  let start : DoubleBuffer.Sink Unit σ μ ι η := DoubleBuffer.initial .effective () stream [] []
  have constructs : Reaches P start []
      { start with constructed := true, pc := Function.update start.pc () .idle } :=
    ⟨[.thread () false, .thread () false], by
      simp [start, DoubleBuffer.initial, DoubleBuffer.step, threadStep, DoubleBuffer.Sink.goto],
      rfl⟩
  have rests : Rests P (initial stream)
      { start with constructed := true, pc := Function.update start.pc () .idle } :=
    ⟨⟨rfl, rfl, rfl, rfl, rfl, rfl, rfl⟩, by simp, 0, rfl, fun busy => (by cases busy)⟩
  obtain ⟨S, calls, h⟩ := run_rests rests ls
  exact ⟨S, constructs.trans calls, h⟩

end FlashLog.Sinks.CallSequence
