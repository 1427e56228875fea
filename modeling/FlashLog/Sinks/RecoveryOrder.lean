import Mathlib.Data.Nat.Bits
import FlashLog.Sinks.Lifetimes
import FlashLog.Sinks.SingleProducer

/-!
The order in which the constructor of `EffectiveSink` writes what an earlier process left.
It writes the file `slave_mmap` first and `master_mmap` second. Which of the two held the
buffer that was waiting to be written depends on the number of exchanges before the crash,
and nothing in the files tells it. The waiting items were logged before those of the other
buffer if every exchange has put the master buffer in the place of an empty one.
-/

set_option autoImplicit false
set_option relaxedAutoImplicit false

namespace FlashLog.Sinks.DoubleBuffer

open FlashLog.Support
open FlashLog.Support.Machine (run Meets run_append run_cons_some run_preserves)

variable {T σ μ ι η : Type}

/-- The sink as a crash leaves its buffers: as they are, or with the header of an item whose
second `Push` is missing; it is the last item logged. -/
inductive Crashed (tear : ι → ι) (P : Pipeline σ μ ι η) (s : Sink T σ μ ι η) :
    Sink T σ μ ι η → Prop
  | between : Crashed tear P s s
  | inPush (t : T) (x : ι) : s.pushing P t = some x →
      Crashed tear P s { s with
        master := s.master ++ [tear x], pushed := s.pushed ++ [tear x] }

theorem Crashed.swapped {tear : ι → ι} {P : Pipeline σ μ ι η} {s left : Sink T σ μ ι η}
    (h : Crashed tear P s left) : left.swapped = s.swapped := by
  cases h <;> rfl

def Sink.lastLogged (s : Sink T σ μ ι η) : List ι :=
  s.pushed.drop (s.pushed.length - s.items.length)

/-- The items of the two chunks that a construction writes first. -/
def Sink.recovered (s : Sink T σ μ ι η) : List ι := (s.written.take 2).flatMap Chunk.payload

/-- Of the items that a crash has left in the buffers, a construction writes whole chunks in the
order in which they were logged, and it is over only when all of them are written. -/
structure RecoversInOrder (left s : Sink T σ μ ι η) : Prop where
  whole : ∀ c ∈ s.written.take 2, c.Whole
  order : s.recovered <+: left.lastLogged
  all : s.constructed = true → s.worker = .idle → s.queue = [] → s.recovered = left.lastLogged

/-- No thread exchanges the buffers while there is something in the slave buffer, or while
`CacheToFile_` is between `Size()` and `Clear()`. -/
def SwapOntoEmpty (s : Sink T σ μ ι η) : Label T μ → Prop
  | .thread t _ => (s.pc t).isSwap = true → s.worker.isWriting = false ∧ s.slave.isEmpty = true
  | _ => True

instance (s : Sink T σ μ ι η) : ∀ a : Label T μ, Decidable (SwapOntoEmpty s a)
  | .thread t _ => inferInstanceAs (Decidable
      ((s.pc t).isSwap = true → s.worker.isWriting = false ∧ s.slave.isEmpty = true))
  | .log _ _ | .flush _ | .worker => inferInstanceAs (Decidable True)

/-- The slave file goes out first and the master file second, and the recovery is over only when
both have gone out. -/
structure WritesBoth (keys : η) (slaveFile masterFile : List ι) (s : Sink T σ μ ι η) : Prop where
  order : s.written.take 2 <+: [⟨keys, slaveFile, slaveFile⟩, ⟨keys, masterFile, masterFile⟩]
  both : s.constructed = true → s.worker = .idle → s.queue = [] → 2 ≤ s.written.length

variable [DecidableEq T]

section Exchanges

def isExchange (s : Sink T σ μ ι η) : Label T μ → Bool
  | .thread t _ => (s.pc t).isSwap
  | _ => false

def exchanges (kind : Kind) (P : Pipeline σ μ ι η) (s : Sink T σ μ ι η) : List (Label T μ) → Nat
  | [] => 0
  | a :: as =>
    (isExchange s a).toNat + match step kind P s a with
      | some next => exchanges kind P next as
      | none => 0

private theorem swapped_step {kind : Kind} {P : Pipeline σ μ ι η} {s next : Sink T σ μ ι η}
    {a : Label T μ} (h : step kind P s a = some next) :
    next.swapped = (s.swapped ^^ isExchange s a) := by
  cases a with
  | log t m =>
    obtain ⟨-, -, rfl⟩ := enter_cases h
    exact (Bool.xor_false _).symm
  | flush t =>
    obtain ⟨-, -, rfl⟩ := enter_cases h
    exact (Bool.xor_false _).symm
  | worker =>
    cases workerStep_cases h with
    | take | wake | load | empty | size | write | clear | store =>
      exact (Bool.xor_false _).symm
  | thread t filled =>
    rw [isExchange]
    cases threadStep_cases h with
    | swap k hpc =>
      simp only [hpc, Pc.isSwap, Bool.xor_true]
      rfl
    | ctorMaster hpc =>
      simp only [hpc, Pc.isSwap, Bool.xor_false]
      split <;> rfl
    | resetIfEmpty m hpc | fail m stream hpc hencode | push m stream x hpc hencode | needWrite hpc
    | loadFree k hpc | storeBusy k hpc | post k hpc | flushPost hpc | mark w hpc
    | wait w hpc woken | ctorSlave hpc | ctorBusy hpc | ctorPost hpc =>
      simp only [hpc, Pc.isSwap, Bool.xor_false]
      rfl

theorem swapped_run {kind : Kind} {P : Pipeline σ μ ι η} {s next : Sink T σ μ ι η}
    {as : List (Label T μ)} (h : run (step kind P) s as = some next) :
    next.swapped = (s.swapped ^^ (exchanges kind P s as).bodd) := by
  induction as generalizing s with
  | nil =>
    obtain rfl : s = next := by simpa using h
    simp [exchanges]
  | cons a as ih =>
    obtain ⟨mid, hstep, hrun⟩ := run_cons_some h
    have parity : (isExchange s a).toNat.bodd = isExchange s a := by
      cases isExchange s a <;> rfl
    rw [ih hrun, swapped_step hstep, exchanges, hstep, Nat.bodd_add, parity, Bool.xor_assoc]

end Exchanges

section Recovery

structure Sink.At (s : Sink T σ μ ι η) (worker : WorkerPc ι) (queue : List (Task T))
    (free : Bool) (slave : List ι) (written : List (Chunk ι η)) : Prop where
  worker : s.worker = worker
  queue : s.queue = queue
  free : s.isSlaveFree = free
  slave : s.slave = slave
  written : s.written = written

/-- How far the first task of a recovery has come, which writes the slave file; `rest` is
queued behind it. -/
inductive FirstTask (keys : η) (waiting : List ι) (rest : List (Task T)) (s : Sink T σ μ ι η) : Prop
  | queued : s.At .idle (.cacheToFile :: rest) false waiting [] → FirstTask keys waiting rest s
  | load : s.At .load rest false waiting [] → FirstTask keys waiting rest s
  | empty : s.At .empty rest false waiting [] → FirstTask keys waiting rest s
  | size : s.At .size rest false waiting [] → FirstTask keys waiting rest s
  | write : s.At (.write waiting) rest false waiting [] → FirstTask keys waiting rest s
  | clear : s.At .clear rest false waiting [⟨keys, waiting, waiting⟩] →
      FirstTask keys waiting rest s
  | store : s.At .store rest false [] [⟨keys, waiting, waiting⟩] → FirstTask keys waiting rest s
  | done : s.At .idle rest true [] [⟨keys, waiting, waiting⟩] → FirstTask keys waiting rest s

/-- How far the second task has come, which writes the master file after its exchange. -/
inductive SecondTask (keys : η) (waiting filling : List ι) (s : Sink T σ μ ι η) : Prop
  | queued (rest : List (Task T)) : s.At .idle (.cacheToFile :: rest) false filling
      [⟨keys, waiting, waiting⟩] → SecondTask keys waiting filling s
  | load (queue : List (Task T)) : s.At .load queue false filling [⟨keys, waiting, waiting⟩] →
      SecondTask keys waiting filling s
  | empty (queue : List (Task T)) : s.At .empty queue false filling [⟨keys, waiting, waiting⟩] →
      SecondTask keys waiting filling s
  | size (queue : List (Task T)) : s.At .size queue false filling [⟨keys, waiting, waiting⟩] →
      SecondTask keys waiting filling s
  | write (queue : List (Task T)) : s.At (.write filling) queue false filling
      [⟨keys, waiting, waiting⟩] → SecondTask keys waiting filling s

/-- The position of the constructing thread, with the master file still in the master buffer
up to the exchange. -/
def Constructing (keys : η) (waiting filling : List ι) (t : T) (s : Sink T σ μ ι η) : Prop :=
  match s.pc t with
  | .ctorSlave | .ctorBusy => s.At .idle [] true waiting [] ∧ s.master = filling
  | .ctorPost => s.At .idle [] false waiting [] ∧ s.master = filling
  | .ctorMaster | .mark .ctor => FirstTask keys waiting [] s ∧ s.master = filling
  | .wait .ctor =>
    (FirstTask keys waiting [.notify t] s ∧ s.notified t = false ∨
      s.At .idle [] true [] [⟨keys, waiting, waiting⟩]) ∧ s.master = filling
  | .loadFree .ctor | .storeBusy .ctor =>
    s.At .idle [] true [] [⟨keys, waiting, waiting⟩] ∧ s.master = filling
  | .swap .ctor => s.At .idle [] false [] [⟨keys, waiting, waiting⟩] ∧ s.master = filling
  | .post .ctor => s.At .idle [] false filling [⟨keys, waiting, waiting⟩]
  | _ => False

/-- Storing false to the flag and exchanging are the only steps that could disturb the second
task. -/
def Pc.Calm : Pc μ → Prop
  | .storeBusy _ | .swap _ => False
  | _ => True

inductive Recovering (keys : η) (waiting filling : List ι) (t : T) (s : Sink T σ μ ι η) : Prop
  | constructing : s.constructed = false → (∀ u, u ≠ t → s.pc u = .idle) →
      Constructing keys waiting filling t s → Recovering keys waiting filling t s
  | second : (∀ u, (s.pc u).Calm) → SecondTask keys waiting filling s →
      Recovering keys waiting filling t s
  | recovered (rest : List (Chunk ι η)) :
      s.written = ⟨keys, waiting, waiting⟩ :: ⟨keys, filling, filling⟩ :: rest →
      Recovering keys waiting filling t s

variable {keys : η} {waiting filling : List ι}

omit [DecidableEq T] in
private theorem not_isEmpty {xs : List ι} (h : xs ≠ []) : xs.isEmpty = false := by
  cases xs with
  | nil => exact absurd rfl h
  | cons x xs => rfl

private theorem worker_frame {P : Pipeline σ μ ι η} {s next : Sink T σ μ ι η}
    (h : workerStep P s = some next) :
    next.pc = s.pc ∧ next.master = s.master ∧ next.constructed = s.constructed := by
  cases workerStep_cases h <;> exact ⟨rfl, rfl, rfl⟩

private theorem FirstTask.step {P : Pipeline σ μ ι η} {rest : List (Task T)}
    {s next : Sink T σ μ ι η} (task : FirstTask P.keys waiting rest s) (hwaiting : waiting ≠ [])
    (h : workerStep P s = some next) :
    FirstTask P.keys waiting rest next ∧ next.notified = s.notified ∨
      s.At .idle rest true [] [⟨P.keys, waiting, waiting⟩] := by
  cases task with
  | queued hs =>
    simp only [workerStep, hs.worker, hs.queue] at h
    obtain rfl := Option.some.inj h
    exact Or.inl ⟨.load ⟨rfl, rfl, hs.free, hs.slave, hs.written⟩, rfl⟩
  | load hs =>
    simp only [workerStep, hs.worker, hs.free] at h
    obtain rfl := Option.some.inj h
    exact Or.inl ⟨.empty ⟨rfl, hs.queue, rfl, hs.slave, hs.written⟩, rfl⟩
  | empty hs =>
    simp only [workerStep, hs.worker, hs.slave, not_isEmpty hwaiting] at h
    obtain rfl := Option.some.inj h
    exact Or.inl ⟨.size ⟨rfl, hs.queue, hs.free, rfl, hs.written⟩, rfl⟩
  | size hs =>
    simp only [workerStep, hs.worker, hs.slave] at h
    obtain rfl := Option.some.inj h
    exact Or.inl ⟨.write ⟨rfl, hs.queue, hs.free, rfl, hs.written⟩, rfl⟩
  | write hs =>
    simp only [workerStep, hs.worker, hs.slave, hs.written] at h
    obtain rfl := Option.some.inj h
    exact Or.inl ⟨.clear ⟨rfl, hs.queue, hs.free, rfl, rfl⟩, rfl⟩
  | clear hs =>
    simp only [workerStep, hs.worker] at h
    obtain rfl := Option.some.inj h
    exact Or.inl ⟨.store ⟨rfl, hs.queue, hs.free, rfl, hs.written⟩, rfl⟩
  | store hs =>
    simp only [workerStep, hs.worker] at h
    obtain rfl := Option.some.inj h
    exact Or.inl ⟨.done ⟨rfl, hs.queue, rfl, hs.slave, hs.written⟩, rfl⟩
  | done hs => exact Or.inr hs

private theorem SecondTask.step {P : Pipeline σ μ ι η} {s next : Sink T σ μ ι η}
    (task : SecondTask P.keys waiting filling s) (hfilling : filling ≠ [])
    (h : workerStep P s = some next) :
    SecondTask P.keys waiting filling next ∨
      next.written = [⟨P.keys, waiting, waiting⟩, ⟨P.keys, filling, filling⟩] := by
  cases task with
  | queued rest hs =>
    simp only [workerStep, hs.worker, hs.queue] at h
    obtain rfl := Option.some.inj h
    exact Or.inl (.load rest ⟨rfl, rfl, hs.free, hs.slave, hs.written⟩)
  | load queue hs =>
    simp only [workerStep, hs.worker, hs.free] at h
    obtain rfl := Option.some.inj h
    exact Or.inl (.empty queue ⟨rfl, hs.queue, rfl, hs.slave, hs.written⟩)
  | empty queue hs =>
    simp only [workerStep, hs.worker, hs.slave, not_isEmpty hfilling] at h
    obtain rfl := Option.some.inj h
    exact Or.inl (.size queue ⟨rfl, hs.queue, hs.free, rfl, hs.written⟩)
  | size queue hs =>
    simp only [workerStep, hs.worker, hs.slave] at h
    obtain rfl := Option.some.inj h
    exact Or.inl (.write queue ⟨rfl, hs.queue, hs.free, rfl, hs.written⟩)
  | write queue hs =>
    simp only [workerStep, hs.worker, hs.slave, hs.written] at h
    obtain rfl := Option.some.inj h
    exact Or.inr rfl

structure Sink.Posts (s next : Sink T σ μ ι η) (more : List (Task T)) : Prop where
  worker : next.worker = s.worker
  queue : next.queue = s.queue ++ more
  free : next.isSlaveFree = s.isSlaveFree
  slave : next.slave = s.slave
  written : next.written = s.written

omit [DecidableEq T] in
private theorem Sink.At.post {s next : Sink T σ μ ι η} {worker : WorkerPc ι}
    {queue more : List (Task T)} {free : Bool} {slave : List ι} {written : List (Chunk ι η)}
    (h : s.At worker queue free slave written) (posts : s.Posts next more) :
    next.At worker (queue ++ more) free slave written where
  worker := posts.worker.trans h.worker
  queue := by rw [posts.queue, h.queue]
  free := posts.free.trans h.free
  slave := posts.slave.trans h.slave
  written := posts.written.trans h.written

omit [DecidableEq T] in
private theorem FirstTask.post {rest more : List (Task T)} {s next : Sink T σ μ ι η}
    (task : FirstTask keys waiting rest s) (posts : s.Posts next more) :
    FirstTask keys waiting (rest ++ more) next := by
  cases task with
  | queued hs => exact .queued (hs.post posts)
  | load hs => exact .load (hs.post posts)
  | empty hs => exact .empty (hs.post posts)
  | size hs => exact .size (hs.post posts)
  | write hs => exact .write (hs.post posts)
  | clear hs => exact .clear (hs.post posts)
  | store hs => exact .store (hs.post posts)
  | done hs => exact .done (hs.post posts)

omit [DecidableEq T] in
private theorem SecondTask.post {more : List (Task T)} {s next : Sink T σ μ ι η}
    (task : SecondTask keys waiting filling s) (posts : s.Posts next more) :
    SecondTask keys waiting filling next := by
  cases task with
  | queued rest hs => exact .queued (rest ++ more) (hs.post posts)
  | load queue hs => exact .load (queue ++ more) (hs.post posts)
  | empty queue hs => exact .empty (queue ++ more) (hs.post posts)
  | size queue hs => exact .size (queue ++ more) (hs.post posts)
  | write queue hs => exact .write (queue ++ more) (hs.post posts)

omit [DecidableEq T] in
private theorem SecondTask.busy {s : Sink T σ μ ι η} (task : SecondTask keys waiting filling s) :
    s.isSlaveFree = false := by
  cases task <;> rename_i hs <;> exact hs.free

private theorem Sink.At.rests {P : Pipeline σ μ ι η} {s : Sink T σ μ ι η} {free : Bool}
    {slave : List ι} {written : List (Chunk ι η)} (h : s.At .idle [] free slave written) :
    workerStep P s = none := by
  simp only [workerStep, h.worker, h.queue]

private theorem constructing_worker {P : Pipeline σ μ ι η} {t : T} {s next : Sink T σ μ ι η}
    (hwaiting : waiting ≠ []) (inv : Constructing P.keys waiting filling t s)
    (h : workerStep P s = some next) : Constructing P.keys waiting filling t next := by
  obtain ⟨hpc, hmaster, -⟩ := worker_frame h
  have resting : ∀ {free slave written}, s.At .idle [] free slave written → False := by
    intro free slave written hs
    rw [hs.rests] at h
    cases h
  unfold Constructing at inv ⊢
  rw [hpc, hmaster]
  split at inv
  all_goals first | exact (resting inv.1).elim | exact (resting inv).elim | exact inv.elim | skip
  · obtain ⟨task, hfilling⟩ := inv
    rcases task.step hwaiting h with ⟨task, -⟩ | hdone
    · exact ⟨task, hfilling⟩
    · exact (resting hdone).elim
  · obtain ⟨task, hfilling⟩ := inv
    rcases task.step hwaiting h with ⟨task, -⟩ | hdone
    · exact ⟨task, hfilling⟩
    · exact (resting hdone).elim
  · obtain ⟨⟨task, asleep⟩ | hdone, hfilling⟩ := inv
    · rcases task.step hwaiting h with ⟨task, hnotified⟩ | hdone
      · exact ⟨Or.inl ⟨task, by rw [hnotified, asleep]⟩, hfilling⟩
      · -- the empty task behind it wakes the constructor
        simp only [workerStep, hdone.worker, hdone.queue] at h
        obtain rfl := Option.some.inj h
        exact ⟨Or.inr ⟨rfl, rfl, hdone.free, hdone.slave, hdone.written⟩, hfilling⟩
    · exact (resting hdone).elim

private theorem constructing_thread {P : Pipeline σ μ ι η} {t : T} {s next : Sink T σ μ ι η}
    {filled : Bool} (hwaiting : waiting ≠ []) (hfilling : filling ≠ [])
    (hconstructed : s.constructed = false) (hothers : ∀ u, u ≠ t → s.pc u = .idle)
    (inv : Constructing P.keys waiting filling t s) (h : threadStep P s t filled = some next) :
    Recovering P.keys waiting filling t next := by
  have moved : ∀ (m : Sink T σ μ ι η) (pc : Pc μ), m.pc = s.pc → m.constructed = false →
      Constructing P.keys waiting filling t (m.goto t pc) →
        Recovering P.keys waiting filling t (m.goto t pc) := by
    intro m pc hpc hm hnext
    refine .constructing hm ?_ hnext
    intro u hu
    simp only [Sink.goto, Function.update_of_ne hu, hpc]
    exact hothers u hu
  unfold Constructing at inv
  cases threadStep_cases h with
  | resetIfEmpty m hpc | fail m stream hpc hencode | push m stream x hpc hencode | needWrite hpc
  | flushPost hpc =>
    rw [hpc] at inv
    exact inv.elim
  | ctorSlave hpc =>
    rw [hpc] at inv
    obtain ⟨hs, hmaster⟩ := inv
    refine moved s _ rfl hconstructed ?_
    simp only [hs.slave, not_isEmpty hwaiting, Constructing, Sink.goto, Function.update_self]
    exact ⟨⟨hs.worker, hs.queue, hs.free, rfl, hs.written⟩, hmaster⟩
  | ctorBusy hpc =>
    rw [hpc] at inv
    obtain ⟨hs, hmaster⟩ := inv
    refine moved _ _ rfl hconstructed ?_
    simp only [Constructing, Sink.goto, Function.update_self]
    exact ⟨⟨hs.worker, hs.queue, rfl, hs.slave, hs.written⟩, hmaster⟩
  | ctorPost hpc =>
    rw [hpc] at inv
    obtain ⟨hs, hmaster⟩ := inv
    refine moved (s.postTask .cacheToFile) _ rfl hconstructed ?_
    simp only [Constructing, Sink.goto, Sink.postTask, Function.update_self]
    exact ⟨.queued ⟨hs.worker, by rw [hs.queue]; rfl, hs.free, hs.slave, hs.written⟩, hmaster⟩
  | ctorMaster hpc =>
    rw [hpc] at inv
    obtain ⟨task, hmaster⟩ := inv
    have hne : s.master.isEmpty = false := not_isEmpty (by rw [hmaster]; exact hfilling)
    rw [if_neg (by rw [hne]; exact Bool.false_ne_true)]
    refine moved s _ rfl hconstructed ?_
    simp only [Constructing, Sink.goto, Function.update_self]
    exact ⟨task.post ⟨rfl, (List.append_nil _).symm, rfl, rfl, rfl⟩, hmaster⟩
  | mark w hpc =>
    rw [hpc] at inv
    cases w with
    | first | second => exact inv.elim
    | ctor =>
      obtain ⟨task, hmaster⟩ := inv
      refine moved (({ s with notified := _ } : Sink T σ μ ι η).postTask (.notify t)) _ rfl
        hconstructed ?_
      simp only [Constructing, Sink.goto, Sink.postTask, Function.update_self]
      exact ⟨Or.inl ⟨task.post ⟨rfl, rfl, rfl, rfl, rfl⟩, trivial⟩, hmaster⟩
  | wait w hpc woken =>
    rw [hpc] at inv
    cases w with
    | first | second => exact inv.elim
    | ctor =>
      obtain ⟨⟨-, asleep⟩ | hdone, hmaster⟩ := inv
      · rw [asleep] at woken
        cases woken
      · refine moved s _ rfl hconstructed ?_
        simp only [afterWait, Constructing, Sink.goto, Function.update_self]
        exact ⟨⟨hdone.worker, hdone.queue, hdone.free, hdone.slave, hdone.written⟩, hmaster⟩
  | loadFree k hpc =>
    rw [hpc] at inv
    cases k with
    | log | flush => exact inv.elim
    | ctor =>
      obtain ⟨hs, hmaster⟩ := inv
      refine moved s _ rfl hconstructed ?_
      simp only [hs.free, if_true, Constructing, Sink.goto, Function.update_self]
      exact ⟨⟨hs.worker, hs.queue, rfl, hs.slave, hs.written⟩, hmaster⟩
  | storeBusy k hpc =>
    rw [hpc] at inv
    cases k with
    | log | flush => exact inv.elim
    | ctor =>
      obtain ⟨hs, hmaster⟩ := inv
      refine moved _ _ rfl hconstructed ?_
      simp only [Constructing, Sink.goto, Function.update_self]
      exact ⟨⟨hs.worker, hs.queue, rfl, hs.slave, hs.written⟩, hmaster⟩
  | swap k hpc =>
    rw [hpc] at inv
    cases k with
    | log | flush => exact inv.elim
    | ctor =>
      obtain ⟨hs, hmaster⟩ := inv
      refine moved _ _ rfl hconstructed ?_
      simp only [Constructing, Sink.goto, Function.update_self]
      exact ⟨hs.worker, hs.queue, hs.free, hmaster, hs.written⟩
  | post k hpc =>
    rw [hpc] at inv
    cases k with
    | log | flush => exact inv.elim
    | ctor =>
      refine .second ?_ (.queued [] ⟨inv.worker, ?_, inv.free, inv.slave, inv.written⟩)
      · intro u
        by_cases hu : u = t
        · subst hu
          simp only [Sink.goto, Function.update_self, afterPost]
          trivial
        · simp only [Sink.goto, Sink.postTask, Function.update_of_ne hu, hothers u hu]
          trivial
      · simp only [Sink.goto, Sink.postTask, inv.queue]
        rfl

private theorem calm_thread {P : Pipeline σ μ ι η} {s next : Sink T σ μ ι η} {u : T}
    {filled : Bool} (calm : (s.pc u).Calm) (busy : s.isSlaveFree = false)
    (h : threadStep P s u filled = some next) :
    (∃ more, s.Posts next more) ∧ ∃ pc : Pc μ, pc.Calm ∧ next.pc = Function.update s.pc u pc := by
  have same : ∀ {next : Sink T σ μ ι η}, next.worker = s.worker → next.queue = s.queue →
      next.isSlaveFree = s.isSlaveFree → next.slave = s.slave → next.written = s.written →
        ∃ more, s.Posts next more :=
    fun hworker hqueue hfree hslave hwritten =>
      ⟨[], hworker, by rw [hqueue, List.append_nil], hfree, hslave, hwritten⟩
  cases threadStep_cases h with
  | storeBusy k hpc | swap k hpc =>
    rw [hpc] at calm
    exact calm.elim
  | resetIfEmpty m hpc | fail m stream hpc hencode | push m stream x hpc hencode =>
    refine ⟨same rfl rfl rfl rfl rfl, _, ?_, rfl⟩
    trivial
  | needWrite hpc =>
    refine ⟨same rfl rfl rfl rfl rfl, _, ?_, rfl⟩
    cases filled <;> trivial
  | loadFree k hpc =>
    refine ⟨same rfl rfl rfl rfl rfl, _, ?_, rfl⟩
    rw [busy]
    trivial
  | ctorSlave hpc =>
    refine ⟨same rfl rfl rfl rfl rfl, _, ?_, rfl⟩
    cases s.slave.isEmpty <;> trivial
  | ctorBusy hpc =>
    refine ⟨same rfl rfl busy.symm rfl rfl, _, ?_, rfl⟩
    trivial
  | ctorMaster hpc =>
    split
    · refine ⟨same rfl rfl rfl rfl rfl, _, ?_, rfl⟩
      trivial
    · refine ⟨same rfl rfl rfl rfl rfl, _, ?_, rfl⟩
      trivial
  | wait w hpc woken =>
    refine ⟨same rfl rfl rfl rfl rfl, _, ?_, rfl⟩
    cases w <;> trivial
  | post k hpc =>
    refine ⟨⟨_, rfl, rfl, rfl, rfl, rfl⟩, _, ?_, rfl⟩
    cases k <;> trivial
  | flushPost hpc | mark w hpc | ctorPost hpc =>
    refine ⟨⟨_, rfl, rfl, rfl, rfl, rfl⟩, _, ?_, rfl⟩
    trivial

private theorem recovering_enter {t u : T} {s next : Sink T σ μ ι η} {pc : Pc μ} (hpc : pc.Calm)
    (inv : Recovering keys waiting filling t s) (h : enter s u pc = some next) :
    Recovering keys waiting filling t next := by
  obtain ⟨-, hconstructed, rfl⟩ := enter_cases h
  cases inv with
  | constructing hnew =>
    rw [hnew] at hconstructed
    cases hconstructed
  | second calm task =>
    refine .second ?_ (task.post ⟨rfl, (List.append_nil _).symm, rfl, rfl, rfl⟩)
    intro v
    by_cases hv : v = u
    · subst hv
      simpa only [Sink.goto, Function.update_self] using hpc
    · simpa only [Sink.goto, Function.update_of_ne hv] using calm v
  | recovered rest hwritten => exact .recovered rest hwritten

theorem recovering_step {P : Pipeline σ μ ι η} {t : T} {s next : Sink T σ μ ι η} {a : Label T μ}
    (hwaiting : waiting ≠ []) (hfilling : filling ≠ [])
    (inv : Recovering P.keys waiting filling t s) (h : step .effective P s a = some next) :
    Recovering P.keys waiting filling t next := by
  have grown := written_step h
  cases a with
  | log u m =>
    have calm : (beginLog .effective m).Calm := trivial
    exact recovering_enter calm inv h
  | flush u =>
    have calm : (Pc.flushPost : Pc μ).Calm := trivial
    exact recovering_enter calm inv h
  | thread u filled =>
    cases inv with
    | constructing hnew hothers position =>
      by_cases hu : u = t
      · subst hu
        exact constructing_thread hwaiting hfilling hnew hothers position h
      · simp only [step, threadStep, hothers u hu] at h
        cases h
    | second calm task =>
      obtain ⟨⟨more, posts⟩, pc, hpc, hnext⟩ := calm_thread (calm u) task.busy h
      refine .second ?_ (task.post posts)
      intro v
      rw [hnext]
      by_cases hv : v = u
      · subst hv
        simpa only [Function.update_self] using hpc
      · simpa only [Function.update_of_ne hv] using calm v
    | recovered rest hwritten =>
      rw [hwritten] at grown
      exact .recovered _ grown
  | worker =>
    cases inv with
    | constructing hnew hothers position =>
      obtain ⟨hpc, -, hconstructed⟩ := worker_frame h
      refine .constructing (hconstructed.trans hnew) ?_ (constructing_worker hwaiting position h)
      intro u hu
      rw [hpc]
      exact hothers u hu
    | second calm task =>
      obtain ⟨hpc, -, -⟩ := worker_frame h
      rcases task.step hfilling h with task | hwritten
      · refine .second ?_ task
        rw [hpc]
        exact calm
      · exact .recovered [] hwritten
    | recovered rest hwritten =>
      rw [hwritten] at grown
      exact .recovered _ grown

theorem initial_recovering (t : T) (stream : σ) :
    Recovering keys waiting filling t
      (initial (μ := μ) .effective t stream filling waiting : Sink T σ μ ι η) := by
  refine .constructing rfl ?_ ?_
  · intro u hu
    simp only [initial, Function.update_of_ne hu]
  · simp only [Constructing, initial, Function.update_self]
    exact ⟨⟨rfl, rfl, rfl, rfl, rfl⟩, trivial⟩

omit [DecidableEq T] in
private theorem FirstTask.written {rest : List (Task T)} {s : Sink T σ μ ι η}
    (task : FirstTask keys waiting rest s) :
    s.written = [] ∨ s.written = [⟨keys, waiting, waiting⟩] := by
  cases task <;> rename_i hs <;> first | exact Or.inl hs.written | exact Or.inr hs.written

omit [DecidableEq T] in
private theorem Constructing.written {t : T} {s : Sink T σ μ ι η}
    (h : Constructing keys waiting filling t s) :
    s.written = [] ∨ s.written = [⟨keys, waiting, waiting⟩] := by
  unfold Constructing at h
  split at h
  · exact Or.inl h.1.written
  · exact Or.inl h.1.written
  · exact Or.inl h.1.written
  · exact h.1.written
  · exact h.1.written
  · rcases h.1 with ⟨task, -⟩ | hdone
    · exact task.written
    · exact Or.inr hdone.written
  · exact Or.inr h.1.written
  · exact Or.inr h.1.written
  · exact Or.inr h.1.written
  · exact Or.inr h.written
  · exact h.elim

omit [DecidableEq T] in
theorem Recovering.writesBoth {t : T} {s : Sink T σ μ ι η}
    (h : Recovering keys waiting filling t s) : WritesBoth keys waiting filling s := by
  cases h with
  | constructing hnew hothers position =>
    constructor
    · rcases position.written with hwritten | hwritten <;> rw [hwritten]
      · exact List.nil_prefix
      · exact ⟨_, rfl⟩
    · intro hconstructed
      rw [hnew] at hconstructed
      cases hconstructed
  | second calm task =>
    cases task with
    | queued rest hs =>
      constructor
      · rw [hs.written]
        exact ⟨_, rfl⟩
      · intro _ _ hqueue
        rw [hs.queue] at hqueue
        cases hqueue
    | load queue hs | empty queue hs | size queue hs | write queue hs =>
      constructor
      · rw [hs.written]
        exact ⟨_, rfl⟩
      · intro _ hworker
        rw [hs.worker] at hworker
        cases hworker
  | recovered rest hwritten =>
    constructor
    · rw [hwritten]
      exact List.prefix_refl _
    · intro _ _ _
      rw [hwritten]
      exact Nat.le_add_left 2 rest.length

private theorem run_toWait (P : Pipeline σ μ ι η) (t : T) (stream : σ) (x y : ι)
    (xs ys : List ι) :
    run (step .effective P) (initial .effective t stream (y :: ys) (x :: xs))
        (List.replicate 5 (.thread t false)) =
      some { (initial .effective t stream (y :: ys) (x :: xs) : Sink T σ μ ι η) with
        isSlaveFree := false, pc := Function.update (fun _ => .idle) t (.wait .ctor)
        queue := [.cacheToFile, .notify t] } := by
  simp [List.replicate, step, threadStep, initial, Sink.goto, Sink.postTask]

private theorem run_firstTask (P : Pipeline σ μ ι η) (t : T) (s : Sink T σ μ ι η) (x : ι)
    (xs : List ι) (worker : s.worker = .idle) (free : s.isSlaveFree = false)
    (slave : s.slave = x :: xs) (queue : s.queue = [.cacheToFile, .notify t]) :
    run (step .effective P) s (List.replicate 8 .worker) =
      some { s with
        isSlaveFree := true, slave := [], queue := [], worker := .idle
        notified := Function.update s.notified t true
        written := s.written ++ [⟨P.keys, x :: xs, x :: xs⟩] } := by
  simp [List.replicate, step, workerStep, worker, free, slave, queue]

private theorem run_toPost (P : Pipeline σ μ ι η) (t : T) (s : Sink T σ μ ι η)
    (pc : s.pc = Function.update (fun _ => .idle) t (.wait .ctor)) (woken : s.notified t = true)
    (free : s.isSlaveFree = true) (queue : s.queue = []) :
    ∃ next, run (step .effective P) s (List.replicate 5 (.thread t false)) = some next ∧
      next.At s.worker [.cacheToFile] false s.master s.written := by
  refine ⟨_, by
    simp [List.replicate, step, threadStep, pc, woken, free, queue, Sink.goto, Sink.postTask,
      afterWait, afterPost]
    rfl, ?_⟩
  exact ⟨rfl, rfl, rfl, rfl, rfl⟩

private theorem run_secondTask (P : Pipeline σ μ ι η) (s : Sink T σ μ ι η) (y : ι) (ys : List ι)
    {written : List (Chunk ι η)} (posted : s.At .idle [.cacheToFile] false (y :: ys) written) :
    ∃ next, run (step .effective P) s (List.replicate 5 .worker) = some next ∧
      next.written = written ++ [⟨P.keys, y :: ys, y :: ys⟩] := by
  obtain ⟨worker, queue, free, slave, rfl⟩ := posted
  refine ⟨{ s with
    queue := [], worker := .clear
    written := s.written ++ [⟨P.keys, y :: ys, y :: ys⟩] }, ?_, rfl⟩
  simp [List.replicate, step, workerStep, worker, free, slave, queue]

private theorem run_bothChunks (P : Pipeline σ μ ι η) (t : T) (stream : σ)
    (hwaiting : waiting ≠ []) (hfilling : filling ≠ []) :
    ∃ bs next, run (step .effective P) (initial .effective t stream filling waiting) bs =
      some next ∧ next.written = [⟨P.keys, waiting, waiting⟩, ⟨P.keys, filling, filling⟩] := by
  obtain ⟨x, xs, rfl⟩ := List.exists_cons_of_ne_nil hwaiting
  obtain ⟨y, ys, rfl⟩ := List.exists_cons_of_ne_nil hfilling
  let waits : Sink T σ μ ι η :=
    { (initial .effective t stream (y :: ys) (x :: xs) : Sink T σ μ ι η) with
      isSlaveFree := false, pc := Function.update (fun _ => .idle) t (.wait .ctor)
      queue := [.cacheToFile, .notify t] }
  let emptied : Sink T σ μ ι η :=
    { waits with
      isSlaveFree := true, slave := [], queue := [], worker := .idle
      notified := Function.update waits.notified t true
      written := waits.written ++ [⟨P.keys, x :: xs, x :: xs⟩] }
  have first : run (step .effective P) waits (List.replicate 8 .worker) = some emptied :=
    run_firstTask P t waits x xs rfl rfl rfl rfl
  obtain ⟨posted, hposted, hat⟩ := run_toPost P t emptied rfl (by simp [emptied]) rfl rfl
  obtain ⟨next, hnext, hwritten⟩ := run_secondTask P posted y ys hat
  refine ⟨List.replicate 5 (.thread t false) ++ (List.replicate 8 .worker ++
    (List.replicate 5 (.thread t false) ++ List.replicate 5 .worker)), next, ?_, hwritten⟩
  rw [run_append, run_toWait, Option.bind_some, run_append, first, Option.bind_some, run_append,
    hposted, Option.bind_some, hnext]

end Recovery

section Order

omit [DecidableEq T] in
private theorem onto_of_swapOntoEmpty {P : Pipeline σ μ ι η} {s : Sink T σ μ ι η}
    {a : Label T μ} {m : Handoff.Move ι} (guard : SwapOntoEmpty s a)
    (h : move P s a = some m) : Handoff.OntoEmptyBack s.view m := by
  cases m with
  | exchange =>
    obtain ⟨t, filled, rfl, swapping⟩ := swap_of_exchange h
    obtain ⟨outside, emptied⟩ := guard swapping
    exact ⟨phase_rest outside, List.isEmpty_iff.mp emptied⟩
  | _ => trivial

theorem swapOntoEmpty_of_emptyTestOutsideSwap {P : Pipeline σ μ ι η} {stream : σ}
    {masterFile slaveFile : List ι} {as : List (Label Unit μ)} {s : Sink Unit σ μ ι η}
    (hrun : run (step .effective P) (initial .effective () stream masterFile slaveFile) as = some s)
    (hmeets : Meets (step .effective P) EmptyTestOutsideSwap
      (initial .effective () stream masterFile slaveFile) as) :
    Meets (step .effective P) SwapOntoEmpty
      (initial .effective () stream masterFile slaveFile) as := by
  refine Machine.meets_of_invariant paced_step ?_
    (initial_paced .effective stream masterFile slaveFile) hmeets hrun
  intro s a paced _ _
  cases a with
  | thread t filled =>
    intro swapping
    obtain ⟨outside, emptied⟩ := paced.swap swapping
    exact ⟨outside, List.isEmpty_iff.mpr emptied⟩
  | _ => trivial

theorem lastLogged_of_swapOntoEmpty {tear : ι → ι} {P : Pipeline σ μ ι η} {t : T} {stream : σ}
    {masterFile slaveFile : List ι} {as : List (Label T μ)} {s left : Sink T σ μ ι η}
    (hrun : run (step .effective P) (initial .effective t stream masterFile slaveFile) as = some s)
    (onto : Meets (step .effective P) SwapOntoEmpty
      (initial .effective t stream masterFile slaveFile) as)
    (hcrash : Crashed tear P s left) : left.lastLogged = left.slave ++ left.master := by
  have guards : ∀ (s : Sink T σ μ ι η) (a : Label T μ) (m : Handoff.Move ι),
      SwapOntoEmpty s a → move P s a = some m → Handoff.OntoEmptyBack s.view m :=
    fun _ _ _ guard h => onto_of_swapOntoEmpty guard h
  obtain ⟨ms, hmoves, honto⟩ := (simulates_handoff .effective P).run guards onto hrun
  have ordered := Handoff.run_ordered (initial_ordered .effective t stream masterFile slaveFile)
    honto hmoves
  have outside := honto.imp fun _ _ guard => guard.outside
  have atStart : (initial (μ := μ) (η := η) .effective t stream masterFile slaveFile).view.Repeats :=
    fun emitted => by cases emitted
  have last : s.slave ++ s.master <:+ s.pushed :=
    ordered.suffix (Handoff.run_repeats atStart outside hmoves)
  have held : left.slave ++ left.master <:+ left.pushed := by
    cases hcrash with
    | between => exact last
    | inPush u x hpushing =>
      obtain ⟨front, hfront⟩ := last
      refine ⟨front, ?_⟩
      show front ++ (s.slave ++ (s.master ++ [tear x])) = s.pushed ++ [tear x]
      rw [← hfront, List.append_assoc, List.append_assoc]
  exact (List.suffix_iff_eq_drop.mp held).symm

omit [DecidableEq T] in
/-- In what order the files come out, the number of exchanges decides. -/
theorem files_inOrder_iff {left : Sink T σ μ ι η} :
    left.slaveFile ++ left.masterFile = left.slave ++ left.master ↔
      left.swapped = false ∨ left.slave ++ left.master = left.master ++ left.slave := by
  rw [Sink.slaveFile, Sink.masterFile]
  cases left.swapped with
  | false => simp
  | true => simp [eq_comm]

omit [DecidableEq T] in
theorem WritesBoth.inOrder {keys : η} {slaveFile masterFile : List ι} {left s : Sink T σ μ ι η}
    (h : WritesBoth keys slaveFile masterFile s) (files : slaveFile ++ masterFile = left.lastLogged) :
    RecoversInOrder left s := by
  have both : [(⟨keys, slaveFile, slaveFile⟩ : Chunk ι η), ⟨keys, masterFile, masterFile⟩].flatMap
      Chunk.payload = left.lastLogged := by
    simpa using files
  constructor
  · intro c hc
    have known := h.order.subset hc
    rcases List.mem_cons.mp known with rfl | known
    · rfl
    · obtain rfl := List.mem_singleton.mp known
      rfl
  · obtain ⟨rest, hrest⟩ := h.order
    rw [← both, ← hrest, List.flatMap_append]
    exact List.prefix_append _ _
  · intro constructed resting queue
    have length : (s.written.take 2).length = 2 := by
      rw [List.length_take]
      exact Nat.min_eq_left (h.both constructed resting queue)
    rw [← both, ← h.order.eq_of_length length]
    rfl

/-- After a crash with items in both buffers, in a process whose exchanges have all found the slave
buffer empty, the next construction recovers what was logged last in the order in which it was
logged if and only if the buffers had changed places an even number of times, or make no
difference. -/
theorem recovery_inOrder_iff (tear : ι → ι) (P P' : Pipeline σ μ ι η) (t t' : T)
    (stream stream' : σ) (masterFile slaveFile : List ι) (as : List (Label T μ))
    (s left : Sink T σ μ ι η)
    (hrun : run (step .effective P) (initial .effective t stream masterFile slaveFile) as = some s)
    (onto : Meets (step .effective P) SwapOntoEmpty
      (initial .effective t stream masterFile slaveFile) as)
    (hcrash : Crashed tear P s left) (hslave : left.slave ≠ []) (hmaster : left.master ≠ []) :
    (∀ (bs : List (Label T μ)) (next : Sink T σ μ ι η),
      run (step .effective P')
          (initial .effective t' stream' left.masterFile left.slaveFile) bs = some next →
        RecoversInOrder left next) ↔
      exchanges .effective P (initial .effective t stream masterFile slaveFile) as % 2 = 0 ∨
        left.slave ++ left.master = left.master ++ left.slave := by
  have parity : left.swapped =
      (exchanges .effective P (initial .effective t stream masterFile slaveFile) as).bodd := by
    rw [hcrash.swapped, swapped_run hrun]
    exact Bool.false_xor _
  have even : exchanges .effective P (initial .effective t stream masterFile slaveFile) as % 2 = 0 ↔
      left.swapped = false := by
    rw [Nat.mod_two_of_bodd, ← parity]
    cases left.swapped <;> decide
  have filled : left.slaveFile ≠ [] ∧ left.masterFile ≠ [] := by
    rw [Sink.slaveFile, Sink.masterFile]
    cases left.swapped
    · exact ⟨hslave, hmaster⟩
    · exact ⟨hmaster, hslave⟩
  have last := lastLogged_of_swapOntoEmpty hrun onto hcrash
  rw [even, ← files_inOrder_iff]
  constructor
  · intro inOrder
    obtain ⟨bs, next, hnext, hwritten⟩ := run_bothChunks (T := T) (μ := μ) P' t' stream' filled.1
      filled.2
    have order := (inOrder bs next hnext).order
    rw [last, Sink.recovered, hwritten] at order
    have same : left.slaveFile ++ left.masterFile <+: left.slave ++ left.master := by
      simpa using order
    refine same.eq_of_length ?_
    rw [Sink.slaveFile, Sink.masterFile]
    cases left.swapped <;> simp [Nat.add_comm]
  · intro files bs next hnext
    have recovering : Recovering P'.keys left.slaveFile left.masterFile t' next :=
      run_preserves (Recovering P'.keys left.slaveFile left.masterFile t')
        (fun _ _ _ inv hstep => recovering_step filled.1 filled.2 inv hstep)
        (initial_recovering t' stream') hnext
    exact recovering.writesBoth.inOrder (files.trans last.symm)

end Order

/-- Two exchanges: the item 1 is written, 2 waits in the slave buffer and 3 is in the master. -/
def crashAfterTwoExchanges : List (Label Unit Nat) :=
  let caller := Label.thread () true
  [caller, caller,
    .log () 1, caller, caller, caller, caller, caller, caller, caller,
    .worker, .worker, .worker, .worker, .worker, .worker, .worker,
    .log () 2, caller, caller, caller, caller, caller, caller, caller,
    .log () 3, caller, caller, .thread () false]

theorem recovery_inOrder_iff_two_exchanges :
    ∃ s : Sink Unit Unit Nat Nat Unit, run (step .effective (plain Nat))
        (initial .effective () () [] []) crashAfterTwoExchanges = some s ∧
      s.lastLogged = [2, 3] ∧
      ∀ (bs : List (Label Unit Nat)) (next : Sink Unit Unit Nat Nat Unit),
        run (step .effective (plain Nat)) (initial .effective () () s.masterFile s.slaveFile) bs =
          some next → RecoversInOrder s next := by
  obtain ⟨s, hs, hlast, hslave, hmaster⟩ : ∃ s : Sink Unit Unit Nat Nat Unit,
      run (step .effective (plain Nat)) (initial .effective () () [] []) crashAfterTwoExchanges =
        some s ∧ s.lastLogged = [2, 3] ∧ s.slave = [2] ∧ s.master = [3] :=
    ⟨_, rfl, rfl, rfl, rfl⟩
  have recovers := (recovery_inOrder_iff id (plain Nat) (plain Nat) () () () () [] []
    crashAfterTwoExchanges s s hs (by decide) .between (by rw [hslave]; decide)
    (by rw [hmaster]; decide)).mpr (Or.inl (by decide))
  exact ⟨s, hs, hlast, recovers⟩

/-- One exchange: the item 1 waits in the slave buffer, which lies in `master_mmap`, and 2 is
in the master buffer. -/
def crashAfterOneExchange : List (Label Unit Nat) :=
  let caller := Label.thread () true
  [caller, caller,
    .log () 1, caller, caller, caller, caller, caller, caller, caller,
    .log () 2, caller, caller, .thread () false]

def recoveryOfBoth : List (Label Unit Nat) :=
  let caller := Label.thread () false
  [caller, caller, caller, caller, caller,
    .worker, .worker, .worker, .worker, .worker, .worker, .worker, .worker,
    caller, caller, caller, caller, caller, .worker, .worker, .worker, .worker, .worker]

theorem oneExchange_recovers_backwards :
    ∃ s next : Sink Unit Unit Nat Nat Unit,
      run (step .effective (plain Nat)) (initial .effective () () [] []) crashAfterOneExchange =
        some s ∧ s.slave = [1] ∧ s.master = [2] ∧ s.pushed = [1, 2] ∧
      run (step .effective (plain Nat)) (initial .effective () () s.masterFile s.slaveFile)
        recoveryOfBoth = some next ∧ next.writtenItems = [2, 1] ∧ ¬ RecoversInOrder s next := by
  obtain ⟨s, hs, hslave, hmaster, hpushed, hlast, hfiles⟩ : ∃ s : Sink Unit Unit Nat Nat Unit,
      run (step .effective (plain Nat)) (initial .effective () () [] []) crashAfterOneExchange =
        some s ∧ s.slave = [1] ∧ s.master = [2] ∧ s.pushed = [1, 2] ∧ s.lastLogged = [1, 2] ∧
          s.masterFile = [1] ∧ s.slaveFile = [2] :=
    ⟨_, rfl, rfl, rfl, rfl, rfl, rfl, rfl⟩
  obtain ⟨next, hnext, hwritten⟩ : ∃ next : Sink Unit Unit Nat Nat Unit,
      run (step .effective (plain Nat)) (initial .effective () () [1] [2]) recoveryOfBoth =
        some next ∧ next.written = [⟨(), [2], [2]⟩, ⟨(), [1], [1]⟩] := ⟨_, rfl, rfl⟩
  refine ⟨s, next, hs, hslave, hmaster, hpushed, by rw [hfiles.1, hfiles.2]; exact hnext, ?_, ?_⟩
  · rw [Sink.writtenItems, hwritten]
    rfl
  · intro inOrder
    have order := inOrder.order
    rw [hlast, Sink.recovered, hwritten] at order
    exact absurd order (by decide)

end FlashLog.Sinks.DoubleBuffer
