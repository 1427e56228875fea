import FlashLog.Scheduler.Futures
import FlashLog.Sinks.DoubleBuffer

/-!
A sink on the executor it posts to. The calls of `EffectiveSink` and `AsyncSink` put their tasks
in a pool of one thread; that thread runs `CacheToFile_`, the empty tasks of
`WAIT_TASKS_COMPLETED` and the `EliminateFiles_` that the timer posts. A call goes on when
`AddTask` has returned, or when the future of its empty task is ready.

Here the pool has the part of the sink's own `queue` and `notified`, which no step reads.
-/

set_option autoImplicit false
set_option relaxedAutoImplicit false

namespace FlashLog.Sinks.Pooled

open FlashLog.Scheduler
open FlashLog.Scheduler.ThreadPool (Pool Call CallerPc)
open FlashLog.Sinks.DoubleBuffer (Kind Pipeline Caller Wait Pc Sink afterPost afterWait)

inductive Job (T : Type)
  | sink (task : DoubleBuffer.Task T)
  | eliminateFiles

inductive Poster (T : Type)
  | caller (t : T)
  | timer
  deriving DecidableEq

structure System (T σ μ ι η : Type) where
  sink : Sink T σ μ ι η
  executor : Pool (Poster T) (Job T)

/-- A call on the sink, a step of the thread that is in it, a step of a call on the pool, the
timer's `PostTask`, and the steps of the pool's thread and of its owner. -/
inductive Label (T μ : Type)
  | log (t : T) (m : μ)
  | flush (t : T)
  | thread (t : T) (filled : Bool)
  | poster (p : Poster T)
  | eliminateFiles
  | worker
  | spurious
  | start
  | stop
  | owner
  deriving DecidableEq

variable {T σ μ ι η : Type}

/-- `AsyncCacheToFile_` and `WAIT_TASKS_COMPLETED`, as calls on the pool. -/
def posts (pc : Pc μ) (t : T) : Option (Call (Job T)) :=
  match pc with
  | .post _ | .flushPost | .ctorPost => some (.addTask (.sink .cacheToFile))
  | .mark _ => some (.addReturnTask (.sink (.notify t)) true)
  | _ => none

def afterCall : Pc μ → Pc μ
  | .post k => afterPost k
  | .flushPost => .mark .first
  | .ctorPost => .ctorMaster
  | .mark w => afterWait w
  | pc => pc

/-- The `AsyncCacheToFile_` after the constructor's `SwapCache_` is its last step. -/
def endsCtor : Pc μ → Bool
  | .post .ctor => true
  | _ => false

/-- `CacheToFile_` begins when the pool's thread starts its task. -/
def begun : ThreadPool.WorkerPc (Job T) → DoubleBuffer.WorkerPc ι
  | .start ⟨_, _, .sink .cacheToFile⟩ => .load
  | _ => .idle

variable [DecidableEq T]

def initial (kind : Kind) (t : T) (stream : σ) (masterFile slaveFile : List ι) :
    System T σ μ ι η where
  sink := DoubleBuffer.initial kind t stream masterFile slaveFile
  executor := ThreadPool.initial 1

def returned (s : Sink T σ μ ι η) (t : T) : Sink T σ μ ι η :=
  { s with constructed := s.constructed || endsCtor (s.pc t) }.goto t (afterCall (s.pc t))

/-- What a step of a call on the pool is to the sink: the thread goes on when the call is over. -/
def resumed (s : Sink T σ μ ι η) : Poster T → CallerPc (Job T) → Sink T σ μ ι η
  | .caller t, .idle => returned s t
  | _, _ => s

def posterStep (s : System T σ μ ι η) (p : Poster T) : Option (System T σ μ ι η) :=
  (ThreadPool.callerStep s.executor p).map fun executor =>
    { executor, sink := resumed s.sink p (executor.caller p) }

def threadStep (P : Pipeline σ μ ι η) (s : System T σ μ ι η) (t : T) (filled : Bool) :
    Option (System T σ μ ι η) :=
  match posts (s.sink.pc t) t with
  | some k =>
    (ThreadPool.step s.executor (.call (.caller t) k)).map fun executor => { s with executor }
  | none => (DoubleBuffer.threadStep P s.sink t filled).map fun sink => { s with sink }

/-- A step of the pool's thread: inside `CacheToFile_` it is the sink's, elsewhere the pool's. -/
def workerStep (P : Pipeline σ μ ι η) (s : System T σ μ ι η) : Option (System T σ μ ι η) :=
  match s.sink.worker with
  | .idle =>
    (ThreadPool.workerStep s.executor 0).map fun executor =>
      { executor, sink := { s.sink with worker := begun (s.executor.worker 0) } }
  | _ => (DoubleBuffer.workerStep P s.sink).map fun sink => { s with sink }

def poolStep (s : System T σ μ ι η) (a : ThreadPool.Label (Poster T) (Job T)) :
    Option (System T σ μ ι η) :=
  (ThreadPool.step s.executor a).map fun executor => { s with executor }

def step (kind : Kind) (P : Pipeline σ μ ι η) (s : System T σ μ ι η) :
    Label T μ → Option (System T σ μ ι η)
  | .log t m =>
    (DoubleBuffer.enter s.sink t (DoubleBuffer.beginLog kind m)).map fun sink => { s with sink }
  | .flush t => (DoubleBuffer.enter s.sink t .flushPost).map fun sink => { s with sink }
  | .thread t filled => threadStep P s t filled
  | .poster p => posterStep s p
  | .eliminateFiles =>
    -- only `EffectiveSink` asks for it, as the last thing its constructor does
    if kind = .effective ∧ s.sink.constructed then
      poolStep s (.call .timer (.addTask .eliminateFiles))
    else none
  | .worker => workerStep P s
  | .spurious => poolStep s (.spurious 0)
  | .start => poolStep s .start
  | .stop => poolStep s .stop
  | .owner => poolStep s .owner

end FlashLog.Sinks.Pooled
