import Mathlib.Data.Finset.Basic
import Nacl.Task

/-! The executor of a single CPU with its FIFO worker queue. Futures are an
arbitrary function of a shared world, so that a poll may wake any tasks. -/

namespace Nacl

inductive ExecEvent
  | push (id : TaskId)
  | pop (id : TaskId)
  | poll (id : TaskId)
  | ready (id : TaskId)
deriving DecidableEq

/-- The keys of the two maps of `Executor`, the worker queue of the CPU, the
world of the futures, and the events so far. -/
structure Executor (σ : Type*) where
  tasks : Finset TaskId
  wakerCache : Finset TaskId
  worker : List TaskId
  world : σ
  log : List ExecEvent

variable {σ : Type*}

def Executor.new (world : σ) : Executor σ := ⟨∅, ∅, [], world, []⟩

def Executor.wake (e : Executor σ) (ids : List TaskId) : Executor σ :=
  { e with worker := e.worker ++ ids, log := e.log ++ ids.map .push }

def Executor.spawn (e : Executor σ) (id : TaskId) : Option (Executor σ) :=
  if id ∈ e.tasks then none else some ({ e with tasks := insert id e.tasks }.wake [id])

def Executor.begin (e : Executor σ) (id : TaskId) (world : σ) : Executor σ :=
  { e with
    wakerCache := insert id e.wakerCache
    world := world
    log := e.log ++ [.poll id] }

def Executor.finish (e : Executor σ) (id : TaskId) : Poll → Executor σ
  | .pending => e
  | .ready =>
    { e with
      tasks := e.tasks.erase id
      wakerCache := e.wakerCache.erase id
      log := e.log ++ [.ready id] }

def Executor.poll (poll : σ → TaskId → Polled σ) (e : Executor σ) (id : TaskId) : Executor σ :=
  let r := poll e.world id
  (((e.begin id r.state).wake r.wakes).finish id r.answer)

def Executor.turn (poll : σ → TaskId → Polled σ) (e : Executor σ) : Option (Executor σ) :=
  match e.worker with
  | [] => none
  | id :: rest =>
    let e := { e with worker := rest, log := e.log ++ [.pop id] }
    if id ∈ e.tasks then some (e.poll poll id) else some e

def Executor.turns (poll : σ → TaskId → Polled σ) : Nat → Executor σ → Executor σ
  | 0, e => e
  | n + 1, e => match e.turn poll with
    | none => e
    | some e' => e'.turns poll n

def Executor.runReadyTasks (poll : σ → TaskId → Polled σ) : Nat → Executor σ → Option (Executor σ)
  | 0, _ => none
  | n + 1, e => match e.turn poll with
    | none => some e
    | some e' => e'.runReadyTasks poll n

inductive BootAct
  | spawn (id : TaskId)
  | wake (id : TaskId)
deriving DecidableEq

def BootAct.id : BootAct → TaskId
  | .spawn id | .wake id => id

def spawnedIds (acts : List BootAct) : List TaskId :=
  acts.filterMap fun
    | .spawn id => some id
    | .wake _ => none

def Executor.boot (e : Executor σ) : List BootAct → Option (Executor σ)
  | [] => some e
  | .spawn id :: acts => (e.spawn id).bind fun e' => e'.boot acts
  | .wake id :: acts => (e.wake [id]).boot acts

/-- What is done before `run` is entered and how the futures behave. Every task
has an id of its own from `TaskId::new`, and a waker only ever carries the id of a task. -/
structure Program (σ : Type*) where
  acts : List BootAct
  world : σ
  poll : σ → TaskId → Polled σ
  spawned_nodup : (spawnedIds acts).Nodup
  boot_wakes : ∀ id, BootAct.wake id ∈ acts → id ∈ spawnedIds acts
  poll_wakes : ∀ w id, ∀ j ∈ (poll w id).wakes, j ∈ spawnedIds acts

def Program.start (P : Program σ) : Option (Executor σ) := (Executor.new P.world).boot P.acts

end Nacl
