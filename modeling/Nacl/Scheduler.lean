import Mathlib.Data.Finset.Basic
import Nacl.Lib.Runs
import Nacl.Task

/-! The executors of all CPUs, one atomic step at a time. A worker queue is a
FIFO list; `steal_batch` moves a prefix of the victim's list. -/

namespace Nacl

/-- A task in an executor's map, with the two facts that decide whether it is
ready: a poll has begun, and a waker was called since the last one began. -/
structure Task where
  polled : Bool
  woken : Bool
deriving DecidableEq

def Task.fresh : Task := ⟨false, false⟩

def Task.begin (_ : Task) : Task := ⟨true, false⟩

def Task.wake (t : Task) : Task := { t with woken := true }

def Task.ready (t : Task) : Bool := !t.polled || t.woken

/-- The place of a CPU in `Executor::run`. `user` is code outside the executor:
what runs before `run` is entered, or the task being polled together with the
interrupt flag its poll found. -/
inductive Pc (κ : Type*)
  | user (task : Option (TaskId × Bool))
  | push (id : TaskId) (task : Option (TaskId × Bool))
  | panicked (id : TaskId)
  | pop
  | lookup (id : TaskId)
  | disable
  | check
  | enable
  | steal (rest : List κ)
  | halted
deriving DecidableEq

def Pc.victim {κ : Type*} : Pc κ → Option κ
  | .steal rest => rest.head?
  | _ => none

def Pc.skip {κ : Type*} : Pc κ → Pc κ
  | .steal rest => .steal rest.tail
  | pc => pc

def Pc.isUser {κ : Type*} : Pc κ → Bool
  | .user _ => true
  | _ => false

def Pc.isPoll {κ : Type*} : Pc κ → Bool
  | .user (some _) => true
  | _ => false

def Pc.pushing {κ : Type*} : Pc κ → Option TaskId
  | .push id _ => some id
  | _ => none

def Pc.enterPush {κ : Type*} (id : TaskId) : Pc κ → Pc κ
  | .user task => .push id task
  | pc => pc

def Pc.leavePush {κ : Type*} : Pc κ → Pc κ
  | .push _ task => .user task
  | pc => pc

structure Core (κ : Type*) where
  tasks : TaskId → Option Task
  wakerCache : Finset TaskId
  worker : List TaskId
  interrupts : Bool
  pc : Pc κ

def Core.markWoken {κ : Type*} (ids : List TaskId) (k : Core κ) : Core κ :=
  { k with tasks := fun i => if i ∈ ids then (k.tasks i).map Task.wake else k.tasks i }

structure Sched (κ : Type*) where
  cores : κ → Core κ
  created : Nat
  unspawned : List TaskId

def maxBatch : Nat := 32

def batchBound (len : Nat) : Nat := min ((len + 1) / 2) maxBatch

inductive StealAnswer
  | empty
  | retry
  | success (n : Nat)
deriving DecidableEq

inductive SchedAct (κ : Type*)
  | new
  | spawn (c : κ) (id : TaskId)
  | spawnPush (c : κ) (id : TaskId)
  | start (c : κ)
  | pop (c : κ)
  | lookup (c : κ) (id : TaskId)
  | wake (c : κ) (id : TaskId)
  | setInterrupts (c : κ) (flag : Bool)
  | answer (c : κ) (id : TaskId) (p : Poll)
  | disable (c : κ)
  | check (c : κ)
  | enable (c : κ)
  | steal (c v : κ) (r : StealAnswer)
  | enableAndHlt (c : κ)
  | interrupt (c : κ) (ids : List TaskId)
deriving DecidableEq

variable {κ : Type*} [DecidableEq κ]

def Sched.set (s : Sched κ) (c : κ) (k : Core κ) : Sched κ :=
  { s with cores := Function.update s.cores c k }

def Core.push (k : Core κ) (ids : List TaskId) : Core κ :=
  { k with worker := k.worker ++ ids }

/-- Waker calls for `ids` on CPU `c`: `wake_task` pushes onto the worker of the
CPU that makes the call, wherever the task is held. -/
def Sched.wake (s : Sched κ) (c : κ) (ids : List TaskId) : Sched κ :=
  let t : Sched κ := { s with cores := fun d => (s.cores d).markWoken ids }
  t.set c ((t.cores c).push ids)

def Sched.init (flags : κ → Bool) : Sched κ where
  cores c := ⟨fun _ => none, ∅, [], flags c, .user none⟩
  created := 0
  unspawned := []

/-- Which answers of `steal_batch` are possible: the own queue is only tested
for emptiness, a foreign one loses a non-empty prefix. -/
def Sched.answers (s : Sched κ) (c v : κ) : StealAnswer → Prop
  | .empty => (s.cores v).worker = []
  | .retry => v ≠ c
  | .success n =>
    if v = c then (s.cores c).worker ≠ []
    else 0 < n ∧ n ≤ batchBound (s.cores v).worker.length

/-- A poll returns with the interrupt flag as it found it. -/
def Sched.Enabled (s : Sched κ) : SchedAct κ → Prop
  | .new => True
  | .spawn c id => (s.cores c).pc.isUser = true ∧ id ∈ s.unspawned
  | .spawnPush c id => (s.cores c).pc.pushing = some id
  | .start c => (s.cores c).pc = .user none
  | .pop c => (s.cores c).pc = .pop
  | .lookup c id => (s.cores c).pc = .lookup id
  | .wake c _ => (s.cores c).pc.isUser = true
  | .setInterrupts c _ => (s.cores c).pc.isPoll = true
  | .answer c id _ => (s.cores c).pc = .user (some (id, (s.cores c).interrupts))
  | .disable c => (s.cores c).pc = .disable
  | .check c => (s.cores c).pc = .check
  | .enable c => (s.cores c).pc = .enable
  | .steal c v r => (s.cores c).pc.victim = some v ∧ s.answers c v r
  | .enableAndHlt c => (s.cores c).pc = .steal []
  | .interrupt c _ => (s.cores c).interrupts = true

/-- `insert` replaces a task of the same id before `spawn` panics. -/
def Core.inserted (k : Core κ) (id : TaskId) : Core κ :=
  { k with
    tasks := Function.update k.tasks id (some .fresh)
    pc := if (k.tasks id).isSome then .panicked id else k.pc.enterPush id }

def Core.pushed (k : Core κ) (id : TaskId) : Core κ :=
  { k.push [id] with pc := k.pc.leavePush }

def Core.popped (k : Core κ) : Core κ :=
  match k.worker with
  | [] => { k with pc := .disable }
  | id :: rest => { k with worker := rest, pc := .lookup id }

def Core.looked (k : Core κ) (id : TaskId) : Core κ :=
  match k.tasks id with
  | none => { k with pc := .pop }
  | some t =>
    { k with
      tasks := Function.update k.tasks id (some t.begin)
      wakerCache := insert id k.wakerCache
      pc := .user (some (id, k.interrupts)) }

def Core.answered (k : Core κ) (id : TaskId) : Poll → Core κ
  | .ready =>
    { k with
      tasks := Function.update k.tasks id none
      wakerCache := k.wakerCache.erase id
      pc := .pop }
  | .pending => { k with pc := .pop }

def Core.checked (k : Core κ) (stealers : List κ) : Core κ :=
  { k with pc := if k.worker = [] then .steal stealers else .enable }

def Sched.stolen (s : Sched κ) (c v : κ) : StealAnswer → Sched κ
  | .empty => s.set c { s.cores c with pc := (s.cores c).pc.skip }
  | .retry => s
  | .success n =>
    if v = c then s.set c { s.cores c with pc := .pop }
    else
      (s.set v { s.cores v with worker := (s.cores v).worker.drop n }).set c
        { s.cores c with
          worker := (s.cores c).worker ++ (s.cores v).worker.take n
          pc := .pop }

def Core.resumed (k : Core κ) : Core κ :=
  { k with pc := if k.pc = .halted then .pop else k.pc }

def Sched.next (stealers : List κ) (s : Sched κ) : SchedAct κ → Sched κ
  | .new => { s with
      created := s.created + 1
      unspawned := TaskId.new s.created :: s.unspawned }
  | .spawn c id => { s.set c ((s.cores c).inserted id) with unspawned := s.unspawned.erase id }
  | .spawnPush c id => s.set c ((s.cores c).pushed id)
  | .start c => s.set c { s.cores c with pc := .pop }
  | .pop c => s.set c (s.cores c).popped
  | .lookup c id => s.set c ((s.cores c).looked id)
  | .wake c id => s.wake c [id]
  | .setInterrupts c flag => s.set c { s.cores c with interrupts := flag }
  | .answer c id p => s.set c ((s.cores c).answered id p)
  | .disable c => s.set c { s.cores c with interrupts := false, pc := .check }
  | .check c => s.set c ((s.cores c).checked stealers)
  | .enable c => s.set c { s.cores c with interrupts := true, pc := .pop }
  | .steal c v r => s.stolen c v r
  | .enableAndHlt c => s.set c { s.cores c with interrupts := true, pc := .halted }
  | .interrupt c ids =>
    let t := s.wake c ids
    t.set c (t.cores c).resumed

instance Sched.decAnswers (s : Sched κ) (c v : κ) : (r : StealAnswer) → Decidable (s.answers c v r)
  | .empty => inferInstanceAs (Decidable ((s.cores v).worker = []))
  | .retry => inferInstanceAs (Decidable (v ≠ c))
  | .success n => inferInstanceAs (Decidable (if v = c then (s.cores c).worker ≠ []
      else 0 < n ∧ n ≤ batchBound (s.cores v).worker.length))

instance Sched.decEnabled (s : Sched κ) : (a : SchedAct κ) → Decidable (s.Enabled a)
  | .new => isTrue trivial
  | .spawn c id => inferInstanceAs (Decidable ((s.cores c).pc.isUser = true ∧ id ∈ s.unspawned))
  | .spawnPush c id => inferInstanceAs (Decidable ((s.cores c).pc.pushing = some id))
  | .start c => inferInstanceAs (Decidable ((s.cores c).pc = .user none))
  | .pop c => inferInstanceAs (Decidable ((s.cores c).pc = .pop))
  | .lookup c id => inferInstanceAs (Decidable ((s.cores c).pc = .lookup id))
  | .wake c _ => inferInstanceAs (Decidable ((s.cores c).pc.isUser = true))
  | .setInterrupts c _ => inferInstanceAs (Decidable ((s.cores c).pc.isPoll = true))
  | .answer c id _ =>
    inferInstanceAs (Decidable ((s.cores c).pc = .user (some (id, (s.cores c).interrupts))))
  | .disable c => inferInstanceAs (Decidable ((s.cores c).pc = .disable))
  | .check c => inferInstanceAs (Decidable ((s.cores c).pc = .check))
  | .enable c => inferInstanceAs (Decidable ((s.cores c).pc = .enable))
  | .steal c v r => inferInstanceAs (Decidable ((s.cores c).pc.victim = some v ∧ s.answers c v r))
  | .enableAndHlt c => inferInstanceAs (Decidable ((s.cores c).pc = .steal []))
  | .interrupt c _ => inferInstanceAs (Decidable ((s.cores c).interrupts = true))

/-- `stealers` is the list that `sleep_if_idle` goes through on every CPU. -/
def scheduler (stealers : List κ) : Guarded.System (Sched κ) (SchedAct κ) where
  enabled := Sched.Enabled
  next := Sched.next stealers
  dec _ _ := inferInstance

end Nacl
