import Mathlib.Data.Fintype.Basic
import Nacl.Deque
import Nacl.Injector

/-! The worker queues of `crossbeam` in both flavors and all calls of their stealers, one memory
access at a time, sequentially consistent. Party `c` owns the queue `c`, and a batch that it
steals goes there. A buffer's address is not given out again while a thief that loaded it is
pinned. Indices do not wrap around: `workers_indices` bounds them by the number of tasks that
have entered the queue. -/

namespace Nacl

open Guarded Ring

/-- `Stealer::steal`, `Stealer::steal_batch` and `Stealer::steal_batch_and_pop`. -/
inductive Theft
  | steal
  | batch
  | batchAndPop
deriving DecidableEq

/-- The tasks that the call returns and does not move. -/
def Theft.skip : Theft → Nat
  | .batch => 0
  | _ => 1

/-- `batch_size` for a queue of this length. -/
def Theft.size (len : Nat) : Theft → Nat
  | .steal => 0
  | .batch => min ((len + 1) / 2) maxBatch
  | .batchAndPop => min ((len - 1) / 2) (maxBatch - 1)

/-- A call that has found tasks from index `f` of the victim's queue on, and moves at most
`n` of them. -/
structure Raid (κ : Type*) where
  op : Theft
  victim : κ
  f : Nat
  n : Nat

/-- `f` is the next index to steal, `task` what the call is to return and `m` the number of
tasks that it has moved to the destination, from index `destB` on. -/
structure Loot (κ T : Type*) extends Raid κ where
  dest : Nat
  destB : Nat
  buffer : Nat
  task : Option T
  m : Nat

/-- The calls that only look at the own queue: `is_empty`, `len`, and `steal_batch` from it. -/
inductive Query
  | isEmpty
  | len
  | batch

/-- What a call returns; a task is `none` when the slot it was read from was never written. -/
inductive Answer (T : Type*)
  | pushed
  | popped (x : Option (Option T))
  | isEmpty (b : Bool)
  | len (n : Nat)
  | empty
  | retry
  | success (x : Option (Option T))

def Query.answer {T : Type*} (len : Nat) : Query → Answer T
  | .isEmpty => .isEmpty (len == 0)
  | .len => .len len
  | .batch => if len = 0 then .empty else .success none

/-- The place of a party before each of its accesses. -/
inductive WorkPc (κ T : Type*)
  | own (p : WorkerPc T (Raid κ))
  | lifoStore (b : Nat)
  | lifoFront (b : Nat)
  | lifoUndo (b : Nat)
  | lifoCell (b f : Nat)
  | lifoRead (b f p : Nat)
  | lifoExchange (b : Nat) (x : Option T)
  | lifoRestore (b : Nat) (r : Option (Option T))
  | queryBack (q : Query)
  | queryFront (q : Query) (b : Nat)
  | raidFront (op : Theft) (v : κ)
  | raidBack (op : Theft) (v : κ) (f : Nat)
  | raidDest (k : Raid κ) (dest : Nat)
  | raidBuffer (k : Raid κ) (dest destB : Nat)
  | raidTask (h : Loot κ T)
  | raidRead (h : Loot κ T) (i : Nat)
  | raidWrite (h : Loot κ T) (i : Nat) (x : Option T)
  | raidCheck (h : Loot κ T)
  | raidExchange (h : Loot κ T)
  | lootFirst (h : Loot κ T)
  | lootBack (h : Loot κ T)
  | lootRead (h : Loot κ T)
  | lootCheck (h : Loot κ T) (x : Option T)
  | lootExchange (h : Loot κ T) (x : Option T)
  | lootWrite (h : Loot κ T) (x : Option T)
  | swapFirst (h : Loot κ T) (i : Nat)
  | swapLast (h : Loot κ T) (i : Nat) (x : Option T)
  | swapStore (h : Loot κ T) (i : Nat) (x y : Option T)
  | swapStored (h : Loot κ T) (i : Nat) (x : Option T)
  | lootStore (h : Loot κ T)
  | answer (r : Answer T)

variable {κ T : Type*}

structure Workers (κ T : Type*) where
  flavor : κ → Flavor
  worker : κ → Worker T
  pc : κ → WorkPc κ T

/-- `Worker::push`, `Worker::pop`, the calls that look at the own queue, and the calls of a
stealer of the queue `v`. -/
inductive WorkCall (κ T : Type*)
  | push (t : T)
  | pop
  | query (q : Query)
  | steal (op : Theft) (v : κ)

/-- `step` is the next access of a party, where `a` answers an allocation. -/
inductive WorkAct (κ T : Type*)
  | call (c : κ) (k : WorkCall κ T)
  | step (c : κ) (a : Nat)

/-- `pushed`, `took`, `stole` and `arrived` are the accesses by which tasks enter or leave a
queue, `looked` is the load of the front index by a thief. -/
inductive WorkEvent (κ T : Type*)
  | called (c : κ) (k : WorkCall κ T)
  | pushed (c : κ) (t : T)
  | took (c : κ)
  | sawNone (c : κ)
  | queried (c : κ) (q : Query) (len : Nat)
  | looked (c : κ)
  | sawEmpty (c : κ)
  | sawRetry (c : κ)
  | stole (c : κ) (n : Nat)
  | arrived (c : κ) (xs : List (Option T))
  | returned (c : κ) (r : Answer T)

def Workers.new (flavor : κ → Flavor) : Workers κ T :=
  ⟨flavor, fun _ => .newFifo, fun _ => .own .idle⟩

/-- A batch steal that has stolen nothing when it leaves its loop answers `Retry`. -/
def Loot.GivesUp (h : Loot κ T) : Prop := h.op = .batch ∧ h.m = 0

instance (h : Loot κ T) : Decidable h.GivesUp := inferInstanceAs (Decidable (_ ∧ _))

/-- Where a batch steal goes on that has moved `m` tasks and steals no more: tasks from a LIFO
queue are reversed for a FIFO destination. -/
def Loot.finish (dest : Flavor) (h : Loot κ T) : WorkPc κ T :=
  if h.GivesUp then .answer .retry
  else match dest with
    | .fifo => .swapFirst h 0
    | .lifo => .lootStore h

/-- The head of the loop that steals from a LIFO queue one by one. -/
def Loot.again (dest : Flavor) (h : Loot κ T) : WorkPc κ T :=
  if h.m = h.n then h.finish dest else .lootBack h

/-- Where the task that is read as the `i`-th of a batch from a FIFO queue is written to. -/
def Loot.place (dest : Flavor) (h : Loot κ T) (i : Nat) : Nat :=
  match dest with
  | .fifo => h.destB + i
  | .lifo => h.destB + (h.n - 1 - i)

/-- After a steal from a LIFO queue: the call moves the task that it held before. -/
def Loot.moved (h : Loot κ T) (x : Option T) : Loot κ T :=
  { h with m := h.m + 1, task := if h.op = .batch then h.task else x }

def Loot.write (h : Loot κ T) (x : Option T) : Option T := if h.op = .batch then x else h.task

def Loot.answer (h : Loot κ T) : Answer T :=
  .success (if h.op = .batch then none else some h.task)

def WorkPc.isIdle : WorkPc κ T → Bool
  | .own .idle => true
  | _ => false

def WorkPc.allocates : WorkPc κ T → Bool
  | .own p => p.allocates
  | _ => false

def WorkPc.loot : WorkPc κ T → Option (Loot κ T)
  | .raidTask h | .raidRead h _ | .raidWrite h _ _ | .raidCheck h | .raidExchange h | .lootFirst h
  | .lootBack h | .lootRead h | .lootCheck h _ | .lootExchange h _ | .lootWrite h _
  | .swapFirst h _ | .swapLast h _ _ | .swapStore h _ _ _ | .swapStored h _ _ | .lootStore h => some h
  | _ => none

/-- No party uses this address for a buffer of the queue of `c`. -/
def Workers.Free (s : Workers κ T) (c : κ) (a : Nat) : Prop :=
  a ∉ (s.worker c).live ∧ ∀ d, (s.pc d).loot.map (fun h => (h.victim, h.buffer)) ≠ some (c, a)

/-- The place after the buffer was read by a pop of a LIFO queue. -/
def Worker.lifoPopped (w : Worker T) (b f p : Nat) : WorkPc κ T :=
  if b = f then .lifoExchange b ((w.heap p).read b)
  else if h : minCap.val < (w.heap p).cap.val ∧ b - f < (w.heap p).cap.val / 4
    then .own (.resize ((w.heap p).cap.half (one_lt_of_minCap ⟨h.1, h.2.le⟩))
      (.pop ((w.heap p).read b)) .back)
    else .own (.popped ((w.heap p).read b))

/-- The loop of `Drop for Inner` from index `i` on. -/
def Worker.dropFrom (w : Worker T) (b : Nat) : Nat → Nat → Option (List (Option T))
  | 0, _ => none
  | fuel + 1, i =>
    if i = b then some [] else (w.dropFrom b fuel (i + 1)).map (w.shared.read i :: ·)

/-- `Drop for Inner`, which has the queue for itself: the tasks that it drops and the buffer
that it frees. -/
def Worker.drop (w : Worker T) (fuel : Nat) : Option (List (Option T) × Nat) :=
  (w.dropFrom w.back fuel w.front).map fun ts => (ts, w.inner)

variable [DecidableEq κ]

def WorkCall.start (c : κ) : WorkCall κ T → WorkPc κ T
  | .push t => .own (.pushBack t)
  | .pop => .own .popBack
  | .query q => .queryBack q
  | .steal .steal v => .raidFront .steal v
  | .steal .batch v => if v = c then .queryBack .batch else .raidFront .batch v
  | .steal .batchAndPop v => if v = c then .own .popBack else .raidFront .batchAndPop v

/-- What the call comes to: with the own queue `steal_batch` only looks at it and
`steal_batch_and_pop` is a `pop`. -/
def WorkCall.at (c : κ) : WorkCall κ T → WorkCall κ T
  | .steal .batch v => if v = c then .query .batch else .steal .batch v
  | .steal .batchAndPop v => if v = c then .pop else .steal .batchAndPop v
  | k => k

def Workers.goto (s : Workers κ T) (c : κ) (p : WorkPc κ T) : Workers κ T :=
  { s with pc := Function.update s.pc c p }

def Workers.put (s : Workers κ T) (c : κ) (w : Worker T) : Workers κ T :=
  { s with worker := Function.update s.worker c w }

def Workers.advance (s : Workers κ T) (c : κ) (a : Nat) : WorkPc κ T → Workers κ T
  | .own (.reserved _ k) => s.goto c (.raidDest k (s.worker c).cell)
  | .own p =>
    match s.flavor c, p with
    | .lifo, .popFront b =>
      s.goto c (if b ≤ (s.worker c).front then .own .idle else .lifoStore (b - 1))
    | _, _ => (s.put c ((s.worker c).step a p).1).goto c (.own ((s.worker c).step a p).2)
  | .lifoStore b => (s.put c { s.worker c with back := b }).goto c (.lifoFront b)
  | .lifoFront b =>
    s.goto c (if b < (s.worker c).front then .lifoUndo b else .lifoCell b (s.worker c).front)
  | .lifoUndo b => (s.put c { s.worker c with back := b + 1 }).goto c (.answer (.popped none))
  | .lifoCell b f => s.goto c (.lifoRead b f (s.worker c).cell)
  | .lifoRead b f p => s.goto c ((s.worker c).lifoPopped b f p)
  | .lifoExchange b x =>
    if (s.worker c).front = b
      then (s.put c { s.worker c with front := b + 1 }).goto c (.lifoRestore b (some x))
      else s.goto c (.lifoRestore b none)
  | .lifoRestore b r => (s.put c { s.worker c with back := b + 1 }).goto c (.answer (.popped r))
  | .queryBack q => s.goto c (.queryFront q (s.worker c).back)
  | .queryFront q b => s.goto c (.answer (q.answer (b - (s.worker c).front)))
  | .raidFront op v => s.goto c (.raidBack op v (s.worker v).front)
  | .raidBack op v f =>
    s.goto c (if (s.worker v).back ≤ f then .answer .empty
      else if op = .steal then .raidBuffer ⟨op, v, f, 0⟩ 0 0
      else .own (.reserve (op.size ((s.worker v).back - f))
        ⟨op, v, f, op.size ((s.worker v).back - f)⟩))
  | .raidDest k dest => s.goto c (.raidBuffer k dest (s.worker c).back)
  | .raidBuffer k dest destB =>
    s.goto c (if k.op = .batch then match s.flavor k.victim with
        | .fifo => .raidRead ⟨k, dest, destB, (s.worker k.victim).inner, none, 0⟩ 0
        | .lifo => .lootRead ⟨k, dest, destB, (s.worker k.victim).inner, none, 0⟩
      else .raidTask ⟨k, dest, destB, (s.worker k.victim).inner, none, 0⟩)
  | .raidTask h =>
    let h' := { h with task := ((s.worker h.victim).heap h.buffer).read h.f }
    s.goto c (if h.op = .batchAndPop ∧ s.flavor h.victim = .lifo then .lootFirst h'
      else .raidRead h' 0)
  | .raidRead h i =>
    s.goto c (if i = h.n then .raidCheck h
      else .raidWrite h i (((s.worker h.victim).heap h.buffer).read (h.f + h.op.skip + i)))
  | .raidWrite h i x =>
    (s.put c ((s.worker c).write h.dest (h.place (s.flavor c) i) x)).goto c (.raidRead h (i + 1))
  | .raidCheck h =>
    s.goto c (if (s.worker h.victim).inner ≠ h.buffer then .answer .retry else .raidExchange h)
  | .raidExchange h =>
    if (s.worker h.victim).front = h.f
      then (s.put h.victim { s.worker h.victim with front := h.f + (h.op.skip + h.n) }).goto c
        (if h.op = .steal then .answer h.answer else .lootStore { h with m := h.n })
      else s.goto c (.answer .retry)
  | .lootFirst h =>
    if (s.worker h.victim).front = h.f
      then (s.put h.victim { s.worker h.victim with front := h.f + 1 }).goto c
        (Loot.again (s.flavor c) { h with f := h.f + 1 })
      else s.goto c (.answer .retry)
  | .lootBack h =>
    s.goto c (if (s.worker h.victim).back ≤ h.f then h.finish (s.flavor c) else .lootRead h)
  | .lootRead h => s.goto c (.lootCheck h (((s.worker h.victim).heap h.buffer).read h.f))
  | .lootCheck h x =>
    s.goto c (if (s.worker h.victim).inner ≠ h.buffer then h.finish (s.flavor c)
      else .lootExchange h x)
  | .lootExchange h x =>
    if (s.worker h.victim).front = h.f
      then (s.put h.victim { s.worker h.victim with front := h.f + 1 }).goto c
        (.lootWrite { h with f := h.f + 1 } x)
      else s.goto c (h.finish (s.flavor c))
  | .lootWrite h x =>
    (s.put c ((s.worker c).write h.dest (h.destB + h.m) (h.write x))).goto c
      ((h.moved x).again (s.flavor c))
  | .swapFirst h i =>
    s.goto c (if i < h.m / 2
      then .swapLast h i (((s.worker c).heap h.dest).read (h.destB + i)) else .lootStore h)
  | .swapLast h i x =>
    s.goto c (.swapStore h i x (((s.worker c).heap h.dest).read (h.destB + (h.m - 1 - i))))
  | .swapStore h i x y =>
    (s.put c ((s.worker c).write h.dest (h.destB + i) y)).goto c (.swapStored h i x)
  | .swapStored h i x =>
    (s.put c ((s.worker c).write h.dest (h.destB + (h.m - 1 - i)) x)).goto c (.swapFirst h (i + 1))
  | .lootStore h => (s.put c { s.worker c with back := h.destB + h.m }).goto c (.answer h.answer)
  | .answer _ => s.goto c (.own .idle)

def Workers.next (s : Workers κ T) : WorkAct κ T → Workers κ T
  | .call c k => s.goto c (k.start c)
  | .step c a => s.advance c a (s.pc c)

def Workers.Enabled (s : Workers κ T) : WorkAct κ T → Prop
  | .call c _ => (s.pc c).isIdle = true
  | .step c a => (s.pc c).isIdle = false ∧ ((s.pc c).allocates = true → s.Free c a)

def Workers.occur (s : Workers κ T) (c : κ) : WorkPc κ T → List (WorkEvent κ T)
  | .own (.pushStore t _) => [.pushed c t, .returned c .pushed]
  | .own (.popFront b) =>
    if b ≤ (s.worker c).front then [.sawNone c, .returned c (.popped none)] else []
  | .own (.popAdd b _) => if b < (s.worker c).front + 1 then [.sawNone c] else [.took c]
  | .own (.popUndo _) => [.returned c (.popped none)]
  | .own (.popped x) => [.returned c (.popped (some x))]
  | .lifoFront b =>
    if b < (s.worker c).front then [.sawNone c]
    else if b = (s.worker c).front then [] else [.took c]
  | .lifoExchange b _ => if (s.worker c).front = b then [.took c] else [.sawNone c]
  | .queryFront q b => [.queried c q (b - (s.worker c).front)]
  | .raidFront _ _ => [.looked c]
  | .raidBack _ v f => if (s.worker v).back ≤ f then [.sawEmpty c] else []
  | .raidCheck h => if (s.worker h.victim).inner ≠ h.buffer then [.sawRetry c] else []
  | .raidExchange h =>
    if (s.worker h.victim).front = h.f
      then .stole c (h.op.skip + h.n) :: (if h.op = .steal then [.arrived c []] else [])
      else [.sawRetry c]
  | .lootFirst h => if (s.worker h.victim).front = h.f then [.stole c 1] else [.sawRetry c]
  | .lootBack h =>
    if (s.worker h.victim).back ≤ h.f ∧ h.GivesUp then [.sawRetry c] else []
  | .lootCheck h _ =>
    if (s.worker h.victim).inner ≠ h.buffer ∧ h.GivesUp then [.sawRetry c] else []
  | .lootExchange h _ =>
    if (s.worker h.victim).front = h.f then [.stole c 1]
    else if h.GivesUp then [.sawRetry c] else []
  | .lootStore h =>
    [.arrived c (((s.worker c).heap h.dest).window h.destB (h.destB + h.m))]
  | .answer r => [.returned c r]
  | _ => []

def Workers.events (s : Workers κ T) : WorkAct κ T → List (WorkEvent κ T)
  | .call c k => [.called c (k.at c)]
  | .step c _ => s.occur c (s.pc c)

section
variable [Fintype κ]

instance Workers.decEnabled (s : Workers κ T) : (a : WorkAct κ T) → Decidable (s.Enabled a)
  | .call c _ => inferInstanceAs (Decidable ((s.pc c).isIdle = true))
  | .step c a => inferInstanceAs (Decidable ((s.pc c).isIdle = false ∧
      ((s.pc c).allocates = true → a ∉ (s.worker c).live ∧
        ∀ d, (s.pc d).loot.map (fun h => (h.victim, h.buffer)) ≠ some (c, a))))

def workers (κ T : Type*) [DecidableEq κ] [Fintype κ] : System (Workers κ T) (WorkAct κ T) where
  enabled := Workers.Enabled
  next := Workers.next
  dec _ _ := inferInstance

end

end Nacl
