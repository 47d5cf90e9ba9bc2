import Mathlib.Data.Finset.Basic
import Nacl.Lib.Runs
import Nacl.Scheduler

/-! `crossbeam::Injector`, one memory access at a time, sequentially consistent. A block is
named by its address, `live` are the addresses that are allocated, and an address that was
freed may be given out again. Indices do not wrap around: `injector_indices` bounds them by the
number of pushes. The tasks of a batch are collected in the order they are read, and given to
the destination queue by the store of its `back`; the other accesses to that queue are those of
its owner. -/

namespace Nacl

open Guarded

inductive Flavor
  | fifo
  | lifo
deriving DecidableEq

def lap : Nat := 64

def blockCap : Nat := lap - 1

def shift : Nat := 1

def hasNext : Nat := 1

/-- The bits `WRITE`, `READ` and `DESTROY` of the state are a field each. -/
structure Slot (T : Type*) where
  task : Option T
  write : Bool
  read : Bool
  destroy : Bool

structure Block (T : Type*) where
  next : Option Nat
  slots : Nat → Slot T

structure Position where
  index : Nat
  block : Nat

structure Injector (T : Type*) where
  head : Position
  tail : Position
  heap : Nat → Block T
  live : Finset Nat

def offsetOf (index : Nat) : Nat := (index >>> shift) % lap

def lapOf (index : Nat) : Nat := (index >>> shift) / lap

/-- The call that takes tasks off the queue, with the flavor of the destination. -/
inductive StealOp
  | steal
  | stealBatch (dest : Flavor)
  | stealBatchAndPop (dest : Flavor)
deriving DecidableEq

/-- The most tasks that a call takes. -/
def StealOp.most : StealOp → Nat
  | .steal => 1
  | .stealBatch _ => maxBatch
  | .stealBatchAndPop _ => maxBatch + 1

/-- `advance` when the block is known not to be the last one. -/
def StealOp.toEnd (offset : Nat) : StealOp → Nat
  | .steal => 1
  | .stealBatch _ => min (blockCap - offset) maxBatch
  | .stealBatchAndPop _ => min (blockCap - offset) (maxBatch + 1)

/-- `advance` when head and tail are in the same block. -/
def StealOp.half (len : Nat) : StealOp → Nat
  | .steal => 1
  | .stealBatch _ => min ((len + 1) / 2) maxBatch
  | .stealBatchAndPop _ => min ((len + 1) / 2) (maxBatch + 1)

/-- The task that the call returns and the tasks in the destination, from its old back on. -/
def StealOp.deliver {α : Type*} (xs : List α) : StealOp → Option α × List α
  | .steal => (xs.head?, [])
  | .stealBatch .fifo => (none, xs)
  | .stealBatch .lifo => (none, xs.reverse)
  | .stealBatchAndPop .fifo => (xs.head?, xs.tail)
  | .stealBatchAndPop .lifo => (xs.head?, xs.tail.reverse)

/-- The `n` tasks from index `head` on, which is in the block at `block`. -/
structure Claim where
  op : StealOp
  head : Nat
  newHead : Nat
  block : Nat
  n : Nat

def Claim.offset (k : Claim) : Nat := offsetOf k.head

def Claim.newOffset (k : Claim) : Nat := k.offset + k.n

/-- The place of a party before each of its accesses, where `new` is the block that a push
has allocated in advance. -/
inductive InjectorPc (T : Type*)
  | idle
  | panicked
  | pushTail (t : T) (new : Option Nat)
  | pushBlock (t : T) (tail : Nat) (new : Option Nat)
  | pushAlloc (t : T) (tail block : Nat)
  | pushExchange (t : T) (tail block : Nat) (new : Option Nat)
  | pushTailBlock (t : T) (tail block new : Nat)
  | pushTailIndex (t : T) (tail block new : Nat)
  | pushNext (t : T) (tail block new : Nat)
  | pushWrite (t : T) (tail block : Nat) (new : Option Nat)
  | pushState (t : T) (tail block : Nat) (new : Option Nat)
  | pushDrop (new : Nat)
  | stealHead (op : StealOp)
  | stealBlock (op : StealOp) (head : Nat)
  | stealTail (op : StealOp) (head block : Nat)
  | stealExchange (k : Claim)
  | stealNext (k : Claim)
  | stealNextNext (k : Claim) (next : Nat)
  | stealHeadBlock (k : Claim) (next nextIndex : Nat)
  | stealHeadIndex (k : Claim) (nextIndex : Nat)
  | stealWait (k : Claim) (got : List (Option T))
  | stealRead (k : Claim) (got : List (Option T))
  | stealArrive (k : Claim) (got : List (Option T))
  | stealMark (k : Claim) (i : Nat)
  | destroyLoad (k : Claim) (i : Nat)
  | destroyMark (k : Claim) (i : Nat)
  | destroyFree (k : Claim)
  | emptyHead
  | emptyTail (head : Nat)
  | lenTail
  | lenHead (tail : Nat)
  | lenCheck (tail head : Nat)

variable {T : Type*}

def Block.new : Block T := ⟨none, fun _ => ⟨none, false, false, false⟩⟩

def Injector.new : Injector T := ⟨⟨0, 0⟩, ⟨0, 0⟩, fun _ => Block.new, {0}⟩

def Injector.slot (q : Injector T) (block i : Nat) : Slot T := (q.heap block).slots i

def Injector.setBlock (q : Injector T) (block : Nat) (b : Block T) : Injector T :=
  { q with heap := Function.update q.heap block b }

def Injector.setSlot (q : Injector T) (block i : Nat) (x : Slot T) : Injector T :=
  q.setBlock block { q.heap block with slots := Function.update (q.heap block).slots i x }

def Injector.alloc (q : Injector T) (a : Nat) : Injector T :=
  { q.setBlock a Block.new with live := insert a q.live }

def Injector.free (q : Injector T) (a : Nat) : Injector T := { q with live := q.live.erase a }

/-- `Block::destroy` with `count` slots to go. -/
def InjectorPc.destroy (k : Claim) : Nat → InjectorPc T
  | 0 => .destroyFree k
  | i + 1 => .destroyLoad k i

/-- A push that did not need the block it allocated in advance drops it. -/
def InjectorPc.pushDone : Option Nat → InjectorPc T
  | none => .idle
  | some new => .pushDrop new

/-- `next_block.unwrap()` when the push took the last slot of a block. -/
def InjectorPc.pushInstall (t : T) (tail block : Nat) : Option Nat → InjectorPc T
  | none => .panicked
  | some new => .pushTailBlock t tail block new

def Claim.toEnd (op : StealOp) (head newHead block : Nat) : Claim :=
  ⟨op, head, newHead + (op.toEnd (offsetOf head)) <<< shift, block, op.toEnd (offsetOf head)⟩

def Claim.half (op : StealOp) (head block len : Nat) : Claim :=
  ⟨op, head, head + (op.half len) <<< shift, block, op.half len⟩

/-- The index that the head moves to from the end of a block. -/
def Claim.nextIndex (k : Claim) (isLast : Bool) : Nat :=
  let next := k.newHead >>> shift <<< shift + 1 <<< shift
  if isLast then next else next ||| hasNext

/-- `Injector::len` on consistent indices. -/
def lenOf (tail head : Nat) : Nat :=
  let fixUp (i : Nat) := if (i >>> shift) &&& (lap - 1) = lap - 1 then i + 1 <<< shift else i
  let tail := fixUp (tail >>> shift <<< shift)
  let head := fixUp (head >>> shift <<< shift)
  let start := (lapOf head * lap) <<< shift
  let tail := (tail - start) >>> shift
  let head := (head - start) >>> shift
  tail - head - tail / lap

/-- The loop of `drop` from an index and its block on: the tasks it drops and the blocks it
frees. It has no answer when it is out of fuel or follows a null pointer. -/
def Injector.dropFrom (q : Injector T) (tail : Nat) :
    Nat → Option Nat → Nat → Option (List (Option T) × List Nat)
  | 0, _, _ => none
  | _ + 1, none, _ => none
  | fuel + 1, some block, head =>
    if head = tail then some ([], [block])
    else if offsetOf head < blockCap
      then (q.dropFrom tail fuel (some block) (head + 1 <<< shift)).map fun r =>
        ((q.slot block (offsetOf head)).task :: r.1, r.2)
      else (q.dropFrom tail fuel (q.heap block).next (head + 1 <<< shift)).map fun r =>
        (r.1, block :: r.2)

/-- `Drop for Injector`, which has the queue for itself. -/
def Injector.drop (q : Injector T) (fuel : Nat) : Option (List (Option T) × List Nat) :=
  q.dropFrom (q.tail.index >>> shift <<< shift) fuel (some q.head.block)
    (q.head.index >>> shift <<< shift)

/-- The access from a place, where the allocator answers with address `a`. -/
def Injector.step (q : Injector T) (a : Nat) : InjectorPc T → Injector T × InjectorPc T
  | .idle => (q, .idle)
  | .panicked => (q, .panicked)
  | .pushTail t new => (q, .pushBlock t q.tail.index new)
  | .pushBlock t tail new =>
    (q, if offsetOf tail = blockCap then .pushTail t new
      else if offsetOf tail + 1 = blockCap ∧ new = none then .pushAlloc t tail q.tail.block
      else .pushExchange t tail q.tail.block new)
  | .pushAlloc t tail block => (q.alloc a, .pushExchange t tail block (some a))
  | .pushExchange t tail block new =>
    if q.tail.index = tail
      then ({ q with tail := ⟨tail + 1 <<< shift, q.tail.block⟩ },
        if offsetOf tail + 1 = blockCap then .pushInstall t tail block new
        else .pushWrite t tail block new)
      else (q, .pushBlock t q.tail.index new)
  | .pushTailBlock t tail block new =>
    ({ q with tail := ⟨q.tail.index, new⟩ }, .pushTailIndex t tail block new)
  | .pushTailIndex t tail block new =>
    ({ q with tail := ⟨tail + 1 <<< shift + 1 <<< shift, q.tail.block⟩ },
      .pushNext t tail block new)
  | .pushNext t tail block new =>
    (q.setBlock block { q.heap block with next := some new }, .pushWrite t tail block none)
  | .pushWrite t tail block new =>
    (q.setSlot block (offsetOf tail) { q.slot block (offsetOf tail) with task := some t },
      .pushState t tail block new)
  | .pushState _ tail block new =>
    (q.setSlot block (offsetOf tail) { q.slot block (offsetOf tail) with write := true },
      .pushDone new)
  | .pushDrop new => (q.free new, .idle)
  | .stealHead op => (q, .stealBlock op q.head.index)
  | .stealBlock op head =>
    (q, if offsetOf head = blockCap then .stealHead op
      else if head &&& hasNext = 0 then .stealTail op head q.head.block
      else .stealExchange (.toEnd op head head q.head.block))
  | .stealTail op head block =>
    (q, if head >>> shift = q.tail.index >>> shift then .idle
      else if lapOf head ≠ lapOf q.tail.index
        then .stealExchange (.toEnd op head (head ||| hasNext) block)
      else .stealExchange (.half op head block ((q.tail.index - head) >>> shift)))
  | .stealExchange k =>
    if q.head.index = k.head
      then ({ q with head := ⟨k.newHead, q.head.block⟩ },
        if k.newOffset = blockCap then .stealNext k else .stealWait k [])
      else (q, .idle)
  | .stealNext k =>
    (q, match (q.heap k.block).next with
      | none => .stealNext k
      | some next => .stealNextNext k next)
  | .stealNextNext k next =>
    (q, .stealHeadBlock k next (k.nextIndex (q.heap next).next.isNone))
  | .stealHeadBlock k next nextIndex =>
    ({ q with head := ⟨q.head.index, next⟩ }, .stealHeadIndex k nextIndex)
  | .stealHeadIndex k nextIndex =>
    ({ q with head := ⟨nextIndex, q.head.block⟩ }, .stealWait k [])
  | .stealWait k got =>
    (q, if (q.slot k.block (k.offset + got.length)).write then .stealRead k got
      else .stealWait k got)
  | .stealRead k got =>
    (q, if got.length + 1 = k.n
      then .stealArrive k (got ++ [(q.slot k.block (k.offset + got.length)).task])
      else .stealWait k (got ++ [(q.slot k.block (k.offset + got.length)).task]))
  | .stealArrive k _ =>
    (q, if k.newOffset = blockCap then .destroy k k.offset else .stealMark k k.offset)
  | .stealMark k i =>
    (q.setSlot k.block i { q.slot k.block i with read := true },
      if (q.slot k.block i).destroy then .destroy k k.offset
      else if i + 1 = k.newOffset then .idle else .stealMark k (i + 1))
  | .destroyLoad k i =>
    (q, if (q.slot k.block i).read then .destroy k i else .destroyMark k i)
  | .destroyMark k i =>
    (q.setSlot k.block i { q.slot k.block i with destroy := true },
      if (q.slot k.block i).read then .destroy k i else .idle)
  | .destroyFree k => (q.free k.block, .idle)
  | .emptyHead => (q, .emptyTail q.head.index)
  | .emptyTail _ => (q, .idle)
  | .lenTail => (q, .lenHead q.tail.index)
  | .lenHead tail => (q, .lenCheck tail q.head.index)
  | .lenCheck tail _ => (q, if q.tail.index = tail then .idle else .lenTail)

/-- A weak exchange that fails although the index is the expected one. -/
def Injector.fail (q : Injector T) : InjectorPc T → InjectorPc T
  | .pushExchange t _ _ new => .pushBlock t q.tail.index new
  | .stealExchange _ => .idle
  | p => p

def InjectorPc.exchanges : InjectorPc T → Bool
  | .pushExchange _ _ _ _ | .stealExchange _ => true
  | _ => false

def InjectorPc.allocates : InjectorPc T → Bool
  | .pushAlloc _ _ _ => true
  | _ => false

def InjectorPc.isIdle : InjectorPc T → Bool
  | .idle => true
  | _ => false

inductive InjectorCall (T : Type*)
  | push (t : T)
  | take (op : StealOp)
  | isEmpty
  | len
deriving DecidableEq

def InjectorCall.start : InjectorCall T → InjectorPc T
  | .push t => .pushTail t none
  | .take op => .stealHead op
  | .isEmpty => .emptyHead
  | .len => .lenTail

/-- `pushed` is a tail exchange and `claimed` a head exchange that succeeded, `moved` is the
store of the head at the end of a block, `delivered` are the tasks that a claim gives to its
caller and to the destination queue, `sawEmpty` and `sawRetry` are the answers `Empty` and
`Retry`, and `looked` and `measured` are the loads of the head in `is_empty` and in `len`. -/
inductive InjectorEvent (κ T : Type*)
  | called (c : κ) (k : InjectorCall T)
  | pushed (c : κ) (t : T)
  | claimed (c : κ) (op : StealOp) (n : Nat)
  | moved (c : κ)
  | delivered (c : κ) (r : Option (Option T) × List (Option T))
  | sawEmpty (c : κ)
  | sawRetry (c : κ)
  | looked (c : κ)
  | isEmpty (c : κ) (r : Bool)
  | measured (c : κ)
  | len (c : κ) (n : Nat)
  | returned (c : κ)
deriving DecidableEq

variable {κ : Type*}

def Injector.events (q : Injector T) (c : κ) : InjectorPc T → List (InjectorEvent κ T)
  | .pushExchange t tail _ _ => if q.tail.index = tail then [.pushed c t] else []
  | .stealTail _ head _ =>
    if head >>> shift = q.tail.index >>> shift then [.sawEmpty c] else []
  | .stealExchange k =>
    if q.head.index = k.head then [.claimed c k.op k.n] else [.sawRetry c]
  | .stealHeadIndex _ _ => [.moved c]
  | .stealArrive k got => [.delivered c (k.op.deliver got)]
  | .emptyHead => [.looked c]
  | .emptyTail head => [.isEmpty c (head >>> shift == q.tail.index >>> shift)]
  | .lenHead _ => [.measured c]
  | .lenCheck tail head => if q.tail.index = tail then [.len c (lenOf tail head)] else []
  | _ => []

def InjectorPc.returns (c : κ) (pc : InjectorPc T) : List (InjectorEvent κ T) :=
  if pc.isIdle then [.returned c] else []

def InjectorPc.retries (c : κ) : InjectorPc T → List (InjectorEvent κ T)
  | .stealExchange _ => [.sawRetry c]
  | _ => []

structure Injecting (κ T : Type*) where
  queue : Injector T
  pc : κ → InjectorPc T

inductive InjectorAct (κ T : Type*)
  | call (c : κ) (k : InjectorCall T)
  | step (c : κ) (a : Nat)
  | fail (c : κ)
deriving DecidableEq

variable [DecidableEq κ]

def Injecting.new : Injecting κ T := ⟨.new, fun _ => .idle⟩

def Injecting.next (s : Injecting κ T) : InjectorAct κ T → Injecting κ T
  | .call c k => { s with pc := Function.update s.pc c k.start }
  | .step c a =>
    ⟨(s.queue.step a (s.pc c)).1, Function.update s.pc c (s.queue.step a (s.pc c)).2⟩
  | .fail c => { s with pc := Function.update s.pc c (s.queue.fail (s.pc c)) }

def Injecting.Enabled (s : Injecting κ T) : InjectorAct κ T → Prop
  | .call c _ => (s.pc c).isIdle = true
  | .step c a => (s.pc c).isIdle = false ∧ ((s.pc c).allocates = true → a ∉ s.queue.live)
  | .fail c => (s.pc c).exchanges = true

def Injecting.events (s : Injecting κ T) : InjectorAct κ T → List (InjectorEvent κ T)
  | .call c k => [.called c k]
  | .step c a => s.queue.events c (s.pc c) ++ (s.queue.step a (s.pc c)).2.returns c
  | .fail c => (s.pc c).retries c ++ (s.queue.fail (s.pc c)).returns c

instance Injecting.decEnabled (s : Injecting κ T) :
    (a : InjectorAct κ T) → Decidable (s.Enabled a)
  | .call c _ => inferInstanceAs (Decidable ((s.pc c).isIdle = true))
  | .step c a => inferInstanceAs (Decidable ((s.pc c).isIdle = false ∧
      ((s.pc c).allocates = true → a ∉ s.queue.live)))
  | .fail c => inferInstanceAs (Decidable ((s.pc c).exchanges = true))

def injector (κ T : Type*) [DecidableEq κ] : System (Injecting κ T) (InjectorAct κ T) where
  enabled := Injecting.Enabled
  next := Injecting.next
  dec _ _ := inferInstance

end Nacl
