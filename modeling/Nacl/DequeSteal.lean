import Mathlib.Algebra.BigOperators.Group.Finset.Basic
import Mathlib.Algebra.Order.Group.Multiset
import Nacl.Deque

/-! The worker queues of all CPUs and the `steal_batch` calls between them, one memory
access at a time, sequentially consistent. A buffer's address is not given out again
while a thief that loaded it is pinned. -/

namespace Nacl

open Guarded Ring

inductive Steal
  | empty
  | retry
  | success
deriving DecidableEq

/-- The `n` tasks from index `f` of the victim's queue that a thief is after. -/
structure Batch (κ : Type*) where
  victim : κ
  f : Nat
  n : Nat

/-- A batch, the buffer it is read from, and where the thief copies it to. -/
structure Haul (κ : Type*) extends Batch κ where
  dest : Nat
  destB : Nat
  buffer : Nat

/-- The place of a CPU in an operation on its own queue or in `steal_batch`, which
calls `is_empty` when victim and destination are the same queue. -/
inductive DequePc (κ T : Type*)
  | own (p : WorkerPc T (Batch κ))
  | emptyBack
  | emptyFront (b : Nat)
  | stealFront (v : κ)
  | stealBack (v : κ) (f : Nat)
  | stealDest (k : Batch κ) (dest : Nat)
  | stealBuffer (k : Batch κ) (dest destB : Nat)
  | stealRead (h : Haul κ) (i : Nat)
  | stealWrite (h : Haul κ) (i : Nat) (x : Option T)
  | stealCheck (h : Haul κ)
  | stealExchange (h : Haul κ)
  | stealStore (h : Haul κ)
  | stolen (v : κ) (r : Steal)

structure Deques (κ T : Type*) where
  worker : κ → Worker T
  pc : κ → DequePc κ T

/-- `step` is the next access of a CPU, where `a` answers an allocation. -/
inductive DequeAct (κ T : Type*)
  | push (c : κ) (t : T)
  | pop (c : κ)
  | steal (c v : κ)
  | step (c : κ) (a : Nat)

/-- `stole` is a front exchange that succeeded, `arrived` the store of the thief's
back index after it. -/
inductive DequeEvent (κ T : Type*)
  | own (c : κ) (e : WorkerEvent T)
  | stole (c v : κ) (xs : List (Option T))
  | arrived (c : κ) (xs : List (Option T))

variable {κ T : Type*} [DecidableEq κ]

def Deques.new : Deques κ T := ⟨fun _ => .newFifo, fun _ => .own .idle⟩

def Deques.goto (s : Deques κ T) (c : κ) (p : DequePc κ T) : Deques κ T :=
  { s with pc := Function.update s.pc c p }

def Deques.put (s : Deques κ T) (c : κ) (w : Worker T) : Deques κ T :=
  { s with worker := Function.update s.worker c w }

def DequePc.steal (c v : κ) : DequePc κ T := if v = c then .emptyBack else .stealFront v

def DequePc.isIdle : DequePc κ T → Bool
  | .own .idle => true
  | _ => false

def DequePc.allocates : DequePc κ T → Bool
  | .own p => p.allocates
  | _ => false

def DequePc.haul : DequePc κ T → Option (Haul κ)
  | .stealRead h _ | .stealWrite h _ _ | .stealCheck h | .stealExchange h | .stealStore h => some h
  | _ => none

/-- No CPU uses this address for a buffer of the queue of `c`. -/
def Deques.Free (s : Deques κ T) (c : κ) (a : Nat) : Prop :=
  a ∉ (s.worker c).live ∧ ∀ d, (s.pc d).haul.map (fun h => (h.victim, h.buffer)) ≠ some (c, a)

def Deques.advance (s : Deques κ T) (c : κ) (a : Nat) : DequePc κ T → Deques κ T
  | .own (.reserved _ k) => s.goto c (.stealDest k (s.worker c).cell)
  | .own p =>
    (s.put c ((s.worker c).step a p).1).goto c (.own ((s.worker c).step a p).2)
  | .emptyBack => s.goto c (.emptyFront (s.worker c).back)
  | .emptyFront b => s.goto c (.stolen c (if b ≤ (s.worker c).front then .empty else .success))
  | .stealFront v => s.goto c (.stealBack v (s.worker v).front)
  | .stealBack v f =>
    s.goto c (if (s.worker v).back ≤ f then .stolen v .empty
      else .own (.reserve (batchBound ((s.worker v).back - f))
        ⟨v, f, batchBound ((s.worker v).back - f)⟩))
  | .stealDest k dest => s.goto c (.stealBuffer k dest (s.worker c).back)
  | .stealBuffer k dest destB =>
    s.goto c (.stealRead ⟨k, dest, destB, (s.worker k.victim).inner⟩ 0)
  | .stealRead h i =>
    s.goto c (if i = h.n then .stealCheck h
      else .stealWrite h i (((s.worker h.victim).heap h.buffer).read (h.f + i)))
  | .stealWrite h i x =>
    (s.put c ((s.worker c).write h.dest (h.destB + i) x)).goto c (.stealRead h (i + 1))
  | .stealCheck h =>
    s.goto c (if (s.worker h.victim).inner ≠ h.buffer then .stolen h.victim .retry
      else .stealExchange h)
  | .stealExchange h =>
    if (s.worker h.victim).front = h.f
      then (s.put h.victim { s.worker h.victim with front := h.f + h.n }).goto c (.stealStore h)
      else s.goto c (.stolen h.victim .retry)
  | .stealStore h =>
    (s.put c { s.worker c with back := h.destB + h.n }).goto c (.stolen h.victim .success)
  | .stolen v r => s.goto c (if r = .retry then .steal c v else .own .idle)

def Deques.next (s : Deques κ T) : DequeAct κ T → Deques κ T
  | .push c t => s.goto c (.own (.pushBack t))
  | .pop c => s.goto c (.own .popBack)
  | .steal c v => s.goto c (.steal c v)
  | .step c a => s.advance c a (s.pc c)

def Deques.Enabled (s : Deques κ T) : DequeAct κ T → Prop
  | .push c _ => (s.pc c).isIdle = true
  | .pop c => (s.pc c).isIdle = true
  | .steal c _ => (s.pc c).isIdle = true
  | .step c a => (s.pc c).isIdle = false ∧ ((s.pc c).allocates = true → s.Free c a)

def Deques.occur (s : Deques κ T) (c : κ) : DequePc κ T → List (DequeEvent κ T)
  | .own p => ((s.worker c).events p).map (.own c)
  | .stealExchange h =>
    if (s.worker h.victim).front = h.f
      then [.stole c h.victim ((s.worker h.victim).shared.window h.f (h.f + h.n))] else []
  | .stealStore h =>
    [.arrived c (((s.worker c).heap h.dest).window h.destB (h.destB + h.n))]
  | _ => []

def Deques.events (s : Deques κ T) : DequeAct κ T → List (DequeEvent κ T)
  | .step c _ => s.occur c (s.pc c)
  | _ => []

def DequeEvent.pushed (c : κ) : DequeEvent κ T → List (Option T)
  | .own d e => if d = c then e.pushes.toList else []
  | _ => []

def DequeEvent.taken (c : κ) : DequeEvent κ T → List (Option T)
  | .own d e => if d = c then e.takes.toList else []
  | _ => []

def DequeEvent.returned (c : κ) : DequeEvent κ T → List (Option T)
  | .own d e => if d = c then e.returns.toList else []
  | _ => []

def DequeEvent.stolenBy (c : κ) : DequeEvent κ T → List (Option T)
  | .stole d _ xs => if d = c then xs else []
  | _ => []

def DequeEvent.stolenFrom (c : κ) : DequeEvent κ T → List (Option T)
  | .stole _ v xs => if v = c then xs else []
  | _ => []

def DequeEvent.arrivedAt (c : κ) : DequeEvent κ T → List (Option T)
  | .arrived d xs => if d = c then xs else []
  | _ => []

def DequeEvent.entered (c : κ) (e : DequeEvent κ T) : List (Option T) := e.pushed c ++ e.arrivedAt c

def DequeEvent.left (c : κ) (e : DequeEvent κ T) : List (Option T) := e.taken c ++ e.stolenFrom c

/-- The owner's place: a thief past `reserve` still has the room it reserved. -/
def DequePc.owner : DequePc κ T → WorkerPc T (Batch κ)
  | .own p => p
  | .stealDest k _ | .stealBuffer k _ _ => .reserved k.n k
  | .stealRead h _ | .stealWrite h _ _ | .stealCheck h | .stealExchange h | .stealStore h =>
    .reserved h.n h.toBatch
  | _ => .idle

def Deques.base (s : Deques κ T) (c : κ) : Nat := (s.worker c).base (s.pc c).owner

def Deques.contents (s : Deques κ T) (c : κ) : List (Option T) := (s.worker c).contents (s.base c)

def Deques.inFlight (s : Deques κ T) (c : κ) : List (Option T) :=
  (s.worker c).inFlight (s.pc c).owner

/-- The copies held by a thief whose front exchange has succeeded. -/
def DequePc.inHand (w : Worker T) : DequePc κ T → List (Option T)
  | .stealStore h => (w.heap h.dest).window h.destB (h.destB + h.n)
  | _ => []

def Deques.inHand (s : Deques κ T) (c : κ) : List (Option T) := (s.pc c).inHand (s.worker c)

section
variable [Fintype κ]

instance Deques.decEnabled (s : Deques κ T) : (a : DequeAct κ T) → Decidable (s.Enabled a)
  | .push c _ => inferInstanceAs (Decidable ((s.pc c).isIdle = true))
  | .pop c => inferInstanceAs (Decidable ((s.pc c).isIdle = true))
  | .steal c _ => inferInstanceAs (Decidable ((s.pc c).isIdle = true))
  | .step c a => inferInstanceAs (Decidable ((s.pc c).isIdle = false ∧ ((s.pc c).allocates = true →
      a ∉ (s.worker c).live ∧
        ∀ d, (s.pc d).haul.map (fun h => (h.victim, h.buffer)) ≠ some (c, a))))

def deques (κ T : Type*) [DecidableEq κ] [Fintype κ] : System (Deques κ T) (DequeAct κ T) where
  enabled := Deques.Enabled
  next := Deques.next
  dec _ _ := inferInstance

/-- Where the pushed tasks are, given the log of the run. -/
structure Deques.Conserved (s : Deques κ T) (log : List (DequeEvent κ T)) : Prop where
  places : ∑ c, (log.flatMap (DequeEvent.pushed c) : Multiset (Option T)) =
    ∑ c, (↑(s.contents c) + ↑(s.inHand c) + ↑(s.inFlight c) +
      ↑(log.flatMap (DequeEvent.returned c)) : Multiset (Option T))
  returned : ∑ c, (log.flatMap (DequeEvent.returned c) : Multiset (Option T)) ≤
    ∑ c, (log.flatMap (DequeEvent.pushed c) : Multiset (Option T))
  fifo : ∀ c, log.flatMap (DequeEvent.entered c) = log.flatMap (DequeEvent.left c) ++ s.contents c
  thieves : ∀ c, log.flatMap (DequeEvent.stolenBy c) =
    log.flatMap (DequeEvent.arrivedAt c) ++ s.inHand c
  pops : ∀ c, log.flatMap (DequeEvent.taken c) =
    log.flatMap (DequeEvent.returned c) ++ s.inFlight c

end

end Nacl
