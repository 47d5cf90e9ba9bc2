import Mathlib.Algebra.Order.Group.Multiset
import Nacl.DequeOwner

/-! One CPU's worker queue with interrupts enabled. The main line pushes and pops, one
memory access at a time; between any two accesses a handler can call a waker, whose
push runs to its end on the same queue. -/

namespace Nacl

open Guarded Ring

variable {T β : Type*}

/-- Copies `n` tasks from index `i` on into the buffer at `a`. -/
def Worker.copyTo (w : Worker T) (a : Nat) : Nat → Nat → Worker T
  | _, 0 => w
  | i, n + 1 => (w.write a i (w.buffer.read i)).copyTo a (i + 1) n

def Worker.resize (w : Worker T) (newCap : Capacity) (a : Nat) : Worker T :=
  let w := (w.alloc newCap a).copyTo a w.front (w.back - w.front)
  { w with inner := a, cell := a, live := w.live.erase w.inner }

/-- A push that nothing interrupts. -/
def Worker.push (w : Worker T) (t : T) (a : Nat) : Worker T :=
  let w := if w.buffer.cap.val ≤ w.back - w.front then w.resize w.buffer.cap.double a else w
  { w.write w.cell w.back (some t) with back := w.back + 1 }

/-- The queue and the place of the main line. It never calls `reserve`. -/
structure Line (T : Type*) where
  worker : Worker T
  pc : WorkerPc T Empty

/-- `wake` is a whole call of `TaskWaker::wake` in a handler. -/
inductive LineAct (T : Type*)
  | push (t : T)
  | pop
  | step (a : Nat)
  | wake (t : T) (a : Nat)

def Line.new : Line T := ⟨.newFifo, .idle⟩

def WorkerPc.isIdle : WorkerPc T β → Bool
  | .idle => true
  | _ => false

def Line.next (s : Line T) : LineAct T → Line T
  | .push t => { s with pc := .pushBack t }
  | .pop => { s with pc := .popBack }
  | .step a => ⟨(s.worker.step a s.pc).1, (s.worker.step a s.pc).2⟩
  | .wake t a => { s with worker := s.worker.push t a }

def Line.Enabled (s : Line T) : LineAct T → Prop
  | .push _ => s.pc.isIdle = true
  | .pop => s.pc.isIdle = true
  | .step a => s.pc.isIdle = false ∧ (s.pc.allocates = true → a ∉ s.worker.live)
  | .wake _ a => a ∉ s.worker.live

def Line.events (s : Line T) : LineAct T → List (WorkerEvent T)
  | .step _ => s.worker.events s.pc
  | .wake t _ => [.pushed t]
  | _ => []

instance Line.decEnabled (s : Line T) : (a : LineAct T) → Decidable (s.Enabled a)
  | .push _ => inferInstanceAs (Decidable (s.pc.isIdle = true))
  | .pop => inferInstanceAs (Decidable (s.pc.isIdle = true))
  | .step a => inferInstanceAs
      (Decidable (s.pc.isIdle = false ∧ (s.pc.allocates = true → a ∉ s.worker.live)))
  | .wake _ a => inferInstanceAs (Decidable (a ∉ s.worker.live))

def line (T : Type*) : System (Line T) (LineAct T) where
  enabled := Line.Enabled
  next := Line.next
  dec _ _ := inferInstance

/-- The runs of the main line and its handlers, with the log of their pushes and pops. -/
abbrev Line.Runs (ok : Line T → LineAct T → Prop) :=
  ((line T).logged Line.events).Reaches fun x a => ok x.1 a

def returnedIds (log : List (WorkerEvent T)) : Multiset (Option T) := log.filterMap WorkerEvent.returns

def pushedIds (log : List (WorkerEvent T)) : Multiset (Option T) := log.filterMap WorkerEvent.pushes

/-- The main line finishes the operation it is in. -/
def Line.Finishing (_ : Line T) : LineAct T → Prop
  | .step _ => True
  | _ => False

/-- The main line pops, and no handler runs. -/
def Line.Popping (_ : Line T) : LineAct T → Prop
  | .step _ | .pop => True
  | _ => False

/-- From `x` the main line finishes its operation and then pops until `None`,
without an interrupt. -/
def Line.Drains (x z : Line T × List (WorkerEvent T)) : Prop :=
  ∃ y evs, Line.Runs Line.Finishing x y ∧ y.1.pc.isIdle = true ∧ Line.Runs Line.Popping y z ∧
    z.1.pc.isIdle = true ∧ z.2 = y.2 ++ evs ++ [.returnedNone]

/-- No push is lost and no pop returns anything else. -/
structure Line.Delivers (x : Line T × List (WorkerEvent T)) : Prop where
  values : returnedIds x.2 ≤ pushedIds x.2
  ends : ∃ z, Line.Drains x z
  exact : ∀ z, Line.Drains x z → returnedIds z.2 = pushedIds z.2

def Worker.Shrinks (w : Worker T) (len : Nat) : Prop :=
  minCap.val < w.buffer.cap.val ∧ len ≤ w.buffer.cap.val / 4

/-- Where a push by a handler does no harm. It may not come between the load and the
store of `back` in a push, nor between the load of `back` in a shrink and the store of
the new buffer. Between the `fetch_add` of a pop and its read, the buffer must have
a slot left besides the one to be read. What a pop that shrinks has left must fit
into the smaller buffer, and before the swap the buffer may not be full. -/
def Worker.WakeSafe (w : Worker T) : WorkerPc T β → Prop
  | .pushFront _ _ | .pushBuffer _ _ _ | .pushGrown _ _ | .pushWrite _ _ _ | .pushStore _ _ => False
  | .popFront b =>
    w.front < b → w.Shrinks (b - w.front) → w.back ≤ w.front + w.buffer.cap.val / 2
  | .popAdd _ len => w.Shrinks len → w.back ≤ w.front + w.buffer.cap.val / 2
  | .popBuffer f len | .popRead f len _ =>
    w.back < f + w.buffer.cap.val ∧ (w.Shrinks len → w.back ≤ f + w.buffer.cap.val / 2)
  | .resize newCap (.pop _) .back => w.back < w.front + newCap.val
  | .resize _ (.pop _) (.swap _) => w.back < w.front + w.buffer.cap.val
  | .resize _ _ _ => False
  | _ => True

def Line.WakesSafely (s : Line T) : LineAct T → Prop
  | .wake _ _ => s.worker.WakeSafe s.pc
  | _ => True

end Nacl
