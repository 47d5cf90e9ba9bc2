import Mathlib.Data.Finset.Basic
import Nacl.Lib.Ring
import Nacl.Scheduler

/-! The owner's side of `crossbeam::Worker` in its FIFO flavor, one memory access at
a time. A buffer is named by its address; `live` are the addresses that are allocated
and not yet retired. Indices do not wrap around: `deque_indices` bounds them by the number of
tasks that have entered the queue. -/

namespace Nacl

open Ring

theorem two_pow_minCap : ∃ k, 64 = 2 ^ k := ⟨6, rfl⟩

def minCap : Capacity := ⟨64, two_pow_minCap⟩

theorem one_lt_of_minCap {n m len : Nat} (h : minCap.val < n ∧ len ≤ m) : 1 < n :=
  Nat.lt_trans (show 1 < 64 by decide) h.1

/-- `inner` is the address in `inner.buffer`, `cell` the owner's copy of it. -/
structure Worker (T : Type*) where
  front : Nat
  back : Nat
  heap : Nat → Buffer T
  live : Finset Nat
  inner : Nat
  cell : Nat

/-- The places of `resize` that come before each of its accesses. -/
inductive ResizePc (T : Type*)
  | back
  | front (b : Nat)
  | buffer (b f : Nat)
  | alloc (b f p : Nat)
  | read (b p new i : Nat)
  | write (b p new i : Nat) (x : Option T)
  | replace (new : Nat)
  | swap (new : Nat)

/-- What called `resize` and goes on after it. A caller of `reserve` goes on with `k`. -/
inductive ResizeFor (T β : Type*)
  | push (t : T) (b : Nat)
  | pop (x : Option T)
  | reserve (n : Nat) (k : β)

/-- The place of the owner in `push`, `pop` or `reserve`. -/
inductive WorkerPc (T β : Type*)
  | idle
  | pushBack (t : T)
  | pushFront (t : T) (b : Nat)
  | pushBuffer (t : T) (b f : Nat)
  | pushGrown (t : T) (b : Nat)
  | pushWrite (t : T) (b p : Nat)
  | pushStore (t : T) (b : Nat)
  | popBack
  | popFront (b : Nat)
  | popAdd (b len : Nat)
  | popUndo (f : Nat)
  | popBuffer (f len : Nat)
  | popRead (f len p : Nat)
  | popped (x : Option T)
  | reserveBack (n : Nat) (k : β)
  | reserveFront (n : Nat) (k : β) (b : Nat)
  | reserveBuffer (n : Nat) (k : β) (len : Nat)
  | reserved (n : Nat) (k : β)
  | resize (newCap : Capacity) (k : ResizeFor T β) (r : ResizePc T)

/-- What an access of the owner does for others: a push takes effect, a pop takes a
task off the queue, a pop returns. -/
inductive WorkerEvent (T : Type*)
  | pushed (t : T)
  | taken (x : Option T)
  | returned (x : Option T)
  | returnedNone
deriving DecidableEq

variable {T β : Type*}

def Worker.newFifo : Worker T := ⟨0, 0, fun _ => .alloc minCap, {0}, 0, 0⟩

def Worker.buffer (w : Worker T) : Buffer T := w.heap w.cell

def Worker.shared (w : Worker T) : Buffer T := w.heap w.inner

def Worker.write (w : Worker T) (p i : Nat) (x : Option T) : Worker T :=
  { w with heap := Function.update w.heap p ((w.heap p).write i x) }

def Worker.alloc (w : Worker T) (cap : Capacity) (p : Nat) : Worker T :=
  { w with heap := Function.update w.heap p (.alloc cap), live := insert p w.live }

/-- One access of `resize`, where the allocator answers with address `a`. The old
buffer is retired by the swap that takes it out of `inner.buffer`. -/
def Worker.resizeStep (w : Worker T) (newCap : Capacity) (a : Nat) :
    ResizePc T → Worker T × Option (ResizePc T)
  | .back => (w, some (.front w.back))
  | .front b => (w, some (.buffer b w.front))
  | .buffer b f => (w, some (.alloc b f w.cell))
  | .alloc b f p => (w.alloc newCap a, some (.read b p a f))
  | .read b p new i =>
    (w, some (if i = b then .replace new else .write b p new i ((w.heap p).read i)))
  | .write b p new i x => (w.write new i x, some (.read b p new (i + 1)))
  | .replace new => ({ w with cell := new }, some (.swap new))
  | .swap new => ({ w with inner := new, live := w.live.erase w.inner }, none)

def ResizeFor.resume : ResizeFor T β → WorkerPc T β
  | .push t b => .pushGrown t b
  | .pop x => .popped x
  | .reserve n k => .reserved n k

/-- Doubles the capacity until `n` more tasks fit. -/
def growCap (len n : Nat) (cap : Capacity) : Capacity :=
  if cap.val - len < n then growCap len n cap.double else cap
termination_by len + n - cap.val
decreasing_by
  have hpos := cap.pos
  simp only [Capacity.val_double]
  omega

def WorkerPc.reserve (n : Nat) (k : β) : WorkerPc T β :=
  if 0 < n then .reserveBack n k else .reserved n k

def Worker.step (w : Worker T) (a : Nat) : WorkerPc T β → Worker T × WorkerPc T β
  | .idle => (w, .idle)
  | .pushBack t => (w, .pushFront t w.back)
  | .pushFront t b => (w, .pushBuffer t b w.front)
  | .pushBuffer t b f =>
    (w, if w.buffer.cap.val ≤ b - f then .resize w.buffer.cap.double (.push t b) .back
      else .pushWrite t b w.cell)
  | .pushGrown t b => (w, .pushWrite t b w.cell)
  | .pushWrite t b p => (w.write p b (some t), .pushStore t b)
  | .pushStore _ b => ({ w with back := b + 1 }, .idle)
  | .popBack => (w, .popFront w.back)
  | .popFront b => (w, if b ≤ w.front then .idle else .popAdd b (b - w.front))
  | .popAdd b len =>
    ({ w with front := w.front + 1 },
      if b < w.front + 1 then .popUndo w.front else .popBuffer w.front len)
  | .popUndo f => ({ w with front := f }, .idle)
  | .popBuffer f len => (w, .popRead f len w.cell)
  | .popRead f len p =>
    (w, if h : minCap.val < (w.heap p).cap.val ∧ len ≤ (w.heap p).cap.val / 4
      then .resize ((w.heap p).cap.half (one_lt_of_minCap h)) (.pop ((w.heap p).read f)) .back
      else .popped ((w.heap p).read f))
  | .popped _ => (w, .idle)
  | .reserveBack n k => (w, .reserveFront n k w.back)
  | .reserveFront n k b => (w, .reserveBuffer n k (b - w.front))
  | .reserveBuffer n k len =>
    (w, if w.buffer.cap.val - len < n
      then .resize (growCap len n w.buffer.cap.double) (.reserve n k) .back else .reserved n k)
  | .reserved n k => (w, .reserved n k)
  | .resize newCap k r =>
    ((w.resizeStep newCap a r).1,
      ((w.resizeStep newCap a r).2.map (WorkerPc.resize newCap k)).getD k.resume)

/-- What the step from a place gives to others. A pop takes its task off the queue by
the `fetch_add` that it does not undo. -/
def Worker.events (w : Worker T) : WorkerPc T β → List (WorkerEvent T)
  | .pushStore t _ => [.pushed t]
  | .popFront b => if b ≤ w.front then [.returnedNone] else []
  | .popAdd b _ => if b < w.front + 1 then [] else [.taken (w.shared.read w.front)]
  | .popUndo _ => [.returnedNone]
  | .popped x => [.returned x]
  | _ => []

def WorkerEvent.pushes : WorkerEvent T → Option (Option T)
  | .pushed t => some (some t)
  | _ => none

def WorkerEvent.takes : WorkerEvent T → Option (Option T)
  | .taken x => some x
  | _ => none

def WorkerEvent.returns : WorkerEvent T → Option (Option T)
  | .returned x => some x
  | _ => none

def ResizePc.allocates : ResizePc T → Bool
  | .alloc _ _ _ => true
  | _ => false

def WorkerPc.allocates : WorkerPc T β → Bool
  | .resize _ _ r => r.allocates
  | _ => false

/-- The index of the oldest task in the queue. A pop that lost the race has moved
`front` past it until it undoes that. -/
def Worker.base (w : Worker T) : WorkerPc T β → Nat
  | .popUndo f => f
  | _ => w.front

def Worker.contents (w : Worker T) (base : Nat) : List (Option T) := w.shared.window base w.back

/-- The task that a pop has taken off the queue and not returned yet. -/
def Worker.inFlight (w : Worker T) : WorkerPc T β → List (Option T)
  | .popBuffer f _ => [w.buffer.read f]
  | .popRead f _ p => [(w.heap p).read f]
  | .popped x | .resize _ (.pop x) _ => [x]
  | _ => []

end Nacl
