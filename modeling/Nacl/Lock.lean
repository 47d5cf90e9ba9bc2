import Mathlib.Logic.Function.Basic
import Nacl.Lib.Runs

/-! `task::lock::Mutex`, one atomic operation at a time. The lock futures are of
type `F`, the wakers of tasks of type `W`, and `P` are the parties that spin, try
the lock and drop guards. `poll` takes its future by `Pin<&mut Self>`, so that at
most one poll of a future is in progress and the future itself names it. -/

namespace Nacl

/-- The `AtomicWaker` that a guard wakes: the one of the mutex, or `NEW_WAKER`. -/
inductive WakerRef
  | own
  | new
deriving DecidableEq

structure MutexGuard where
  id : Nat
  waker : WakerRef
deriving DecidableEq

inductive PollStage (W : Type*)
  | idle
  | register (w : W)
  | recheck (w : W)
deriving DecidableEq

/-- A `MutexLockFuture`: where its poll is, the waker it registered last, whether
that waker was woken since, and whether its last poll answered `Pending`. -/
structure LockFuture (W : Type*) where
  stage : PollStage W
  waker : Option W
  woken : Bool
  pending : Bool

inductive LockPc
  | idle
  | spin
  | wake (r : WakerRef)
deriving DecidableEq

structure Mutex (P F W : Type*) where
  locked : Bool
  slot : WakerRef → Option W
  guards : List MutexGuard
  made : Nat
  futures : F → LockFuture W
  pcs : P → LockPc

inductive LockAct (P F W : Type*)
  | poll (f : F) (w : W)
  | register (f : F) (w : W)
  | recheck (f : F) (w : W)
  | dropFuture (f : F)
  | lockOrSpin (p : P)
  | spin (p : P)
  | tryLock (p : P)
  | dropStore (p : P) (g : MutexGuard)
  | dropWake (p : P) (r : WakerRef)
deriving DecidableEq

def check (locked : Bool) : Except Bool Bool × Bool :=
  if locked then (.error true, true) else (.ok false, true)

variable {P F W : Type*}

def Mutex.new : Mutex P F W where
  locked := false
  slot _ := none
  guards := []
  made := 0
  futures _ := ⟨.idle, none, false, false⟩
  pcs _ := .idle

def Mutex.acquire (m : Mutex P F W) (r : WakerRef) : Option (Mutex P F W) :=
  match check m.locked with
  | (.ok _, flag) => some { m with
      locked := flag
      guards := m.guards ++ [⟨m.made, r⟩]
      made := m.made + 1 }
  | (.error _, _) => none

theorem Mutex.acquire_locked {m : Mutex P F W} {r : WakerRef} (h : m.locked = true) :
    m.acquire r = none := by
  simp [Mutex.acquire, check, h]

theorem Mutex.acquire_unlocked {m : Mutex P F W} {r : WakerRef} (h : m.locked = false) :
    m.acquire r = some { m with
      locked := true
      guards := m.guards ++ [⟨m.made, r⟩]
      made := m.made + 1 } := by
  simp [Mutex.acquire, check, h]

variable [DecidableEq P] [DecidableEq F] [DecidableEq W]

def Mutex.setPc (m : Mutex P F W) (p : P) (pc : LockPc) : Mutex P F W :=
  { m with pcs := Function.update m.pcs p pc }

def Mutex.setFuture (m : Mutex P F W) (f : F) (l : LockFuture W) : Mutex P F W :=
  { m with futures := Function.update m.futures f l }

def Mutex.register (m : Mutex P F W) (w : W) : Mutex P F W :=
  { m with slot := Function.update m.slot .own (some w) }

def LockFuture.wake (l : LockFuture W) (w : W) : LockFuture W :=
  if l.waker = some w then { l with woken := true } else l

def Mutex.wake (m : Mutex P F W) (r : WakerRef) : Mutex P F W :=
  match m.slot r with
  | none => m
  | some w => { m with
      slot := Function.update m.slot r none
      futures := fun f => (m.futures f).wake w }

def Mutex.Enabled (m : Mutex P F W) : LockAct P F W → Prop
  | .poll f _ | .dropFuture f => (m.futures f).stage = .idle
  | .register f w => (m.futures f).stage = .register w
  | .recheck f w => (m.futures f).stage = .recheck w
  | .lockOrSpin p | .tryLock p => m.pcs p = .idle
  | .spin p => m.pcs p = .spin
  | .dropStore p g => m.pcs p = .idle ∧ g ∈ m.guards
  | .dropWake p r => m.pcs p = .wake r

def LockFuture.answered (l : LockFuture W) (pending : Bool) : LockFuture W :=
  { l with stage := .idle, pending := pending }

def Mutex.next (m : Mutex P F W) : LockAct P F W → Mutex P F W
  | .poll f w => match m.acquire .own with
    | some m' => m'.setFuture f ((m.futures f).answered false)
    | none => m.setFuture f { m.futures f with stage := .register w }
  | .register f w =>
    (m.register w).setFuture f { m.futures f with stage := .recheck w, waker := some w, woken := false }
  | .recheck f _ => match m.acquire .own with
    | some m' => m'.setFuture f ((m.futures f).answered false)
    | none => m.setFuture f ((m.futures f).answered true)
  | .dropFuture f => m.setFuture f ((m.futures f).answered false)
  | .lockOrSpin p => m.setPc p .spin
  | .spin p => match m.acquire .new with
    | some m' => m'.setPc p .idle
    | none => m
  | .tryLock _ => (m.acquire .new).getD m
  | .dropStore p g =>
    { m with locked := false, guards := m.guards.erase g }.setPc p (.wake g.waker)
  | .dropWake p r => (m.wake r).setPc p .idle

instance Mutex.decEnabled (m : Mutex P F W) : (a : LockAct P F W) → Decidable (m.Enabled a)
  | .poll f _ | .dropFuture f => inferInstanceAs (Decidable ((m.futures f).stage = .idle))
  | .register f w => inferInstanceAs (Decidable ((m.futures f).stage = .register w))
  | .recheck f w => inferInstanceAs (Decidable ((m.futures f).stage = .recheck w))
  | .lockOrSpin p | .tryLock p => inferInstanceAs (Decidable (m.pcs p = .idle))
  | .spin p => inferInstanceAs (Decidable (m.pcs p = .spin))
  | .dropStore p g => inferInstanceAs (Decidable (m.pcs p = .idle ∧ g ∈ m.guards))
  | .dropWake p r => inferInstanceAs (Decidable (m.pcs p = .wake r))

def mutex : Guarded.System (Mutex P F W) (LockAct P F W) where
  enabled := Mutex.Enabled
  next := Mutex.next
  dec _ _ := inferInstance

end Nacl
