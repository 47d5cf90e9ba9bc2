import Mathlib.Algebra.Ring.Nat

/-! Task ids, the outcome of a poll, and the future behind `ayield!`. -/

namespace Nacl

abbrev TaskId := Nat

/-- The id made by the call of `TaskId::new` that finds `NEXT_ID` incremented
`count` times. `fetch_add` wraps. -/
def TaskId.new (count : Nat) : TaskId := count % 2 ^ 64

inductive Poll
  | ready
  | pending
deriving DecidableEq

/-- One poll of a future: what it leaves behind, the ids it pushes by calling
wakers, in call order, and its answer. -/
structure Polled (σ : Type*) where
  state : σ
  wakes : List TaskId
  answer : Poll

structure Yield where
  yielded : Bool
deriving DecidableEq

def Yield.default : Yield := ⟨false⟩

def Yield.poll (y : Yield) (id : TaskId) : Polled Yield :=
  if y.yielded then ⟨y, [], .ready⟩ else ⟨⟨true⟩, [id], .pending⟩

end Nacl
