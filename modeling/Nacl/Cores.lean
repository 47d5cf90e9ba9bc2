import Mathlib.Algebra.Ring.Nat
import Mathlib.Data.List.FinRange
import Mathlib.Logic.Function.Basic
import Nacl.Lib.Runs

/-! `cores::cpu` and its two tables, one memory access at a time, on any number of
CPUs of type `κ`. On each CPU a timer interrupt can stop the main line; its handler
calls `cpu()` itself and runs with interrupts masked. A `Cpu` is named by its place
in the heap of leaked boxes, and a stealer by the `Cpu` whose worker it came from. -/

namespace Nacl

open Guarded

def maxNumCpus : Nat := 64

/-- The parts of a `Cpu` that `cpu()` and its callers touch here, and the CPU that
made it. -/
structure Cpu (κ : Type*) where
  timer : UInt64
  owner : κ
deriving DecidableEq

def Cpu.new {κ : Type*} (c : κ) : Cpu κ := ⟨0, c⟩

def Cpu.tick {κ : Type*} (k : Cpu κ) : Cpu κ := { k with timer := k.timer + 1 }

structure CpuTables (κ : Type*) where
  cpus : Fin maxNumCpus → Option Nat
  stealers : Fin maxNumCpus → Option Nat
  heap : List (Cpu κ)

/-- A call of `cpu()` in progress: before the id is read, then the steps of
`get_or_insert_with` on one slot, then the reference it returns. -/
inductive CpuCall
  | start
  | check (i : Fin maxNumCpus)
  | build (i : Fin maxNumCpus)
  | stealer (i : Fin maxNumCpus) (p : Nat)
  | store (i : Fin maxNumCpus) (p : Nat)
  | read (i : Fin maxNumCpus)
  | got (p : Nat)
  | panicked
deriving DecidableEq

/-- The calls of `cpu()` on one CPU. `handled` counts the finished timer interrupts
and `obtained` lists what the calls returned. -/
structure CpuContext where
  main : Option CpuCall
  handler : Option CpuCall
  handled : Nat
  obtained : List Nat

structure Cores (κ : Type*) where
  tables : CpuTables κ
  ctx : κ → CpuContext

inductive CoresAct (κ : Type*)
  | call (c : κ)
  | interrupt (c : κ)
  | step (c : κ)

/-- What `LAPIC_ID_REG` reads on a CPU with this local APIC id, in xAPIC mode. -/
def lapicIdReg (apicId : Nat) : UInt32 := .ofNat (apicId <<< 24)

def lapicId (reg : UInt32) : UInt32 := reg

def CpuContext.active (x : CpuContext) : Option CpuCall := x.handler <|> x.main

def CpuContext.waiting (x : CpuContext) : Option CpuCall := x.handler.bind fun _ => x.main

def CpuContext.setActive (x : CpuContext) (call : CpuCall) : CpuContext :=
  if x.handler.isSome then { x with handler := some call } else { x with main := some call }

def CpuContext.finish (x : CpuContext) (p : Nat) : CpuContext :=
  if x.handler.isSome
    then { x with handler := none, handled := x.handled + 1, obtained := x.obtained ++ [p] }
    else { x with main := none, obtained := x.obtained ++ [p] }

variable {κ : Type*} [DecidableEq κ]

def CpuTables.advance (t : CpuTables κ) (reg : UInt32) (c : κ) : CpuCall → CpuTables κ × CpuCall
  | .start =>
    if h : (lapicId reg).toNat < maxNumCpus then (t, .check ⟨_, h⟩) else (t, .panicked)
  | .check i => (t, if (t.cpus i).isNone then .build i else .read i)
  | .build i => ({ t with heap := t.heap ++ [Cpu.new c] }, .stealer i t.heap.length)
  | .stealer i p => ({ t with stealers := Function.update t.stealers i (some p) }, .store i p)
  | .store i p => ({ t with cpus := Function.update t.cpus i (some p) }, .read i)
  | .read i => (t, ((t.cpus i).map CpuCall.got).getD (.read i))
  | .got p => (t, .got p)
  | .panicked => (t, .panicked)

def CpuTables.tick (t : CpuTables κ) (p : Nat) : CpuTables κ :=
  { t with heap := t.heap.modify p Cpu.tick }

def CpuTables.stealerList (t : CpuTables κ) : List Nat :=
  (List.finRange maxNumCpus).filterMap t.stealers

def CpuTables.stealersOf (t : CpuTables κ) (c : κ) : List Nat :=
  t.stealerList.filter fun p => (t.heap[p]?).map Cpu.owner = some c

def Cores.new : Cores κ := ⟨⟨fun _ => none, fun _ => none, []⟩, fun _ => ⟨none, none, 0, []⟩⟩

def Cores.set (s : Cores κ) (c : κ) (t : CpuTables κ) (x : CpuContext) : Cores κ :=
  ⟨t, Function.update s.ctx c x⟩

def Cores.Enabled (s : Cores κ) : CoresAct κ → Prop
  | .call c => (s.ctx c).main = none ∧ (s.ctx c).handler = none
  | .interrupt c => (s.ctx c).handler = none
  | .step c => (s.ctx c).active ≠ none

/-- The handler's `got` is followed by its `timer.update`, the main line's by its use
of the reference. -/
def Cores.run (s : Cores κ) (reg : UInt32) (c : κ) : CpuCall → Cores κ
  | .got p =>
    s.set c (if (s.ctx c).handler.isSome then s.tables.tick p else s.tables) ((s.ctx c).finish p)
  | call =>
    s.set c (s.tables.advance reg c call).1 ((s.ctx c).setActive (s.tables.advance reg c call).2)

def Cores.next (regs : κ → UInt32) (s : Cores κ) : CoresAct κ → Cores κ
  | .call c => s.set c s.tables { s.ctx c with main := some .start }
  | .interrupt c => s.set c s.tables { s.ctx c with handler := some .start }
  | .step c => ((s.ctx c).active.map (s.run (regs c) c)).getD s

instance Cores.decEnabled (s : Cores κ) : (a : CoresAct κ) → Decidable (s.Enabled a)
  | .call c => inferInstanceAs (Decidable ((s.ctx c).main = none ∧ (s.ctx c).handler = none))
  | .interrupt c => inferInstanceAs (Decidable ((s.ctx c).handler = none))
  | .step c => inferInstanceAs (Decidable ((s.ctx c).active ≠ none))

def cores (regs : κ → UInt32) : System (Cores κ) (CoresAct κ) where
  enabled := Cores.Enabled
  next := Cores.next regs
  dec _ _ := inferInstance

def CpuCall.filling : CpuCall → Bool
  | .build _ | .stealer _ _ | .store _ _ => true
  | _ => false

def CpuContext.filling (x : CpuContext) : Bool :=
  x.main.any CpuCall.filling || x.handler.any CpuCall.filling

/-- No timer interrupt is delivered between the main line's check of its slot that
finds `None` and its store to the slot. -/
def Cores.Undisturbed (s : Cores κ) : CoresAct κ → Prop
  | .interrupt c => (s.ctx c).main.any CpuCall.filling = false
  | _ => True

def Cores.CallsOnly (_ : Cores κ) : CoresAct κ → Prop
  | .interrupt _ => False
  | _ => True

/-- What the calls of `cpu()` on one CPU return, its stealer and its timer. -/
structure Cores.Coherent (s : Cores κ) (reg : UInt32) (c : κ) : Prop where
  same : ∀ p ∈ (s.ctx c).obtained, ∀ q ∈ (s.ctx c).obtained, p = q
  stealer : ∀ i : Fin maxNumCpus, i.val = reg.toNat → (s.ctx c).filling = false →
    s.tables.stealers i = s.tables.cpus i
  timer : ∀ p, (s.ctx c).main = some (.got p) →
    (s.tables.heap[p]?).map (fun k => k.timer.toNat) = some ((s.ctx c).handled % 2 ^ 64)

/-- What the CPUs with these local APIC ids obtain from `cpu()` and `stealers()`. -/
structure Cores.OwnSlots (s : Cores κ) (apicId : κ → Nat) : Prop where
  index : ∀ c, (s.ctx c).main ≠ some .panicked
  own : ∀ c, ∀ p ∈ (s.ctx c).obtained, ∀ i : Fin maxNumCpus, i.val = apicId c →
    s.tables.cpus i = some p
  apart : ∀ c d, ∀ p ∈ (s.ctx c).obtained, p ∈ (s.ctx d).obtained → c = d
  stealers : ∀ c, (s.ctx c).active = none →
    (s.tables.stealersOf c).length = if (s.ctx c).obtained = [] then 0 else 1

end Nacl
