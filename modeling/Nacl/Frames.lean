import Mathlib.Algebra.Ring.Nat
import Mathlib.Data.List.Nodup
import Nacl.Lib.Supply

/-! `BootInfoFrameAllocator`, the lazy chain over the memory map that it draws its
frames from, and `init_heap`. The page-table code behind `map_to` is a program of
frame requests like any other. -/

namespace Nacl

open Supply

def frameSize : Nat := 4096

structure EntryType where
  code : UInt64
deriving DecidableEq

def EntryType.usable : EntryType := ⟨0⟩

/-- An entry of the bootloader's memory map. -/
structure Entry where
  base : UInt64
  length : UInt64
  entryType : EntryType
deriving DecidableEq

structure PhysFrame where
  start : Nat
  aligned : frameSize ∣ start
deriving DecidableEq

def PhysFrame.containingAddress (addr : Nat) : PhysFrame :=
  ⟨addr / frameSize * frameSize, Nat.dvd_mul_left _ _⟩

/-- `(start..stop).step_by(4096)`. -/
structure StepRange where
  start : Nat
  stop : Nat

def StepRange.next (r : StepRange) : Option (Nat × StepRange) :=
  if r.start < r.stop then some (r.start, { r with start := r.start + frameSize }) else none

def Entry.range (e : Entry) : StepRange := ⟨e.base.toNat, (e.base + e.length).toNat⟩

/-- The range that the chain is in, and the regions that it has not pulled yet. -/
structure BootInfoFrameAllocator where
  front : Option StepRange
  regions : List Entry

def BootInfoFrameAllocator.init (regions : List Entry) : BootInfoFrameAllocator := ⟨none, regions⟩

def BootInfoFrameAllocator.pull : List Entry → Option Nat × BootInfoFrameAllocator
  | [] => (none, ⟨none, []⟩)
  | e :: regions =>
    if e.entryType = .usable then
      match e.range.next with
      | some (addr, r) => (some addr, ⟨some r, regions⟩)
      | none => BootInfoFrameAllocator.pull regions
    else BootInfoFrameAllocator.pull regions

def BootInfoFrameAllocator.nextAddr (a : BootInfoFrameAllocator) :
    Option Nat × BootInfoFrameAllocator :=
  match a.front.bind StepRange.next with
  | some (addr, r) => (some addr, ⟨some r, a.regions⟩)
  | none => BootInfoFrameAllocator.pull a.regions

/-- `PhysAddr::new` refuses an address with one of its bits 52 to 63 set. -/
inductive FramePanic
  | physAddr (addr : Nat)

def BootInfoFrameAllocator.allocateFrame (a : BootInfoFrameAllocator) :
    Except FramePanic (Option PhysFrame × BootInfoFrameAllocator) :=
  match a.nextAddr with
  | (none, a) => .ok (none, a)
  | (some addr, a) =>
    if addr < 2 ^ 52 then .ok (some (.containingAddress addr), a) else .error (.physAddr addr)

structure Page where
  start : Nat
  aligned : frameSize ∣ start
deriving DecidableEq

def Page.containingAddress (addr : Nat) : Page :=
  ⟨addr / frameSize * frameSize, Nat.dvd_mul_left _ _⟩

theorem Page.offset_aligned (p : Page) (i : Nat) : frameSize ∣ p.start + i * frameSize :=
  Nat.dvd_add p.aligned (Nat.dvd_mul_left _ _)

def Page.rangeInclusive (first last : Page) : List Page :=
  (List.range ((last.start + frameSize - first.start) / frameSize)).map fun i =>
    ⟨first.start + i * frameSize, first.offset_aligned i⟩

def heapStart : Nat := 0x444444440000

def heapSize : Nat := 100 * 1024

def heapPages : List Page :=
  Page.rangeInclusive (.containingAddress heapStart) (.containingAddress (heapStart + heapSize - 1))

inductive MapToError
  | frameAllocationFailed
  | parentEntryHugePage
  | pageAlreadyMapped (f : PhysFrame)

inductive FrameUse
  | heapPage
  | pageTable
deriving DecidableEq

/-- `PRESENT | WRITABLE`. -/
def heapPageFlags : UInt64 := 1 ||| 2

section InitHeap

variable {σ : Type*}
  (mapTo : σ → Page → PhysFrame → UInt64 → Requests Unit PhysFrame (Except MapToError σ))

/-- The loop of `init_heap`. The pages mapped so far with their frames are what it has
done to the page table. -/
def initHeapLoop : List Page → σ →
    Requests FrameUse PhysFrame (Except MapToError (List (Page × PhysFrame)))
  | [], _ => .done (.ok [])
  | page :: pages, mapper => .ask .heapPage fun
    | none => .done (.error .frameAllocationFailed)
    | some frame => ((mapTo mapper page frame heapPageFlags).label .pageTable).bind fun
      | .error e => .done (.error e)
      | .ok mapper => (initHeapLoop pages mapper).bind fun r => .done (r.map ((page, frame) :: ·))

def initHeap (mapper : σ) : Requests FrameUse PhysFrame (Except MapToError (List (Page × PhysFrame))) :=
  initHeapLoop mapTo heapPages mapper

end InitHeap

def Entry.Contains (e : Entry) (addr : Nat) : Prop :=
  e.base.toNat ≤ addr ∧ addr < e.base.toNat + e.length.toNat

/-- The frame lies wholly inside the entry. -/
def Entry.Covers (e : Entry) (f : PhysFrame) : Prop :=
  e.base.toNat ≤ f.start ∧ f.start + frameSize ≤ e.base.toNat + e.length.toNat

def Entry.Overlaps (e : Entry) (f : PhysFrame) : Prop :=
  ∃ addr, f.start ≤ addr ∧ addr < f.start + frameSize ∧ e.Contains addr

/-- A memory map as the bootloader guarantees it. -/
structure MemoryMap where
  entries : List Entry
  disjoint : entries.Pairwise fun e e' => ∀ addr, ¬ (e.Contains addr ∧ e'.Contains addr)
  aligned : ∀ e ∈ entries, e.entryType = .usable →
    frameSize ∣ e.base.toNat ∧ frameSize ∣ e.length.toNat
  bounded : ∀ e ∈ entries, e.entryType = .usable → e.base.toNat + e.length.toNat ≤ 2 ^ 52

/-- The answers to the requests of a run, in order: frames that differ, each inside one
usable entry and clear of the others, and nothing only when all of them are given out. -/
structure MemoryMap.HandedOut {ω : Type*} (M : MemoryMap) (log : List (ω × Option PhysFrame)) :
    Prop where
  distinct : (log.filterMap Prod.snd).Nodup
  inside : ∀ f ∈ log.filterMap Prod.snd, ∃ l e r, M.entries = l ++ e :: r ∧
    e.entryType = .usable ∧ e.Covers f ∧ ∀ e' ∈ l ++ r, ¬ e'.Overlaps f
  exhausted : ∀ l o r, log = l ++ (o, none) :: r →
    (∀ e ∈ M.entries, e.entryType = .usable → ∀ f, e.Covers f → f ∈ l.filterMap Prod.snd) ∧
      ∀ x ∈ r, x.2 = none

end Nacl
