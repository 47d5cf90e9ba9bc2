import Mathlib.Algebra.Ring.Nat
import Mathlib.Logic.Function.Basic
import Nacl.Lib.Fallible

/-! `init_ioapic` and the I/O APICs behind it. A device is a select register and a file
of registers; a driver reaches register `offset` by writing it to the select register
and then using the window. Devices are found by the address of their select register. -/

namespace Nacl

open Fallible

structure IoApicDevice where
  select : UInt32
  regs : UInt8 → UInt32

def IoApicDevice.read (d : IoApicDevice) : UInt32 := d.regs d.select.toUInt8

def IoApicDevice.write (d : IoApicDevice) (value : UInt32) : IoApicDevice :=
  { d with regs := Function.update d.regs d.select.toUInt8 value }

abbrev IoApicBus := UInt64 → IoApicDevice

structure IoApic where
  startPtr : UInt64
deriving DecidableEq

def IoApic.registerAt (a : IoApic) (offset : UInt8) (w : IoApicBus) : IoApicBus :=
  Function.update w a.startPtr { w a.startPtr with select := offset.toUInt32 }

def IoApic.readRegister (a : IoApic) (offset : UInt8) (w : IoApicBus) : UInt32 × IoApicBus :=
  ((a.registerAt offset w a.startPtr).read, a.registerAt offset w)

def IoApic.writeRegister (a : IoApic) (offset : UInt8) (value : UInt32) (w : IoApicBus) : IoApicBus :=
  Function.update (a.registerAt offset w) a.startPtr ((a.registerAt offset w a.startPtr).write value)

def IoApic.updateRegister (a : IoApic) (offset : UInt8) (f : UInt32 → UInt32) (w : IoApicBus) :
    IoApicBus :=
  a.writeRegister offset (f (a.readRegister offset w).1) (a.readRegister offset w).2

def ioApicVer : UInt8 := 1

def maskBit : UInt32 := (1 : UInt32) <<< (16 : UInt32)

/-- `InterruptIndex::Timer`. -/
def timerVector : UInt32 := 32

structure IoApicInfo where
  address : UInt32
  globalSystemInterruptBase : UInt32
deriving DecidableEq

structure InterruptSourceOverride where
  isaSource : UInt8
  globalSystemInterrupt : UInt32
deriving DecidableEq

structure Apic where
  ioApics : List IoApicInfo
  interruptSourceOverrides : List InterruptSourceOverride

inductive InterruptModel
  | unknown
  | apic (apic : Apic)

structure Processor where
  localApicId : UInt32

structure ProcessorInfo where
  bootProcessor : Processor

structure PlatformInfo where
  interruptModel : InterruptModel
  processorInfo : Option ProcessorInfo

/-- All of physical memory is mapped at an offset in the higher half. -/
structure Mapper where
  physicalMemoryOffset : UInt64
  pos : 0 < physicalMemoryOffset.toNat
  room : physicalMemoryOffset.toNat + 2 ^ 32 ≤ 2 ^ 64

inductive ApicPanic
  | unknownInterruptModel
  | noPit
  | noProcInfo
  | pitIrqNotFound
  | nullPointer
  | overflow
deriving DecidableEq

def addU8 (a b : UInt8) : Except ApicPanic UInt8 :=
  if a.toNat + b.toNat < 2 ^ 8 then .ok (a + b) else .error .overflow

def mulU8 (a b : UInt8) : Except ApicPanic UInt8 :=
  if a.toNat * b.toNat < 2 ^ 8 then .ok (a * b) else .error .overflow

def addU32 (a b : UInt32) : Except ApicPanic UInt32 :=
  if a.toNat + b.toNat < 2 ^ 32 then .ok (a + b) else .error .overflow

def addU64 (a b : UInt64) : Except ApicPanic UInt64 :=
  if a.toNat + b.toNat < 2 ^ 64 then .ok (a + b) else .error .overflow

def Mapper.physToVirt (m : Mapper) (phys : UInt64) : Except ApicPanic UInt64 :=
  addU64 m.physicalMemoryOffset phys

def Mapper.physToVirtPtr (m : Mapper) (phys : UInt64) : Except ApicPanic UInt64 := do
  let virt ← m.physToVirt phys
  if virt = 0 then .error .nullPointer else .ok virt

def Apic.pit (a : Apic) : Option InterruptSourceOverride :=
  a.interruptSourceOverrides.find? fun ov => ov.isaSource == 0

structure Scan where
  bus : IoApicBus
  found : Option (IoApic × UInt8)

/-- One redirection entry: the one of the PIT is pointed at the boot processor, every
other one is masked. -/
def initEntry (ioapic : IoApic) (base overriddenIndex bsp : UInt32) (s : Scan) (idx : UInt8) :
    Except ApicPanic Scan := do
  let reg ← addU8 0x10 (← mulU8 idx 2)
  if (← addU32 idx.toUInt32 base) = overriddenIndex then
    let bus := ioapic.writeRegister reg timerVector s.bus
    let bus := ioapic.writeRegister (← addU8 reg 1) bsp bus
    .ok ⟨bus, some (ioapic, reg)⟩
  else .ok { s with bus := ioapic.updateRegister reg (fun v => v ||| maskBit) s.bus }

def initOne (platform : PlatformInfo) (m : Mapper) (overriddenIndex : UInt32) (s : Scan)
    (info : IoApicInfo) : Except ApicPanic Scan := do
  let ioapic : IoApic := ⟨← m.physToVirtPtr info.address.toUInt64⟩
  let (ioapicver, bus) := ioapic.readRegister ioApicVer s.bus
  let maxRedirCount ← addU8 (ioapicver >>> 16).toUInt8 1
  match platform.processorInfo with
  | none => .error .noProcInfo
  | some proc =>
    ((List.range maxRedirCount.toNat).map UInt8.ofNat).foldlM
      (initEntry ioapic info.globalSystemInterruptBase overriddenIndex
        (proc.bootProcessor.localApicId <<< (56 - 32))) { s with bus := bus }

def initIoApic (platform : PlatformInfo) (m : Mapper) (w : IoApicBus) :
    Except ApicPanic ((IoApic × UInt8) × IoApicBus) :=
  match platform.interruptModel with
  | .unknown => .error .unknownInterruptModel
  | .apic apic => match apic.pit with
    | none => .error .noPit
    | some pit => do
      let s ← apic.ioApics.foldlM (initOne platform m pit.globalSystemInterrupt) ⟨w, none⟩
      match s.found with
      | none => .error .pitIrqNotFound
      | some r => .ok (r, s.bus)

def Mapper.ptr (m : Mapper) (info : IoApicInfo) : UInt64 :=
  m.physicalMemoryOffset + info.address.toUInt64

/-- The number of redirection entries that the device reports. -/
def IoApicBus.entries (w : IoApicBus) (m : Mapper) (info : IoApicInfo) : Nat :=
  ((w (m.ptr info)).regs ioApicVer >>> 16).toUInt8.toNat + 1

def IoApicInfo.base (info : IoApicInfo) : Nat := info.globalSystemInterruptBase.toNat

/-- I/O APICs at distinct addresses, with at most 120 entries each and with ranges of
interrupts that do not meet. -/
structure Apic.WellFormed (a : Apic) (m : Mapper) (w : IoApicBus) : Prop where
  distinct : (a.ioApics.map IoApicInfo.address).Nodup
  entries_le : ∀ i ∈ a.ioApics, w.entries m i ≤ 120
  range_le : ∀ i ∈ a.ioApics, i.base + w.entries m i ≤ 2 ^ 32
  apart : a.ioApics.Pairwise fun i j => ∀ k < w.entries m i, ∀ l < w.entries m j,
    i.base + k ≠ j.base + l

/-- Entry `k` of the I/O APIC is that of global interrupt `gsi`. -/
def IoApicBus.Covers (w : IoApicBus) (m : Mapper) (i : IoApicInfo) (k : Nat) (gsi : UInt32) : Prop :=
  k < w.entries m i ∧ i.base + k = gsi.toNat

def lowReg (k : Nat) : UInt8 := .ofNat (0x10 + 2 * k)

def highReg (k : Nat) : UInt8 := .ofNat (0x10 + 2 * k + 1)

/-- What is left of `init_ioapic` in the registers when entry `k` of the I/O APIC `i` is
that of the PIT. -/
structure PitRouted (a : Apic) (m : Mapper) (bsp : UInt32) (w w' : IoApicBus) (i : IoApicInfo)
    (k : Nat) : Prop where
  low : (w' (m.ptr i)).regs (lowReg k) = 32
  high : ((w' (m.ptr i)).regs (highReg k)).toNat = bsp.toNat * 2 ^ 24
  others : ∀ j ∈ a.ioApics, ∀ l < w.entries m j, (j, l) ≠ (i, k) →
    (w' (m.ptr j)).regs (lowReg l) = (w (m.ptr j)).regs (lowReg l) ||| maskBit ∧
      (w' (m.ptr j)).regs (highReg l) = (w (m.ptr j)).regs (highReg l)
  outside : ∀ p r, (∀ j ∈ a.ioApics, ∀ l < w.entries m j, p = m.ptr j →
    r ≠ lowReg l ∧ r ≠ highReg l) → (w' p).regs r = (w p).regs r

end Nacl
