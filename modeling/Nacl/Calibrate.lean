import Nacl.IoApic
import Nacl.Lib.Runs

/-! `calibrate_apic_timer` with the devices it programs: the PIT, the redirection entry of the
PIT, the LAPIC timer and the interrupts of the CPU. Time goes on in a unit of which whole
numbers make a clock of the bus and a clock of the PIT. -/

namespace Nacl

open Guarded

structure TimerClocks where
  bus : Nat
  pit : Nat
  bus_pos : 0 < bus
  pit_pos : 0 < pit

def apicMasked : UInt32 := 0x10000

def apicTimerPeriodic : UInt32 := 0x20000

def scratchVector : UInt32 := 33

def pitDivider : UInt16 := 11932

/-- Channel 0 of the PIT. It runs from the instant at which the reload value was complete. -/
structure Pit where
  control : UInt8
  low : Option UInt8
  run : Option (Nat × Nat)

def Pit.command (control : UInt8) : Pit := ⟨control, none, none⟩

/-- A write to port 0x40. Bits 4 and 5 of the control word are both set in the access mode
lobyte/hibyte; a reload value of zero counts as 65536. -/
def Pit.data (p : Pit) (now : Nat) (b : UInt8) : Pit :=
  if p.control &&& 0x30 = 0x30 then
    match p.low with
    | none => { p with low := some b }
    | some lo =>
      { p with
        low := none
        run := some (now, if lo.toNat + 256 * b.toNat = 0 then 65536 else lo.toNat + 256 * b.toNat) }
  else p

def Pit.edge (p : Pit) (clocks : TimerClocks) (now : Nat) : Bool :=
  match p.run with
  | none => false
  | some (since, reload) => since < now ∧ (now - since) % (reload * clocks.pit) = 0

/-- The divisor that the divide configuration register selects with its bits 0, 1 and 3. -/
def divideBy (div : UInt32) : Nat :=
  let v := div.toNat % 4 + 4 * (div.toNat / 8 % 2)
  if v = 7 then 1 else 2 ^ (v + 1)

inductive CalibratePc
  | command
  | low
  | high
  | scratch
  | divide
  | enable
  | saved
  | first (saved : UInt64)
  | start (curr : UInt64)
  | second (curr : UInt64)
  | stop
  | measure
  | disable (ticks : UInt32)
  | store (ticks : UInt32)
  | mask (ticks : UInt32)
  | periodic (ticks : UInt32)
  | reload (ticks : UInt32)
  | divideAgain
  | done
deriving DecidableEq

/-- `timerIrq` and `scratchIrq` are the requests the CPU has not served yet. `last`, the instant
of the last access of the routine or the timer handler, and `edge`, that of the last edge of the
PIT or of its load, are ghost state. -/
structure Calibration where
  now : Nat
  last : Nat
  edge : Nat
  pit : Pit
  entry : UInt32
  lvt : UInt32
  div : UInt32
  initCount : UInt32
  started : Nat
  interrupts : Bool
  timerIrq : Bool
  scratchIrq : Bool
  timer : UInt64
  scratchTimer : UInt64
  ticksIn10ms : UInt32
  pc : CalibratePc

inductive CalibrateAct
  | tick
  | expire
  | interrupt
  | step

variable (clocks : TimerClocks)

/-- The count of the LAPIC timer in the one-shot mode, which stays at zero. -/
def Calibration.currentCount (s : Calibration) : UInt32 :=
  .ofNat (s.initCount.toNat - (s.now - s.started) / (divideBy s.div * clocks.bus))

def Calibration.raise (s : Calibration) (register : UInt32) : Calibration :=
  if register &&& apicMasked = 0 then
    if register &&& 0xFF = timerVector then { s with timerIrq := true }
    else if register &&& 0xFF = scratchVector then { s with scratchIrq := true }
    else s
  else s

def Calibration.tick (s : Calibration) : Calibration :=
  if s.pit.edge clocks (s.now + 1) then
    { s with now := s.now + 1, edge := s.now + 1 }.raise s.entry
  else { s with now := s.now + 1 }

def Calibration.pending (s : Calibration) : Bool := s.interrupts && (s.timerIrq || s.scratchIrq)

/-- `timer_interrupt_handler` and `scratch_timer_interrupt_handler`; of two requests the CPU takes
the one with the higher vector. -/
def Calibration.interrupt (s : Calibration) : Calibration :=
  if s.scratchIrq then { s with scratchIrq := false, scratchTimer := s.scratchTimer + 1 }
  else { s with timerIrq := false, timer := s.timer + 1, last := s.now }

def Calibration.access (s : Calibration) : CalibratePc → Calibration
  | .command => { s with pit := .command 0b00110100, pc := .low }
  | .low => { s with pit := s.pit.data s.now pitDivider.toUInt8, pc := .high }
  | .high =>
    { s with pit := s.pit.data s.now (pitDivider >>> 8).toUInt8, edge := s.now, pc := .scratch }
  | .scratch => { s with lvt := scratchVector, pc := .divide }
  | .divide => { s with div := 3, pc := .enable }
  | .enable => { s with interrupts := true, pc := .saved }
  | .saved => { s with pc := .first s.timer }
  | .first saved => if s.timer - saved ≥ 1 then { s with pc := .start s.timer } else s
  | .start curr => { s with initCount := 0xFFFFFFFF, started := s.now, pc := .second curr }
  | .second curr => if s.timer - curr < 1 then s else { s with pc := .stop }
  | .stop => { s with lvt := apicMasked, pc := .measure }
  | .measure => { s with pc := .disable (0xFFFFFFFF - s.currentCount clocks) }
  | .disable ticks => { s with interrupts := false, pc := .store ticks }
  | .store ticks => { s with ticksIn10ms := ticks, pc := .mask ticks }
  | .mask ticks => { s with entry := apicMasked, pc := .periodic ticks }
  | .periodic ticks => { s with lvt := timerVector ||| apicTimerPeriodic, pc := .reload ticks }
  | .reload ticks => { s with initCount := ticks, started := s.now, pc := .divideAgain }
  | .divideAgain => { s with div := 3, pc := .done }
  | .done => s

def Calibration.next (s : Calibration) : CalibrateAct → Calibration
  | .tick => s.tick clocks
  | .expire => s.raise s.lvt
  | .interrupt => s.interrupt
  | .step => { s.access clocks s.pc with last := s.now }

/-- The LAPIC timer may expire at any instant: the firmware may have left it running. -/
def Calibration.Enabled (s : Calibration) : CalibrateAct → Prop
  | .tick | .expire => True
  | .interrupt => s.pending = true
  | .step => s.pc ≠ .done ∧ s.pending = false

instance Calibration.decEnabled (s : Calibration) :
    (a : CalibrateAct) → Decidable (s.Enabled a)
  | .tick | .expire => isTrue trivial
  | .interrupt => inferInstanceAs (Decidable (s.pending = true))
  | .step => inferInstanceAs (Decidable (s.pc ≠ .done ∧ s.pending = false))

def calibration : System Calibration CalibrateAct where
  enabled := Calibration.Enabled
  next := Calibration.next clocks
  dec s a := s.decEnabled a

/-- How long the routine may take from one access to the next: `L`, and `W` more where it prints
the result. -/
def CalibratePc.patience (L W : Nat) : CalibratePc → Nat
  | .store _ => L + W
  | _ => L

/-- The routine and the timer handler come to their next access in time. -/
def Calibration.Prompt (L W : Nat) (s : Calibration) : CalibrateAct → Prop
  | .tick => s.now < s.last + s.pc.patience L W
  | _ => True

/-- What `init_lapic` and `init_ioapic` leave: the timer of the LAPIC masked and the PIT routed to
the timer interrupt; interrupts are not enabled. -/
structure Calibration.Start (s : Calibration) : Prop where
  pc : s.pc = .command
  last : s.last = s.now
  entry : s.entry = timerVector
  lvt : s.lvt = apicMasked
  interrupts : s.interrupts = false

end Nacl
