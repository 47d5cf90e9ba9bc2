import Mathlib.Tactic.Ring
import Nacl.Calibrate

/-! How close `calibrate_apic_timer` comes to the period of the PIT, how long it takes, and that
only one device at a time raises the timer interrupt. -/

namespace Nacl

open Guarded

variable {clocks : TimerClocks} {s : Calibration} {L W t : Nat} {pc : CalibratePc}

/-- The 10 ms of the PIT. -/
def TimerClocks.period (clocks : TimerClocks) : Nat := pitDivider.toNat * clocks.pit

/-- A tick of the LAPIC timer with the divider 16. -/
def TimerClocks.apicTick (clocks : TimerClocks) : Nat := divideBy 3 * clocks.bus

theorem TimerClocks.period_pos (clocks : TimerClocks) : 0 < clocks.period :=
  Nat.mul_pos (by decide) clocks.pit_pos

theorem TimerClocks.apicTick_pos (clocks : TimerClocks) : 0 < clocks.apicTick :=
  Nat.mul_pos (by decide) clocks.bus_pos

/-- The PIT runs with the reload value of the routine, and its interrupts reach the CPU. -/
def Calibration.Ticking (s : Calibration) (clocks : TimerClocks) : Prop :=
  (∃ since k, s.pit.run = some (since, pitDivider.toNat) ∧ s.edge = since + k * clocks.period) ∧
    s.edge ≤ s.now ∧ s.now < s.edge + clocks.period ∧ s.entry = timerVector

theorem Calibration.raise_apicMasked (s : Calibration) : s.raise apicMasked = s := rfl

theorem Calibration.raise_timerVector (s : Calibration) :
    s.raise timerVector = { s with timerIrq := true } := rfl

theorem Calibration.raise_scratchVector (s : Calibration) :
    s.raise scratchVector = { s with scratchIrq := true } := rfl

theorem Calibration.Ticking.edge_iff (h : s.Ticking clocks) :
    s.pit.edge clocks (s.now + 1) = true ↔ s.now + 1 = s.edge + clocks.period := by
  obtain ⟨⟨since, k, hrun, hedge⟩, hle, hlt, -⟩ := h
  have hsub : s.now + 1 - since = (s.now + 1 - s.edge) + clocks.period * k := by
    have hcomm := Nat.mul_comm clocks.period k
    omega
  rw [Pit.edge, hrun, decide_eq_true_iff]
  show since < s.now + 1 ∧ (s.now + 1 - since) % clocks.period = 0 ↔ _
  rw [hsub, Nat.add_mul_mod_self_left]
  constructor
  · rintro ⟨-, hmod⟩
    by_contra hne
    rw [Nat.mod_eq_of_lt (by omega)] at hmod
    omega
  · intro he
    have hperiod : s.now + 1 - s.edge = clocks.period := by omega
    rw [hperiod, Nat.mod_self]
    refine ⟨?_, rfl⟩
    have hk : 0 ≤ k * clocks.period := Nat.zero_le _
    omega

theorem Calibration.Ticking.tick_edge (h : s.Ticking clocks)
    (he : s.now + 1 = s.edge + clocks.period) :
    s.tick clocks = { s with now := s.now + 1, edge := s.now + 1, timerIrq := true } ∧
      (s.tick clocks).Ticking clocks := by
  have heq : s.tick clocks = { s with now := s.now + 1, edge := s.now + 1, timerIrq := true } := by
    rw [Calibration.tick, if_pos (h.edge_iff.mpr he), h.2.2.2, Calibration.raise_timerVector]
  rw [heq]
  obtain ⟨⟨since, k, hrun, hedge⟩, hle, hlt, hentry⟩ := h
  have hk : (k + 1) * clocks.period = k * clocks.period + clocks.period := by ring
  refine ⟨rfl, ⟨since, k + 1, hrun, ?_⟩, le_rfl, ?_, hentry⟩
  · show s.now + 1 = since + (k + 1) * clocks.period
    omega
  · show s.now + 1 < s.now + 1 + clocks.period
    omega

theorem Calibration.Ticking.tick_quiet (h : s.Ticking clocks)
    (he : s.now + 1 ≠ s.edge + clocks.period) :
    s.tick clocks = { s with now := s.now + 1 } ∧ (s.tick clocks).Ticking clocks := by
  have heq : s.tick clocks = { s with now := s.now + 1 } := by
    rw [Calibration.tick, if_neg (mt h.edge_iff.mp he)]
  rw [heq]
  obtain ⟨hrun, hle, hlt, hentry⟩ := h
  refine ⟨rfl, hrun, ?_, ?_, hentry⟩
  · show s.edge ≤ s.now + 1
    omega
  · show s.now + 1 < s.edge + clocks.period
    omega

/-- The routine waits for the interrupt after the one that brought the count to `v`, which came
with the edge at `E`: the next edge is to come, its interrupt is to be served, or it was. -/
def Calibration.Awaits (s : Calibration) (clocks : TimerClocks) (L : Nat) (v : UInt64) (E : Nat) :
    Prop :=
  (s.timer = v ∧ s.timerIrq = false ∧ s.edge = E) ∨
    (s.edge = E + clocks.period ∧
      ((s.timer = v ∧ s.timerIrq = true ∧ s.last ≤ s.edge) ∨
        (s.timer = v + 1 ∧ s.timerIrq = false ∧ s.last ≤ s.edge + L)))

/-- The LAPIC ticks that the routine counts make a period of the PIT, but for a few accesses and
one tick, or the count has come to its end. -/
def TimerClocks.Measures (clocks : TimerClocks) (L : Nat) (ticks : UInt32) : Prop :=
  ticks.toNat * clocks.apicTick ≤ clocks.period + 4 * L ∧
    (clocks.period < (ticks.toNat + 1) * clocks.apicTick + 3 * L ∨ ticks.toNat = 2 ^ 32 - 1)

/-- The interrupt of the last edge was served; `n` delays at most have passed since the edge. -/
def Calibration.Timed (s : Calibration) (clocks : TimerClocks) (L t n : Nat) : Prop :=
  s.Ticking clocks ∧ s.timerIrq = false ∧ s.last ≤ s.edge + n * L ∧
    s.edge ≤ t + 3 * L + 2 * clocks.period

/-- After the measurement the interrupts are off. -/
def Calibration.Settled (s : Calibration) (clocks : TimerClocks) (L deadline : Nat)
    (ticks : UInt32) : Prop :=
  s.interrupts = false ∧ clocks.Measures L ticks ∧ s.last ≤ deadline

/-- What holds at each place of a routine that began at the instant `t`. -/
def Calibration.At (s : Calibration) (clocks : TimerClocks) (L W t : Nat) : CalibratePc → Prop
  | .command => s.last ≤ t ∧ s.interrupts = false ∧ s.entry = timerVector ∧ s.lvt = apicMasked
  | .low => s.last ≤ t + L ∧ s.interrupts = false ∧ s.entry = timerVector ∧ s.lvt = apicMasked ∧
    s.pit = .command 0b00110100
  | .high => s.last ≤ t + 2 * L ∧ s.interrupts = false ∧ s.entry = timerVector ∧
    s.lvt = apicMasked ∧ s.pit = (Pit.command 0b00110100).data 0 pitDivider.toUInt8
  | .scratch => s.Ticking clocks ∧ s.last ≤ s.edge ∧ s.edge ≤ t + 3 * L ∧ s.interrupts = false ∧
    s.lvt = apicMasked
  | .divide => s.Ticking clocks ∧ s.last ≤ s.edge + L ∧ s.edge ≤ t + 3 * L ∧
    s.interrupts = false ∧ s.lvt = scratchVector
  | .enable => s.Ticking clocks ∧ s.last ≤ s.edge + 2 * L ∧ s.edge ≤ t + 3 * L ∧
    s.interrupts = false ∧ s.lvt = scratchVector ∧ s.div = 3
  | .saved => s.Ticking clocks ∧ s.last ≤ s.edge + 4 * L ∧ s.edge ≤ t + 3 * L ∧
    (s.timerIrq = true → s.last ≤ s.edge + 3 * L) ∧ s.interrupts = true ∧
      s.lvt = scratchVector ∧ s.div = 3
  | .first saved => s.Ticking clocks ∧ s.interrupts = true ∧ s.lvt = scratchVector ∧ s.div = 3 ∧
    ∃ E, s.Awaits clocks L saved E ∧ E ≤ t + 3 * L
  | .start curr => s.Ticking clocks ∧ s.interrupts = true ∧ s.lvt = scratchVector ∧ s.div = 3 ∧
    s.timerIrq = false ∧ s.timer = curr ∧ s.last ≤ s.edge + 2 * L ∧ s.edge ≤ t + 3 * L + clocks.period
  | .second curr => s.Ticking clocks ∧ s.interrupts = true ∧ s.lvt = scratchVector ∧ s.div = 3 ∧
    s.initCount = 0xFFFFFFFF ∧ ∃ E, s.Awaits clocks L curr E ∧ E ≤ t + 3 * L + clocks.period ∧
      E ≤ s.started ∧ s.started ≤ E + 3 * L
  | .stop => s.Timed clocks L t 2 ∧ s.lvt = scratchVector ∧ s.div = 3 ∧
    s.initCount = 0xFFFFFFFF ∧ s.edge ≤ s.started + clocks.period ∧
      s.started + clocks.period ≤ s.edge + 3 * L
  | .measure => s.Timed clocks L t 3 ∧ s.lvt = apicMasked ∧ s.div = 3 ∧
    s.initCount = 0xFFFFFFFF ∧ s.edge ≤ s.started + clocks.period ∧
      s.started + clocks.period ≤ s.edge + 3 * L
  | .disable ticks => s.Timed clocks L t 4 ∧ s.lvt = apicMasked ∧ clocks.Measures L ticks
  | .store ticks => s.Settled clocks L (t + 2 * clocks.period + 8 * L) ticks ∧ s.lvt = apicMasked ∧
    s.entry = timerVector
  | .mask ticks => s.Settled clocks L (t + 2 * clocks.period + 9 * L + W) ticks ∧
    s.lvt = apicMasked ∧ s.entry = timerVector ∧ s.ticksIn10ms = ticks
  | .periodic ticks => s.Settled clocks L (t + 2 * clocks.period + 10 * L + W) ticks ∧
    s.lvt = apicMasked ∧ s.entry = apicMasked ∧ s.ticksIn10ms = ticks
  | .reload ticks => s.Settled clocks L (t + 2 * clocks.period + 11 * L + W) ticks ∧
    s.lvt = timerVector ||| apicTimerPeriodic ∧ s.entry = apicMasked ∧ s.ticksIn10ms = ticks
  | .divideAgain => s.Settled clocks L (t + 2 * clocks.period + 12 * L + W) s.initCount ∧
    s.lvt = timerVector ||| apicTimerPeriodic ∧ s.entry = apicMasked ∧ s.ticksIn10ms = s.initCount
  | .done => s.interrupts = false ∧ clocks.Measures L s.initCount ∧
    s.lvt = timerVector ||| apicTimerPeriodic ∧ s.entry = apicMasked ∧
      s.ticksIn10ms = s.initCount ∧ s.div = 3

theorem Calibration.At.scratchIrq (h : s.At clocks L W t pc) (b : Bool) (n : UInt64) :
    { s with scratchIrq := b, scratchTimer := n }.At clocks L W t pc := by
  cases pc <;> exact h

theorem Calibration.Ticking.tick (h : s.Ticking clocks) : (s.tick clocks).Ticking clocks := by
  by_cases he : s.now + 1 = s.edge + clocks.period
  · exact (h.tick_edge he).2
  · exact (h.tick_quiet he).2

theorem Calibration.raise_eq (s : Calibration) (register : UInt32) :
    ∃ b c, s.raise register = { s with timerIrq := b, scratchIrq := c } := by
  rw [Calibration.raise]
  split_ifs <;> exact ⟨_, _, rfl⟩

theorem Calibration.tick_eq (s : Calibration) (clocks : TimerClocks) : ∃ e b c,
    s.tick clocks = { s with now := s.now + 1, edge := e, timerIrq := b, scratchIrq := c } := by
  rw [Calibration.tick]
  split
  · obtain ⟨b, c, heq⟩ := Calibration.raise_eq { s with now := s.now + 1, edge := s.now + 1 } s.entry
    exact ⟨_, b, c, heq⟩
  · exact ⟨_, _, _, rfl⟩

theorem Calibration.Awaits.tick {v : UInt64} {E : Nat} (ha : s.Awaits clocks L v E)
    (h : s.Ticking clocks) (hle : s.last ≤ s.now) (hp : s.now < s.last + L)
    (hL : 5 * L < clocks.period) : (s.tick clocks).Awaits clocks L v E := by
  rcases ha with ⟨ht, hi, he⟩ | ⟨he, ⟨ht, hi, hl⟩ | ⟨ht, hi, hl⟩⟩
  · by_cases hn : s.now + 1 = s.edge + clocks.period
    · rw [(h.tick_edge hn).1]
      refine .inr ⟨?_, .inl ⟨ht, rfl, ?_⟩⟩
      · show s.now + 1 = E + clocks.period
        omega
      · show s.last ≤ s.now + 1
        omega
    · rw [(h.tick_quiet hn).1]
      exact .inl ⟨ht, hi, he⟩
  -- once the edge has come, the next is too far off
  · rw [(h.tick_quiet (by omega)).1]
    exact .inr ⟨he, .inl ⟨ht, hi, hl⟩⟩
  · rw [(h.tick_quiet (by omega)).1]
    exact .inr ⟨he, .inr ⟨ht, hi, hl⟩⟩

theorem Calibration.Timed.tick {n : Nat} (h : s.Timed clocks L t n) (hn : n ≤ 4)
    (hp : s.now < s.last + L) (hL : 5 * L < clocks.period) :
    s.tick clocks = { s with now := s.now + 1 } ∧ (s.tick clocks).Timed clocks L t n := by
  obtain ⟨htick, hirq, hlast, hedge⟩ := h
  have hnL : n * L ≤ 4 * L := Nat.mul_le_mul_right L hn
  obtain ⟨heq, htick'⟩ := htick.tick_quiet (by omega)
  refine ⟨heq, htick', ?_⟩
  rw [heq]
  exact ⟨hirq, hlast, hedge⟩

theorem Calibration.At.tick (h : s.At clocks L W t pc) (hle : s.last ≤ s.now)
    (hp : s.now < s.last + pc.patience L W) (hL : 5 * L < clocks.period) :
    (s.tick clocks).At clocks L W t pc := by
  cases pc with
  | command | low | high | store | mask | periodic | reload | divideAgain | done =>
    obtain ⟨e, b, c, heq⟩ := s.tick_eq clocks
    rw [heq]
    exact h
  | scratch | divide | enable | saved | start =>
    -- the last edge is at most five delays ago, so no edge comes here
    change s.now < s.last + L at hp
    obtain ⟨htick, h⟩ := h
    obtain ⟨heq, htick'⟩ := htick.tick_quiet (by omega)
    refine ⟨htick', ?_⟩
    rw [heq]
    exact h
  | first saved =>
    obtain ⟨htick, hint, hlvt, hdiv, E, ha, hE⟩ := h
    have hwait := ha.tick htick hle hp hL
    have htick' := htick.tick
    obtain ⟨e, b, c, heq⟩ := s.tick_eq clocks
    rw [heq] at hwait htick' ⊢
    exact ⟨htick', hint, hlvt, hdiv, E, hwait, hE⟩
  | second curr =>
    obtain ⟨htick, hint, hlvt, hdiv, hinit, E, ha, hE⟩ := h
    have hwait := ha.tick htick hle hp hL
    have htick' := htick.tick
    obtain ⟨e, b, c, heq⟩ := s.tick_eq clocks
    rw [heq] at hwait htick' ⊢
    exact ⟨htick', hint, hlvt, hdiv, hinit, E, hwait, hE⟩
  | stop | measure | disable =>
    change s.now < s.last + L at hp
    obtain ⟨htimed, h⟩ := h
    obtain ⟨heq, htimed'⟩ := htimed.tick (by omega) hp hL
    refine ⟨htimed', ?_⟩
    rw [heq]
    exact h

/-- Where the LAPIC timer has the timer vector, the PIT is masked and no place waits for it. -/
theorem Calibration.At.registers (h : s.At clocks L W t pc) :
    s.lvt = apicMasked ∨ s.lvt = scratchVector ∨
      (s.entry = apicMasked ∧ ∀ b, { s with timerIrq := b }.At clocks L W t pc) := by
  cases pc with
  | command => exact .inl h.2.2.2
  | low | high => exact .inl h.2.2.2.1
  | scratch => exact .inl h.2.2.2.2
  | divide => exact .inr (.inl h.2.2.2.2)
  | enable => exact .inr (.inl h.2.2.2.2.1)
  | saved => exact .inr (.inl h.2.2.2.2.2.1)
  | first | start | second => exact .inr (.inl h.2.2.1)
  | stop => exact .inr (.inl h.2.1)
  | measure | disable | store | mask => exact .inl h.2.1
  | periodic | reload | divideAgain => exact .inr (.inr ⟨h.2.2.1, fun _ => h⟩)
  | done => exact .inr (.inr ⟨h.2.2.2.1, fun _ => h⟩)

theorem Calibration.At.expire (h : s.At clocks L W t pc) :
    (s.raise s.lvt).At clocks L W t pc := by
  rcases h.registers with hr | hr | ⟨-, hr⟩
  · rw [hr, Calibration.raise_apicMasked]
    exact h
  · rw [hr, Calibration.raise_scratchVector]
    exact h.scratchIrq true s.scratchTimer
  · obtain ⟨b, c, heq⟩ := s.raise_eq s.lvt
    rw [heq]
    exact (hr b).scratchIrq c s.scratchTimer

theorem Calibration.Awaits.interrupt {v : UInt64} {E : Nat} (ha : s.Awaits clocks L v E)
    (hirq : s.timerIrq = true) (hp : s.now ≤ s.last + L) :
    { s with timerIrq := false, timer := s.timer + 1, last := s.now }.Awaits clocks L v E := by
  rcases ha with ⟨-, hi, -⟩ | ⟨he, ⟨ht, -, hl⟩ | ⟨-, hi, -⟩⟩
  · rw [hi] at hirq
    cases hirq
  · refine .inr ⟨he, .inr ⟨congrArg (· + 1) ht, rfl, ?_⟩⟩
    show s.now ≤ s.edge + L
    omega
  · rw [hi] at hirq
    cases hirq

theorem Calibration.At.interrupt (h : s.At clocks L W t pc) (hp : s.now ≤ s.last + pc.patience L W)
    (hpend : s.pending = true) : s.interrupt.At clocks L W t pc := by
  have hon : s.interrupts = true := (Bool.and_eq_true_iff.mp hpend).1
  have hany : (s.timerIrq || s.scratchIrq) = true := (Bool.and_eq_true_iff.mp hpend).2
  have hoff : ¬s.interrupts = false := by rw [hon]; exact Bool.noConfusion
  rw [Calibration.interrupt]
  split
  · exact h.scratchIrq _ _
  · rename_i hscratch
    rw [Bool.eq_false_of_not_eq_true hscratch, Bool.or_false] at hany
    have hnone : ¬s.timerIrq = false := by rw [hany]; exact Bool.noConfusion
    cases pc with
    | command | low | high => exact absurd h.2.1 hoff
    | scratch | divide | enable => exact absurd h.2.2.2.1 hoff
    | saved =>
      change s.now ≤ s.last + L at hp
      obtain ⟨htick, -, hedge, hlast, hrest⟩ := h
      have hbound : s.now ≤ s.edge + 4 * L := by
        have hserved := hlast hany
        omega
      exact ⟨htick, hbound, hedge, fun hi => Bool.noConfusion hi, hrest⟩
    | first saved =>
      obtain ⟨htick, hint, hlvt, hdiv, E, ha, hE⟩ := h
      exact ⟨htick, hint, hlvt, hdiv, E, ha.interrupt hany hp, hE⟩
    | second curr =>
      obtain ⟨htick, hint, hlvt, hdiv, hinit, E, ha, hE⟩ := h
      exact ⟨htick, hint, hlvt, hdiv, hinit, E, ha.interrupt hany hp, hE⟩
    | start => exact absurd h.2.2.2.2.1 hnone
    | stop | measure | disable => exact absurd h.1.2.1 hnone
    | store | mask | periodic | reload | divideAgain => exact absurd h.1.1 hoff
    | done => exact absurd h.1 hoff

theorem Calibration.Awaits.wraps {v : UInt64} {E : Nat} (ha : s.Awaits clocks L v E)
    (hirq : s.timerIrq = false) :
    (s.timer - v < 1 ∧ s.timer = v ∧ s.edge = E) ∨
      (1 ≤ s.timer - v ∧ s.edge = E + clocks.period ∧ s.last ≤ s.edge + L) := by
  rcases ha with ⟨ht, -, he⟩ | ⟨he, ⟨-, hi, -⟩ | ⟨ht, -, hl⟩⟩
  · refine .inl ⟨?_, ht, he⟩
    rw [ht, UInt64.sub_self]
    decide
  · rw [hi] at hirq
    cases hirq
  · refine .inr ⟨?_, he, hl⟩
    rw [ht, UInt64.add_comm, UInt64.add_sub_cancel]
    decide

theorem measured_toNat (x : Nat) :
    ((0xFFFFFFFF : UInt32) - .ofNat ((0xFFFFFFFF : UInt32).toNat - x)).toNat =
      min (2 ^ 32 - 1) x := by
  have hmax : (0xFFFFFFFF : UInt32).toNat = 2 ^ 32 - 1 := rfl
  have hcount : (UInt32.ofNat ((0xFFFFFFFF : UInt32).toNat - x)).toNat = 2 ^ 32 - 1 - x := by
    rw [hmax, UInt32.toNat_ofNat_of_lt']
    show 2 ^ 32 - 1 - x < 2 ^ 32
    omega
  rw [UInt32.toNat_sub_of_le, hcount, hmax]
  · omega
  · rw [UInt32.le_iff_toNat_le, hcount, hmax]
    omega

theorem Calibration.At.measures (h : s.At clocks L W t .measure) (hp : s.now ≤ s.last + L) :
    clocks.Measures L (0xFFFFFFFF - s.currentCount clocks) := by
  obtain ⟨⟨⟨-, hedge, -⟩, -, hlast, -⟩, -, hdiv, hinit, hfrom, hto⟩ := h
  rw [TimerClocks.Measures, Calibration.currentCount, hinit, hdiv, measured_toNat]
  -- the count began at most three delays after an edge and is read at most four after the next
  show min _ ((s.now - s.started) / clocks.apicTick) * clocks.apicTick ≤ _ ∧
    (_ < (min _ ((s.now - s.started) / clocks.apicTick) + 1) * clocks.apicTick + 3 * L ∨ _)
  have hfloor := Nat.div_mul_le_self (s.now - s.started) clocks.apicTick
  have hceil := Nat.lt_mul_div_succ (s.now - s.started) clocks.apicTick_pos
  constructor
  · have hmin := Nat.mul_le_mul_right clocks.apicTick
      (Nat.min_le_right (2 ^ 32 - 1) ((s.now - s.started) / clocks.apicTick))
    omega
  · rcases Nat.le_total (2 ^ 32 - 1) ((s.now - s.started) / clocks.apicTick) with hx | hx
    · exact .inr (Nat.min_eq_left hx)
    · rw [Nat.min_eq_right hx, Nat.mul_comm]
      left
      omega

theorem Calibration.timerIrq_of_pending (hpend : s.pending = false) (hon : s.interrupts = true) :
    s.timerIrq = false := by
  rw [Calibration.pending, hon, Bool.true_and, Bool.or_eq_false_iff] at hpend
  exact hpend.1

theorem Calibration.At.step (h : s.At clocks L W t s.pc) (hp : s.now ≤ s.last + s.pc.patience L W)
    (hpend : s.pending = false) :
    ({ s.access clocks s.pc with last := s.now } : Calibration).At clocks L W t
      (s.access clocks s.pc).pc := by
  cases hpc : s.pc with
  | command =>
    rw [hpc] at h hp
    change s.now ≤ s.last + L at hp
    obtain ⟨hlast, hoff, hentry, hlvt⟩ := h
    exact ⟨show s.now ≤ t + L by omega, hoff, hentry, hlvt, rfl⟩
  | low =>
    rw [hpc] at h hp
    change s.now ≤ s.last + L at hp
    obtain ⟨hlast, hoff, hentry, hlvt, hpit⟩ := h
    refine ⟨show s.now ≤ t + 2 * L by omega, hoff, hentry, hlvt, ?_⟩
    show s.pit.data s.now pitDivider.toUInt8 = _
    rw [hpit]
    rfl
  | high =>
    rw [hpc] at h hp
    change s.now ≤ s.last + L at hp
    obtain ⟨hlast, hoff, hentry, hlvt, hpit⟩ := h
    have hrun : (s.pit.data s.now (pitDivider >>> 8).toUInt8).run =
        some (s.now, pitDivider.toNat) := by
      rw [hpit]
      rfl
    have hpos := clocks.period_pos
    exact ⟨⟨⟨s.now, 0, hrun, show s.now = s.now + 0 * clocks.period by omega⟩, le_rfl,
      show s.now < s.now + clocks.period by omega, hentry⟩, le_rfl,
      show s.now ≤ t + 3 * L by omega, hoff, hlvt⟩
  | scratch =>
    rw [hpc] at h hp
    change s.now ≤ s.last + L at hp
    obtain ⟨htick, hlast, hedge, hoff, hlvt⟩ := h
    exact ⟨htick, show s.now ≤ s.edge + L by omega, hedge, hoff, rfl⟩
  | divide =>
    rw [hpc] at h hp
    change s.now ≤ s.last + L at hp
    obtain ⟨htick, hlast, hedge, hoff, hlvt⟩ := h
    exact ⟨htick, show s.now ≤ s.edge + 2 * L by omega, hedge, hoff, hlvt, rfl⟩
  | enable =>
    rw [hpc] at h hp
    change s.now ≤ s.last + L at hp
    obtain ⟨htick, hlast, hedge, hoff, hlvt, hdiv⟩ := h
    have hbound : s.now ≤ s.edge + 3 * L := by omega
    exact ⟨htick, show s.now ≤ s.edge + 4 * L by omega, hedge, fun _ => hbound, rfl, hlvt, hdiv⟩
  | saved =>
    rw [hpc] at h
    obtain ⟨htick, -, hedge, -, hon, hlvt, hdiv⟩ := h
    exact ⟨htick, hon, hlvt, hdiv, s.edge, .inl ⟨rfl, s.timerIrq_of_pending hpend hon, rfl⟩, hedge⟩
  | first saved =>
    rw [hpc] at h hp
    change s.now ≤ s.last + L at hp
    obtain ⟨htick, hon, hlvt, hdiv, E, ha, hE⟩ := h
    have hirq := s.timerIrq_of_pending hpend hon
    rcases ha.wraps hirq with ⟨hlt, htimer, he⟩ | ⟨hge, he, hlast⟩
    · rw [Calibration.access, if_neg (UInt64.not_le.mpr hlt), hpc]
      exact ⟨htick, hon, hlvt, hdiv, E, .inl ⟨htimer, hirq, he⟩, hE⟩
    · rw [Calibration.access, if_pos hge]
      exact ⟨htick, hon, hlvt, hdiv, hirq, rfl, show s.now ≤ s.edge + 2 * L by omega,
        show s.edge ≤ t + 3 * L + clocks.period by omega⟩
  | start curr =>
    rw [hpc] at h hp
    change s.now ≤ s.last + L at hp
    obtain ⟨htick, hon, hlvt, hdiv, hirq, htimer, hlast, hedge⟩ := h
    exact ⟨htick, hon, hlvt, hdiv, rfl, s.edge, .inl ⟨htimer, hirq, rfl⟩, hedge, htick.2.1,
      show s.now ≤ s.edge + 3 * L by omega⟩
  | second curr =>
    rw [hpc] at h hp
    change s.now ≤ s.last + L at hp
    obtain ⟨htick, hon, hlvt, hdiv, hinit, E, ha, hE, hfrom, hto⟩ := h
    have hirq := s.timerIrq_of_pending hpend hon
    rcases ha.wraps hirq with ⟨hlt, htimer, he⟩ | ⟨hge, he, hlast⟩
    · rw [Calibration.access, if_pos hlt, hpc]
      exact ⟨htick, hon, hlvt, hdiv, hinit, E, .inl ⟨htimer, hirq, he⟩, hE, hfrom, hto⟩
    · rw [Calibration.access, if_neg (UInt64.not_lt.mpr hge)]
      exact ⟨⟨htick, hirq, show s.now ≤ s.edge + 2 * L by omega,
        show s.edge ≤ t + 3 * L + 2 * clocks.period by omega⟩, hlvt, hdiv, hinit,
        show s.edge ≤ s.started + clocks.period by omega,
        show s.started + clocks.period ≤ s.edge + 3 * L by omega⟩
  | stop =>
    rw [hpc] at h hp
    change s.now ≤ s.last + L at hp
    obtain ⟨⟨htick, hirq, hlast, hedge⟩, hlvt, hrest⟩ := h
    exact ⟨⟨htick, hirq, show s.now ≤ s.edge + 3 * L by omega, hedge⟩, rfl, hrest⟩
  | measure =>
    rw [hpc] at h hp
    change s.now ≤ s.last + L at hp
    have hmeasures := h.measures hp
    obtain ⟨⟨htick, hirq, hlast, hedge⟩, hlvt, -⟩ := h
    exact ⟨⟨htick, hirq, show s.now ≤ s.edge + 4 * L by omega, hedge⟩, hlvt, hmeasures⟩
  | disable ticks =>
    rw [hpc] at h hp
    change s.now ≤ s.last + L at hp
    obtain ⟨⟨htick, hirq, hlast, hedge⟩, hlvt, hmeasures⟩ := h
    exact ⟨⟨rfl, hmeasures, show s.now ≤ t + 2 * clocks.period + 8 * L by omega⟩, hlvt,
      htick.2.2.2⟩
  | store ticks =>
    rw [hpc] at h hp
    change s.now ≤ s.last + (L + W) at hp
    obtain ⟨⟨hoff, hmeasures, hlast⟩, hlvt, hentry⟩ := h
    exact ⟨⟨hoff, hmeasures, show s.now ≤ t + 2 * clocks.period + 9 * L + W by omega⟩, hlvt, hentry,
      rfl⟩
  | mask ticks =>
    rw [hpc] at h hp
    change s.now ≤ s.last + L at hp
    obtain ⟨⟨hoff, hmeasures, hlast⟩, hlvt, -, hticks⟩ := h
    exact ⟨⟨hoff, hmeasures, show s.now ≤ t + 2 * clocks.period + 10 * L + W by omega⟩, hlvt, rfl,
      hticks⟩
  | periodic ticks =>
    rw [hpc] at h hp
    change s.now ≤ s.last + L at hp
    obtain ⟨⟨hoff, hmeasures, hlast⟩, -, hentry, hticks⟩ := h
    exact ⟨⟨hoff, hmeasures, show s.now ≤ t + 2 * clocks.period + 11 * L + W by omega⟩, rfl, hentry,
      hticks⟩
  | reload ticks =>
    rw [hpc] at h hp
    change s.now ≤ s.last + L at hp
    obtain ⟨⟨hoff, hmeasures, hlast⟩, hlvt, hentry, hticks⟩ := h
    exact ⟨⟨hoff, hmeasures, show s.now ≤ t + 2 * clocks.period + 12 * L + W by omega⟩, hlvt, hentry,
      hticks⟩
  | divideAgain =>
    rw [hpc] at h hp
    change s.now ≤ s.last + L at hp
    obtain ⟨⟨hoff, hmeasures, -⟩, hlvt, hentry, hticks⟩ := h
    exact ⟨hoff, hmeasures, hlvt, hentry, hticks, rfl⟩
  | done =>
    rw [hpc] at h
    show ({ s with last := s.now } : Calibration).At clocks L W t s.pc
    rw [hpc]
    exact h

structure Calibration.Sound (s : Calibration) (clocks : TimerClocks) (L W t : Nat) : Prop where
  le : s.last ≤ s.now
  prompt : s.now ≤ s.last + s.pc.patience L W
  place : s.At clocks L W t s.pc

theorem Calibration.Start.sound (h : s.Start) : s.Sound clocks L W s.now where
  le := h.last.le
  prompt := by
    rw [h.last]
    exact Nat.le_add_right _ _
  place := by
    rw [h.pc]
    exact ⟨h.last.le, h.interrupts, h.entry, h.lvt⟩

theorem Calibration.Sound.next {a : CalibrateAct} (h : s.Sound clocks L W t)
    (hL : 5 * L < clocks.period) (he : s.Enabled a) (hp : s.Prompt L W a) :
    (s.next clocks a).Sound clocks L W t := by
  have hle := h.le
  cases a with
  | tick =>
    have hplace := h.place.tick hle hp hL
    obtain ⟨e, b, c, heq⟩ := s.tick_eq clocks
    show (s.tick clocks).Sound clocks L W t
    rw [heq] at hplace ⊢
    exact ⟨show s.last ≤ s.now + 1 by omega, hp, hplace⟩
  | expire =>
    have hplace := h.place.expire
    obtain ⟨b, c, heq⟩ := s.raise_eq s.lvt
    show (s.raise s.lvt).Sound clocks L W t
    rw [heq] at hplace ⊢
    exact ⟨hle, h.prompt, hplace⟩
  | interrupt =>
    have hplace := h.place.interrupt h.prompt he
    show s.interrupt.Sound clocks L W t
    rw [Calibration.interrupt] at hplace ⊢
    split at hplace
    · rename_i hscratch
      rw [if_pos hscratch]
      exact ⟨hle, h.prompt, hplace⟩
    · rename_i hscratch
      rw [if_neg hscratch]
      exact ⟨le_rfl, Nat.le_add_right _ _, hplace⟩
  | step =>
    have hnow : (s.access clocks s.pc).now = s.now := by
      cases hpc : s.pc with
      | first | second =>
        rw [Calibration.access]
        split <;> rfl
      | _ => rfl
    exact ⟨show s.now ≤ (s.access clocks s.pc).now from hnow.ge,
      show (s.access clocks s.pc).now ≤ s.now + _ from hnow.trans_le (Nat.le_add_right _ _),
      h.place.step h.prompt he.2⟩

theorem Calibration.Sound.now_le (h : s.Sound clocks L W t) (hpc : s.pc ≠ .done)
    (hL : 5 * L < clocks.period) : s.now ≤ t + 2 * clocks.period + 13 * L + W := by
  have hp := h.prompt
  have hplace := h.place
  cases hp' : s.pc with
  | command | low | high =>
    rw [hp'] at hplace hp
    change s.now ≤ s.last + L at hp
    have hlast := hplace.1
    omega
  | scratch | divide | enable | saved =>
    rw [hp'] at hplace hp
    change s.now ≤ s.last + L at hp
    obtain ⟨-, hlast, hedge, -⟩ := hplace
    omega
  | first saved =>
    rw [hp'] at hplace hp
    change s.now ≤ s.last + L at hp
    obtain ⟨⟨-, -, hlt, -⟩, -, -, -, E, ha, hE⟩ := hplace
    rcases ha with ⟨-, -, he⟩ | ⟨he, -⟩ <;> omega
  | start curr =>
    rw [hp'] at hplace hp
    change s.now ≤ s.last + L at hp
    obtain ⟨⟨-, -, hlt, -⟩, -, -, -, -, -, -, hedge⟩ := hplace
    omega
  | second curr =>
    rw [hp'] at hplace hp
    change s.now ≤ s.last + L at hp
    obtain ⟨⟨-, -, hlt, -⟩, -, -, -, -, E, ha, hE, -⟩ := hplace
    rcases ha with ⟨-, -, he⟩ | ⟨he, ⟨-, -, hlast⟩ | ⟨-, -, hlast⟩⟩ <;> omega
  | stop | measure | disable =>
    rw [hp'] at hplace hp
    change s.now ≤ s.last + L at hp
    obtain ⟨⟨-, -, hlast, hedge⟩, -⟩ := hplace
    omega
  | store ticks =>
    rw [hp'] at hplace hp
    change s.now ≤ s.last + (L + W) at hp
    have hlast := hplace.1.2.2
    omega
  | mask | periodic | reload | divideAgain =>
    rw [hp'] at hplace hp
    change s.now ≤ s.last + L at hp
    have hlast := hplace.1.2.2
    omega
  | done => exact absurd hp' hpc

/-- How many accesses are left, not counting the turns of the loops. -/
def CalibratePc.stage : CalibratePc → Nat
  | .command => 18
  | .low => 17
  | .high => 16
  | .scratch => 15
  | .divide => 14
  | .enable => 13
  | .saved => 12
  | .first _ => 11
  | .start _ => 10
  | .second _ => 9
  | .stop => 8
  | .measure => 7
  | .disable _ => 6
  | .store _ => 5
  | .mask _ => 4
  | .periodic _ => 3
  | .reload _ => 2
  | .divideAgain => 1
  | .done => 0

theorem Calibration.stage_access (s : Calibration) (clocks : TimerClocks) (hpc : s.pc ≠ .done) :
    (s.access clocks s.pc).pc.stage < s.pc.stage ∨ s.access clocks s.pc = s := by
  cases hp : s.pc with
  | first saved =>
    rw [Calibration.access]
    split
    · exact .inl (Nat.lt_succ_self 10)
    · exact .inr rfl
  | second curr =>
    rw [Calibration.access]
    split
    · exact .inr rfl
    · exact .inl (Nat.lt_succ_self 8)
  | done => exact absurd hp hpc
  | _ => exact .inl (Nat.lt_succ_self _)

theorem CalibratePc.patience_pos (hpos : 0 < L) : 0 < pc.patience L W := by
  cases pc with
  | store => exact Nat.add_pos_left hpos W
  | _ => exact hpos

/-- The requests to serve, and whether the routine is at the end of its time. -/
def Calibration.due (s : Calibration) (L W : Nat) : Nat :=
  s.timerIrq.toNat + s.scratchIrq.toNat + if s.now < s.last + s.pc.patience L W then 0 else 1

/-- The accesses left, then the time left, then what is due at once. -/
def Calibration.left (s : Calibration) (clocks : TimerClocks) (L W t : Nat) : Nat × Nat × Nat :=
  (s.pc.stage, t + 2 * clocks.period + 13 * L + W - s.now, s.due L W)

theorem Calibration.due_interrupt (hpos : 0 < L) (hpend : s.pending = true) :
    s.interrupt.due L W < s.due L W := by
  have hany : (s.timerIrq || s.scratchIrq) = true := (Bool.and_eq_true_iff.mp hpend).2
  rw [Calibration.interrupt]
  split
  · rename_i hscratch
    simp only [Calibration.due, hscratch, Bool.toNat_true, Bool.toNat_false]
    omega
  · rename_i hscratch
    rw [Bool.eq_false_of_not_eq_true hscratch, Bool.or_false] at hany
    simp only [Calibration.due, hany, Bool.toNat_true, Bool.toNat_false]
    rw [if_pos (Nat.lt_add_of_pos_right (CalibratePc.patience_pos hpos))]
    omega

/-- From every place the routine can go on: it serves what is due, takes its next access, or
lets time pass in a loop. -/
theorem Calibration.Sound.goes_on (h : s.Sound clocks L W t) (hpos : 0 < L)
    (hL : 5 * L < clocks.period) (hpc : s.pc ≠ .done) :
    ∃ a, s.Enabled a ∧ s.Prompt L W a ∧ (s.next clocks a).Sound clocks L W t ∧
      Prod.Lex (· < ·) (Prod.Lex (· < ·) (· < ·)) ((s.next clocks a).left clocks L W t)
        (s.left clocks L W t) := by
  cases hpend : s.pending with
  | true =>
    refine ⟨.interrupt, hpend, trivial, h.next hL hpend trivial, ?_⟩
    have hdue := Calibration.due_interrupt (W := W) hpos hpend
    have hsame : s.interrupt.pc = s.pc ∧ s.interrupt.now = s.now := by
      rw [Calibration.interrupt]
      split <;> exact ⟨rfl, rfl⟩
    show Prod.Lex _ _ (s.interrupt.left clocks L W t) (s.left clocks L W t)
    rw [Calibration.left, Calibration.left, hsame.1, hsame.2]
    exact .right _ (.right _ hdue)
  | false =>
    rcases s.stage_access clocks hpc with hless | hsame
    · exact ⟨.step, ⟨hpc, hpend⟩, trivial, h.next hL ⟨hpc, hpend⟩ trivial, .left _ _ hless⟩
    · by_cases hp : s.now < s.last + s.pc.patience L W
      · have hnext := h.next (a := .tick) hL trivial hp
        refine ⟨.tick, trivial, hp, hnext, ?_⟩
        obtain ⟨e, b, c, heq⟩ := s.tick_eq clocks
        change (s.tick clocks).Sound clocks L W t at hnext
        show Prod.Lex _ _ ((s.tick clocks).left clocks L W t) (s.left clocks L W t)
        rw [heq] at hnext ⊢
        have hnow : s.now + 1 ≤ _ := hnext.now_le hpc hL
        refine .right _ (.left _ _ ?_)
        show t + 2 * clocks.period + 13 * L + W - (s.now + 1) <
          t + 2 * clocks.period + 13 * L + W - s.now
        omega
      -- at the end of its time the loop reads once more, and time can pass again
      · refine ⟨.step, ⟨hpc, hpend⟩, trivial, h.next hL ⟨hpc, hpend⟩ trivial, ?_⟩
        show Prod.Lex _ _
          (({ s.access clocks s.pc with last := s.now } : Calibration).left clocks L W t) _
        rw [hsame]
        refine .right _ (.right _ ?_)
        simp only [Calibration.due, if_neg hp]
        rw [if_pos (Nat.lt_add_of_pos_right (CalibratePc.patience_pos hpos))]
        omega

theorem Calibration.Sound.returns (h : s.Sound clocks L W t) (hpos : 0 < L)
    (hL : 5 * L < clocks.period) :
    ∃ s', (calibration clocks).Reaches (Calibration.Prompt L W) s s' ∧ s'.pc = .done :=
  System.exists_reaches (m := fun s => s.left clocks L W t) (I := fun s => s.Sound clocks L W t)
    (WellFounded.prod_lex Nat.lt_wfRel.wf (WellFounded.prod_lex Nat.lt_wfRel.wf Nat.lt_wfRel.wf))
    h fun _ hs hpc => hs.goes_on hpos hL hpc

def raisesTimer (register : UInt32) : Prop :=
  register &&& apicMasked = 0 ∧ register &&& 0xFF = timerVector

theorem Calibration.At.oneSource (h : s.At clocks L W t pc) :
    ¬(raisesTimer s.entry ∧ raisesTimer s.lvt) := by
  rintro ⟨hentry, hlvt⟩
  rcases h.registers with hr | hr | ⟨hr, -⟩
  · rw [hr] at hlvt
    exact absurd hlvt.1 (by decide)
  · rw [hr] at hlvt
    exact absurd hlvt.2 (by decide)
  · rw [hr] at hentry
    exact absurd hentry.1 (by decide)

structure Calibration.Calibrated (s : Calibration) (clocks : TimerClocks) (L : Nat) : Prop where
  measures : clocks.Measures L s.ticksIn10ms
  reload : s.initCount = s.ticksIn10ms
  periodic : s.lvt = timerVector ||| apicTimerPeriodic
  divider : s.div = 3
  pitMasked : s.entry = apicMasked
  interruptsOff : s.interrupts = false

theorem Calibration.Sound.calibrated (h : s.Sound clocks L W t) (hpc : s.pc = .done) :
    s.Calibrated clocks L := by
  have hplace := h.place
  rw [hpc] at hplace
  obtain ⟨hoff, hmeasures, hlvt, hentry, hticks, hdiv⟩ := hplace
  refine ⟨?_, hticks.symm, hlvt, hdiv, hentry, hoff⟩
  rw [hticks]
  exact hmeasures

/-- In every run in which the routine and the timer handler come to their next access in time, only
one device at a time raises the timer interrupt, the routine returns, and the LAPIC timer then
has the period of the PIT up to the delays of a few accesses and one tick. -/
theorem calibrate_accurate {s₀ : Calibration} (h₀ : s₀.Start) (hpos : 0 < L)
    (hL : 5 * L < clocks.period)
    (h : (calibration clocks).Reaches (Calibration.Prompt L W) s₀ s) :
    ¬(raisesTimer s.entry ∧ raisesTimer s.lvt) ∧
      (s.pc ≠ .done → s.now ≤ s₀.now + 2 * clocks.period + 13 * L + W ∧
        ∃ s', (calibration clocks).Reaches (Calibration.Prompt L W) s s' ∧ s'.pc = .done) ∧
      (s.pc = .done → s.Calibrated clocks L) := by
  have hsound : s.Sound clocks L W s₀.now := by
    refine h.invariant (I := fun s => s.Sound clocks L W s₀.now) h₀.sound ?_
    intro s a hs he hp
    exact hs.next hL he hp
  exact ⟨hsound.place.oneSource,
    fun hpc => ⟨hsound.now_le hpc hL, hsound.returns hpos hL⟩, hsound.calibrated⟩

/-- A PIT without a reload value, and a request that came while the interrupts were off. -/
def bootedTimers : Calibration where
  now := 0
  last := 0
  edge := 0
  pit := ⟨0, none, none⟩
  entry := timerVector
  lvt := apicMasked
  div := 0
  initCount := 0
  started := 0
  interrupts := false
  timerIrq := true
  scratchIrq := false
  timer := 0
  scratchTimer := 0
  ticksIn10ms := 0
  pc := .command

/-- A bus of 100 MHz. -/
def bootClocks : TimerClocks := ⟨1, 84, by decide, by decide⟩

theorem bootedTimers_start : bootedTimers.Start := ⟨rfl, rfl, rfl, rfl, rfl⟩

theorem calibrate_accurate_booted :
    ∃ s, (calibration bootClocks).Reaches (Calibration.Prompt 1000 300000) bootedTimers s ∧
      s.pc = .done ∧ s.Calibrated bootClocks 1000 := by
  have hL : 5 * 1000 < bootClocks.period := by decide
  obtain ⟨s, hs, hdone⟩ :=
    ((calibrate_accurate (W := 300000) bootedTimers_start (by decide) hL .refl).2.1 (by decide)).2
  exact ⟨s, hs, hdone, (calibrate_accurate bootedTimers_start (by decide) hL hs).2.2 hdone⟩

end Nacl
