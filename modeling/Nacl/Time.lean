import Mathlib.Algebra.Ring.Nat
import Mathlib.Algebra.Order.Ring.Nat
import Mathlib.Tactic.Ring

/-! `udelay`, `mdelay` and `delay`. What the loops read, the LAPIC's current count and
the tick counter of the timer interrupt, is given by the number of the read. -/

namespace Nacl

/-- Where a polling loop is when its fuel is used up, or the read at which it ended. -/
inductive Wait
  | waiting (k : Nat)
  | returned (k : Nat)
deriving DecidableEq

/-- `while first - get_tick() < delay {}` from the `k`th read on. -/
def udelayLoop (getTick : Nat → UInt32) (first delay : UInt64) : Nat → Nat → Wait
  | 0, k => .waiting k
  | fuel + 1, k =>
    if first - (getTick k).toUInt64 < delay then udelayLoop getTick first delay fuel (k + 1)
    else .returned k

def delayTicks (ticksPer10ms : UInt32) (micros : UInt64) : UInt64 :=
  ticksPer10ms.toUInt64 * micros / 10000

def udelay (ticksPer10ms : UInt32) (micros : UInt64) (getTick : Nat → UInt32) (fuel : Nat) : Wait :=
  udelayLoop getTick (getTick 0).toUInt64 (delayTicks ticksPer10ms micros) fuel 1

/-- `while get_irq_cnt() - curr < Wrapping(1) { hlt(); }` from the `k`th read on. -/
def tickLoop (getIrqCnt : Nat → UInt64) (curr : UInt64) : Nat → Nat → Option Nat
  | 0, _ => none
  | fuel + 1, k =>
    if getIrqCnt k - curr < 1 then tickLoop getIrqCnt curr fuel (k + 1) else some k

/-- The loop of `mdelay` from the `k`th read on, and the number of reads it made. -/
def mdelayLoop (getIrqCnt : Nat → UInt64) : Nat → Nat → Nat → Option Nat
  | 0, _, _ => none
  | fuel + 1, millis, k =>
    if 10 ≤ millis then
      (tickLoop getIrqCnt (getIrqCnt k) fuel (k + 1)).bind fun j =>
        mdelayLoop getIrqCnt fuel (millis - 10) (j + 1)
    else some k

def mdelay (millis : Nat) (getIrqCnt : Nat → UInt64) (fuel : Nat) : Option Nat :=
  mdelayLoop getIrqCnt fuel millis 0

structure Duration where
  secs : UInt64
  nanos : UInt32
  nanos_lt : nanos.toNat < 1000000000

def Duration.asMicros (d : Duration) : Nat := d.secs.toNat * 1000000 + d.nanos.toNat / 1000

def Duration.asMillis (d : Duration) : Nat := d.secs.toNat * 1000 + d.nanos.toNat / 1000000

inductive Delayed
  | micros (w : Wait)
  | millis (reads : Option Nat)
  | tooLong
deriving DecidableEq

def delay (ticksPer10ms : UInt32) (getTick : Nat → UInt32) (getIrqCnt : Nat → UInt64) (fuel : Nat)
    (d : Duration) : Delayed :=
  if d.asMicros < 1000 then .micros (udelay ticksPer10ms (.ofNat d.asMicros) getTick fuel)
  else if d.asMillis < 2 ^ 64 then .millis (mdelay d.asMillis getIrqCnt fuel)
  else .tooLong

/-- The LAPIC timer in periodic mode. `showsZero` says whether the count rests at zero
for a tick before it is reloaded. -/
structure LapicTimer where
  initial : UInt32
  pos : 0 < initial.toNat
  showsZero : Bool

def LapicTimer.period (T : LapicTimer) : Nat := T.initial.toNat + T.showsZero.toNat

def LapicTimer.currentCount (T : LapicTimer) (phase t : Nat) : UInt32 :=
  .ofNat (T.initial.toNat - (phase + t) % T.period)

/-- The instants of the samples of `udelay`, in timer ticks. -/
structure Sampling (period : Nat) where
  instant : Nat → Nat
  mono : Monotone instant
  gap : ∀ k, instant (k + 1) - instant k < period

def Sampling.elapsed {period : Nat} (σ : Sampling period) (k : Nat) : Nat :=
  σ.instant k - σ.instant 0

section Udelay

variable (T : LapicTimer) (micros : UInt64) (phase : Nat) (σ : Sampling T.period)

def LapicTimer.askedTicks : Nat := T.initial.toNat * micros.toNat / 10000

def LapicTimer.sample (k : Nat) : UInt32 := T.currentCount phase (σ.instant k)

/-- `udelay` returns only at a sample taken late enough, and no subtraction underflows. -/
structure LapicTimer.WaitsLongEnough : Prop where
  late : ∀ fuel k, udelay T.initial micros (T.sample phase σ) fuel = .returned k →
    T.askedTicks micros ≤ σ.elapsed k
  noUnderflow : ∀ fuel k, udelay T.initial micros (T.sample phase σ) fuel = .waiting k →
    (T.sample phase σ k).toNat ≤ (T.sample phase σ 0).toNat

/-- Counting time from the first sample modulo the timer's period, every sample up to the
first that comes at least the asked ticks later is taken before the counter's reload. -/
def LapicTimer.BeforeReload : Prop :=
  ∀ k, 1 ≤ k →
    (∀ j, 1 ≤ j → j < k → σ.elapsed j % T.period < T.askedTicks micros) →
    σ.elapsed k % T.period < T.period - (phase + σ.instant 0) % T.period

end Udelay

/-- Timer interrupts every 10 ms, in a unit of which there are `unit` to a millisecond.
The first one after the call, at instant 0, comes at `first`. -/
structure IrqClock where
  unit : Nat
  first : Nat
  unit_pos : 0 < unit
  first_pos : 0 < first
  first_le : first ≤ 10 * unit

def IrqClock.interrupts (I : IrqClock) (t : Nat) : Nat := (t + (10 * I.unit - I.first)) / (10 * I.unit)

def IrqClock.irqCnt (I : IrqClock) (start : UInt64) (t : Nat) : UInt64 :=
  start + .ofNat (I.interrupts t)

/-- The instant of the last of `n` reads; with none, that of the call. -/
def lastRead (reads : Nat → Nat) : Nat → Nat
  | 0 => 0
  | n + 1 => reads n

/-- `delay` returns no earlier than the whole milliseconds of the duration after its call,
whatever the counter's value at the call and whenever the loop reads it. -/
def IrqClock.DelaysLongEnough (I : IrqClock) (d : Duration) : Prop :=
  ∀ (start : UInt64) (reads : Nat → Nat), Monotone reads → ∀ ticksPer10ms getTick fuel n,
    delay ticksPer10ms getTick (fun k => I.irqCnt start (reads k)) fuel d = .millis (some n) →
    d.asMillis * I.unit ≤ lastRead reads n

theorem udelayLoop_waiting {getTick : Nat → UInt32} {first delay : UInt64} {fuel a k : Nat}
    (h : udelayLoop getTick first delay fuel a = .waiting k) :
    a ≤ k ∧ ∀ j, a ≤ j → j < k → first - (getTick j).toUInt64 < delay := by
  induction fuel generalizing a with
  | zero =>
    have hk : a = k := by simpa [udelayLoop] using h
    exact ⟨hk.le, fun j hj hj' => by omega⟩
  | succ fuel ih =>
    by_cases hs : first - (getTick a).toUInt64 < delay
    · simp only [udelayLoop, hs, if_true] at h
      obtain ⟨hle, hstay⟩ := ih h
      refine ⟨by omega, ?_⟩
      intro j hj hj'
      by_cases hja : j = a
      · rw [hja]
        exact hs
      · exact hstay j (by omega) hj'
    · simp [udelayLoop, hs] at h

theorem udelayLoop_returned {getTick : Nat → UInt32} {first delay : UInt64} {fuel a k : Nat}
    (h : udelayLoop getTick first delay fuel a = .returned k) :
    udelayLoop getTick first delay (k - a) a = .waiting k ∧ a ≤ k ∧
      ¬ first - (getTick k).toUInt64 < delay := by
  induction fuel generalizing a with
  | zero => simp [udelayLoop] at h
  | succ fuel ih =>
    by_cases hs : first - (getTick a).toUInt64 < delay
    · simp only [udelayLoop, hs, if_true] at h
      obtain ⟨hw, hle, hend⟩ := ih h
      have hsucc : k - a = (k - (a + 1)) + 1 := by omega
      refine ⟨?_, by omega, hend⟩
      rw [hsucc]
      simpa only [udelayLoop, hs, if_true] using hw
    · have hk : a = k := by simpa [udelayLoop, hs] using h
      subst hk
      exact ⟨by simp [udelayLoop], Nat.le_refl _, hs⟩

theorem udelayLoop_stays {getTick : Nat → UInt32} {first delay : UInt64} {a : Nat} (n : Nat)
    (h : ∀ j, a ≤ j → j < a + n → first - (getTick j).toUInt64 < delay) :
    udelayLoop getTick first delay n a = .waiting (a + n) := by
  induction n generalizing a with
  | zero => rfl
  | succ n ih =>
    have ha := h a (Nat.le_refl _) (by omega)
    have hh := ih (a := a + 1) (fun j hj hj' => h j (by omega) (by omega))
    simp only [udelayLoop, ha, if_true]
    rw [hh, show a + 1 + n = a + (n + 1) by omega]

section UdelayResults

variable {T : LapicTimer} {micros : UInt64} {phase : Nat} {σ : Sampling T.period}

theorem LapicTimer.period_pos (T : LapicTimer) : 0 < T.period := by
  have hpos := T.pos
  unfold LapicTimer.period
  omega

theorem delayTicks_toNat (hm : micros.toNat ≤ 1000) :
    (delayTicks T.initial micros).toNat = T.askedTicks micros := by
  have hlt : T.initial.toNat < 2 ^ 32 := T.initial.toNat_lt
  have hmul : T.initial.toNat * micros.toNat < 2 ^ 64 := by
    have hle : T.initial.toNat * micros.toNat ≤ 2 ^ 32 * 1000 := Nat.mul_le_mul hlt.le hm
    omega
  have h : (T.initial.toUInt64 * micros).toNat = T.initial.toNat * micros.toNat := by
    rw [UInt64.toNat_mul, UInt32.toNat_toUInt64, Nat.mod_eq_of_lt hmul]
  simp [delayTicks, LapicTimer.askedTicks, UInt64.toNat_div, h]

theorem LapicTimer.sample_toNat (k : Nat) :
    (T.sample phase σ k).toNat = T.initial.toNat - (phase + σ.instant k) % T.period := by
  have hlt : T.initial.toNat < 2 ^ 32 := T.initial.toNat_lt
  have hle : T.initial.toNat - (phase + σ.instant k) % T.period < 2 ^ 32 := by omega
  rw [LapicTimer.sample, LapicTimer.currentCount, UInt32.toNat_ofNat', Nat.mod_eq_of_lt hle]

theorem LapicTimer.phase_sample (k : Nat) :
    (phase + σ.instant k) % T.period =
      ((phase + σ.instant 0) % T.period + σ.elapsed k % T.period) % T.period := by
  have hle : σ.instant 0 ≤ σ.instant k := σ.mono (Nat.zero_le k)
  have he : phase + σ.instant k = (phase + σ.instant 0) + σ.elapsed k := by
    unfold Sampling.elapsed
    omega
  rw [he, Nat.add_mod]

theorem LapicTimer.period_le (T : LapicTimer) : T.period ≤ T.initial.toNat + 1 := by
  have hle := T.showsZero.toNat_le
  unfold LapicTimer.period
  omega

/-- A sample before the reload shows the count lowered by the time that has passed. -/
theorem LapicTimer.sample_before {k : Nat}
    (h : σ.elapsed k % T.period < T.period - (phase + σ.instant 0) % T.period) :
    (T.sample phase σ k).toNat + σ.elapsed k % T.period = (T.sample phase σ 0).toNat := by
  have hle := T.period_le
  have hmod : ((phase + σ.instant 0) % T.period + σ.elapsed k % T.period) % T.period =
      (phase + σ.instant 0) % T.period + σ.elapsed k % T.period := Nat.mod_eq_of_lt (by omega)
  rw [LapicTimer.sample_toNat, LapicTimer.sample_toNat, LapicTimer.phase_sample, hmod]
  omega

theorem LapicTimer.sample_after {k : Nat}
    (h : ¬ σ.elapsed k % T.period < T.period - (phase + σ.instant 0) % T.period) :
    (T.sample phase σ 0).toNat < (T.sample phase σ k).toNat := by
  have hle := T.period_le
  have hph : (phase + σ.instant 0) % T.period < T.period := Nat.mod_lt _ T.period_pos
  have hel : σ.elapsed k % T.period < T.period := Nat.mod_lt _ T.period_pos
  have hmod : ((phase + σ.instant 0) % T.period + σ.elapsed k % T.period) % T.period =
      (phase + σ.instant 0) % T.period + σ.elapsed k % T.period - T.period := by
    rw [Nat.mod_eq_sub_mod (by omega)]
    exact Nat.mod_eq_of_lt (by omega)
  rw [LapicTimer.sample_toNat, LapicTimer.sample_toNat, LapicTimer.phase_sample (k := k), hmod]
  omega

theorem LapicTimer.stays_iff (hm : micros.toNat ≤ 1000) {k : Nat}
    (h : σ.elapsed k % T.period < T.period - (phase + σ.instant 0) % T.period) :
    (T.sample phase σ 0).toUInt64 - (T.sample phase σ k).toUInt64 < delayTicks T.initial micros ↔
      σ.elapsed k % T.period < T.askedTicks micros := by
  have hs := LapicTimer.sample_before h
  have hle : (T.sample phase σ k).toUInt64 ≤ (T.sample phase σ 0).toUInt64 := by
    rw [UInt64.le_iff_toNat_le, UInt32.toNat_toUInt64, UInt32.toNat_toUInt64]
    omega
  rw [UInt64.lt_iff_toNat_lt, UInt64.toNat_sub_of_le _ _ hle, delayTicks_toNat hm,
    UInt32.toNat_toUInt64, UInt32.toNat_toUInt64]
  have hsub : (T.sample phase σ 0).toNat - (T.sample phase σ k).toNat = σ.elapsed k % T.period := by
    omega
  rw [hsub]

/-- Along the loop, as long as every sample is before the reload, the time passed is below
the asked one. -/
theorem LapicTimer.BeforeReload.elapsed_lt (h : T.BeforeReload micros phase σ)
    (hm : micros.toNat ≤ 1000) {k : Nat}
    (hstay : ∀ j, 1 ≤ j → j < k → (T.sample phase σ 0).toUInt64 - (T.sample phase σ j).toUInt64 <
      delayTicks T.initial micros) (j : Nat) (hj : 1 ≤ j) (hjk : j < k) :
    σ.elapsed j % T.period < T.askedTicks micros := by
  induction j using Nat.strong_induction_on with
  | _ j ih =>
    have hbefore := h j hj (fun i hi hij => ih i hij hi (by omega))
    exact (LapicTimer.stays_iff hm hbefore).mp (hstay j hj hjk)

theorem udelay_long_enough_iff (hm : micros.toNat ≤ 1000) :
    T.WaitsLongEnough micros phase σ ↔ T.BeforeReload micros phase σ := by
  constructor
  · intro h k hk hlt
    have hall : ∀ j, 1 ≤ j → j ≤ k →
        σ.elapsed j % T.period < T.period - (phase + σ.instant 0) % T.period := by
      intro j
      induction j using Nat.strong_induction_on with
      | _ j ih =>
        intro hj hjk
        by_contra hafter
        have hrun : udelay T.initial micros (T.sample phase σ) (j - 1) = .waiting j := by
          have hloop : udelayLoop (T.sample phase σ) (T.sample phase σ 0).toUInt64
              (delayTicks T.initial micros) (j - 1) 1 = .waiting (1 + (j - 1)) :=
            udelayLoop_stays (j - 1) (fun i hi hij =>
              (LapicTimer.stays_iff hm (ih i (by omega) hi (by omega))).mpr (hlt i hi (by omega)))
          rw [show 1 + (j - 1) = j by omega] at hloop
          exact hloop
        have hle := h.noUnderflow (j - 1) j hrun
        have hgt := LapicTimer.sample_after hafter
        omega
    exact hall k hk (Nat.le_refl k)
  · intro h
    have hnext : ∀ fuel k, udelay T.initial micros (T.sample phase σ) fuel = .waiting k →
        σ.elapsed k % T.period < T.period - (phase + σ.instant 0) % T.period := by
      intro fuel k hw
      obtain ⟨hk, hstay⟩ := udelayLoop_waiting hw
      exact h k hk (h.elapsed_lt hm hstay)
    constructor
    · intro fuel k hr
      obtain ⟨hw, -, hend⟩ := udelayLoop_returned hr
      have hbefore := hnext _ k hw
      rw [LapicTimer.stays_iff hm hbefore] at hend
      have hle := Nat.mod_le (σ.elapsed k) T.period
      omega
    · intro fuel k hw
      have hs := LapicTimer.sample_before (hnext fuel k hw)
      omega

theorem monotone_mul_step (step : Nat) : Monotone (fun k => k * step) :=
  fun _ _ h => Nat.mul_le_mul_right step h

theorem mul_step_gap {step period : Nat} (h : step < period) (k : Nat) :
    (k + 1) * step - k * step < period := by
  rw [Nat.succ_mul, Nat.add_sub_cancel_left]
  exact h

def Sampling.every (period step : Nat) (h : step < period) : Sampling period :=
  ⟨fun k => k * step, monotone_mul_step step, mul_step_gap h⟩

theorem udelay_long_enough_iff_every :
    (⟨100, by decide, false⟩ : LapicTimer).WaitsLongEnough 1000 0 (Sampling.every _ 2 (by decide)) ↔
      (⟨100, by decide, false⟩ : LapicTimer).BeforeReload 1000 0 (Sampling.every _ 2 (by decide)) :=
  udelay_long_enough_iff (by decide)

theorem udelay_returns_across_reload :
    ∃ (T : LapicTimer) (micros : UInt64) (phase : Nat) (σ : Sampling T.period),
      micros.toNat ≤ 1000 ∧ ¬ T.WaitsLongEnough micros phase σ := by
  refine ⟨⟨100, by decide, false⟩, 1000, 99, Sampling.every _ 2 (by decide), by decide, ?_⟩
  intro h
  have hlate := h.late 1 1 (by decide)
  revert hlate
  decide

end UdelayResults

section MdelayResults

variable {I : IrqClock} {reads : Nat → Nat} {start : UInt64}

theorem tickLoop_some {getIrqCnt : Nat → UInt64} {curr : UInt64} {fuel a k : Nat}
    (h : tickLoop getIrqCnt curr fuel a = some k) : a ≤ k ∧ getIrqCnt k ≠ curr := by
  induction fuel generalizing a with
  | zero => simp [tickLoop] at h
  | succ fuel ih =>
    by_cases hs : getIrqCnt a - curr < 1
    · simp only [tickLoop, hs, if_true] at h
      obtain ⟨hle, hne⟩ := ih h
      exact ⟨by omega, hne⟩
    · have hk : a = k := by simpa [tickLoop, hs] using h
      subst hk
      refine ⟨Nat.le_refl _, ?_⟩
      intro he
      apply hs
      rw [he, UInt64.sub_self]
      decide

theorem IrqClock.interrupts_mono (I : IrqClock) : Monotone I.interrupts :=
  fun _ _ h => Nat.div_le_div_right (Nat.add_le_add_right h _)

/-- The count of interrupts at the last read of a loop is at least the number of its
rounds above that of its first read. -/
theorem IrqClock.mdelayLoop_interrupts (hr : Monotone reads) {fuel millis k n : Nat}
    (h : mdelayLoop (fun k => I.irqCnt start (reads k)) fuel millis k = some n) :
    n = k ∧ millis < 10 ∨
      k < n ∧ I.interrupts (reads k) + millis / 10 ≤ I.interrupts (lastRead reads n) := by
  induction fuel generalizing millis k with
  | zero => simp [mdelayLoop] at h
  | succ fuel ih =>
    by_cases hm : 10 ≤ millis
    · right
      simp only [mdelayLoop, hm, if_true] at h
      obtain ⟨j, hj, hrest⟩ := Option.bind_eq_some_iff.mp h
      obtain ⟨hkj, hne⟩ := tickLoop_some hj
      have hlt : I.interrupts (reads k) < I.interrupts (reads j) := by
        refine Nat.lt_of_le_of_ne (I.interrupts_mono (hr (by omega))) ?_
        intro he
        exact hne (by simp only [IrqClock.irqCnt, he])
      have hdiv : millis / 10 = (millis - 10) / 10 + 1 := by omega
      rcases ih hrest with ⟨rfl, hlast⟩ | ⟨hjn, hle⟩
      · exact ⟨by omega, by simp only [lastRead]; omega⟩
      · have hnext : I.interrupts (reads j) ≤ I.interrupts (reads (j + 1)) :=
          I.interrupts_mono (hr (Nat.le_succ j))
        exact ⟨by omega, by omega⟩
    · left
      simp only [mdelayLoop, hm, if_false, Option.some.injEq] at h
      exact ⟨h.symm, by omega⟩

theorem IrqClock.le_of_interrupts {n t : Nat} (hn : 0 < n) (h : n ≤ I.interrupts t) :
    I.first + (n - 1) * (10 * I.unit) ≤ t := by
  have hpos : 0 < 10 * I.unit := Nat.mul_pos (by decide) I.unit_pos
  have hmul := (Nat.le_div_iff_mul_le hpos).mp h
  obtain ⟨m, rfl⟩ : ∃ m, n = m + 1 := ⟨n - 1, by omega⟩
  have hle := I.first_le
  rw [Nat.succ_mul] at hmul
  simp only [Nat.add_sub_cancel]
  omega

/-- The instant of the `m`th interrupt after the call, the call itself for none. -/
def IrqClock.edge (I : IrqClock) : Nat → Nat
  | 0 => 0
  | m + 1 => I.first + m * (10 * I.unit)

/-- Reads that come without delay: each round's first read with the interrupt that ended
the round before, its last read with the next interrupt. -/
def IrqClock.promptReads (I : IrqClock) (k : Nat) : Nat := I.edge ((k + 1) / 2)

theorem IrqClock.edge_mono (I : IrqClock) : Monotone I.edge := by
  refine monotone_nat_of_le_succ ?_
  intro m
  cases m with
  | zero => exact Nat.zero_le _
  | succ m =>
    simp only [IrqClock.edge, Nat.succ_mul]
    omega

theorem IrqClock.promptReads_mono (I : IrqClock) : Monotone I.promptReads :=
  fun _ _ h => I.edge_mono (Nat.div_le_div_right (Nat.succ_le_succ h))

theorem IrqClock.interrupts_edge (I : IrqClock) (m : Nat) : I.interrupts (I.edge m) = m := by
  have hpos : 0 < 10 * I.unit := Nat.mul_pos (by decide) I.unit_pos
  have hfirst := I.first_pos
  have hle := I.first_le
  cases m with
  | zero =>
    rw [IrqClock.interrupts, IrqClock.edge, Nat.zero_add]
    exact Nat.div_eq_of_lt (by omega)
  | succ m =>
    have he : I.first + m * (10 * I.unit) + (10 * I.unit - I.first) = (m + 1) * (10 * I.unit) := by
      have hs : (m + 1) * (10 * I.unit) = m * (10 * I.unit) + 10 * I.unit := Nat.succ_mul _ _
      omega
    rw [IrqClock.interrupts, IrqClock.edge, he, Nat.mul_div_cancel _ hpos]

theorem IrqClock.irqCnt_edge_succ (m : Nat) :
    I.irqCnt start (I.edge (m + 1)) - I.irqCnt start (I.edge m) = 1 := by
  have he : start + UInt64.ofNat (m + 1) = 1 + (start + UInt64.ofNat m) := by
    rw [UInt64.ofNat_add, ← UInt64.add_assoc, UInt64.add_comm 1]
    rfl
  rw [IrqClock.irqCnt, IrqClock.irqCnt, I.interrupts_edge, I.interrupts_edge, he,
    UInt64.add_sub_cancel]

theorem IrqClock.mdelayLoop_promptReads {fuel millis i : Nat} (h : millis / 10 < fuel) :
    mdelayLoop (fun k => I.irqCnt start (I.promptReads k)) fuel millis (2 * i) =
      some (2 * (i + millis / 10)) := by
  induction fuel generalizing millis i with
  | zero => omega
  | succ fuel ih =>
    by_cases hm : 10 ≤ millis
    · have hread : I.promptReads (2 * i) = I.edge i := by
        rw [IrqClock.promptReads, show (2 * i + 1) / 2 = i by omega]
      have hnext : I.promptReads (2 * i + 1) = I.edge (i + 1) := by
        rw [IrqClock.promptReads, show (2 * i + 1 + 1) / 2 = i + 1 by omega]
      have htick : tickLoop (fun k => I.irqCnt start (I.promptReads k))
          (I.irqCnt start (I.promptReads (2 * i))) fuel (2 * i + 1) = some (2 * i + 1) := by
        obtain ⟨f, rfl⟩ : ∃ f, fuel = f + 1 := ⟨fuel - 1, by omega⟩
        simp [tickLoop, hread, hnext, IrqClock.irqCnt_edge_succ]
      have hrest : mdelayLoop (fun k => I.irqCnt start (I.promptReads k)) fuel (millis - 10)
          (2 * (i + 1)) = some (2 * (i + 1 + (millis - 10) / 10)) := ih (by omega)
      simp only [mdelayLoop, hm, if_true, htick, Option.bind_some]
      rw [show 2 * i + 1 + 1 = 2 * (i + 1) by omega, hrest,
        show i + 1 + (millis - 10) / 10 = i + millis / 10 by omega]
    · have hz : millis / 10 = 0 := by omega
      simp [mdelayLoop, hm, hz]

theorem Duration.asMicros_ge {d : Duration} (h : 1 ≤ d.asMillis) : ¬ d.asMicros < 1000 := by
  unfold Duration.asMillis at h
  unfold Duration.asMicros
  omega

theorem delay_eq_mdelay {d : Duration} (h : 1 ≤ d.asMillis) (hlt : d.asMillis < 2 ^ 64)
    (ticksPer10ms : UInt32) (getTick : Nat → UInt32) (getIrqCnt : Nat → UInt64) (fuel : Nat) :
    delay ticksPer10ms getTick getIrqCnt fuel d = .millis (mdelay d.asMillis getIrqCnt fuel) := by
  simp only [delay, Duration.asMicros_ge h, hlt, if_true, if_false]

/-- Prompt reads end the wait after two reads for each round. -/
theorem IrqClock.delay_promptReads (I : IrqClock) {d : Duration} (h : 1 ≤ d.asMillis)
    (hlt : d.asMillis < 2 ^ 64) :
    delay 0 (fun _ => 0) (fun k => I.irqCnt 0 (I.promptReads k)) (d.asMillis / 10 + 1) d =
      .millis (some (2 * (d.asMillis / 10))) := by
  have hloop : mdelayLoop (fun k => I.irqCnt 0 (I.promptReads k)) (d.asMillis / 10 + 1)
      d.asMillis (2 * 0) = some (2 * (0 + d.asMillis / 10)) :=
    IrqClock.mdelayLoop_promptReads (Nat.lt_succ_self _)
  rw [Nat.zero_add] at hloop
  rw [delay_eq_mdelay h hlt]
  exact congrArg Delayed.millis hloop

theorem IrqClock.lastRead_promptReads (I : IrqClock) (m : Nat) :
    lastRead I.promptReads (2 * (m + 1)) = I.first + m * (10 * I.unit) := by
  rw [show 2 * (m + 1) = 2 * m + 1 + 1 by omega, lastRead, IrqClock.promptReads,
    show (2 * m + 1 + 1) / 2 = m + 1 by omega, IrqClock.edge]

theorem delay_long_enough_iff (I : IrqClock) (d : Duration) (h : 1 ≤ d.asMillis)
    (hlt : d.asMillis < 2 ^ 64) :
    I.DelaysLongEnough d ↔ d.asMillis % 10 = 0 ∧ I.first = 10 * I.unit := by
  constructor
  · intro hd
    have hle := hd 0 I.promptReads I.promptReads_mono _ _ _ _ (I.delay_promptReads h hlt)
    have hunit := I.unit_pos
    have hfirst := I.first_le
    cases hn : d.asMillis / 10 with
    | zero =>
      rw [hn] at hle
      have hpos : 0 < d.asMillis * I.unit := Nat.mul_pos h hunit
      simp only [lastRead] at hle
      omega
    | succ m =>
      have hsplit : d.asMillis * I.unit =
          m * (10 * I.unit) + 10 * I.unit + d.asMillis % 10 * I.unit := by
        have hmod : d.asMillis = 10 * (m + 1) + d.asMillis % 10 := by omega
        calc d.asMillis * I.unit = (10 * (m + 1) + d.asMillis % 10) * I.unit := by rw [← hmod]
          _ = m * (10 * I.unit) + 10 * I.unit + d.asMillis % 10 * I.unit := by ring
      rw [hn, I.lastRead_promptReads, hsplit] at hle
      have hrest : d.asMillis % 10 * I.unit = 0 := by omega
      exact ⟨(Nat.mul_eq_zero.mp hrest).resolve_right (by omega), by omega⟩
  · rintro ⟨hmod, hfirst⟩ start reads hr ticksPer10ms getTick fuel n hrun
    rw [delay_eq_mdelay h hlt] at hrun
    have hloop : mdelayLoop (fun k => I.irqCnt start (reads k)) fuel d.asMillis 0 = some n := by
      simpa [mdelay] using hrun
    rcases IrqClock.mdelayLoop_interrupts hr hloop with ⟨-, hsmall⟩ | ⟨-, hcount⟩
    · omega
    · have hbound := IrqClock.le_of_interrupts (I := I) (n := d.asMillis / 10)
        (t := lastRead reads n) (by omega) (by omega)
      obtain ⟨m, hm⟩ : ∃ m, d.asMillis = 10 * (m + 1) := ⟨d.asMillis / 10 - 1, by omega⟩
      have hrounds : d.asMillis / 10 - 1 = m := by omega
      rw [hrounds, hfirst] at hbound
      calc d.asMillis * I.unit = 10 * I.unit + m * (10 * I.unit) := by rw [hm]; ring
        _ ≤ lastRead reads n := hbound

theorem delay_long_enough_iff_twenty :
    (⟨1, 10, by decide, by decide, by decide⟩ : IrqClock).DelaysLongEnough ⟨0, 20000000, by decide⟩ ↔
      (⟨0, 20000000, by decide⟩ : Duration).asMillis % 10 = 0 ∧ (10 : Nat) = 10 * 1 :=
  delay_long_enough_iff _ _ (by decide) (by decide)

/-- 15 ms asked for 3 ms before the next interrupt: the delay ends with that interrupt. -/
theorem delay_returns_early :
    ¬ (⟨1, 3, by decide, by decide, by decide⟩ : IrqClock).DelaysLongEnough
      ⟨0, 15000000, by decide⟩ := by
  intro h
  have hle := h 0 (fun k => if k = 0 then 0 else 3) ?_ 0 (fun _ => 0) 3 2 (by decide)
  · revert hle
    decide
  · intro a b hab
    rcases Nat.eq_zero_or_pos a with rfl | ha
    · exact Nat.zero_le _
    · simp [show a ≠ 0 by omega, show b ≠ 0 by omega]

end MdelayResults

end Nacl
