import Mathlib.Data.List.Pairwise
import Nacl.IoApic

/-! `init_ioapic` points the PIT's entry at the boot processor, masks every other
redirection entry and touches no other register. -/

namespace Nacl

open Fallible

/-- The register file of an I/O APIC after the first `n` of its entries. -/
def redirected (base : Nat) (gsi bsp : UInt32) (n : Nat) (regs : UInt8 → UInt32) (r : UInt8) : UInt32 :=
  if r.toNat < 0x10 ∨ 0x10 + 2 * n ≤ r.toNat then regs r
  else if base + (r.toNat - 0x10) / 2 = gsi.toNat then
    if r.toNat % 2 = 0 then timerVector else bsp
  else if r.toNat % 2 = 0 then regs r ||| maskBit else regs r

section Registers

variable {a : IoApic} {offset : UInt8} {w : IoApicBus}

theorem IoApic.select_registerAt :
    (a.registerAt offset w a.startPtr).select.toUInt8 = offset := by
  simp [IoApic.registerAt]

theorem IoApic.registerAt_regs (p : UInt64) : (a.registerAt offset w p).regs = (w p).regs := by
  by_cases hp : p = a.startPtr
  · subst hp
    simp [IoApic.registerAt]
  · simp [IoApic.registerAt, hp]

theorem IoApic.readRegister_value : (a.readRegister offset w).1 = (w a.startPtr).regs offset := by
  rw [IoApic.readRegister, IoApicDevice.read, IoApic.select_registerAt, IoApic.registerAt_regs]

theorem IoApic.writeRegister_same {value : UInt32} :
    (a.writeRegister offset value w a.startPtr).regs =
      Function.update (w a.startPtr).regs offset value := by
  simp only [IoApic.writeRegister, Function.update_self, IoApicDevice.write,
    IoApic.select_registerAt, IoApic.registerAt_regs]

theorem IoApic.writeRegister_ne {value : UInt32} {p : UInt64} (h : p ≠ a.startPtr) :
    (a.writeRegister offset value w p).regs = (w p).regs := by
  rw [IoApic.writeRegister, Function.update_of_ne h, IoApic.registerAt_regs]

theorem IoApic.updateRegister_same {f : UInt32 → UInt32} :
    (a.updateRegister offset f w a.startPtr).regs =
      Function.update (w a.startPtr).regs offset (f ((w a.startPtr).regs offset)) := by
  have hbus : ((a.readRegister offset w).2 a.startPtr).regs = (w a.startPtr).regs :=
    IoApic.registerAt_regs _
  rw [IoApic.updateRegister, IoApic.writeRegister_same, IoApic.readRegister_value, hbus]

theorem IoApic.updateRegister_ne {f : UInt32 → UInt32} {p : UInt64} (h : p ≠ a.startPtr) :
    (a.updateRegister offset f w p).regs = (w p).regs := by
  rw [IoApic.updateRegister, IoApic.writeRegister_ne h]
  exact IoApic.registerAt_regs p

end Registers

theorem lowReg_toNat {k : Nat} (h : k < 120) : (lowReg k).toNat = 0x10 + 2 * k := by
  have hlt : 0x10 + 2 * k < 2 ^ 8 := by omega
  rw [lowReg, UInt8.toNat_ofNat', Nat.mod_eq_of_lt hlt]

theorem highReg_toNat {k : Nat} (h : k < 120) : (highReg k).toNat = 0x10 + 2 * k + 1 := by
  have hlt : 0x10 + 2 * k + 1 < 2 ^ 8 := by omega
  rw [highReg, UInt8.toNat_ofNat', Nat.mod_eq_of_lt hlt]

section Redirected

variable {base : Nat} {gsi bsp : UInt32} {n : Nat} {regs : UInt8 → UInt32}

theorem redirected_zero : redirected base gsi bsp 0 regs = regs := by
  funext r
  unfold redirected
  rw [if_pos]
  omega

theorem redirected_succ_ne {k : Nat} (hk : k < 120) {r : UInt8} (hl : r ≠ lowReg k)
    (hh : r ≠ highReg k) : redirected base gsi bsp (k + 1) regs r = redirected base gsi bsp k regs r := by
  have hlow : r.toNat ≠ 0x10 + 2 * k := by
    rw [← lowReg_toNat hk]
    exact fun he => hl (UInt8.toNat_inj.mp he)
  have hhigh : r.toNat ≠ 0x10 + 2 * k + 1 := by
    rw [← highReg_toNat hk]
    exact fun he => hh (UInt8.toNat_inj.mp he)
  unfold redirected
  by_cases hout : r.toNat < 0x10 ∨ 0x10 + 2 * k ≤ r.toNat
  · rw [if_pos hout, if_pos (by omega)]
  · rw [if_neg hout, if_neg (by omega)]

theorem redirected_low {k : Nat} (hk : k < 120) (hn : k < n) :
    redirected base gsi bsp n regs (lowReg k) =
      if base + k = gsi.toNat then timerVector else regs (lowReg k) ||| maskBit := by
  have hlow := lowReg_toNat hk
  have hidx : ((lowReg k).toNat - 0x10) / 2 = k := by omega
  rw [redirected, if_neg (by omega), hidx]
  split
  · rw [if_pos (by omega)]
  · rw [if_pos (by omega)]

theorem redirected_high {k : Nat} (hk : k < 120) (hn : k < n) :
    redirected base gsi bsp n regs (highReg k) =
      if base + k = gsi.toNat then bsp else regs (highReg k) := by
  have hhigh := highReg_toNat hk
  have hidx : ((highReg k).toNat - 0x10) / 2 = k := by omega
  rw [redirected, if_neg (by omega), hidx]
  split
  · rw [if_neg (by omega)]
  · rw [if_neg (by omega)]

theorem redirected_outside {r : UInt8} (hn : n ≤ 120)
    (h : ∀ k < n, r ≠ lowReg k ∧ r ≠ highReg k) : redirected base gsi bsp n regs r = regs r := by
  by_contra hne
  have hin : ¬ (r.toNat < 0x10 ∨ 0x10 + 2 * n ≤ r.toNat) := by
    intro hout
    exact hne (by rw [redirected, if_pos hout])
  have hlt : (r.toNat - 0x10) / 2 < n := by omega
  obtain ⟨hl, hh⟩ := h _ hlt
  have hlow := lowReg_toNat (Nat.lt_of_lt_of_le hlt hn)
  have hhigh := highReg_toNat (Nat.lt_of_lt_of_le hlt hn)
  by_cases heven : r.toNat % 2 = 0
  · exact hl (UInt8.toNat_inj.mp (by omega))
  · exact hh (UInt8.toNat_inj.mp (by omega))

theorem redirected_pit {k : Nat} (hk : k < 120) (hp : base + k = gsi.toNat) :
    redirected base gsi bsp (k + 1) regs =
      Function.update (Function.update (redirected base gsi bsp k regs) (lowReg k) timerVector)
        (highReg k) bsp := by
  funext r
  by_cases hh : r = highReg k
  · rw [hh, Function.update_self, redirected_high hk (Nat.lt_succ_self k), if_pos hp]
  · rw [Function.update_of_ne hh]
    by_cases hl : r = lowReg k
    · rw [hl, Function.update_self, redirected_low hk (Nat.lt_succ_self k), if_pos hp]
    · rw [Function.update_of_ne hl, redirected_succ_ne hk hl hh]

theorem redirected_masked {k : Nat} (hk : k < 120) (hp : base + k ≠ gsi.toNat) :
    redirected base gsi bsp (k + 1) regs =
      Function.update (redirected base gsi bsp k regs) (lowReg k)
        (redirected base gsi bsp k regs (lowReg k) ||| maskBit) := by
  have hlow := lowReg_toNat hk
  have hhigh := highReg_toNat hk
  have hout : ∀ r, 0x10 + 2 * k ≤ r.toNat → redirected base gsi bsp k regs r = regs r := by
    intro r hr
    rw [redirected, if_pos (.inr hr)]
  funext r
  by_cases hl : r = lowReg k
  · rw [hl, Function.update_self, redirected_low hk (Nat.lt_succ_self k), if_neg hp,
      hout _ (by omega)]
  · rw [Function.update_of_ne hl]
    by_cases hh : r = highReg k
    · rw [hh, redirected_high hk (Nat.lt_succ_self k), if_neg hp, hout _ (by omega)]
    · exact redirected_succ_ne hk hl hh

end Redirected

section Checked

variable {k : Nat}

theorem idx_toNat (hk : k < 120) : (UInt8.ofNat k).toNat = k := by
  rw [UInt8.toNat_ofNat', Nat.mod_eq_of_lt (by omega)]

theorem mulU8_idx (hk : k < 120) : mulU8 (.ofNat k) 2 = .ok (.ofNat k * 2) := by
  have hlt : (UInt8.ofNat k).toNat * (2 : UInt8).toNat < 2 ^ 8 := by
    rw [idx_toNat hk]
    show k * 2 < 2 ^ 8
    omega
  rw [mulU8, if_pos hlt]

theorem idx_mul_toNat (hk : k < 120) : ((UInt8.ofNat k) * 2).toNat = 2 * k := by
  rw [UInt8.toNat_mul, idx_toNat hk]
  show k * 2 % 2 ^ 8 = 2 * k
  omega

theorem addU8_lowReg (hk : k < 120) : addU8 0x10 (.ofNat k * 2) = .ok (lowReg k) := by
  have hsum : (0x10 : UInt8).toNat + ((UInt8.ofNat k) * 2).toNat = 0x10 + 2 * k := by
    rw [idx_mul_toNat hk]
    rfl
  have hlt : (0x10 : UInt8).toNat + ((UInt8.ofNat k) * 2).toNat < 2 ^ 8 := by
    rw [hsum]
    omega
  have heq : (0x10 : UInt8) + UInt8.ofNat k * 2 = lowReg k := by
    apply UInt8.toNat_inj.mp
    rw [UInt8.toNat_add, Nat.mod_eq_of_lt hlt, hsum, lowReg_toNat hk]
  rw [addU8, if_pos hlt, heq]

theorem addU8_highReg (hk : k < 120) : addU8 (lowReg k) 1 = .ok (highReg k) := by
  have hsum : (lowReg k).toNat + (1 : UInt8).toNat = 0x10 + 2 * k + 1 := by
    rw [lowReg_toNat hk]
    rfl
  have hlt : (lowReg k).toNat + (1 : UInt8).toNat < 2 ^ 8 := by
    rw [hsum]
    omega
  have heq : lowReg k + 1 = highReg k := by
    apply UInt8.toNat_inj.mp
    rw [UInt8.toNat_add, Nat.mod_eq_of_lt hlt, hsum, highReg_toNat hk]
  rw [addU8, if_pos hlt, heq]

theorem addU32_idx {base : UInt32} (hk : k < 120) (hb : base.toNat + k < 2 ^ 32) :
    addU32 (UInt8.ofNat k).toUInt32 base = .ok ((UInt8.ofNat k).toUInt32 + base) ∧
      ((UInt8.ofNat k).toUInt32 + base).toNat = base.toNat + k := by
  have hsum : (UInt8.ofNat k).toUInt32.toNat + base.toNat = base.toNat + k := by
    rw [UInt8.toNat_toUInt32, idx_toNat hk]
    omega
  have hlt : (UInt8.ofNat k).toUInt32.toNat + base.toNat < 2 ^ 32 := by omega
  exact ⟨by rw [addU32, if_pos hlt], by rw [UInt32.toNat_add, Nat.mod_eq_of_lt hlt, hsum]⟩

end Checked

/-- The state of the scan of one I/O APIC after its first `n` entries. -/
structure Scanned (ioapic : IoApic) (base gsi bsp : UInt32) (s : Scan) (n : Nat) (t : Scan) : Prop where
  own : (t.bus ioapic.startPtr).regs =
    redirected base.toNat gsi bsp n (s.bus ioapic.startPtr).regs
  frame : ∀ p, p ≠ ioapic.startPtr → (t.bus p).regs = (s.bus p).regs
  hit : ∀ k < n, base.toNat + k = gsi.toNat → t.found = some (ioapic, lowReg k)
  miss : (∀ k < n, base.toNat + k ≠ gsi.toNat) → t.found = s.found

theorem Scanned.refl {ioapic : IoApic} {base gsi bsp : UInt32} {s : Scan} :
    Scanned ioapic base gsi bsp s 0 s :=
  ⟨redirected_zero.symm, fun _ _ => rfl, fun _ h => absurd h (Nat.not_lt_zero _), fun _ => rfl⟩

theorem Scanned.entry {ioapic : IoApic} {base gsi bsp : UInt32} {s t : Scan} {n : Nat}
    (h : Scanned ioapic base gsi bsp s n t) (hn : n < 120) (hb : base.toNat + n < 2 ^ 32) :
    ∃ u, initEntry ioapic base gsi bsp t (.ofNat n) = .ok u ∧
      Scanned ioapic base gsi bsp s (n + 1) u := by
  obtain ⟨hadd, hsum⟩ := addU32_idx hn hb
  by_cases hp : base.toNat + n = gsi.toNat
  · have heq : (UInt8.ofNat n).toUInt32 + base = gsi := UInt32.toNat_inj.mp (hsum.trans hp)
    refine ⟨⟨ioapic.writeRegister (highReg n) bsp (ioapic.writeRegister (lowReg n) timerVector t.bus),
      some (ioapic, lowReg n)⟩, ?_, ?_, ?_, ?_, ?_⟩
    · simp only [initEntry, mulU8_idx hn, ok_bind, addU8_lowReg hn, hadd, heq, if_true,
        addU8_highReg hn]
    · show (ioapic.writeRegister (highReg n) bsp _ ioapic.startPtr).regs = _
      rw [IoApic.writeRegister_same, IoApic.writeRegister_same, h.own, redirected_pit hn hp]
    · intro p hne
      show (ioapic.writeRegister (highReg n) bsp _ p).regs = _
      rw [IoApic.writeRegister_ne hne, IoApic.writeRegister_ne hne, h.frame p hne]
    · intro k _ hk
      rw [show k = n by omega]
    · intro hnone
      exact absurd hp (hnone n (Nat.lt_succ_self n))
  · have hne : (UInt8.ofNat n).toUInt32 + base ≠ gsi := by
      intro he
      exact hp (by rw [← hsum, he])
    refine ⟨⟨ioapic.updateRegister (lowReg n) (fun v => v ||| maskBit) t.bus, t.found⟩, ?_, ?_, ?_,
      ?_, ?_⟩
    · simp only [initEntry, mulU8_idx hn, ok_bind, addU8_lowReg hn, hadd, hne, if_false]
    · show (ioapic.updateRegister (lowReg n) _ t.bus ioapic.startPtr).regs = _
      rw [IoApic.updateRegister_same, h.own, redirected_masked hn hp]
    · intro p hne
      show (ioapic.updateRegister (lowReg n) _ t.bus p).regs = _
      rw [IoApic.updateRegister_ne hne, h.frame p hne]
    · intro k hk hkp
      have hlt : k < n := by
        rcases Nat.lt_succ_iff_lt_or_eq.mp hk with hlt | rfl
        · exact hlt
        · exact absurd hkp hp
      exact h.hit k hlt hkp
    · intro hnone
      exact h.miss (fun k hk => hnone k (Nat.lt_succ_of_lt hk))

theorem Scanned.entries (ioapic : IoApic) (base gsi bsp : UInt32) (s : Scan) (n : Nat)
    (hn : n ≤ 120) (hb : base.toNat + n ≤ 2 ^ 32) :
    ∃ t, ((List.range n).map UInt8.ofNat).foldlM (initEntry ioapic base gsi bsp) s = .ok t ∧
      Scanned ioapic base gsi bsp s n t := by
  induction n with
  | zero => exact ⟨s, rfl, .refl⟩
  | succ n ih =>
    obtain ⟨t, ht, hscan⟩ := ih (by omega) (by omega)
    obtain ⟨u, hu, hscan'⟩ := hscan.entry (by omega) (by omega)
    refine ⟨u, ?_, hscan'⟩
    rw [List.range_succ, List.map_append, List.foldlM_append, ht, ok_bind]
    simp only [List.map_cons, List.map_nil, List.foldlM_cons, List.foldlM_nil, hu, ok_bind]
    rfl

section Platform

variable {platform : PlatformInfo} {proc : ProcessorInfo} {m : Mapper} {s : Scan}

theorem Mapper.ptr_toNat (i : IoApicInfo) :
    (m.ptr i).toNat = m.physicalMemoryOffset.toNat + i.address.toNat := by
  have hroom := m.room
  have haddr : i.address.toNat < 2 ^ 32 := i.address.toNat_lt
  rw [Mapper.ptr, UInt64.toNat_add, UInt32.toNat_toUInt64]
  exact Nat.mod_eq_of_lt (by omega)

theorem Mapper.physToVirtPtr_eq (i : IoApicInfo) :
    m.physToVirtPtr i.address.toUInt64 = .ok (m.ptr i) := by
  have hroom := m.room
  have hpos := m.pos
  have haddr : i.address.toNat < 2 ^ 32 := i.address.toNat_lt
  have hlt : m.physicalMemoryOffset.toNat + i.address.toUInt64.toNat < 2 ^ 64 := by
    rw [UInt32.toNat_toUInt64]
    omega
  have hne : m.ptr i ≠ 0 := by
    intro he
    have hz := congrArg UInt64.toNat he
    rw [Mapper.ptr_toNat] at hz
    simp at hz
    omega
  simp only [Mapper.physToVirtPtr, Mapper.physToVirt, addU64, if_pos hlt, ok_bind]
  exact if_neg hne

theorem Mapper.ptr_ne {i j : IoApicInfo} (h : i.address ≠ j.address) : m.ptr i ≠ m.ptr j := by
  intro he
  have hn := congrArg UInt64.toNat he
  rw [Mapper.ptr_toNat, Mapper.ptr_toNat] at hn
  exact h (UInt32.toNat_inj.mp (by omega))

theorem initOne_scanned (gsi : UInt32) (hproc : platform.processorInfo = some proc) {i : IoApicInfo}
    (hn : s.bus.entries m i ≤ 120) (hr : i.base + s.bus.entries m i ≤ 2 ^ 32) :
    ∃ t, initOne platform m gsi s i = .ok t ∧
      Scanned ⟨m.ptr i⟩ i.globalSystemInterruptBase gsi (proc.bootProcessor.localApicId <<< 24) s
        (s.bus.entries m i) t := by
  have hver : (IoApic.readRegister ⟨m.ptr i⟩ ioApicVer s.bus).1 = (s.bus (m.ptr i)).regs ioApicVer :=
    IoApic.readRegister_value
  have hregs : ∀ p, ((IoApic.readRegister ⟨m.ptr i⟩ ioApicVer s.bus).2 p).regs = (s.bus p).regs :=
    IoApic.registerAt_regs
  have hcount : addU8 ((s.bus (m.ptr i)).regs ioApicVer >>> 16).toUInt8 1 =
      .ok (((s.bus (m.ptr i)).regs ioApicVer >>> 16).toUInt8 + 1) ∧
      (((s.bus (m.ptr i)).regs ioApicVer >>> 16).toUInt8 + 1).toNat = s.bus.entries m i := by
    have hlt : ((s.bus (m.ptr i)).regs ioApicVer >>> 16).toUInt8.toNat + (1 : UInt8).toNat < 2 ^ 8 := by
      unfold IoApicBus.entries at hn
      show _ + 1 < 2 ^ 8
      omega
    refine ⟨by rw [addU8, if_pos hlt], ?_⟩
    rw [UInt8.toNat_add, Nat.mod_eq_of_lt hlt]
    rfl
  obtain ⟨t, ht, hscan⟩ := Scanned.entries ⟨m.ptr i⟩ i.globalSystemInterruptBase gsi
    (proc.bootProcessor.localApicId <<< 24)
    { s with bus := (IoApic.readRegister ⟨m.ptr i⟩ ioApicVer s.bus).2 } _ hn hr
  refine ⟨t, ?_, ?_, ?_, hscan.hit, hscan.miss⟩
  · simp only [initOne, Mapper.physToVirtPtr_eq, ok_bind, hver, hcount.1, hproc, hcount.2]
    exact ht
  · rw [hscan.own, hregs]
  · intro p hp
    rw [hscan.frame p hp, hregs]

theorem initAll_scanned (gsi : UInt32) (hproc : platform.processorInfo = some proc)
    {l : List IoApicInfo} (hd : (l.map IoApicInfo.address).Nodup) (hn : ∀ i ∈ l, s.bus.entries m i ≤ 120)
    (hr : ∀ i ∈ l, i.base + s.bus.entries m i ≤ 2 ^ 32)
    (hap : l.Pairwise fun i j => ∀ k < s.bus.entries m i, ∀ n < s.bus.entries m j,
      i.base + k ≠ j.base + n) :
    ∃ t, l.foldlM (initOne platform m gsi) s = .ok t ∧
      (∀ i ∈ l, (t.bus (m.ptr i)).regs = redirected i.base gsi
        (proc.bootProcessor.localApicId <<< 24) (s.bus.entries m i) (s.bus (m.ptr i)).regs) ∧
      (∀ p, (∀ i ∈ l, p ≠ m.ptr i) → (t.bus p).regs = (s.bus p).regs) ∧
      (∀ i ∈ l, ∀ k, s.bus.Covers m i k gsi → t.found = some (⟨m.ptr i⟩, lowReg k)) ∧
      ((∀ i ∈ l, ∀ k, ¬ s.bus.Covers m i k gsi) → t.found = s.found) := by
  induction l generalizing s with
  | nil => exact ⟨s, rfl, by simp, fun _ _ => rfl, by simp, fun _ => rfl⟩
  | cons i l ih =>
    obtain ⟨u, hu, hscan⟩ := initOne_scanned (s := s) gsi hproc (hn i (by simp)) (hr i (by simp))
    rw [List.map_cons, List.nodup_cons] at hd
    rw [List.pairwise_cons] at hap
    have hptr : ∀ j ∈ l, m.ptr j ≠ m.ptr i := by
      intro j hj
      apply Mapper.ptr_ne
      intro he
      exact hd.1 (he ▸ List.mem_map_of_mem hj)
    have hsame : ∀ j ∈ l, (u.bus (m.ptr j)).regs = (s.bus (m.ptr j)).regs :=
      fun j hj => hscan.frame _ (hptr j hj)
    have hcount : ∀ j ∈ l, u.bus.entries m j = s.bus.entries m j := by
      intro j hj
      simp only [IoApicBus.entries, hsame j hj]
    have hcov : ∀ j ∈ l, ∀ k, u.bus.Covers m j k gsi ↔ s.bus.Covers m j k gsi := by
      intro j hj k
      simp only [IoApicBus.Covers, hcount j hj]
    obtain ⟨t, ht, hown, hframe, hhit, hmiss⟩ := ih (s := u) hd.2
      (fun j hj => by rw [hcount j hj]; exact hn j (by simp [hj]))
      (fun j hj => by rw [hcount j hj]; exact hr j (by simp [hj]))
      (hap.2.imp_of_mem fun {a b} ha hb hab => by rw [hcount a ha, hcount b hb]; exact hab)
    refine ⟨t, by rw [List.foldlM_cons, hu, ok_bind, ht], ?_, ?_, ?_, ?_⟩
    · intro j hj
      rcases List.mem_cons.mp hj with rfl | hj
      · rw [hframe _ (fun a ha => (hptr a ha).symm)]
        exact hscan.own
      · rw [hown j hj, hcount j hj, hsame j hj]
    · intro p hp
      rw [hframe p (fun a ha => hp a (by simp [ha]))]
      exact hscan.frame p (hp i (by simp))
    · intro j hj k hk
      rcases List.mem_cons.mp hj with rfl | hj
      · rw [hmiss ?_]
        · exact hscan.hit k hk.1 hk.2
        · intro a ha n hn'
          obtain ⟨hlt, heq⟩ := (hcov a ha n).mp hn'
          exact hap.1 a ha k hk.1 n hlt (hk.2.trans heq.symm)
      · exact hhit j hj k ((hcov j hj k).mpr hk)
    · intro hnone
      rw [hmiss (fun a ha n hn' => hnone a (by simp [ha]) n ((hcov a ha n).mp hn'))]
      exact hscan.miss (fun k hk heq => hnone i (by simp) k ⟨hk, heq⟩)

theorem bsp_shifted {bsp : UInt32} (h : bsp.toNat < 256) : (bsp <<< 24).toNat = bsp.toNat * 2 ^ 24 := by
  rw [UInt32.toNat_shiftLeft]
  show bsp.toNat <<< 24 % 2 ^ 32 = bsp.toNat * 2 ^ 24
  rw [Nat.shiftLeft_eq]
  exact Nat.mod_eq_of_lt (by omega)

theorem Apic.WellFormed.pitRouted {apic : Apic} {w w' : IoApicBus} {gsi bsp : UInt32}
    (h : apic.WellFormed m w) (hbsp : bsp.toNat < 256) {i : IoApicInfo} (hi : i ∈ apic.ioApics)
    {k : Nat} (hk : w.Covers m i k gsi)
    (hown : ∀ j ∈ apic.ioApics, (w' (m.ptr j)).regs =
      redirected j.base gsi (bsp <<< 24) (w.entries m j) (w (m.ptr j)).regs)
    (hframe : ∀ p, (∀ j ∈ apic.ioApics, p ≠ m.ptr j) → (w' p).regs = (w p).regs) :
    PitRouted apic m bsp w w' i k := by
  have hlt := h.entries_le i hi
  obtain ⟨hkn, hgsi⟩ := hk
  constructor
  · rw [hown i hi, redirected_low (by omega) hkn, if_pos hgsi]
    rfl
  · rw [hown i hi, redirected_high (by omega) hkn, if_pos hgsi, bsp_shifted hbsp]
  · intro j hj l hl hne
    have hother : j.base + l ≠ gsi.toNat := by
      intro he
      by_cases hij : j = i
      · subst hij
        exact hne (by rw [show l = k by omega])
      · have hsymm : Std.Symm fun i j => ∀ k < w.entries m i, ∀ l < w.entries m j,
            i.base + k ≠ j.base + l :=
          ⟨fun a b hab k hk l hl hkl => hab l hl k hk hkl.symm⟩
        exact h.apart.forall hj hi hij l hl k hkn (he.trans hgsi.symm)
    have hle := h.entries_le j hj
    rw [hown j hj, redirected_low (by omega) hl, redirected_high (by omega) hl, if_neg hother,
      if_neg hother]
    exact ⟨rfl, rfl⟩
  · intro p r hout
    by_cases hp : ∃ j ∈ apic.ioApics, p = m.ptr j
    · obtain ⟨j, hj, rfl⟩ := hp
      rw [hown j hj]
      exact redirected_outside (h.entries_le j hj) (fun l hl => hout j hj l hl rfl)
    · rw [hframe p (fun j hj he => hp ⟨j, hj, he⟩)]

theorem ioapic_routes_only_pit {apic : Apic} {w : IoApicBus}
    (hmodel : platform.interruptModel = .apic apic) (hproc : platform.processorInfo = some proc)
    (hbsp : proc.bootProcessor.localApicId.toNat < 256) (hwf : apic.WellFormed m w) :
    ((∃ e, initIoApic platform m w = .error e) ↔
      apic.pit = none ∨ ∀ pit, apic.pit = some pit → ∀ i ∈ apic.ioApics, ∀ k,
        ¬ w.Covers m i k pit.globalSystemInterrupt) ∧
    initIoApic platform m w ≠ .error .overflow ∧
    ∀ ioapic reg w', initIoApic platform m w = .ok ((ioapic, reg), w') →
      ∃ pit, apic.pit = some pit ∧ ∃ i ∈ apic.ioApics, ∃ k,
        w.Covers m i k pit.globalSystemInterrupt ∧ ioapic = ⟨m.ptr i⟩ ∧ reg = lowReg k ∧
        PitRouted apic m proc.bootProcessor.localApicId w w' i k := by
  cases hpit : apic.pit with
  | none =>
    have hrun : initIoApic platform m w = .error .noPit := by simp [initIoApic, hmodel, hpit]
    simp [hrun]
  | some pit =>
    obtain ⟨t, ht, hown, hframe, hhit, hmiss⟩ := initAll_scanned (m := m) (s := ⟨w, none⟩)
      pit.globalSystemInterrupt hproc hwf.distinct hwf.entries_le hwf.range_le hwf.apart
    by_cases hcov : ∃ i ∈ apic.ioApics, ∃ k, w.Covers m i k pit.globalSystemInterrupt
    · obtain ⟨i, hi, k, hk⟩ := hcov
      have hrun : initIoApic platform m w = .ok ((⟨m.ptr i⟩, lowReg k), t.bus) := by
        simp only [initIoApic, hmodel, hpit, ht, ok_bind, hhit i hi k hk]
      refine ⟨?_, by simp [hrun], ?_⟩
      · simp only [hrun]
        constructor
        · rintro ⟨e, he⟩
          cases he
        · rintro (hnone | hnone)
          · cases hnone
          · exact absurd hk (hnone pit rfl i hi k)
      · intro ioapic reg w' hok
        obtain ⟨hpair, rfl⟩ := Prod.mk.inj (Except.ok.inj (hrun.symm.trans hok))
        obtain ⟨rfl, rfl⟩ := Prod.mk.inj hpair
        exact ⟨pit, rfl, i, hi, k, hk, rfl, rfl, hwf.pitRouted hbsp hi hk hown hframe⟩
    · have hnone : ∀ i ∈ apic.ioApics, ∀ k, ¬ w.Covers m i k pit.globalSystemInterrupt :=
        fun i hi k hk => hcov ⟨i, hi, k, hk⟩
      have hrun : initIoApic platform m w = .error .pitIrqNotFound := by
        simp only [initIoApic, hmodel, hpit, ht, ok_bind, hmiss hnone]
      refine ⟨?_, by simp [hrun], by simp [hrun]⟩
      simp only [hrun]
      constructor
      · intro _
        refine .inr ?_
        intro pit' hpit'
        rw [← Option.some.inj hpit']
        exact hnone
      · intro _
        exact ⟨_, rfl⟩

end Platform

/-- Two I/O APICs of 24 entries; ISA interrupt 0 is moved to global interrupt 2. -/
def pcApic : Apic :=
  ⟨[⟨0xFEC00000, 0⟩, ⟨0xFEC01000, 24⟩], [⟨9, 9⟩, ⟨0, 2⟩, ⟨0, 5⟩]⟩

def pcPlatform (id : UInt32) : PlatformInfo := ⟨.apic pcApic, some ⟨⟨id⟩⟩⟩

def pcBus : IoApicBus := fun _ => ⟨0, fun r => if r = ioApicVer then 0x00170011 else 0⟩

theorem pcOffset_pos : 0 < (0xFFFF800000000000 : UInt64).toNat := by decide +kernel

theorem pcOffset_room : (0xFFFF800000000000 : UInt64).toNat + 2 ^ 32 ≤ 2 ^ 64 := by decide +kernel

def pcMapper : Mapper := ⟨0xFFFF800000000000, pcOffset_pos, pcOffset_room⟩

theorem pcBus_entries (m : Mapper) (i : IoApicInfo) : pcBus.entries m i = 24 := by
  simp only [IoApicBus.entries, pcBus, if_true]
  decide +kernel

theorem pcApic_wellFormed (m : Mapper) : pcApic.WellFormed m pcBus where
  distinct := by decide
  entries_le i _ := by simp [pcBus_entries]
  range_le := by
    simp only [pcBus_entries]
    decide
  apart := by
    simp only [pcBus_entries, pcApic, List.pairwise_cons, List.mem_singleton, forall_eq,
      List.not_mem_nil, false_implies, implies_true, List.Pairwise.nil, and_true]
    intro k hk l hl
    show 0 + k ≠ 24 + l
    omega

theorem ioapic_routes_only_pit_pc :
    initIoApic (pcPlatform 3) pcMapper pcBus ≠ .error .overflow ∧
    ∃ ioapic reg w', initIoApic (pcPlatform 3) pcMapper pcBus = .ok ((ioapic, reg), w') ∧
      ∃ i k, reg = lowReg k ∧ PitRouted pcApic pcMapper 3 pcBus w' i k := by
  have hmodel : (pcPlatform 3).interruptModel = .apic pcApic := rfl
  have hproc : (pcPlatform 3).processorInfo = some ⟨⟨3⟩⟩ := rfl
  obtain ⟨hpanic, hoverflow, hok⟩ :=
    ioapic_routes_only_pit hmodel hproc (by decide) (pcApic_wellFormed pcMapper)
  refine ⟨hoverflow, ?_⟩
  cases hrun : initIoApic (pcPlatform 3) pcMapper pcBus with
  | error e =>
    rcases hpanic.mp ⟨e, hrun⟩ with hnone | hnone
    · exact absurd hnone (by decide)
    · refine absurd ?_ (hnone ⟨0, 2⟩ (by decide) ⟨0xFEC00000, 0⟩ (by decide) 2)
      exact ⟨by rw [pcBus_entries]; decide, by decide⟩
  | ok r =>
    obtain ⟨⟨ioapic, reg⟩, w'⟩ := r
    obtain ⟨-, -, i, -, k, -, -, hreg, hrouted⟩ := hok ioapic reg w' hrun
    exact ⟨ioapic, reg, w', rfl, i, k, hreg, hrouted⟩

end Nacl
