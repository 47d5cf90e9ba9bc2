import Nacl.Cores

/-! Every CPU keeps to the slot of its own index. A slot is empty until the one
call that fills it has stored to it, and from then on every call returns its `Cpu`. -/

namespace Nacl

open Guarded

variable {κ : Type*}

/-- The places where a call that uses slot `i` can be, by the contents of the slot. -/
def CpuCall.Allowed (i : Fin maxNumCpus) : Option Nat → CpuCall → Prop
  | _, .start => True
  | _, .check j => j = i
  | none, .build j | none, .stealer j _ | none, .store j _ => j = i
  | some _, .read j => j = i
  | some p, .got q => q = p
  | _, _ => False

def CpuTables.Built (t : CpuTables κ) (c : κ) (i : Fin maxNumCpus) : Option CpuCall → Prop
  | some (.stealer _ p) => t.stealers i = none ∧ t.heap[p]? = some (Cpu.new c)
  | some (.store _ p) => t.stealers i = some p ∧ t.heap[p]? = some (Cpu.new c)
  | _ => t.stealers i = none

def CpuCall.reading : CpuCall → Bool
  | .read _ | .got _ => true
  | _ => false

def CpuContext.Used (x : CpuContext) : Prop :=
  x.obtained ≠ [] ∨ x.active.any CpuCall.reading = true ∨ x.waiting.any CpuCall.reading = true

inductive CpuTables.Slot (t : CpuTables κ) (c : κ) (i : Fin maxNumCpus) (x : CpuContext) : Prop
  | empty (hc : t.cpus i = none) (hh : x.handled = 0) (ho : x.obtained = [])
    (hb : t.Built c i x.active)
  | full (p : Nat) (hc : t.cpus i = some p) (hs : t.stealers i = some p)
    (hk : t.heap[p]? = some ⟨.ofNat x.handled, c⟩) (ho : ∀ q ∈ x.obtained, q = p) (hu : x.Used)

structure CpuTables.Owns (t : CpuTables κ) (c : κ) (i : Fin maxNumCpus) (x : CpuContext) :
    Prop where
  slot : t.Slot c i x
  active : ∀ call, x.active = some call → call.Allowed i (t.cpus i)
  waiting : ∀ call, x.waiting = some call → call.Allowed i (t.cpus i) ∧ call.filling = false

/-- A CPU whose index is past the end of the tables. -/
structure CpuContext.Outside (x : CpuContext) : Prop where
  active : ∀ call, x.active = some call → call = .start ∨ call = .panicked
  waiting : ∀ call, x.waiting = some call → call = .start ∨ call = .panicked
  obtained : x.obtained = []

structure Cores.Tidy (regs : κ → UInt32) (s : Cores κ) : Prop where
  owns : ∀ c i, i.val = (regs c).toNat → s.tables.Owns c i (s.ctx c)
  outside : ∀ c, maxNumCpus ≤ (regs c).toNat → (s.ctx c).Outside
  stray : ∀ i : Fin maxNumCpus, (∀ c, i.val ≠ (regs c).toNat) → s.tables.stealers i = none

section Context

variable {x : CpuContext} {call : CpuCall}

theorem CpuContext.setActive_active : (x.setActive call).active = some call := by
  cases hx : x.handler with
  | none => simp [CpuContext.setActive, CpuContext.active, hx]
  | some y => simp [CpuContext.setActive, CpuContext.active, hx]

theorem CpuContext.setActive_waiting : (x.setActive call).waiting = x.waiting := by
  cases hx : x.handler with
  | none => simp [CpuContext.setActive, CpuContext.waiting, hx]
  | some y => simp [CpuContext.setActive, CpuContext.waiting, hx]

theorem CpuContext.setActive_handled : (x.setActive call).handled = x.handled := by
  unfold CpuContext.setActive
  split <;> rfl

theorem CpuContext.setActive_obtained : (x.setActive call).obtained = x.obtained := by
  unfold CpuContext.setActive
  split <;> rfl

theorem CpuContext.finish_active (p : Nat) : (x.finish p).active = x.waiting := by
  cases hx : x.handler with
  | none => simp [CpuContext.finish, CpuContext.active, CpuContext.waiting, hx]
  | some y => simp [CpuContext.finish, CpuContext.active, CpuContext.waiting, hx]

theorem CpuContext.finish_waiting (p : Nat) : (x.finish p).waiting = none := by
  cases hx : x.handler with
  | none => simp [CpuContext.finish, CpuContext.waiting, hx]
  | some y => simp [CpuContext.finish, CpuContext.waiting, hx]

theorem CpuContext.finish_obtained (p : Nat) : (x.finish p).obtained = x.obtained ++ [p] := by
  unfold CpuContext.finish
  split <;> rfl

end Context

section Allowed

variable {i j : Fin maxNumCpus} {v : Option Nat} {p : Nat}

@[simp] theorem CpuCall.allowed_start : CpuCall.start.Allowed i v := by
  cases v <;> trivial

@[simp] theorem CpuCall.allowed_check : (CpuCall.check j).Allowed i v ↔ j = i := by
  cases v <;> rfl

@[simp] theorem CpuCall.allowed_build : (CpuCall.build j).Allowed i v ↔ v = none ∧ j = i := by
  cases v <;> simp [CpuCall.Allowed]

@[simp] theorem CpuCall.allowed_stealer :
    (CpuCall.stealer j p).Allowed i v ↔ v = none ∧ j = i := by
  cases v <;> simp [CpuCall.Allowed]

@[simp] theorem CpuCall.allowed_store : (CpuCall.store j p).Allowed i v ↔ v = none ∧ j = i := by
  cases v <;> simp [CpuCall.Allowed]

@[simp] theorem CpuCall.allowed_read :
    (CpuCall.read j).Allowed i v ↔ (∃ p, v = some p) ∧ j = i := by
  cases v <;> simp [CpuCall.Allowed]

@[simp] theorem CpuCall.allowed_got : (CpuCall.got p).Allowed i v ↔ v = some p := by
  cases v <;> simp [CpuCall.Allowed, eq_comm]

@[simp] theorem CpuCall.not_allowed_panicked : ¬ CpuCall.panicked.Allowed i v := by
  cases v <;> exact not_false

end Allowed

section Tables

variable {t t' : CpuTables κ} {c : κ} {i : Fin maxNumCpus} {x : CpuContext} {call : CpuCall}

theorem CpuTables.Owns.frame (h : t.Owns c i x) (hc : t'.cpus i = t.cpus i)
    (hs : t'.stealers i = t.stealers i)
    (hk : ∀ (p : Nat) (k : Cpu κ), t.heap[p]? = some k → k.owner = c → t'.heap[p]? = some k) :
    t'.Owns c i x := by
  refine ⟨?_, by rw [hc]; exact h.active, by rw [hc]; exact h.waiting⟩
  rcases h.slot with ⟨hc', hh, ho, hb⟩ | ⟨p, hc', hs', hk', ho, hu⟩
  · refine .empty (hc.trans hc') hh ho ?_
    unfold CpuTables.Built at hb ⊢
    split at hb
    · exact ⟨hs.trans hb.1, hk _ _ hb.2 rfl⟩
    · exact ⟨hs.trans hb.1, hk _ _ hb.2 rfl⟩
    · exact hs.trans hb
  · exact .full p (hc.trans hc') (hs.trans hs') (hk _ _ hk' rfl) ho hu

theorem CpuTables.Owns.new : (Cores.new : Cores κ).tables.Owns c i ((Cores.new : Cores κ).ctx c) :=
  ⟨.empty rfl rfl rfl rfl, fun _ h => by simp [Cores.new, CpuContext.active] at h,
    fun _ h => by simp [Cores.new, CpuContext.waiting] at h⟩

theorem CpuCall.Allowed.keep {v : Option Nat} {p : Nat} (h : call.Allowed i v)
    (hf : call.filling = false) (hv : v = none) : call.Allowed i (some p) := by
  subst hv
  cases call <;> simp_all [CpuCall.filling]

/-- The call that works on the slot has moved to a new place and the slot has the same
contents as before. -/
theorem CpuTables.Owns.setActive (h : t.Owns c i x) (hc : t'.cpus i = t.cpus i)
    (hs : t'.Slot c i (x.setActive call)) (ha : call.Allowed i (t.cpus i)) :
    t'.Owns c i (x.setActive call) := by
  refine ⟨hs, ?_, ?_⟩
  · intro call' hcall
    rw [CpuContext.setActive_active, Option.some.injEq] at hcall
    rw [hc, ← hcall]
    exact ha
  · rw [CpuContext.setActive_waiting, hc]
    exact h.waiting

theorem CpuTables.Slot.full_of_some (h : t.Slot c i x) {p : Nat} (hc : t.cpus i = some p) :
    t.stealers i = some p ∧ t.heap[p]? = some ⟨.ofNat x.handled, c⟩ ∧
      (∀ q ∈ x.obtained, q = p) ∧ x.Used := by
  rcases h with ⟨hc', -, -, -⟩ | ⟨q, hc', hs, hk, ho, hu⟩
  · simp [hc] at hc'
  · have hq : q = p := by simpa [hc] using hc'.symm
    subst q
    exact ⟨hs, hk, ho, hu⟩

theorem CpuTables.Slot.empty_of_none (h : t.Slot c i x) (hc : t.cpus i = none) :
    x.handled = 0 ∧ x.obtained = [] ∧ t.Built c i x.active := by
  rcases h with ⟨-, hh, ho, hb⟩ | ⟨q, hc', -, -, -, -⟩
  · exact ⟨hh, ho, hb⟩
  · simp [hc] at hc'

theorem CpuTables.Slot.empty_setActive (hc : t.cpus i = none) (hh : x.handled = 0)
    (ho : x.obtained = []) (hb : t.Built c i (some call)) : t.Slot c i (x.setActive call) := by
  rw [← CpuContext.setActive_handled] at hh
  rw [← CpuContext.setActive_obtained] at ho
  refine .empty hc hh ho ?_
  rw [CpuContext.setActive_active]
  exact hb

theorem CpuTables.Slot.setActive (h : t.Slot c i x)
    (hr : x.active.any CpuCall.reading = true → call.reading = true)
    (hb : t.cpus i = none → t.Built c i (some call)) : t.Slot c i (x.setActive call) := by
  cases hc : t.cpus i with
  | none =>
    obtain ⟨hh, ho, -⟩ := h.empty_of_none hc
    exact .empty_setActive hc hh ho (hb hc)
  | some p =>
    obtain ⟨hs, hk, ho, hu⟩ := h.full_of_some hc
    have hu' : (x.setActive call).Used := by
      rw [CpuContext.Used, CpuContext.setActive_obtained, CpuContext.setActive_active,
        CpuContext.setActive_waiting]
      exact hu.imp_right (Or.imp_left hr)
    exact .full p hc hs (by rw [CpuContext.setActive_handled]; exact hk)
      (by rw [CpuContext.setActive_obtained]; exact ho) hu'

/-- The store fills the slot, and the call goes on to read it. -/
theorem CpuTables.Owns.store {reg : UInt32} {p : Nat} (h : t.Owns c i x)
    (hact : x.active = some (.store i p)) (hc : t.cpus i = none) :
    (t.advance reg c (.store i p)).1.Owns c i (x.setActive (.read i)) := by
  obtain ⟨hh, ho, hb⟩ := h.slot.empty_of_none hc
  rw [hact] at hb
  have hset : (t.advance reg c (.store i p)).1.cpus i = some p := by simp [CpuTables.advance]
  refine ⟨.full p hset hb.1 ?_ ?_ ?_, ?_, ?_⟩
  · rw [CpuContext.setActive_handled, hh]
    exact hb.2
  · rw [CpuContext.setActive_obtained, ho]
    simp
  · exact .inr (.inl (by rw [CpuContext.setActive_active]; rfl))
  · intro call' hcall
    rw [CpuContext.setActive_active, Option.some.injEq] at hcall
    rw [hset, ← hcall]
    simp
  · intro call' hcall
    rw [CpuContext.setActive_waiting] at hcall
    obtain ⟨hal, hf⟩ := h.waiting call' hcall
    rw [hset]
    exact ⟨hal.keep hf hc, hf⟩

theorem CpuTables.Owns.advance {reg : UInt32} (h : t.Owns c i x) (hi : i.val = reg.toNat)
    (hact : x.active = some call) (hgot : ∀ p, call ≠ .got p) :
    (t.advance reg c call).1.Owns c i (x.setActive (t.advance reg c call).2) := by
  have ha := h.active call hact
  have hempty := h.slot.empty_of_none
  rw [hact] at hempty
  cases call with
  | start =>
    have hlt : (lapicId reg).toNat < maxNumCpus := by
      have hi' : i.val = (lapicId reg).toNat := hi
      have := i.isLt
      omega
    have hj : (⟨(lapicId reg).toNat, hlt⟩ : Fin maxNumCpus) = i := Fin.ext hi.symm
    have hr : x.active.any CpuCall.reading = true → (CpuCall.check i).reading = true := by
      simp [hact, CpuCall.reading]
    simp only [CpuTables.advance, hlt, dif_pos, hj]
    exact h.setActive rfl (h.slot.setActive hr fun hc => (hempty hc).2.2) (by simp)
  | check j =>
    obtain rfl : j = i := CpuCall.allowed_check.mp ha
    have hr : ∀ call : CpuCall, x.active.any CpuCall.reading = true → call.reading = true := by
      simp [hact, CpuCall.reading]
    cases hc : t.cpus j with
    | none =>
      simp only [CpuTables.advance, hc, Option.isNone_none, if_true]
      exact h.setActive rfl (h.slot.setActive (hr _) fun hc => (hempty hc).2.2) (by simp [hc])
    | some p =>
      simp only [CpuTables.advance, hc, Option.isNone_some, Bool.false_eq_true, if_false]
      exact h.setActive rfl (h.slot.setActive (hr _) fun hc => (hempty hc).2.2) (by simp [hc])
  | build j =>
    obtain ⟨hc, rfl⟩ := CpuCall.allowed_build.mp ha
    obtain ⟨hh, ho, hb⟩ := hempty hc
    exact h.setActive rfl (.empty_setActive hc hh ho ⟨hb, by simp [CpuTables.advance]⟩)
      (CpuCall.allowed_stealer.mpr ⟨hc, rfl⟩)
  | stealer j p =>
    obtain ⟨hc, rfl⟩ := CpuCall.allowed_stealer.mp ha
    obtain ⟨hh, ho, hb⟩ := hempty hc
    exact h.setActive rfl (.empty_setActive hc hh ho ⟨by simp [CpuTables.advance], hb.2⟩)
      (CpuCall.allowed_store.mpr ⟨hc, rfl⟩)
  | store j p =>
    obtain ⟨hc, rfl⟩ := CpuCall.allowed_store.mp ha
    exact h.store hact hc
  | read j =>
    obtain ⟨⟨p, hc⟩, rfl⟩ := CpuCall.allowed_read.mp ha
    simp only [CpuTables.advance, hc, Option.map_some, Option.getD_some]
    exact h.setActive rfl (h.slot.setActive (fun _ => rfl) fun hn => by simp [hc] at hn)
      (CpuCall.allowed_got.mpr hc)
  | got p => exact absurd rfl (hgot p)
  | panicked => exact absurd ha CpuCall.not_allowed_panicked

theorem CpuTables.Owns.finish (h : t.Owns c i x) {p : Nat} (hact : x.active = some (.got p)) :
    (if x.handler.isSome then t.tick p else t).Owns c i (x.finish p) := by
  have hc : t.cpus i = some p := CpuCall.allowed_got.mp (h.active _ hact)
  obtain ⟨hs, hk, ho, -⟩ := h.slot.full_of_some hc
  have hu : (x.finish p).Used := .inl (by simp [CpuContext.finish_obtained])
  have ho' : ∀ q ∈ (x.finish p).obtained, q = p := by
    rw [CpuContext.finish_obtained]
    intro q hq
    rcases List.mem_append.mp hq with hq | hq
    · exact ho q hq
    · exact List.mem_singleton.mp hq
  have hslot : (if x.handler.isSome then t.tick p else t).Slot c i (x.finish p) := by
    cases hx : x.handler with
    | none => exact .full p hc hs (by simpa [CpuContext.finish, hx] using hk) ho' hu
    | some y =>
      refine .full p hc hs ?_ ho' hu
      simp [CpuTables.tick, List.getElem?_modify_eq, hk, Cpu.tick, CpuContext.finish, hx,
        UInt64.ofNat_add]
  refine ⟨hslot, ?_, ?_⟩
  · intro call hcall
    rw [CpuContext.finish_active] at hcall
    have hw := (h.waiting call hcall).1
    split <;> exact hw
  · rw [CpuContext.finish_waiting]
    simp

theorem CpuTables.advance_start {reg : UInt32} : (t.advance reg c .start).1 = t := by
  simp only [CpuTables.advance]
  split <;> rfl

/-- A step of a call touches only the slot that the call uses, and no existing `Cpu`. -/
theorem CpuTables.advance_frame {reg : UInt32} {v : Option Nat} {j : Fin maxNumCpus}
    (ha : call.Allowed i v) (hj : j ≠ i) :
    (t.advance reg c call).1.cpus j = t.cpus j ∧
      (t.advance reg c call).1.stealers j = t.stealers j := by
  cases call with
  | start => rw [CpuTables.advance_start]; exact ⟨rfl, rfl⟩
  | stealer k p =>
    obtain ⟨-, rfl⟩ := CpuCall.allowed_stealer.mp ha
    simp [CpuTables.advance, hj]
  | store k p =>
    obtain ⟨-, rfl⟩ := CpuCall.allowed_store.mp ha
    simp [CpuTables.advance, hj]
  | _ => exact ⟨rfl, rfl⟩

theorem CpuTables.advance_heap {reg : UInt32} {p : Nat} {k : Cpu κ} (h : t.heap[p]? = some k) :
    (t.advance reg c call).1.heap[p]? = some k := by
  cases call with
  | start => rw [CpuTables.advance_start]; exact h
  | build j =>
    have hp : p < t.heap.length := (List.getElem?_eq_some_iff.mp h).1
    simpa [CpuTables.advance, List.getElem?_append_left hp] using h
  | _ => exact h

theorem CpuTables.tick_heap {p q : Nat} {k : Cpu κ} (hq : q ≠ p) (h : t.heap[q]? = some k) :
    (t.tick p).heap[q]? = some k := by
  simpa [CpuTables.tick, List.getElem?_modify, Ne.symm hq] using h

theorem CpuTables.Built.of_not_filling {call : Option CpuCall} (h : t.Built c i call)
    (hf : call.any CpuCall.filling = false) : t.stealers i = none := by
  rcases call with _ | call
  · exact h
  · cases call <;> simp_all [CpuTables.Built, CpuCall.filling]

/-- A new call begins, of the main line or of a handler, over a call that is not filling
the slot. -/
theorem CpuTables.Owns.begin {y : CpuContext} (h : t.Owns c i x) (hact : y.active = some .start)
    (hwait : y.waiting = x.active) (hw : x.waiting = none) (hh : y.handled = x.handled)
    (ho : y.obtained = x.obtained) (hf : x.active.any CpuCall.filling = false) : t.Owns c i y := by
  refine ⟨?_, ?_, ?_⟩
  · cases hc : t.cpus i with
    | none =>
      obtain ⟨hh', ho', hb⟩ := h.slot.empty_of_none hc
      refine .empty hc (hh.trans hh') (ho.trans ho') ?_
      rw [hact]
      exact hb.of_not_filling hf
    | some p =>
      obtain ⟨hs, hk, ho', hu⟩ := h.slot.full_of_some hc
      have hu' : y.Used := by
        rw [CpuContext.Used, hw] at hu
        rw [CpuContext.Used, ho, hwait]
        rcases hu with hu | hu | hu
        · exact .inl hu
        · exact .inr (.inr hu)
        · simp at hu
      exact .full p hc hs (by rw [hh]; exact hk) (by rw [ho]; exact ho') hu'
  · intro call hcall
    rw [hact, Option.some.injEq] at hcall
    rw [← hcall]
    exact CpuCall.allowed_start
  · intro call hcall
    rw [hwait] at hcall
    exact ⟨h.active call hcall, by simpa [hcall] using hf⟩

theorem CpuContext.Outside.begin {x y : CpuContext} (h : x.Outside)
    (hact : y.active = some .start) (hwait : y.waiting = x.active) (ho : y.obtained = x.obtained) :
    y.Outside := by
  refine ⟨?_, ?_, ho.trans h.obtained⟩
  · intro call hcall
    rw [hact, Option.some.injEq] at hcall
    exact .inl hcall.symm
  · intro call hcall
    rw [hwait] at hcall
    exact h.active call hcall

end Tables

variable [DecidableEq κ] {regs : κ → UInt32} {s : Cores κ}

@[simp] theorem Cores.set_ctx_same (c : κ) (t : CpuTables κ) (x : CpuContext) :
    (s.set c t x).ctx c = x := by
  simp [Cores.set]

theorem Cores.set_ctx_ne {c d : κ} (h : d ≠ c) (t : CpuTables κ) (x : CpuContext) :
    (s.set c t x).ctx d = s.ctx d := by
  simp [Cores.set, h]

@[simp] theorem Cores.set_tables (c : κ) (t : CpuTables κ) (x : CpuContext) :
    (s.set c t x).tables = t := rfl

omit [DecidableEq κ] in
theorem Cores.new_tidy : (Cores.new : Cores κ).Tidy regs where
  owns _ _ _ := .new
  outside c _ := ⟨fun _ h => by simp [Cores.new, CpuContext.active] at h,
    fun _ h => by simp [Cores.new, CpuContext.waiting] at h, rfl⟩
  stray _ _ := rfl

/-- A step of `c` keeps the invariant if it does for `c` and leaves alone the slots and
the `Cpu`s of the others. -/
theorem Cores.Tidy.set (h : s.Tidy regs) (hinj : Function.Injective regs) {c : κ}
    {t : CpuTables κ} {x : CpuContext}
    (hin : ∀ i, i.val = (regs c).toNat → t.Owns c i x)
    (hout : maxNumCpus ≤ (regs c).toNat → x.Outside)
    (hslots : ∀ j : Fin maxNumCpus, j.val ≠ (regs c).toNat →
      t.cpus j = s.tables.cpus j ∧ t.stealers j = s.tables.stealers j)
    (hheap : ∀ (p : Nat) (k : Cpu κ), s.tables.heap[p]? = some k → k.owner ≠ c →
      t.heap[p]? = some k) : (s.set c t x).Tidy regs := by
  constructor
  · intro d i hi
    by_cases hd : d = c
    · subst d
      simpa using hin i hi
    · have hne : i.val ≠ (regs c).toNat := by
        intro he
        exact hd (hinj (UInt32.toNat_inj.mp (hi.symm.trans he)))
      rw [Cores.set_ctx_ne hd]
      refine (h.owns d i hi).frame (hslots i hne).1 (hslots i hne).2 ?_
      intro p k hk hown
      exact hheap p k hk (by rw [hown]; exact hd)
  · intro d hd
    by_cases hdc : d = c
    · subst d
      simpa using hout hd
    · rw [Cores.set_ctx_ne hdc]
      exact h.outside d hd
  · intro i hi
    exact (hslots i (hi c)).2.trans (h.stray i hi)

theorem Cores.Tidy.begin (h : s.Tidy regs) (hinj : Function.Injective regs) {c : κ}
    {y : CpuContext} (hact : y.active = some .start) (hwait : y.waiting = (s.ctx c).active)
    (hw : (s.ctx c).waiting = none) (hh : y.handled = (s.ctx c).handled)
    (ho : y.obtained = (s.ctx c).obtained) (hf : (s.ctx c).active.any CpuCall.filling = false) :
    (s.set c s.tables y).Tidy regs :=
  h.set hinj (fun i hi => (h.owns c i hi).begin hact hwait hw hh ho hf)
    (fun hout => (h.outside c hout).begin hact hwait ho) (fun _ _ => ⟨rfl, rfl⟩)
    (fun _ _ hk _ => hk)

theorem Cores.Tidy.advance (h : s.Tidy regs) (hinj : Function.Injective regs) {c : κ}
    {call : CpuCall} (hact : (s.ctx c).active = some call) (hgot : ∀ p, call ≠ .got p) :
    (s.set c (s.tables.advance (regs c) c call).1
      ((s.ctx c).setActive (s.tables.advance (regs c) c call).2)).Tidy regs := by
  have hslots : ∀ j : Fin maxNumCpus, j.val ≠ (regs c).toNat →
      (s.tables.advance (regs c) c call).1.cpus j = s.tables.cpus j ∧
        (s.tables.advance (regs c) c call).1.stealers j = s.tables.stealers j := by
    intro j hj
    by_cases hlt : (regs c).toNat < maxNumCpus
    · have ha := (h.owns c ⟨_, hlt⟩ rfl).active call hact
      exact CpuTables.advance_frame ha (fun he => hj (by rw [he]))
    · rcases (h.outside c (Nat.le_of_not_lt hlt)).active call hact with rfl | rfl
      · rw [CpuTables.advance_start]
        exact ⟨rfl, rfl⟩
      · exact ⟨rfl, rfl⟩
  have hout : maxNumCpus ≤ (regs c).toNat →
      ((s.ctx c).setActive (s.tables.advance (regs c) c call).2).Outside := by
    intro hle
    have ho := h.outside c hle
    refine ⟨?_, by rw [CpuContext.setActive_waiting]; exact ho.waiting,
      by rw [CpuContext.setActive_obtained]; exact ho.obtained⟩
    intro call' hcall
    rw [CpuContext.setActive_active, Option.some.injEq] at hcall
    subst hcall
    rcases ho.active call hact with rfl | rfl
    · have hnot : ¬ (lapicId (regs c)).toNat < maxNumCpus := Nat.not_lt.mpr hle
      exact .inr (by simp [CpuTables.advance, hnot])
    · exact .inr rfl
  exact h.set hinj (fun i hi => (h.owns c i hi).advance hi hact hgot) hout hslots
    (fun p k hk _ => CpuTables.advance_heap hk)

theorem Cores.Tidy.finish (h : s.Tidy regs) (hinj : Function.Injective regs) {c : κ} {p : Nat}
    (hact : (s.ctx c).active = some (.got p)) :
    (s.set c (if (s.ctx c).handler.isSome then s.tables.tick p else s.tables)
      ((s.ctx c).finish p)).Tidy regs := by
  have hlt : (regs c).toNat < maxNumCpus := by
    by_contra hge
    rcases (h.outside c (Nat.le_of_not_lt hge)).active _ hact with he | he <;> cases he
  have howns := h.owns c ⟨_, hlt⟩ rfl
  refine h.set hinj (fun i hi => (h.owns c i hi).finish hact)
    (fun hle => absurd hlt (Nat.not_lt.mpr hle)) (fun j _ => by split <;> exact ⟨rfl, rfl⟩) ?_
  intro q k hk hown
  have hne : q ≠ p := by
    rintro rfl
    have hc := CpuCall.allowed_got.mp (howns.active _ hact)
    rw [(howns.slot.full_of_some hc).2.1, Option.some.injEq] at hk
    exact hown (by rw [← hk])
  split
  · exact CpuTables.tick_heap hne hk
  · exact hk

theorem Cores.Tidy.next (h : s.Tidy regs) (hinj : Function.Injective regs) {a : CoresAct κ}
    (he : s.Enabled a) (hok : s.Undisturbed a) : (s.next regs a).Tidy regs := by
  cases a with
  | call c =>
    obtain ⟨hm, hh⟩ := he
    refine h.begin hinj ?_ ?_ ?_ rfl rfl ?_ <;> simp [CpuContext.active, CpuContext.waiting, hm, hh]
  | interrupt c =>
    have hh : (s.ctx c).handler = none := he
    refine h.begin hinj ?_ ?_ ?_ rfl rfl ?_ <;> simp [CpuContext.active, CpuContext.waiting, hh]
    simpa [Cores.Undisturbed] using hok
  | step c =>
    cases hact : (s.ctx c).active with
    | none => exact absurd hact he
    | some call =>
      simp only [Cores.next, hact, Option.map_some, Option.getD_some]
      cases call with
      | got p => exact h.finish hinj hact
      | _ => exact h.advance hinj hact (fun p hp => by cases hp)

theorem Cores.tidy_of_reaches (hinj : Function.Injective regs)
    (h : (cores regs).Reaches Cores.Undisturbed Cores.new s) : s.Tidy regs :=
  h.invariant (I := fun s => s.Tidy regs) Cores.new_tidy
    (fun _ _ hs he hok => hs.next hinj he hok)

section Results

variable {c : κ}

theorem CpuContext.active_or_waiting {x : CpuContext} {call : CpuCall} (h : x.main = some call) :
    x.active = some call ∨ x.waiting = some call := by
  cases hx : x.handler with
  | none => exact .inl (by simp [CpuContext.active, hx, h])
  | some y => exact .inr (by simp [CpuContext.waiting, hx, h])

omit [DecidableEq κ] in
theorem Cores.Tidy.main_allowed (h : s.Tidy regs) {i : Fin maxNumCpus}
    (hi : i.val = (regs c).toNat) {call : CpuCall} (hm : (s.ctx c).main = some call) :
    call.Allowed i (s.tables.cpus i) := by
  rcases CpuContext.active_or_waiting hm with ha | hw
  · exact (h.owns c i hi).active call ha
  · exact ((h.owns c i hi).waiting call hw).1

omit [DecidableEq κ] in
theorem Cores.Tidy.obtained (h : s.Tidy regs) {p : Nat} (hp : p ∈ (s.ctx c).obtained) :
    ∃ i : Fin maxNumCpus, i.val = (regs c).toNat ∧ s.tables.cpus i = some p ∧
      (s.tables.heap[p]?).map Cpu.owner = some c := by
  by_cases hlt : (regs c).toNat < maxNumCpus
  · refine ⟨⟨_, hlt⟩, rfl, ?_⟩
    rcases (h.owns c ⟨_, hlt⟩ rfl).slot with ⟨-, -, ho, -⟩ | ⟨q, hc, -, hk, ho, -⟩
    · simp [ho] at hp
    · rw [ho p hp]
      exact ⟨hc, by simp [hk]⟩
  · simp [(h.outside c (Nat.le_of_not_lt hlt)).obtained] at hp

omit [DecidableEq κ] in
theorem Cores.Tidy.coherent (h : s.Tidy regs) : s.Coherent (regs c) c := by
  constructor
  · intro p hp q hq
    obtain ⟨i, hi, hc, -⟩ := h.obtained hp
    obtain ⟨j, hj, hc', -⟩ := h.obtained hq
    have hij : i = j := Fin.ext (hi.trans hj.symm)
    subst hij
    simpa [hc] using hc'
  · intro i hi hf
    rcases (h.owns c i hi).slot with ⟨hc, -, -, hb⟩ | ⟨p, hc, hs, -, -, -⟩
    · rw [hc]
      refine hb.of_not_filling ?_
      simp only [CpuContext.filling, Bool.or_eq_false_iff] at hf
      cases hx : (s.ctx c).handler with
      | none => simpa [CpuContext.active, hx] using hf.1
      | some y => simpa [CpuContext.active, hx] using hf.2
    · rw [hs, hc]
  · intro p hm
    by_cases hlt : (regs c).toNat < maxNumCpus
    · have hc := CpuCall.allowed_got.mp (h.main_allowed (i := ⟨_, hlt⟩) rfl hm)
      have hk := ((h.owns c ⟨_, hlt⟩ rfl).slot.full_of_some hc).2.1
      simp [hk, UInt64.toNat_ofNat']
    · have hout := h.outside c (Nat.le_of_not_lt hlt)
      rcases CpuContext.active_or_waiting hm with ha | hw
      · rcases hout.active _ ha with he | he <;> cases he
      · rcases hout.waiting _ hw with he | he <;> cases he

theorem cpu_created_once {reg : UInt32} {s : Cores Unit}
    (h : (cores fun _ => reg).Reaches Cores.Undisturbed Cores.new s) : s.Coherent reg () :=
  (Cores.tidy_of_reaches (fun _ _ _ => rfl) h).coherent

instance Cores.decUndisturbed (s : Cores κ) : (a : CoresAct κ) → Decidable (s.Undisturbed a)
  | .interrupt c => inferInstanceAs (Decidable ((s.ctx c).main.any CpuCall.filling = false))
  | .call _ | .step _ => isTrue trivial

/-- The main line's first call returns, is interrupted and calls again. -/
def tickedRun (c : κ) : List (CoresAct κ) :=
  .call c :: List.replicate 7 (.step c) ++ .interrupt c :: List.replicate 4 (.step c) ++
    .call c :: List.replicate 3 (.step c)

theorem cpu_created_once_tickedRun :
    ((cores fun _ => 0).after Cores.new (tickedRun ()) : Cores Unit).Coherent 0 () :=
  cpu_created_once (System.reaches_after (by decide) (by decide))

/-- A handler enters `cpu()` after the main line's first call has found the slot empty. -/
def doubledRun (c : κ) : List (CoresAct κ) :=
  .call c :: List.replicate 3 (.step c) ++ .interrupt c :: List.replicate 7 (.step c) ++
    List.replicate 4 (.step c)

theorem handler_makes_second_cpu :
    ∃ s : Cores Unit, (cores fun _ => 0).Reaches anyStep Cores.new s ∧ ¬ s.Coherent 0 () := by
  refine ⟨(cores fun _ => 0).after Cores.new (doubledRun ()),
    System.reaches_after (by decide) (System.meets_anyStep _), ?_⟩
  intro h
  have hsame := h.same 0 (by decide) 1 (by decide)
  simp at hsame

omit [DecidableEq κ] in
theorem Cores.Tidy.stealer_slot (h : s.Tidy regs)
    {j : Fin maxNumCpus} {p : Nat} (hp : s.tables.stealers j = some p)
    (hown : (s.tables.heap[p]?).map Cpu.owner = some c) : j.val = (regs c).toNat := by
  have hex : ∃ d, j.val = (regs d).toNat := by
    by_contra hno
    simp [h.stray j (fun d hd => hno ⟨d, hd⟩)] at hp
  obtain ⟨d, hd⟩ := hex
  have hdown : (s.tables.heap[p]?).map Cpu.owner = some d := by
    rcases (h.owns d j hd).slot with ⟨-, -, -, hb⟩ | ⟨q, -, hs, hk, -, -⟩
    · unfold CpuTables.Built at hb
      split at hb
      · simp [hb.1] at hp
      · rw [hb.1, Option.some.injEq] at hp
        simp [← hp, hb.2, Cpu.new]
      · simp [hb] at hp
    · rw [hs, Option.some.injEq] at hp
      simp [← hp, hk]
  have hdc : d = c := by simpa [hdown] using hown
  rw [← hdc]
  exact hd

theorem Cores.Tidy.mem_stealersOf (h : s.Tidy regs) (hlt : (regs c).toNat < maxNumCpus) {p : Nat} :
    p ∈ s.tables.stealersOf c ↔
      s.tables.stealers ⟨_, hlt⟩ = some p ∧ (s.tables.heap[p]?).map Cpu.owner = some c := by
  simp only [CpuTables.stealersOf, CpuTables.stealerList, List.mem_filter, List.mem_filterMap,
    List.mem_finRange, true_and, decide_eq_true_eq]
  constructor
  · rintro ⟨⟨j, hj⟩, hown⟩
    have hji : j = ⟨_, hlt⟩ := Fin.ext (h.stealer_slot hj hown)
    exact ⟨by rw [← hji]; exact hj, hown⟩
  · rintro ⟨hp, hown⟩
    exact ⟨⟨_, hp⟩, hown⟩

theorem Cores.Tidy.nodup_stealersOf (h : s.Tidy regs) : (s.tables.stealersOf c).Nodup := by
  rw [CpuTables.stealersOf, CpuTables.stealerList, List.filter_filterMap]
  refine List.Nodup.filterMap ?_ (List.nodup_finRange _)
  intro j j' q hj hj'
  simp only [Option.mem_def, Option.filter_eq_some_iff, decide_eq_true_eq] at hj hj'
  exact Fin.ext ((h.stealer_slot hj.1 hj.2).trans (h.stealer_slot hj'.1 hj'.2).symm)

/-- Outside a call of `c`, the only stealer of a `Cpu` that `c` made is in its slot. -/
theorem Cores.Tidy.stealersOf (h : s.Tidy regs) (hlt : (regs c).toNat < maxNumCpus)
    (hidle : (s.ctx c).active = none) :
    (s.tables.stealersOf c).length = if (s.ctx c).obtained = [] then 0 else 1 := by
  rcases (h.owns c ⟨_, hlt⟩ rfl).slot with ⟨-, -, ho, hb⟩ | ⟨p, -, hs, hk, -, hu⟩
  · rw [hidle] at hb
    have hnil : s.tables.stealersOf c = [] := by
      apply List.eq_nil_iff_forall_not_mem.mpr
      intro p hp
      have hs := ((h.mem_stealersOf hlt).mp hp).1
      rw [show s.tables.stealers _ = none from hb] at hs
      cases hs
    simp [hnil, ho]
  · have hused : (s.ctx c).obtained ≠ [] := by
      have hw : (s.ctx c).waiting = none := by
        cases hx : (s.ctx c).handler with
        | none => simp [CpuContext.waiting, hx]
        | some y => simp [CpuContext.active, hx] at hidle
      rw [CpuContext.Used, hidle, hw] at hu
      simpa using hu
    have hperm : (s.tables.stealersOf c).Perm [p] := by
      rw [List.perm_ext_iff_of_nodup h.nodup_stealersOf (List.nodup_singleton p)]
      intro q
      rw [h.mem_stealersOf hlt, hs, List.mem_singleton, Option.some.injEq]
      constructor
      · rintro ⟨hq, -⟩
        exact hq.symm
      · rintro rfl
        exact ⟨rfl, by simp [hk]⟩
    simp [hperm.length_eq, hused]

theorem Cores.Tidy.ownSlots (h : s.Tidy regs) {apicId : κ → Nat}
    (hid : ∀ c, (regs c).toNat = apicId c) (hlt : ∀ c, apicId c < maxNumCpus) :
    s.OwnSlots apicId := by
  constructor
  · intro c hm
    have hc : (regs c).toNat < maxNumCpus := (hid c).symm ▸ hlt c
    exact absurd (h.main_allowed (i := ⟨_, hc⟩) rfl hm) CpuCall.not_allowed_panicked
  · intro c p hp i hi
    obtain ⟨j, hj, hc, -⟩ := h.obtained hp
    have hij : i = j := Fin.ext (hi.trans ((hid c).symm.trans hj.symm))
    rw [hij]
    exact hc
  · intro c d p hp hq
    obtain ⟨-, -, -, hown⟩ := h.obtained hp
    obtain ⟨-, -, -, hown'⟩ := h.obtained hq
    simpa [hown] using hown'
  · intro c hidle
    exact h.stealersOf ((hid c).symm ▸ hlt c) hidle

theorem lapicIdReg_toNat {n : Nat} (h : n < maxNumCpus) : (lapicIdReg n).toNat = n * 2 ^ 24 := by
  have hlt : n * 2 ^ 24 < 2 ^ 32 := by
    unfold maxNumCpus at h
    omega
  rw [lapicIdReg, UInt32.toNat_ofNat', Nat.shiftLeft_eq, Nat.mod_eq_of_lt hlt]

/-- The first call of a CPU whose index is past the end of the tables panics. -/
theorem Cores.call_panics (regs : κ → UInt32) (hge : maxNumCpus ≤ (regs c).toNat) :
    ∃ s, (cores regs).Reaches Cores.CallsOnly Cores.new s ∧ (s.ctx c).main = some .panicked := by
  have hnot : ¬ (lapicId (regs c)).toNat < maxNumCpus := Nat.not_lt.mpr hge
  refine ⟨(cores regs).after Cores.new [.call c, .step c], System.reaches_after ?_ ?_, ?_⟩
  · simp [System.Legal, cores, Cores.Enabled, Cores.next, Cores.new, CpuContext.active]
  · simp [System.Meets, Cores.CallsOnly]
  · simp [System.after, cores, Cores.next, Cores.new, CpuContext.active, Cores.run,
      CpuTables.advance, CpuContext.setActive, hnot]

theorem own_slots_iff_boot_processor (apicId : κ → Nat) (hinj : Function.Injective apicId)
    (hlt : ∀ c, apicId c < maxNumCpus) :
    (∀ s, (cores fun c => lapicIdReg (apicId c)).Reaches Cores.CallsOnly Cores.new s →
      s.OwnSlots apicId) ↔ ∀ c, apicId c = 0 := by
  constructor
  · intro h c
    by_contra hne
    have hge : maxNumCpus ≤ (lapicIdReg (apicId c)).toNat := by
      rw [lapicIdReg_toNat (hlt c), maxNumCpus]
      omega
    obtain ⟨s, hs, hp⟩ := Cores.call_panics (fun c => lapicIdReg (apicId c)) hge
    exact (h s hs).index c hp
  · intro h s hs
    have hsame : ∀ c d : κ, c = d := fun c d => hinj ((h c).trans (h d).symm)
    have hquiet : (cores fun c => lapicIdReg (apicId c)).Reaches Cores.Undisturbed Cores.new s := by
      refine hs.mono ?_
      rintro s (_ | _ | _) hok
      · trivial
      · exact hok.elim
      · trivial
    refine (Cores.tidy_of_reaches (fun c d _ => hsame c d) hquiet).ownSlots ?_ hlt
    intro c
    rw [lapicIdReg_toNat (hlt c), h c, Nat.zero_mul]

theorem own_slots_iff_boot_processor_pair :
    (∀ s, (cores fun c : Fin 2 => lapicIdReg c.val).Reaches Cores.CallsOnly Cores.new s →
      s.OwnSlots Fin.val) ↔ ∀ c : Fin 2, c.val = 0 :=
  own_slots_iff_boot_processor Fin.val Fin.val_injective (fun c => by unfold maxNumCpus; omega)

theorem second_cpu_panics :
    ∃ s, (cores fun c : Fin 2 => lapicIdReg c.val).Reaches Cores.CallsOnly Cores.new s ∧
      ¬ s.OwnSlots Fin.val := by
  refine ⟨(cores fun c : Fin 2 => lapicIdReg c.val).after Cores.new [.call 1, .step 1],
    System.reaches_after (by decide) (by simp [System.Meets, Cores.CallsOnly]), ?_⟩
  intro h
  exact h.index 1 (by decide)

end Results

end Nacl
