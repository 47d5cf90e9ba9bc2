import Mathlib.Data.Fintype.Basic
import Nacl.Lock

/-! `serial::_print` on any number of CPUs, one atomic operation at a time: the
swap of `INIT`, each compare-exchange of `lock_or_spin`, `guard.init()` from its
start to its end, each byte of `write_fmt`, and the drop of the guard. The wake of
`NEW_WAKER` in that drop finds no waker and is left out. -/

namespace Nacl

open Guarded

inductive PortEvent
  | initStarted
  | initialised
  | byte (b : UInt8)
deriving DecidableEq

/-- The place of a CPU in `_print`. `first` says that its swap found `INIT` clear;
`text` is what `write_fmt` has still to send. -/
inductive SerialPc
  | idle
  | swap (text : List UInt8)
  | spin (first : Bool) (text : List UInt8)
  | init (text : List UInt8)
  | initialising (text : List UInt8)
  | write (text : List UInt8)
deriving DecidableEq

structure Serial (κ : Type*) where
  init : Bool
  locked : Bool
  pcs : κ → SerialPc
  log : List PortEvent
  calls : Nat

inductive SerialAct (κ : Type*)
  | print (c : κ) (text : List UInt8)
  | swap (c : κ) (text : List UInt8)
  | spin (c : κ) (first : Bool) (text : List UInt8)
  | startInit (c : κ) (text : List UInt8)
  | endInit (c : κ) (text : List UInt8)
  | write (c : κ) (b : UInt8) (text : List UInt8)
  | drop (c : κ)

variable {κ : Type*} [DecidableEq κ]

def Serial.new : Serial κ := ⟨false, false, fun _ => .idle, [], 0⟩

def Serial.setPc (s : Serial κ) (c : κ) (pc : SerialPc) : Serial κ :=
  { s with pcs := Function.update s.pcs c pc }

def Serial.record (s : Serial κ) (e : PortEvent) : Serial κ := { s with log := s.log ++ [e] }

def Serial.Enabled (s : Serial κ) : SerialAct κ → Prop
  | .print c _ => s.pcs c = .idle
  | .swap c text => s.pcs c = .swap text
  | .spin c first text => s.pcs c = .spin first text
  | .startInit c text => s.pcs c = .init text
  | .endInit c text => s.pcs c = .initialising text
  | .write c b text => s.pcs c = .write (b :: text)
  | .drop c => s.pcs c = .write []

def Serial.next (s : Serial κ) : SerialAct κ → Serial κ
  | .print c text => { s with calls := s.calls + 1 }.setPc c (.swap text)
  | .swap c text => { s with init := true }.setPc c (.spin (!s.init) text)
  | .spin c first text => match check s.locked with
    | (.ok _, flag) =>
      { s with locked := flag }.setPc c (if first then .init text else .write text)
    | (.error _, _) => s
  | .startInit c text => (s.record .initStarted).setPc c (.initialising text)
  | .endInit c text => (s.record .initialised).setPc c (.write text)
  | .write c b text => (s.record (.byte b)).setPc c (.write text)
  | .drop c => { s with locked := false }.setPc c .idle

instance Serial.decEnabled (s : Serial κ) : (a : SerialAct κ) → Decidable (s.Enabled a)
  | .print c _ => inferInstanceAs (Decidable (s.pcs c = .idle))
  | .swap c text => inferInstanceAs (Decidable (s.pcs c = .swap text))
  | .spin c first text => inferInstanceAs (Decidable (s.pcs c = .spin first text))
  | .startInit c text => inferInstanceAs (Decidable (s.pcs c = .init text))
  | .endInit c text => inferInstanceAs (Decidable (s.pcs c = .initialising text))
  | .write c b text => inferInstanceAs (Decidable (s.pcs c = .write (b :: text)))
  | .drop c => inferInstanceAs (Decidable (s.pcs c = .write []))

def serial : System (Serial κ) (SerialAct κ) where
  enabled := Serial.Enabled
  next := Serial.next
  dec _ _ := inferInstance

def SerialPc.claimed : SerialPc → Bool
  | .spin true _ | .init _ => true
  | _ => false

def SerialPc.holds : SerialPc → Bool
  | .init _ | .initialising _ | .write _ => true
  | _ => false

def SerialPc.waits : SerialPc → Bool
  | .spin true _ => true
  | _ => false

/-- No CPU whose swap found `INIT` set takes the lock to send a byte while the CPU
that set `INIT` is still waiting for the lock. -/
def Serial.FirstInLine (s : Serial κ) : SerialAct κ → Prop
  | .spin _ false (_ :: _) => s.locked = false → ∀ d, (s.pcs d).waits = false
  | _ => True

/-- `init` runs at most once, each byte comes after its end, and it has run once
all calls made, if any, have returned. -/
structure Serial.InitFirst (s : Serial κ) : Prop where
  once : s.log.count .initStarted ≤ 1
  before : ∀ l b r, s.log = l ++ .byte b :: r → .initialised ∈ l
  executed : 0 < s.calls → (∀ c, s.pcs c = .idle) → s.log.count .initStarted = 1

def SerialPc.outside : SerialPc → Bool
  | .idle | .swap _ => true
  | _ => false

/-- A CPU that did not set `INIT` and has no byte to send under the lock. -/
def SerialPc.bystander : SerialPc → Bool
  | .idle | .swap _ | .spin false _ | .write [] => true
  | _ => false

def SerialPc.later : SerialPc → Bool
  | .idle | .swap _ | .spin false _ | .write _ => true
  | _ => false

def SerialPc.inInit : SerialPc → Bool
  | .initialising _ => true
  | _ => false

inductive PortPhase (κ : Type*)
  | fresh
  | claimed (c : κ)
  | initialising (c : κ)
  | ready

def PortPhase.Allows : PortPhase κ → κ → SerialPc → Prop
  | .fresh, _, pc => pc.outside = true
  | .claimed c, d, pc => if d = c then pc.claimed = true else pc.bystander = true
  | .initialising c, d, pc => if d = c then pc.inInit = true else pc.bystander = true
  | .ready, _, pc => pc.later = true

def PortPhase.Log : PortPhase κ → List PortEvent → Prop
  | .fresh, log | .claimed _, log => log = []
  | .initialising _, log => log = [.initStarted]
  | .ready, log => ∃ bytes : List UInt8, log = .initStarted :: .initialised :: bytes.map .byte

def PortPhase.begun : PortPhase κ → Bool
  | .fresh => false
  | _ => true

/-- Where the port is on its way to being initialised, as the CPUs' places, `INIT`
and the accesses so far show it. -/
structure Serial.InPhase (s : Serial κ) (ph : PortPhase κ) : Prop where
  init : s.init = ph.begun
  log : ph.Log s.log
  pcs : ∀ c, ph.Allows c (s.pcs c)

structure Serial.Exclusive (s : Serial κ) : Prop where
  locked : ∀ c, (s.pcs c).holds = true → s.locked = true
  unique : ∀ c d, (s.pcs c).holds = true → (s.pcs d).holds = true → c = d

theorem Serial.new_inPhase : (Serial.new : Serial κ).InPhase .fresh :=
  ⟨rfl, rfl, fun _ => rfl⟩

omit [DecidableEq κ] in
theorem Serial.new_exclusive : (Serial.new : Serial κ).Exclusive :=
  ⟨fun _ h => by simp [Serial.new, SerialPc.holds] at h,
    fun _ _ h => by simp [Serial.new, SerialPc.holds] at h⟩

theorem Serial.spin_locked {s : Serial κ} {c : κ} {first : Bool} {text : List UInt8}
    (h : s.locked = true) : s.next (.spin c first text) = s := by
  simp [Serial.next, check, h]

theorem Serial.spin_free {s : Serial κ} {c : κ} {first : Bool} {text : List UInt8}
    (h : s.locked = false) :
    s.next (.spin c first text) =
      { s with locked := true }.setPc c (if first then .init text else .write text) := by
  simp [Serial.next, check, h]

/-- A step keeps the lock and who holds it, takes the free lock, or gives up the held one. -/
theorem Serial.next_hold {s : Serial κ} {a : SerialAct κ} (he : s.Enabled a) :
    ((s.next a).locked = s.locked ∧ ∀ d, ((s.next a).pcs d).holds = (s.pcs d).holds) ∨
    (∃ c, s.locked = false ∧ (s.next a).locked = true ∧
      ∀ d, d ≠ c → (s.next a).pcs d = s.pcs d) ∨
    ∃ c, (s.pcs c).holds = true ∧ ((s.next a).pcs c).holds = false ∧
      ∀ d, d ≠ c → (s.next a).pcs d = s.pcs d := by
  have keep : ∀ (t : Serial κ) (c : κ) (pc : SerialPc), t.pcs = s.pcs → pc.holds = (s.pcs c).holds →
      ∀ d, ((t.setPc c pc).pcs d).holds = (s.pcs d).holds := by
    intro t c pc ht hpc d
    by_cases hd : d = c
    · subst d
      simpa [Serial.setPc] using hpc
    · simp [Serial.setPc, hd, ht]
  cases a with
  | print c text => exact .inl ⟨rfl, keep _ _ _ rfl (by simp [show s.pcs c = _ from he, SerialPc.holds])⟩
  | swap c text => exact .inl ⟨rfl, keep _ _ _ rfl (by simp [show s.pcs c = _ from he, SerialPc.holds])⟩
  | spin c first text =>
    cases hl : s.locked with
    | true =>
      rw [Serial.spin_locked hl]
      exact .inl ⟨hl, fun _ => rfl⟩
    | false =>
      rw [Serial.spin_free hl]
      exact .inr (.inl ⟨c, rfl, rfl, fun d hd => by simp [Serial.setPc, hd]⟩)
  | startInit c text =>
    exact .inl ⟨rfl, keep _ _ _ rfl (by simp [show s.pcs c = _ from he, SerialPc.holds])⟩
  | endInit c text =>
    exact .inl ⟨rfl, keep _ _ _ rfl (by simp [show s.pcs c = _ from he, SerialPc.holds])⟩
  | write c b text =>
    exact .inl ⟨rfl, keep _ _ _ rfl (by simp [show s.pcs c = _ from he, SerialPc.holds])⟩
  | drop c =>
    refine .inr (.inr ⟨c, by simp [show s.pcs c = _ from he, SerialPc.holds], ?_, ?_⟩)
    · simp [Serial.next, Serial.setPc, SerialPc.holds]
    · intro d hd
      simp [Serial.next, Serial.setPc, hd]

theorem Serial.Exclusive.next {s : Serial κ} (h : s.Exclusive) {a : SerialAct κ}
    (he : s.Enabled a) : (s.next a).Exclusive := by
  rcases Serial.next_hold he with ⟨hl, hh⟩ | ⟨c, hfree, hl, hd⟩ | ⟨c, hc, hgone, hd⟩
  · constructor
    · intro d hold
      rw [hl]
      exact h.locked d (by rw [← hh d]; exact hold)
    · intro d e hold hold'
      exact h.unique d e (by rw [← hh d]; exact hold) (by rw [← hh e]; exact hold')
  · have only : ∀ d, ((s.next a).pcs d).holds = true → d = c := by
      intro d hold
      by_contra hne
      rw [hd d hne] at hold
      simp [h.locked d hold] at hfree
    exact ⟨fun d _ => hl, fun d e hold hold' => (only d hold).trans (only e hold').symm⟩
  · have none : ∀ d, ((s.next a).pcs d).holds = false := by
      intro d
      by_contra hold
      have hne : d ≠ c := by
        rintro rfl
        exact hold hgone
      rw [hd d hne, Bool.not_eq_false] at hold
      exact hne (h.unique d c hold hc)
    constructor
    · intro d hold
      simp [none d] at hold
    · intro d e hold
      simp [none d] at hold

theorem SerialPc.later_of_bystander {pc : SerialPc} (h : pc.bystander = true) :
    pc.later = true := by
  rcases pc with _ | _ | ⟨_ | _, _⟩ | _ | _ | (_ | _) <;> simp_all [SerialPc.bystander, SerialPc.later]

theorem SerialPc.bystander_of_outside {pc : SerialPc} (h : pc.outside = true) :
    pc.bystander = true := by
  cases pc <;> simp_all [SerialPc.outside, SerialPc.bystander]

theorem PortPhase.allows_update {ph : PortPhase κ} {pcs : κ → SerialPc} {c : κ} {pc : SerialPc}
    (h : ∀ d, d ≠ c → ph.Allows d (pcs d)) (hc : ph.Allows c pc) (d : κ) :
    ph.Allows d (Function.update pcs c pc d) := by
  by_cases hd : d = c
  · subst d
    simpa using hc
  · simpa [hd] using h d hd

theorem SerialPc.claimed_of_bystander {pc : SerialPc} (h : pc.bystander = true) :
    pc.claimed = false := by
  rcases pc with _ | _ | ⟨_ | _, _⟩ | _ | _ | (_ | _) <;>
    simp_all [SerialPc.bystander, SerialPc.claimed]

theorem SerialPc.inInit_of_bystander {pc : SerialPc} (h : pc.bystander = true) :
    pc.inInit = false := by
  cases pc <;> simp_all [SerialPc.bystander, SerialPc.inInit]

/-- A CPU that leaves the initialisation to another may go to any place where it still
does; before the first swap of `INIT` no CPU has gone past its own. -/
theorem PortPhase.Allows.bystander {ph : PortPhase κ} {c : κ} {pc pc' : SerialPc}
    (h : ph.Allows c pc) (hpc : pc.bystander = true) (hpc' : pc'.bystander = true)
    (hout : ph.begun = false → pc'.outside = true) : ph.Allows c pc' := by
  cases ph with
  | fresh => exact hout rfl
  | claimed d =>
    by_cases hd : c = d
    · simp [PortPhase.Allows, hd, SerialPc.claimed_of_bystander hpc] at h
    · simpa [PortPhase.Allows, hd] using hpc'
  | initialising d =>
    by_cases hd : c = d
    · simp [PortPhase.Allows, hd, SerialPc.inInit_of_bystander hpc] at h
    · simpa [PortPhase.Allows, hd] using hpc'
  | ready => exact SerialPc.later_of_bystander hpc'

theorem PortPhase.Allows.begun {ph : PortPhase κ} {c : κ} {pc : SerialPc} (h : ph.Allows c pc)
    (hpc : pc.outside = false) : ph.begun = true := by
  cases ph with
  | fresh => simp [show pc.outside = true from h] at hpc
  | _ => rfl

/-- Only the CPU that set `INIT` is at a place from which `init` runs. -/
theorem PortPhase.Allows.cases {ph : PortPhase κ} {c : κ} {pc : SerialPc} (h : ph.Allows c pc) :
    pc.later = true ∨ (ph = .claimed c ∧ pc.claimed = true) ∨
      (ph = .initialising c ∧ pc.inInit = true) := by
  cases ph with
  | fresh => exact .inl (SerialPc.later_of_bystander (SerialPc.bystander_of_outside h))
  | claimed d =>
    by_cases hd : c = d
    · subst d
      exact .inr (.inl ⟨rfl, by simpa [PortPhase.Allows] using h⟩)
    · exact .inl (SerialPc.later_of_bystander (by simpa [PortPhase.Allows, hd] using h))
  | initialising d =>
    by_cases hd : c = d
    · subst d
      exact .inr (.inr ⟨rfl, by simpa [PortPhase.Allows] using h⟩)
    · exact .inl (SerialPc.later_of_bystander (by simpa [PortPhase.Allows, hd] using h))
  | ready => exact .inl h

theorem PortPhase.Allows.claimed {ph : PortPhase κ} {c : κ} {pc : SerialPc}
    {text : List UInt8} (h : ph.Allows c pc) (hp : pc = .spin true text ∨ pc = .init text) :
    ph = .claimed c := by
  rcases h.cases with hl | ⟨hph, -⟩ | ⟨-, hi⟩
  · rcases hp with rfl | rfl <;> simp [SerialPc.later] at hl
  · exact hph
  · rcases hp with rfl | rfl <;> simp [SerialPc.inInit] at hi

theorem PortPhase.Allows.initialising {ph : PortPhase κ} {c : κ} {text : List UInt8}
    (h : ph.Allows c (.initialising text)) : ph = .initialising c := by
  rcases h.cases with hl | ⟨-, hc⟩ | ⟨hph, -⟩
  · simp [SerialPc.later] at hl
  · simp [SerialPc.claimed] at hc
  · exact hph

theorem PortPhase.Allows.writing {ph : PortPhase κ} {c : κ} {b : UInt8} {text : List UInt8}
    (h : ph.Allows c (.write (b :: text))) : ph = .ready := by
  cases ph with
  | fresh => simp [PortPhase.Allows, SerialPc.outside] at h
  | claimed d =>
    by_cases hd : c = d <;> simp [PortPhase.Allows, hd, SerialPc.claimed, SerialPc.bystander] at h
  | initialising d =>
    by_cases hd : c = d <;> simp [PortPhase.Allows, hd, SerialPc.inInit, SerialPc.bystander] at h
  | ready => rfl

/-- The lock cannot be taken to send bytes before the port is ready: the CPU that
initialises it waits first in line or holds the lock. -/
theorem Serial.InPhase.ready_of_free {s : Serial κ} {ph : PortPhase κ} (h : s.InPhase ph)
    (hx : s.Exclusive) (hfree : s.locked = false) (hb : ph.begun = true)
    (hw : ∀ d, (s.pcs d).waits = false) : ph = .ready := by
  have free : ∀ d, (s.pcs d).holds = false := by
    intro d
    by_contra hold
    simp [hx.locked d (Bool.not_eq_false _ ▸ hold)] at hfree
  cases ph with
  | fresh => simp [PortPhase.begun] at hb
  | claimed d =>
    have hd : (s.pcs d).claimed = true := by simpa [PortPhase.Allows] using h.pcs d
    have hwait := hw d
    have hhold := free d
    rcases hpc : s.pcs d with _ | _ | ⟨_ | _, _⟩ | _ | _ | _ <;>
      simp_all [SerialPc.claimed, SerialPc.waits, SerialPc.holds]
  | initialising d =>
    have hd : (s.pcs d).inInit = true := by simpa [PortPhase.Allows] using h.pcs d
    have hhold := free d
    cases hpc : s.pcs d <;> simp_all [SerialPc.inInit, SerialPc.holds]
  | ready => rfl

theorem Serial.InPhase.setPc {s t : Serial κ} {ph : PortPhase κ} {c : κ} {pc : SerialPc}
    (h : s.InPhase ph) (hi : t.init = s.init) (hl : t.log = s.log) (hp : t.pcs = s.pcs)
    (hc : ph.Allows c pc) : (t.setPc c pc).InPhase ph :=
  ⟨hi.trans h.init, by simpa only [Serial.setPc, hl] using h.log,
    PortPhase.allows_update (fun d _ => by rw [hp]; exact h.pcs d) hc⟩

theorem Serial.InPhase.swap {s : Serial κ} {ph : PortPhase κ} (h : s.InPhase ph) {c : κ}
    {text : List UInt8} (he : s.pcs c = .swap text) :
    ∃ ph', (s.next (.swap c text)).InPhase ph' := by
  have hc : ph.Allows c (.swap text) := he ▸ h.pcs c
  have hi := h.init
  cases hb : ph.begun with
  | true =>
    rw [hb] at hi
    refine ⟨ph, h.setPc hi.symm rfl rfl ?_⟩
    rw [hi]
    exact hc.bystander rfl rfl (by simp [hb])
  | false =>
    have hph : ph = .fresh := by cases ph <;> simp_all [PortPhase.begun]
    subst ph
    rw [hb] at hi
    refine ⟨.claimed c, rfl, h.log, PortPhase.allows_update ?_ ?_⟩
    · intro d hd
      simpa [PortPhase.Allows, hd] using SerialPc.bystander_of_outside (h.pcs d)
    · simp [PortPhase.Allows, hi, SerialPc.claimed]

theorem Serial.InPhase.spin {s : Serial κ} {ph : PortPhase κ} (h : s.InPhase ph)
    (hx : s.Exclusive) {c : κ} {first : Bool} {text : List UInt8}
    (he : s.pcs c = .spin first text) (hok : s.FirstInLine (.spin c first text)) :
    (s.next (.spin c first text)).InPhase ph := by
  have hc : ph.Allows c (.spin first text) := he ▸ h.pcs c
  cases hl : s.locked with
  | true =>
    rw [Serial.spin_locked hl]
    exact h
  | false =>
    rw [Serial.spin_free hl]
    refine h.setPc rfl rfl rfl ?_
    cases first with
    | true =>
      rw [hc.claimed (.inl rfl)]
      simp [PortPhase.Allows, SerialPc.claimed]
    | false =>
      have hb : ph.begun = true := hc.begun rfl
      cases text with
      | nil => exact hc.bystander rfl rfl (by simp [hb])
      | cons b text =>
        rw [h.ready_of_free hx hl hb (hok hl)]
        rfl

theorem Serial.InPhase.startInit {s : Serial κ} {ph : PortPhase κ} (h : s.InPhase ph) {c : κ}
    {text : List UInt8} (he : s.pcs c = .init text) :
    (s.next (.startInit c text)).InPhase (.initialising c) := by
  have hph : ph = .claimed c := (h.pcs c).claimed (.inr he)
  subst ph
  have hlog : s.log = [] := h.log
  refine ⟨h.init, by simp [Serial.next, Serial.record, Serial.setPc, PortPhase.Log, hlog],
    PortPhase.allows_update ?_ ?_⟩
  · intro d hd
    simpa [PortPhase.Allows, Serial.record, hd] using h.pcs d
  · simp [PortPhase.Allows, SerialPc.inInit]

theorem Serial.InPhase.endInit {s : Serial κ} {ph : PortPhase κ} (h : s.InPhase ph) {c : κ}
    {text : List UInt8} (he : s.pcs c = .initialising text) :
    (s.next (.endInit c text)).InPhase .ready := by
  have hph : ph = .initialising c := (he ▸ h.pcs c : ph.Allows c (.initialising text)).initialising
  subst ph
  have hlog : s.log = [.initStarted] := h.log
  refine ⟨h.init, ⟨[], by simp [Serial.next, Serial.record, Serial.setPc, hlog]⟩,
    PortPhase.allows_update ?_ rfl⟩
  intro d hd
  exact SerialPc.later_of_bystander (by simpa [PortPhase.Allows, Serial.record, hd] using h.pcs d)

theorem Serial.InPhase.write {s : Serial κ} {ph : PortPhase κ} (h : s.InPhase ph) {c : κ}
    {b : UInt8} {text : List UInt8} (he : s.pcs c = .write (b :: text)) :
    (s.next (.write c b text)).InPhase .ready := by
  have hph : ph = .ready := (he ▸ h.pcs c : ph.Allows c (.write (b :: text))).writing
  subst ph
  obtain ⟨bytes, hlog⟩ := h.log
  refine ⟨h.init, ⟨bytes ++ [b], by simp [Serial.next, Serial.record, Serial.setPc, hlog]⟩,
    PortPhase.allows_update (fun d _ => h.pcs d) rfl⟩

theorem Serial.InPhase.next {s : Serial κ} {ph : PortPhase κ} (h : s.InPhase ph)
    (hx : s.Exclusive) {a : SerialAct κ} (he : s.Enabled a) (hok : s.FirstInLine a) :
    ∃ ph', (s.next a).InPhase ph' := by
  cases a with
  | print c text =>
    have hc : ph.Allows c .idle := (show s.pcs c = .idle from he) ▸ h.pcs c
    exact ⟨ph, h.setPc rfl rfl rfl (hc.bystander rfl rfl fun _ => rfl)⟩
  | swap c text => exact h.swap he
  | spin c first text => exact ⟨ph, h.spin hx he hok⟩
  | startInit c text => exact ⟨_, h.startInit he⟩
  | endInit c text => exact ⟨_, h.endInit he⟩
  | write c b text => exact ⟨_, h.write he⟩
  | drop c =>
    have hc : ph.Allows c (.write []) := (show s.pcs c = .write [] from he) ▸ h.pcs c
    exact ⟨ph, h.setPc rfl rfl rfl (hc.bystander rfl rfl fun _ => rfl)⟩

/-- A call that has been made has swapped `INIT`, or is still about to. -/
def Serial.Counted (s : Serial κ) : Prop :=
  0 < s.calls → s.init = true ∨ ∃ c text, s.pcs c = .swap text

theorem Serial.Counted.next {s : Serial κ} (h : s.Counted) {a : SerialAct κ} (he : s.Enabled a) :
    (s.next a).Counted := by
  have keep : ∀ (t : Serial κ) (c : κ) (pc : SerialPc), (∀ text, s.pcs c ≠ .swap text) →
      t.init = s.init → t.calls = s.calls → t.pcs = s.pcs → (t.setPc c pc).Counted := by
    intro t c pc hc hi hcalls hp hpos
    rcases h (by simpa [Serial.setPc, hcalls] using hpos) with hinit | ⟨d, text, hd⟩
    · exact .inl (hi.trans hinit)
    · have hne : d ≠ c := by
        rintro rfl
        exact hc text hd
      exact .inr ⟨d, text, by simp [Serial.setPc, hne, hp, hd]⟩
  cases a with
  | print c text => exact fun _ => .inr ⟨c, text, by simp [Serial.next, Serial.setPc]⟩
  | swap c text => exact fun _ => .inl rfl
  | spin c first text =>
    cases hl : s.locked with
    | true =>
      rw [Serial.spin_locked hl]
      exact h
    | false =>
      rw [Serial.spin_free hl]
      exact keep _ _ _ (by simp [show s.pcs c = _ from he]) rfl rfl rfl
  | startInit c text => exact keep _ _ _ (by simp [show s.pcs c = _ from he]) rfl rfl rfl
  | endInit c text => exact keep _ _ _ (by simp [show s.pcs c = _ from he]) rfl rfl rfl
  | write c b text => exact keep _ _ _ (by simp [show s.pcs c = _ from he]) rfl rfl rfl
  | drop c => exact keep _ _ _ (by simp [show s.pcs c = _ from he]) rfl rfl rfl

omit [DecidableEq κ] in
theorem PortPhase.Log.count_ready {log : List PortEvent} (h : (.ready : PortPhase κ).Log log) :
    log.count .initStarted = 1 := by
  obtain ⟨bytes, rfl⟩ := h
  have hbytes : (bytes.map PortEvent.byte).count .initStarted = 0 := by
    simp [List.count_eq_zero]
  simp [hbytes]

omit [DecidableEq κ] in
theorem PortPhase.Log.once {ph : PortPhase κ} {log : List PortEvent} (h : ph.Log log) :
    log.count .initStarted ≤ 1 := by
  cases ph with
  | ready => exact h.count_ready.le
  | _ => simp [show log = _ from h]

omit [DecidableEq κ] in
theorem PortPhase.Log.before {ph : PortPhase κ} {log : List PortEvent} (h : ph.Log log)
    {l r : List PortEvent} {b : UInt8} (hs : log = l ++ .byte b :: r) : .initialised ∈ l := by
  cases ph with
  | ready =>
    obtain ⟨bytes, hlog⟩ := h
    rw [hlog] at hs
    rcases l with _ | ⟨x, _ | ⟨y, l⟩⟩
    · simp at hs
    · simp at hs
    · simp only [List.cons_append, List.cons.injEq] at hs
      simp [← hs.2.1]
  | initialising c =>
    rw [show log = _ from h] at hs
    rcases l with _ | ⟨x, l⟩ <;> simp at hs
  | _ =>
    rw [show log = _ from h] at hs
    simp at hs

theorem Serial.InPhase.ready_of_idle {s : Serial κ} {ph : PortPhase κ} (h : s.InPhase ph)
    (hi : s.init = true) (hidle : ∀ c, s.pcs c = .idle) : ph = .ready := by
  have hinit := h.init
  cases ph with
  | fresh => simp [hi, PortPhase.begun] at hinit
  | claimed c => simpa [PortPhase.Allows, hidle c, SerialPc.claimed] using h.pcs c
  | initialising c => simpa [PortPhase.Allows, hidle c, SerialPc.inInit] using h.pcs c
  | ready => rfl

theorem serial_initialised_before_use {s : Serial κ}
    (h : serial.Reaches Serial.FirstInLine Serial.new s) : s.InitFirst := by
  have hinv : s.Exclusive ∧ s.Counted ∧ ∃ ph, s.InPhase ph := by
    refine h.invariant (I := fun s => s.Exclusive ∧ s.Counted ∧ ∃ ph, s.InPhase ph)
      ⟨Serial.new_exclusive, ?_, _, Serial.new_inPhase⟩ ?_
    · intro hpos
      simp [Serial.new] at hpos
    · rintro s a ⟨hx, hcount, ph, hph⟩ he hok
      exact ⟨hx.next he, hcount.next he, hph.next hx he hok⟩
  obtain ⟨-, hcount, ph, hph⟩ := hinv
  refine ⟨hph.log.once, fun l b r hs => hph.log.before hs, ?_⟩
  intro hpos hidle
  have hi : s.init = true := by
    rcases hcount hpos with hi | ⟨c, text, hc⟩
    · exact hi
    · simp [hidle c] at hc
  have hready := hph.ready_of_idle hi hidle
  subst hready
  exact hph.log.count_ready

instance Serial.decFirstInLine [Fintype κ] (s : Serial κ) :
    (a : SerialAct κ) → Decidable (s.FirstInLine a)
  | .spin _ false (_ :: _) =>
    inferInstanceAs (Decidable (s.locked = false → ∀ d, (s.pcs d).waits = false))
  | .spin _ false [] | .spin _ true _ | .print _ _ | .swap _ _ | .startInit _ _ | .endInit _ _
  | .write _ _ _ | .drop _ => isTrue trivial

/-- Two CPUs print at once: the second swaps after the first and waits its turn. -/
def queuedRun (c d : κ) (a b : UInt8) : List (SerialAct κ) :=
  [.print c [a], .print d [b], .swap c [a], .swap d [b], .spin c true [a], .spin d false [b],
    .startInit c [a], .endInit c [a], .write c a [], .drop c, .spin d false [b], .write d b [],
    .drop d]

theorem serial_initialised_before_use_queuedRun :
    (serial.after Serial.new (queuedRun 0 1 104 105) : Serial (Fin 2)).InitFirst :=
  serial_initialised_before_use (System.reaches_after (by decide) (by decide))

/-- The second CPU's swap and lock fall between the first CPU's swap and lock. -/
def overtakenRun (c d : κ) (a b : UInt8) : List (SerialAct κ) :=
  [.print c [a], .swap c [a], .print d [b], .swap d [b], .spin d false [b], .write d b []]

theorem byte_before_init :
    ∃ s : Serial (Fin 2), serial.Reaches anyStep Serial.new s ∧ ¬ s.InitFirst := by
  refine ⟨serial.after Serial.new (overtakenRun 0 1 104 105),
    System.reaches_after (by decide) (System.meets_anyStep _), ?_⟩
  intro h
  have hmem := h.before [] 105 [] (by decide)
  simp at hmem

end Nacl
