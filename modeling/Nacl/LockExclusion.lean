import Nacl.Lock

/-! Mutual exclusion: at most one guard that has not executed its `store(false)`,
and the flag says whether there is one. -/

namespace Nacl

open Guarded

variable {P F W : Type*}

def Mutex.Exclusive (m : Mutex P F W) : Prop :=
  m.guards.length ≤ 1 ∧ (m.locked = true ↔ m.guards ≠ [])

def Mutex.SameHold (m m' : Mutex P F W) : Prop := m'.locked = m.locked ∧ m'.guards = m.guards

def Mutex.tryLockAnswer (m : Mutex P F W) : Option MutexGuard :=
  (m.acquire .new).map fun _ => ⟨m.made, .new⟩

def LockAct.Other (f : F) (_ : Mutex P F W) : LockAct P F W → Prop
  | .poll f' _ | .register f' _ | .recheck f' _ => f' ≠ f
  | _ => True

theorem Mutex.new_exclusive : (Mutex.new : Mutex P F W).Exclusive := by
  simp [Mutex.Exclusive, Mutex.new]

variable [DecidableEq P] [DecidableEq F] [DecidableEq W]

/-- A poll of `f` that answers `Pending`: the failed first check, the registration
and the failed second check, with steps of others in between. -/
structure PendingPoll (f : F) (w : W) (m₀ m₁ m₂ m₃ m₄ m₅ : Mutex P F W) : Prop where
  first : m₀.Enabled (.poll f w) ∧ m₁ = m₀.next (.poll f w) ∧ (m₁.futures f).stage = .register w
  wait : mutex.Reaches (LockAct.Other f) m₁ m₂
  registered : m₂.Enabled (.register f w) ∧ m₃ = m₂.next (.register f w)
  wait' : mutex.Reaches (LockAct.Other f) m₃ m₄
  last : m₄.Enabled (.recheck f w) ∧ m₅ = m₄.next (.recheck f w) ∧ (m₅.futures f).pending = true

theorem Mutex.sameHold_of_locked {m : Mutex P F W} (hl : m.locked = true) :
    (∀ f w, m.SameHold (m.next (.poll f w)) ∧ m.SameHold (m.next (.recheck f w))) ∧
      ∀ p, m.SameHold (m.next (.spin p)) ∧ m.SameHold (m.next (.tryLock p)) := by
  simp [Mutex.SameHold, Mutex.next, Mutex.acquire_locked hl, Mutex.setFuture]

theorem Mutex.next_hold {m : Mutex P F W} {a : LockAct P F W} (he : m.Enabled a) :
    m.SameHold (m.next a) ∨
    (m.locked = false ∧ (m.next a).locked = true ∧
      ∃ r, (m.next a).guards = m.guards ++ [⟨m.made, r⟩]) ∨
    ∃ g ∈ m.guards, (m.next a).locked = false ∧ (m.next a).guards = m.guards.erase g := by
  have hl := Bool.eq_false_or_eq_true m.locked
  cases a with
  | poll f w =>
    rcases hl with hl | hl
    · exact .inl ((Mutex.sameHold_of_locked hl).1 f w).1
    · exact .inr (.inl ⟨hl, by simp [Mutex.next, Mutex.acquire_unlocked hl, Mutex.setFuture]⟩)
  | register f w => exact .inl ⟨rfl, rfl⟩
  | recheck f w =>
    rcases hl with hl | hl
    · exact .inl ((Mutex.sameHold_of_locked hl).1 f w).2
    · exact .inr (.inl ⟨hl, by simp [Mutex.next, Mutex.acquire_unlocked hl, Mutex.setFuture]⟩)
  | dropFuture f => exact .inl ⟨rfl, rfl⟩
  | lockOrSpin p => exact .inl ⟨rfl, rfl⟩
  | spin p =>
    rcases hl with hl | hl
    · exact .inl ((Mutex.sameHold_of_locked hl).2 p).1
    · exact .inr (.inl ⟨hl, by simp [Mutex.next, Mutex.acquire_unlocked hl, Mutex.setPc]⟩)
  | tryLock p =>
    rcases hl with hl | hl
    · exact .inl ((Mutex.sameHold_of_locked hl).2 p).2
    · exact .inr (.inl ⟨hl, by simp [Mutex.next, Mutex.acquire_unlocked hl]⟩)
  | dropStore p g => exact .inr (.inr ⟨g, he.2, rfl, rfl⟩)
  | dropWake p r =>
    refine .inl ?_
    cases hs : m.slot r <;> simp [Mutex.SameHold, Mutex.next, Mutex.wake, hs, Mutex.setPc]

theorem Mutex.Exclusive.next {m : Mutex P F W} (h : m.Exclusive) {a : LockAct P F W}
    (he : m.Enabled a) : (m.next a).Exclusive := by
  obtain ⟨hlen, hiff⟩ := h
  rcases Mutex.next_hold he with ⟨hl, hg⟩ | ⟨hfree, hl, r, hg⟩ | ⟨g, hmem, hl, hg⟩
  · exact ⟨by rw [hg]; exact hlen, by rw [hl, hg]; exact hiff⟩
  · have hnil : m.guards = [] := by
      by_contra hne
      simp [hiff.mpr hne] at hfree
    exact ⟨by simp [hg, hnil], by simp [hl, hg]⟩
  · have hone : m.guards = [g] := by
      cases hgs : m.guards with
      | nil => simp [hgs] at hmem
      | cons x xs =>
        have hxs : xs = [] := by
          apply List.length_eq_zero_iff.mp
          rw [hgs, List.length_cons] at hlen
          omega
        simp_all
    exact ⟨by simp [hg, hone], by simp [hl, hg, hone]⟩

theorem Mutex.poll_failed {m : Mutex P F W} {f : F} {w : W}
    (hs : ((m.next (.poll f w)).futures f).stage = .register w) : m.locked = true := by
  by_contra hl
  simp [Mutex.next, Mutex.acquire_unlocked (Bool.eq_false_iff.mpr hl), Mutex.setFuture,
    LockFuture.answered] at hs

theorem Mutex.recheck_failed {m : Mutex P F W} {f : F} {w : W}
    (hp : ((m.next (.recheck f w)).futures f).pending = true) : m.locked = true := by
  by_contra hl
  simp [Mutex.next, Mutex.acquire_unlocked (Bool.eq_false_iff.mpr hl), Mutex.setFuture,
    LockFuture.answered] at hp

theorem mutex_exclusion {m : Mutex P F W} (h : mutex.Reaches anyStep Mutex.new m) :
    m.Exclusive ∧
    (∀ f w m₁ m₂ m₃ m₄ m₅, PendingPoll f w m m₁ m₂ m₃ m₄ m₅ →
      m.SameHold m₁ ∧ m₂.SameHold m₃ ∧ m₄.SameHold m₅) ∧
    ∀ p, m.Enabled (.tryLock p) → m.tryLockAnswer = none → m.SameHold (m.next (.tryLock p)) := by
  refine ⟨h.invariant Mutex.new_exclusive (fun m a hm he _ => hm.next he), ?_, ?_⟩
  · rintro f w m₁ m₂ m₃ m₄ m₅ ⟨⟨-, rfl, hs⟩, -, ⟨-, rfl⟩, -, ⟨-, rfl, hpend⟩⟩
    have hfirst := ((Mutex.sameHold_of_locked (Mutex.poll_failed hs)).1 f w).1
    have hlast := ((Mutex.sameHold_of_locked (Mutex.recheck_failed hpend)).1 f w).2
    exact ⟨hfirst, ⟨rfl, rfl⟩, hlast⟩
  · intro p _ hnone
    have hacq : m.acquire .new = none := by simpa [Mutex.tryLockAnswer] using hnone
    simp [Mutex.SameHold, Mutex.next, hacq]

def contendedRun (f g : F) (v w : W) : List (LockAct P F W) :=
  [.poll f v, .poll g w, .register g w, .recheck g w]

theorem mutex_exclusion_contendedRun :
    (mutex.after Mutex.new (contendedRun 0 1 0 1) : Mutex (Fin 1) (Fin 2) (Fin 2)).Exclusive :=
  (mutex_exclusion (System.reaches_after (by decide) (System.meets_anyStep _))).1

end Nacl
