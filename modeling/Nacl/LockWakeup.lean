import Mathlib.Data.Fintype.Basic
import Nacl.Lock

/-! Wakeups of the futures that wait for a `Mutex`. A future that answered
`Pending` is woken through the one waker slot of the mutex, by the drop of a
guard that was made by `lock()`. -/

namespace Nacl

open Guarded

variable {P F W : Type*}

/-- The future answered `Pending`, no new poll of it has begun, and its waker was
not woken since it registered it. -/
def LockFuture.Waits (l : LockFuture W) : Prop :=
  l.pending = true ∧ l.stage = .idle ∧ l.woken = false

def Mutex.AllIdle (m : Mutex P F W) : Prop :=
  (∀ p, m.pcs p = .idle) ∧ ∀ f, (m.futures f).stage = .idle

def Mutex.NoLostWakeup (m : Mutex P F W) : Prop :=
  m.locked = false → m.AllIdle → ∀ f, (m.futures f).pending = true → (m.futures f).woken = true

def Mutex.SingleWaiter (m : Mutex P F W) : Prop :=
  ∀ f f', (m.futures f).pending = true → (m.futures f').pending = true → f = f'

def LockAct.LockOnly (_ : Mutex P F W) : LockAct P F W → Prop
  | .lockOrSpin _ | .spin _ | .tryLock _ => False
  | _ => True

/-- No registration overwrites another waker that a waiting future relies on, and
no second check fails for a future whose waker is neither stored nor woken. -/
def Mutex.KeepsSlot (m : Mutex P F W) : LockAct P F W → Prop
  | .register _ w => ∀ f, (m.futures f).Waits → (m.futures f).waker = some w
  | .recheck f w => m.locked = true → (m.futures f).woken = true ∨ m.slot .own = some w
  | _ => True

/-- No guard that notifies `NEW_WAKER` stores `false` while a future waits and no
drop of another guard is about to wake it. -/
def Mutex.NotifiesOwn (m : Mutex P F W) : LockAct P F W → Prop
  | .dropStore _ g => g.waker = .new → (∀ f, ¬ (m.futures f).Waits) ∨ ∃ p, m.pcs p = .wake .own
  | _ => True

/-- The waker of every waiting future is in the slot, and the lock is held or a
drop is about to wake it. -/
structure Mutex.Notified (m : Mutex P F W) : Prop where
  registered : ∀ f w, (m.futures f).stage = .recheck w → (m.futures f).waker = some w
  stored : ∀ f, (m.futures f).Waits → ∃ w, m.slot .own = some w ∧ (m.futures f).waker = some w
  due : ∀ f, (m.futures f).Waits → m.locked = true ∨ ∃ p, m.pcs p = .wake .own

instance (l : LockFuture W) [DecidableEq W] : Decidable l.Waits :=
  inferInstanceAs (Decidable (_ ∧ _ ∧ _))

instance Mutex.decSingleWaiter [Fintype F] [DecidableEq F] (m : Mutex P F W) :
    Decidable m.SingleWaiter :=
  inferInstanceAs (Decidable (∀ _ _, _ → _ → _))

instance Mutex.decKeepsSlot [Fintype F] [DecidableEq W] (m : Mutex P F W) :
    (a : LockAct P F W) → Decidable (m.KeepsSlot a)
  | .register _ w =>
    inferInstanceAs (Decidable (∀ f, (m.futures f).Waits → (m.futures f).waker = some w))
  | .recheck f w => inferInstanceAs
      (Decidable (m.locked = true → (m.futures f).woken = true ∨ m.slot .own = some w))
  | .poll _ _ | .dropFuture _ | .lockOrSpin _ | .spin _ | .tryLock _ | .dropStore _ _
  | .dropWake _ _ => isTrue trivial

instance Mutex.decNotifiesOwn [Fintype P] [Fintype F] [DecidableEq W] (m : Mutex P F W) :
    (a : LockAct P F W) → Decidable (m.NotifiesOwn a)
  | .dropStore _ g => inferInstanceAs
      (Decidable (g.waker = .new → (∀ f, ¬ (m.futures f).Waits) ∨ ∃ p, m.pcs p = .wake .own))
  | .poll _ _ | .register _ _ | .recheck _ _ | .dropFuture _ | .lockOrSpin _ | .spin _ | .tryLock _
  | .dropWake _ _ => isTrue trivial

instance LockAct.decLockOnly (m : Mutex P F W) :
    (a : LockAct P F W) → Decidable (LockAct.LockOnly m a)
  | .lockOrSpin _ | .spin _ | .tryLock _ => isFalse id
  | .poll _ _ | .register _ _ | .recheck _ _ | .dropFuture _ | .dropStore _ _
  | .dropWake _ _ => isTrue trivial

theorem Mutex.new_notified : (Mutex.new : Mutex P F W).Notified := by
  constructor <;> simp [Mutex.new, LockFuture.Waits]

theorem Mutex.Notified.noLostWakeup {m : Mutex P F W} (h : m.Notified) : m.NoLostWakeup := by
  intro hl hidle f hpend
  by_contra hw
  have hwaits : (m.futures f).Waits := ⟨hpend, hidle.2 f, Bool.eq_false_iff.mpr hw⟩
  rcases h.due f hwaits with hlock | ⟨p, hwake⟩
  · simp [hl] at hlock
  · simp [hidle.1 p] at hwake

theorem Mutex.Notified.acquired {m : Mutex P F W} (h : m.Notified) (gs : List MutexGuard) (n : Nat) :
    { m with locked := true, guards := gs, made := n }.Notified :=
  ⟨h.registered, h.stored, fun _ _ => .inl rfl⟩

theorem LockFuture.waits_of_wake [DecidableEq W] {l : LockFuture W} {w : W}
    (h : (l.wake w).Waits) : l.Waits ∧ l.waker ≠ some w := by
  by_cases hw : l.waker = some w
  · simp [LockFuture.wake, hw, LockFuture.Waits] at h
  · exact ⟨by simpa [LockFuture.wake, hw] using h, hw⟩

theorem LockFuture.wake_keeps [DecidableEq W] (l : LockFuture W) (w : W) :
    (l.wake w).stage = l.stage ∧ (l.wake w).waker = l.waker := by
  by_cases hw : l.waker = some w <;> simp [LockFuture.wake, hw]

theorem Mutex.Notified.none_waits [DecidableEq W] {m : Mutex P F W} (h : m.Notified) (f : F) :
    ¬ ((m.wake .own).futures f).Waits := by
  intro hw
  cases hs : m.slot .own with
  | none =>
    obtain ⟨w, hw', -⟩ := h.stored f (by simpa [Mutex.wake, hs] using hw)
    simp [hs] at hw'
  | some w =>
    obtain ⟨hwaits, hne⟩ := LockFuture.waits_of_wake (by simpa [Mutex.wake, hs] using hw)
    obtain ⟨w', hs', hk⟩ := h.stored f hwaits
    exact hne (by rw [hk, ← hs', hs])

theorem Mutex.wake_registered [DecidableEq W] {m : Mutex P F W} (h : m.Notified) (r : WakerRef)
    {f : F} {w : W} (hs : ((m.wake r).futures f).stage = .recheck w) :
    ((m.wake r).futures f).waker = some w := by
  cases hslot : m.slot r with
  | none =>
    have hw := h.registered f w (by simpa [Mutex.wake, hslot] using hs)
    simpa [Mutex.wake, hslot] using hw
  | some w' =>
    have hk := LockFuture.wake_keeps (m.futures f) w'
    simp only [Mutex.wake, hslot] at hs ⊢
    rw [hk.2]
    exact h.registered f w (hk.1 ▸ hs)

theorem Mutex.wake_new_waits [DecidableEq W] {m : Mutex P F W} {f : F}
    (h : ((m.wake .new).futures f).Waits) : (m.futures f).Waits := by
  cases hs : m.slot .new with
  | none => simpa [Mutex.wake, hs] using h
  | some w => exact (LockFuture.waits_of_wake (by simpa [Mutex.wake, hs] using h)).1

section Parties

variable [DecidableEq P]

theorem Mutex.Notified.setPc {m : Mutex P F W} (h : m.Notified) {p : P} (pc : LockPc)
    (hp : m.pcs p ≠ .wake .own) : (m.setPc p pc).Notified := by
  refine ⟨h.registered, h.stored, fun f hw => (h.due f hw).imp (fun hl => hl) ?_⟩
  rintro ⟨q, hq⟩
  have hqp : q ≠ p := by
    rintro rfl
    exact hp hq
  exact ⟨q, by simpa [Mutex.setPc, hqp] using hq⟩

theorem Mutex.Notified.dropStore {m : Mutex P F W} (h : m.Notified) {p : P} {g : MutexGuard}
    (hp : m.pcs p = .idle) (hn : m.NotifiesOwn (.dropStore p g)) :
    ({ m with locked := false, guards := m.guards.erase g }.setPc p (.wake g.waker)).Notified := by
  refine ⟨h.registered, h.stored, fun f hw => .inr ?_⟩
  cases hg : g.waker with
  | own => exact ⟨p, by simp [Mutex.setPc]⟩
  | new =>
    rcases hn hg with hnone | ⟨q, hq⟩
    · exact absurd hw (hnone f)
    · have hqp : q ≠ p := by
        rintro rfl
        simp [hp] at hq
      exact ⟨q, by simpa [Mutex.setPc, hqp] using hq⟩

theorem Mutex.Notified.dropWake [DecidableEq W] {m : Mutex P F W} (h : m.Notified) {p : P} {r : WakerRef}
    (hp : m.pcs p = .wake r) : ((m.wake r).setPc p .idle).Notified := by
  cases r with
  | own =>
    refine ⟨fun f w hs => Mutex.wake_registered h .own hs, fun f hw => ?_, fun f hw => ?_⟩
    · exact absurd hw (h.none_waits f)
    · exact absurd hw (h.none_waits f)
  | new =>
    have hm : (m.wake .new).Notified := by
      refine ⟨fun f w hs => Mutex.wake_registered h .new hs, fun f hw => ?_, fun f hw => ?_⟩
      · obtain ⟨w, hslot, hk⟩ := h.stored f (Mutex.wake_new_waits hw)
        refine ⟨w, ?_, ?_⟩
        · cases hs : m.slot .new <;> simpa [Mutex.wake, hs] using hslot
        · cases hs : m.slot .new with
          | none => simpa [Mutex.wake, hs] using hk
          | some w' => simpa [Mutex.wake, hs, (LockFuture.wake_keeps _ _).2] using hk
      · have hd := h.due f (Mutex.wake_new_waits hw)
        cases hs : m.slot .new <;> simpa [Mutex.wake, hs] using hd
    refine hm.setPc .idle ?_
    have hpcs : (m.wake .new).pcs = m.pcs := by cases hs : m.slot .new <;> simp [Mutex.wake, hs]
    simp [hpcs, hp]

end Parties

variable [DecidableEq F]

theorem Mutex.Notified.setFuture {m : Mutex P F W} (h : m.Notified) (f : F) (l : LockFuture W)
    (hreg : ∀ w, l.stage = .recheck w → l.waker = some w)
    (hw : l.Waits → (∃ w, m.slot .own = some w ∧ l.waker = some w) ∧ m.locked = true) :
    (m.setFuture f l).Notified := by
  refine ⟨?_, ?_, ?_⟩
  · intro f' w hs
    by_cases hf : f' = f
    · simpa [Mutex.setFuture, hf] using hreg w (by simpa [Mutex.setFuture, hf] using hs)
    · simpa [Mutex.setFuture, hf] using h.registered f' w (by simpa [Mutex.setFuture, hf] using hs)
  · intro f' hs
    by_cases hf : f' = f
    · simpa [Mutex.setFuture, hf] using (hw (by simpa [Mutex.setFuture, hf] using hs)).1
    · simpa [Mutex.setFuture, hf] using h.stored f' (by simpa [Mutex.setFuture, hf] using hs)
  · intro f' hs
    by_cases hf : f' = f
    · exact .inl (hw (by simpa [Mutex.setFuture, hf] using hs)).2
    · exact h.due f' (by simpa [Mutex.setFuture, hf] using hs)

theorem Mutex.Notified.answered {m : Mutex P F W} (h : m.Notified) (f : F) :
    (m.setFuture f ((m.futures f).answered false)).Notified :=
  h.setFuture f _ (by simp [LockFuture.answered]) (by simp [LockFuture.Waits, LockFuture.answered])

theorem Mutex.Notified.register {m : Mutex P F W} (h : m.Notified) {f : F} {w : W}
    (hk : m.KeepsSlot (.register f w)) :
    ((m.register w).setFuture f
      { m.futures f with stage := .recheck w, waker := some w, woken := false }).Notified := by
  have hr : (m.register w).Notified :=
    ⟨h.registered, fun f' hw => ⟨w, by simp [Mutex.register], hk f' hw⟩, h.due⟩
  exact hr.setFuture f _ (by simp) (by simp [LockFuture.Waits])

theorem Mutex.Notified.pended {m : Mutex P F W} (h : m.Notified) {f : F} {w : W}
    (hs : (m.futures f).stage = .recheck w) (hl : m.locked = true)
    (hk : m.KeepsSlot (.recheck f w)) :
    (m.setFuture f ((m.futures f).answered true)).Notified := by
  refine h.setFuture f _ (by simp [LockFuture.answered]) ?_
  rintro ⟨-, -, hwoken⟩
  refine ⟨⟨w, ?_, h.registered f w hs⟩, hl⟩
  rcases hk hl with hw | hslot
  · simp [LockFuture.answered, hw] at hwoken
  · exact hslot

variable [DecidableEq P] [DecidableEq W]

theorem Mutex.Notified.next {m : Mutex P F W} (h : m.Notified) {a : LockAct P F W}
    (he : m.Enabled a) (hk : m.KeepsSlot a) (hn : m.NotifiesOwn a) : (m.next a).Notified := by
  have hl := Bool.eq_false_or_eq_true m.locked
  cases a with
  | poll f w =>
    rcases hl with hl | hl
    · simp only [Mutex.next, Mutex.acquire_locked hl]
      exact h.setFuture f _ (by simp) (by simp [LockFuture.Waits])
    · simp only [Mutex.next, Mutex.acquire_unlocked hl]
      exact (h.acquired _ _).answered f
  | register f w => exact h.register hk
  | recheck f w =>
    rcases hl with hl | hl
    · simp only [Mutex.next, Mutex.acquire_locked hl]
      exact h.pended he hl hk
    · simp only [Mutex.next, Mutex.acquire_unlocked hl]
      exact (h.acquired _ _).answered f
  | dropFuture f => exact h.answered f
  | lockOrSpin p =>
    have hp : m.pcs p = .idle := he
    exact h.setPc .spin (by simp [hp])
  | spin p =>
    have hp : m.pcs p = .spin := he
    rcases hl with hl | hl
    · simpa only [Mutex.next, Mutex.acquire_locked hl] using h
    · simp only [Mutex.next, Mutex.acquire_unlocked hl]
      exact (h.acquired _ _).setPc .idle (by simp [hp])
  | tryLock p =>
    rcases hl with hl | hl
    · simpa only [Mutex.next, Mutex.acquire_locked hl, Option.getD_none] using h
    · simpa only [Mutex.next, Mutex.acquire_unlocked hl, Option.getD_some] using h.acquired _ _
  | dropStore p g => exact h.dropStore he.1 hn
  | dropWake p r => exact h.dropWake he

theorem wakeup_of_notifying_guards {m : Mutex P F W}
    (h : mutex.Reaches (fun m a => m.KeepsSlot a ∧ m.NotifiesOwn a) Mutex.new m) :
    m.NoLostWakeup := by
  have hn : m.Notified :=
    h.invariant Mutex.new_notified (fun m a hm he hok => hm.next he hok.1 hok.2)
  exact hn.noLostWakeup

def tryLockRun (p : P) (f : F) (w : W) : List (LockAct P F W) :=
  [.tryLock p, .poll f w, .register f w, .recheck f w, .dropStore p ⟨0, .new⟩, .dropWake p .new]

theorem try_lock_release_loses_wakeup : ¬ ∀ (P F W : Type) [DecidableEq P] [DecidableEq F]
    [DecidableEq W] (m : Mutex P F W),
    mutex.Reaches (fun m _ => m.SingleWaiter) Mutex.new m → m.SingleWaiter → m.NoLostWakeup := by
  intro h
  have hr : mutex.Reaches (fun m _ => m.SingleWaiter) Mutex.new
      (mutex.after Mutex.new (tryLockRun (0 : Fin 1) (0 : Fin 1) (0 : Fin 1))) :=
    System.reaches_after (by decide) (by decide)
  have hw := h (Fin 1) (Fin 1) (Fin 1) _ hr (by decide) (by decide)
    ⟨by decide, by decide⟩ 0 (by decide)
  revert hw
  decide

def notifiedRun (p : P) (f g : F) (v w : W) : List (LockAct P F W) :=
  [.tryLock p, .dropStore p ⟨0, .new⟩, .dropWake p .new, .poll f v, .poll g w, .register g w,
    .recheck g w, .dropStore p ⟨1, .own⟩, .dropWake p .own]

theorem wakeup_of_notifying_guards_notifiedRun :
    (mutex.after Mutex.new
      (notifiedRun (0 : Fin 1) (0 : Fin 2) 1 (0 : Fin 2) 1)).NoLostWakeup :=
  wakeup_of_notifying_guards (System.reaches_after (by decide) (by decide))

theorem Mutex.next_guards_own {m : Mutex P F W} {a : LockAct P F W} (ho : LockAct.LockOnly m a)
    (h : ∀ g ∈ m.guards, g.waker = .own) : ∀ g ∈ (m.next a).guards, g.waker = .own := by
  have hl := Bool.eq_false_or_eq_true m.locked
  cases a with
  | poll f w | recheck f w =>
    rcases hl with hl | hl
    · simpa [Mutex.next, Mutex.acquire_locked hl, Mutex.setFuture] using h
    · simp only [Mutex.next, Mutex.acquire_unlocked hl, Mutex.setFuture, List.mem_append,
        List.mem_singleton]
      rintro g (hg | rfl)
      · exact h g hg
      · rfl
  | register f w => exact h
  | dropFuture f => exact h
  | lockOrSpin p => exact ho.elim
  | spin p => exact ho.elim
  | tryLock p => exact ho.elim
  | dropStore p g => exact fun g' hg' => h g' (List.mem_of_mem_erase hg')
  | dropWake p r => cases hs : m.slot r <;> simpa [Mutex.next, Mutex.wake, hs, Mutex.setPc] using h

theorem wakeup_of_kept_slot {m : Mutex P F W}
    (h : mutex.Reaches (fun m a => LockAct.LockOnly m a ∧ m.KeepsSlot a) Mutex.new m) :
    m.NoLostWakeup := by
  have hn : m.Notified ∧ ∀ g ∈ m.guards, g.waker = .own := by
    refine h.invariant (I := fun m => m.Notified ∧ ∀ g ∈ m.guards, g.waker = .own)
      ⟨Mutex.new_notified, by simp [Mutex.new]⟩ ?_
    rintro m a ⟨hm, hg⟩ he ⟨ho, hk⟩
    refine ⟨hm.next he hk ?_, Mutex.next_guards_own ho hg⟩
    cases a with
    | dropStore p g =>
      intro hnew
      simp [hg g he.2] at hnew
    | _ => trivial
  exact hn.1.noLostWakeup

/-- While `f` holds the lock `g` and `h` wait for it; the second to register
overwrites the waker of the first, is woken, takes the lock and releases it. -/
def overwriteRun (p : P) (f g h : F) (u v w : W) : List (LockAct P F W) :=
  [.poll f u, .poll g v, .register g v, .recheck g v, .poll h w, .register h w, .recheck h w,
    .dropStore p ⟨0, .own⟩, .dropWake p .own, .poll h w, .dropStore p ⟨1, .own⟩, .dropWake p .own]

theorem second_waiter_loses_wakeup : ¬ ∀ (P F W : Type) [DecidableEq P] [DecidableEq F]
    [DecidableEq W] (m : Mutex P F W), mutex.Reaches LockAct.LockOnly Mutex.new m → m.NoLostWakeup := by
  intro h
  have hr : mutex.Reaches LockAct.LockOnly Mutex.new
      (mutex.after Mutex.new (overwriteRun (0 : Fin 1) (0 : Fin 3) 1 2 (0 : Fin 3) 1 2)) :=
    System.reaches_after (by decide) (by decide)
  have hw := h (Fin 1) (Fin 3) (Fin 3) _ hr (by decide) ⟨by decide, by decide⟩ 1 (by decide)
  revert hw
  decide

def turnsRun (p : P) (f g : F) (v w : W) : List (LockAct P F W) :=
  [.poll f v, .poll g w, .register g w, .recheck g w, .dropStore p ⟨0, .own⟩, .dropWake p .own,
    .poll f v, .poll g w, .register g w, .recheck g w, .dropStore p ⟨1, .own⟩, .dropWake p .own]

theorem wakeup_of_kept_slot_turnsRun :
    (mutex.after Mutex.new (turnsRun (0 : Fin 1) (0 : Fin 2) 1 (0 : Fin 2) 1)).NoLostWakeup :=
  wakeup_of_kept_slot (System.reaches_after (by decide) (by decide))

end Nacl
