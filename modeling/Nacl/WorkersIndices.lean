import Nacl.WorkersRuns

/-! The indices of a worker queue are bounded by the number of tasks that have entered it, as
if no pop of a LIFO queue had moved `back`. -/

namespace Nacl

open Guarded Ring

variable {κ T : Type*}

section limit

variable {w : Worker T}

theorem Loot.limit_finish (l : Loot κ T) (fl : Flavor) : w.limit (l.finish fl) = w.back := by
  rw [Loot.finish.eq_def]
  split
  · rfl
  · cases fl <;> rfl

theorem Loot.limit_again (l : Loot κ T) (fl : Flavor) : w.limit (l.again fl) = w.back := by
  rw [Loot.again]
  split
  · exact l.limit_finish fl
  · rfl

end limit

variable [DecidableEq κ] {s : Workers κ T} {c v : κ} {a : Nat}

def WorkEvent.entered (v : κ) : WorkEvent κ T → List (Option T)
  | .pushed c t => if c = v then [some t] else []
  | .arrived c xs => if c = v then xs else []
  | _ => []

theorem Workers.limit_goto_self (p : WorkPc κ T) :
    (s.goto c p).limit c = (s.worker c).limit p := by
  rw [Workers.limit, Workers.pc_goto_self, Workers.worker_goto]

theorem Workers.limit_put_self (w : Worker T) (p : WorkPc κ T) :
    ((s.put c w).goto c p).limit c = w.limit p := by
  rw [Workers.limit, Workers.pc_goto_self, Workers.worker_goto, Workers.worker_put_self]

theorem Workers.limit_withFront (u : κ) (f : Nat) {p : WorkPc κ T}
    (hp : ∀ w : Worker T, w.limit p = w.back) :
    ((s.put u { s.worker u with front := f }).goto c p).limit c = (s.worker c).back := by
  rw [Workers.limit, Workers.pc_goto_self, Workers.worker_goto, hp]
  by_cases hu : c = u
  · subst hu
    rw [Workers.worker_put_self]
  · rw [Workers.worker_put_of_ne _ hu]

theorem Workers.limit_own {q : WorkerPc T (Raid κ)} (hok : s.CpuOk c) (hp : s.pc c = .own q) :
    (s.advance c a (.own q)).limit c ≤
      (s.worker c).back + ((s.occur c (.own q)).flatMap (WorkEvent.entered c)).length := by
  have hown := hok.ownerAt hp
  cases q with
  | pushStore t b =>
    have hb : b = (s.worker c).back := hown.ok.known.1
    rw [Workers.advance_own (fun n k hk => by cases hk) (fun _ b hb => by cases hb),
      Workers.limit_put_self]
    simp only [Workers.occur, WorkEvent.entered, List.flatMap_cons, List.flatMap_nil, if_true]
    exact (congrArg Nat.succ hb).le
  | reserved n k =>
    refine Nat.le_add_right_of_le (Nat.le_of_eq ?_)
    rw [Workers.advance, Workers.limit_goto_self]
    rfl
  | popFront b =>
    refine Nat.le_add_right_of_le (Nat.le_of_eq ?_)
    simp only [Workers.advance]
    split
    · rw [Workers.limit_goto_self]
      split <;> rfl
    · rw [Workers.limit_put_self]
      rfl
  | resize newCap k r =>
    refine Nat.le_add_right_of_le (Nat.le_of_eq ?_)
    rw [Workers.advance_own (fun n k hk => by cases hk) (fun _ b hb => by cases hb),
      Workers.limit_put_self]
    exact Worker.resizeStep_back r
  | _ =>
    refine Nat.le_add_right_of_le (Nat.le_of_eq ?_)
    rw [Workers.advance_own (fun n k hk => by cases hk) (fun _ b hb => by cases hb),
      Workers.limit_put_self]
    rfl

/-- A party moves the end of its queue only by tasks that enter it. -/
theorem Workers.limit_advance (hs : ∀ d, s.CpuOk d) :
    (s.advance c a (s.pc c)).limit c ≤
      s.limit c + ((s.occur c (s.pc c)).flatMap (WorkEvent.entered c)).length := by
  have hown := (hs c).owner
  rw [Workers.limit.eq_def s c]
  cases hp : s.pc c with
  | own q => exact Workers.limit_own (hs c) hp
  | lifoStore b =>
    rw [hp] at hown
    have hb : (s.worker c).back = b + 1 := hown.lifo
    refine Nat.le_add_right_of_le (Nat.le_of_eq ?_)
    rw [Workers.advance, Workers.limit_put_self]
    exact hb.symm
  | lifoFront b =>
    refine Nat.le_add_right_of_le ?_
    rw [Workers.advance, Workers.limit_goto_self]
    split
    · exact le_rfl
    · simp only [Worker.limit]
      split <;> omega
  | lifoRead b f q =>
    rw [hp] at hown
    refine Nat.le_add_right_of_le (Nat.le_of_eq ?_)
    rw [Workers.advance, Workers.limit_goto_self]
    exact hown.limit_lifoPopped
  | lifoExchange b x =>
    refine Nat.le_add_right_of_le (Nat.le_of_eq ?_)
    simp only [Workers.advance]
    split
    · rw [Workers.limit_put_self]
      rfl
    · rw [Workers.limit_goto_self]
      rfl
  | raidBack op v f =>
    refine Nat.le_add_right_of_le (Nat.le_of_eq ?_)
    rw [Workers.advance, Workers.limit_goto_self]
    split_ifs <;> rfl
  | raidBuffer k dest destB =>
    refine Nat.le_add_right_of_le (Nat.le_of_eq ?_)
    rw [Workers.advance, Workers.limit_goto_self]
    split
    · cases s.flavor k.victim <;> rfl
    · rfl
  | raidTask | raidRead | raidCheck | swapFirst =>
    refine Nat.le_add_right_of_le (Nat.le_of_eq ?_)
    simp only [Workers.advance, Workers.limit_goto_self]
    split <;> rfl
  | raidExchange l =>
    refine Nat.le_add_right_of_le (Nat.le_of_eq ?_)
    simp only [Workers.advance]
    split
    · refine Workers.limit_withFront _ _ fun w => ?_
      split <;> rfl
    · rw [Workers.limit_goto_self]
      rfl
  | lootFirst l =>
    refine Nat.le_add_right_of_le (Nat.le_of_eq ?_)
    simp only [Workers.advance]
    split
    · exact Workers.limit_withFront _ _ fun w => Loot.limit_again _ _
    · rw [Workers.limit_goto_self]
      rfl
  | lootExchange l x =>
    refine Nat.le_add_right_of_le (Nat.le_of_eq ?_)
    simp only [Workers.advance]
    split
    · exact Workers.limit_withFront _ _ fun w => rfl
    · rw [Workers.limit_goto_self]
      exact l.limit_finish _
  | lootBack l | lootCheck l x =>
    refine Nat.le_add_right_of_le (Nat.le_of_eq ?_)
    rw [Workers.advance, Workers.limit_goto_self]
    split
    · exact l.limit_finish _
    · rfl
  | lootWrite l x =>
    refine Nat.le_add_right_of_le (Nat.le_of_eq ?_)
    rw [Workers.advance, Workers.limit_put_self]
    exact Loot.limit_again _ _
  | lootStore l =>
    obtain ⟨hl, hop⟩ : l.Ok s c ∧ l.op ≠ .steal := (hs c).thiefAt hp
    rw [Workers.advance, Workers.limit_put_self]
    simp only [Workers.occur, WorkEvent.entered, List.flatMap_cons, List.flatMap_nil,
      List.append_nil, if_true, Buffer.length_window]
    rw [(hl.dest hop).2, Nat.add_sub_cancel_left]
    exact le_rfl
  | lifoUndo | lifoRestore | raidWrite | swapStore | swapStored =>
    refine Nat.le_add_right_of_le (Nat.le_of_eq ?_)
    rw [Workers.advance, Workers.limit_put_self]
    rfl
  | _ =>
    refine Nat.le_add_right_of_le (Nat.le_of_eq ?_)
    rw [Workers.advance, Workers.limit_goto_self]
    rfl

theorem Workers.limit_next {act : WorkAct κ T} (hs : ∀ d, s.CpuOk d) (he : s.Enabled act) (v : κ) :
    (s.next act).limit v ≤ s.limit v + ((s.events act).flatMap (WorkEvent.entered v)).length := by
  cases act with
  | call c k =>
    have hp := WorkPc.eq_idle he
    refine Nat.le_add_right_of_le ?_
    by_cases hv : v = c
    · subst hv
      rw [Workers.next, Workers.limit_goto_self, (WorkCall.start_same k _).2, Workers.limit_at hp]
      exact le_rfl
    · rw [Workers.next, Workers.limit, Workers.pc_goto_of_ne _ hv]
      exact le_rfl
  | step c a =>
    rw [Workers.next, Workers.events]
    by_cases hv : v = c
    · subst hv
      exact Workers.limit_advance hs
    · refine Nat.le_add_right_of_le ?_
      rw [Workers.limit, Workers.pc_advance_of_ne hv, Workers.limit]
      exact (Worker.limit_congr (Workers.back_advance_of_ne hv) _).le

variable [Fintype κ]

/-- The indices of a queue are bounded by the number of tasks that have entered it: none wraps
around before `2 ^ 63 - 1` tasks have. -/
theorem workers_indices {flavor : κ → Flavor} {log : List (WorkEvent κ T)}
    (h : ((workers κ T).logged Workers.events).Reaches anyStep (.new flavor, []) (s, log)) (v : κ) :
    (s.worker v).back ≤ (log.flatMap (WorkEvent.entered v)).length ∧
      (s.worker v).front ≤ (log.flatMap (WorkEvent.entered v)).length + 1 := by
  have hrun : (∀ d, s.CpuOk d) ∧ ∀ v, s.limit v ≤ (log.flatMap (WorkEvent.entered v)).length := by
    refine h.invariant (I := fun x => (∀ d, x.1.CpuOk d) ∧
      ∀ v, x.1.limit v ≤ (x.2.flatMap (WorkEvent.entered v)).length) ?_ ?_
    · exact ⟨Workers.ok_new flavor, fun v => le_rfl⟩
    · rintro ⟨s, log⟩ act ⟨hs, hl⟩ he -
      refine ⟨(Workers.ok_next hs he).ok, fun v => ?_⟩
      show (s.next act).limit v ≤ ((log ++ s.events act).flatMap (WorkEvent.entered v)).length
      rw [List.flatMap_append, List.length_append]
      exact (Workers.limit_next hs he v).trans (Nat.add_le_add_right (hl v) _)
  have hown := (hrun.1 v).owner
  have hle := hrun.2 v
  exact ⟨hown.back_le_limit.trans hle, hown.ok.front_le.trans (Nat.add_le_add_right hle 1)⟩

end Nacl
