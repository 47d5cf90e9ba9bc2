import Nacl.CoreSteps

/-! Every task stays with the executor that it was spawned on, from its spawn until
it answers `Ready`, and only that executor polls it. The log of a run lists the
spawns, the polls and the `Ready` answers. -/

namespace Nacl

open Guarded

inductive TaskEvent (κ : Type*)
  | spawned (c : κ) (id : TaskId)
  | polled (c : κ) (id : TaskId)
  | ready (c : κ) (id : TaskId)
deriving DecidableEq

variable {κ : Type*}

def Core.Holds (k : Core κ) (id : TaskId) : Prop := (k.tasks id).isSome = true

instance Core.decHolds (k : Core κ) (id : TaskId) : Decidable (k.Holds id) :=
  inferInstanceAs (Decidable (_ = true))

def Sched.events (s : Sched κ) : SchedAct κ → List (TaskEvent κ)
  | .spawn c id => [.spawned c id]
  | .lookup c id => if (s.cores c).Holds id then [.polled c id] else []
  | .answer c id .ready => [.ready c id]
  | _ => []

/-- What holds of the executors and of the log of the run that led to them. -/
structure Sched.TasksKept (s : Sched κ) (log : List (TaskEvent κ)) : Prop where
  noPanic : ∀ c id, (s.cores c).pc ≠ .panicked id
  spawner : ∀ c d id, .spawned c id ∈ log → .spawned d id ∈ log → c = d
  held : ∀ c id, (s.cores c).Holds id ↔ .spawned c id ∈ log ∧ ∀ d, .ready d id ∉ log
  polls : ∀ l c id r, log = l ++ .polled c id :: r → .spawned c id ∈ l ∧ ∀ d, .ready d id ∉ l
  cached : ∀ c, (s.cores c).pc = .pop → ∀ id ∈ (s.cores c).wakerCache, (s.cores c).Holds id

/-- The task whose poll has begun and not answered. -/
def Pc.polling : Pc κ → Option TaskId
  | .user (some (id, _)) | .push _ (some (id, _)) => some id
  | _ => none

structure Core.Sound (k : Core κ) : Prop where
  cached : ∀ id ∈ k.wakerCache, k.Holds id
  polling : ∀ id, k.pc.polling = some id → k.Holds id

theorem Core.holds_markWoken {k : Core κ} {ids : List TaskId} {id : TaskId} :
    (k.markWoken ids).Holds id ↔ k.Holds id := by
  by_cases hi : id ∈ ids <;> simp [Core.Holds, Core.markWoken, hi]

theorem Core.holds_insert {k : Core κ} {id j : TaskId} {t : Task} {pc : Pc κ}
    {cache : Finset TaskId} :
    ({ k with tasks := Function.update k.tasks id (some t), wakerCache := cache, pc := pc } :
      Core κ).Holds j ↔ j = id ∨ k.Holds j := by
  by_cases hj : j = id
  · subst j
    simp [Core.Holds]
  · simp [Core.Holds, hj]

theorem Core.holds_remove {k : Core κ} {id j : TaskId} {pc : Pc κ} {cache : Finset TaskId} :
    ({ k with tasks := Function.update k.tasks id none, wakerCache := cache, pc := pc } :
      Core κ).Holds j ↔ j ≠ id ∧ k.Holds j := by
  by_cases hj : j = id
  · subst j
    simp [Core.Holds]
  · simp [Core.Holds, hj]

/-- A step that removes no task and polls none that was not polled before. -/
theorem Core.Sound.grow {k k' : Core κ} (h : k.Sound) (hc : k'.wakerCache = k.wakerCache)
    (hh : ∀ id, k.Holds id → k'.Holds id)
    (hp : ∀ id, k'.pc.polling = some id → k.pc.polling = some id) : k'.Sound := by
  refine ⟨?_, ?_⟩
  · rw [hc]
    exact fun id hid => hh id (h.cached id hid)
  · exact fun id hid => hh id (h.polling id (hp id hid))

theorem Core.Sound.markWoken {k : Core κ} (h : k.Sound) (ids : List TaskId) :
    (k.markWoken ids).Sound :=
  h.grow rfl (fun _ hid => Core.holds_markWoken.mpr hid) (fun _ hid => hid)

theorem Core.Sound.step {stealers : List κ} {ok : Core κ → List TaskId → Prop} {k k' : Core κ}
    (h : k.Sound) (hs : Core.Step stealers ok k k') : k'.Sound := by
  cases hs with
  | same => exact h
  | woken ids => exact h.markWoken ids
  | inserted id task hp _ =>
    refine h.grow rfl (fun _ hid => Core.holds_insert.mpr (.inr hid)) ?_
    rcases task with _ | ⟨i, f⟩ <;> simp [Pc.polling, hp]
  | collided id task hp _ =>
    exact h.grow rfl (fun _ hid => Core.holds_insert.mpr (.inr hid)) (by simp [Pc.polling])
  | pushed id task hp =>
    refine h.grow rfl (fun _ hid => hid) ?_
    rcases task with _ | ⟨i, f⟩ <;> simp [Pc.polling, hp]
  | polled id t hp ht =>
    refine ⟨?_, ?_⟩
    · intro j hj
      rcases Finset.mem_insert.mp hj with rfl | hj
      · exact Core.holds_insert.mpr (.inl rfl)
      · exact Core.holds_insert.mpr (.inr (h.cached j hj))
    · intro j hj
      have he : id = j := by simpa [Pc.polling] using hj
      exact Core.holds_insert.mpr (.inl he.symm)
  | finished id hp =>
    refine ⟨?_, by simp [Pc.polling]⟩
    intro j hj
    obtain ⟨hne, hj⟩ := Finset.mem_erase.mp hj
    exact Core.holds_remove.mpr ⟨hne, h.cached j hj⟩
  | woke id task hp => exact (h.markWoken [id]).grow rfl (fun _ hid => hid) (fun _ hid => hid)
  | interrupted ids _ _ => exact (h.markWoken ids).grow rfl (fun _ hid => hid) (fun _ hid => hid)
  | resumed ids _ _ =>
    exact (h.markWoken ids).grow rfl (fun _ hid => hid) (by simp [Pc.polling])
  | robbed | flagged => exact h.grow rfl (fun _ hid => hid) (fun _ hid => hid)
  | _ => exact h.grow rfl (fun _ hid => hid) (by simp [Pc.polling])

theorem Core.popped_holds {k : Core κ} {j : TaskId} : k.popped.Holds j ↔ k.Holds j := by
  unfold Core.popped
  split <;> exact Iff.rfl

theorem Core.looked_holds {k : Core κ} {id j : TaskId} : (k.looked id).Holds j ↔ k.Holds j := by
  cases ht : k.tasks id with
  | none => simp [Core.looked, ht, Core.Holds]
  | some t =>
    simp only [Core.looked, ht]
    rw [Core.holds_insert]
    constructor
    · rintro (rfl | hj)
      · simp [Core.Holds, ht]
      · exact hj
    · exact .inr

variable [DecidableEq κ]

theorem Sched.reaches_sound {stealers : List κ} {flags : κ → Bool} {s : Sched κ}
    (h : (scheduler stealers).Reaches anyStep (Sched.init flags) s) (c : κ) :
    (s.cores c).Sound := by
  have hall : (scheduler stealers).Reaches (Sched.StealsMeet fun _ _ => True) (Sched.init flags) s := by
    refine h.mono ?_
    intro s a _
    rcases a with _ | _ | _ | _ | _ | _ | _ | _ | _ | _ | _ | _ | ⟨_, _, _ | _ | _⟩ | _ | _ <;>
      simp [Sched.StealsMeet]
  refine Sched.core_invariant hall ?_ (fun k k' hk hs => hk.step hs) c
  · intro d
    exact ⟨by simp [Sched.init], by simp [Sched.init, Pc.polling]⟩

theorem Sched.set_holds {s : Sched κ} {c d : κ} {k : Core κ} {j : TaskId}
    (h : k.Holds j ↔ (s.cores c).Holds j) : ((s.set c k).cores d).Holds j ↔ (s.cores d).Holds j := by
  by_cases hd : d = c
  · subst d
    simpa using h
  · rw [Sched.set_ne _ hd]

theorem Sched.stolen_holds {s : Sched κ} {c v d : κ} {r : StealAnswer} {j : TaskId} :
    ((s.stolen c v r).cores d).Holds j ↔ (s.cores d).Holds j := by
  cases r with
  | empty => exact Sched.set_holds Iff.rfl
  | retry => exact Iff.rfl
  | success n =>
    by_cases hv : v = c
    · simp only [Sched.stolen, hv, if_true]
      exact Sched.set_holds Iff.rfl
    · simp only [Sched.stolen, hv, if_false]
      have hc : (s.set v { s.cores v with worker := (s.cores v).worker.drop n }).cores c = s.cores c :=
        Sched.set_ne _ (Ne.symm hv) _
      refine (Sched.set_holds ?_).trans (Sched.set_holds Iff.rfl)
      rw [hc]
      exact Iff.rfl

theorem Sched.wake_holds {s : Sched κ} {c d : κ} {ids : List TaskId} {j : TaskId} :
    ((s.wake c ids).cores d).Holds j ↔ (s.cores d).Holds j := by
  by_cases hd : d = c
  · subst d
    rw [Sched.wake_same]
    exact Core.holds_markWoken
  · rw [Sched.wake_ne _ hd]
    exact Core.holds_markWoken

/-- Only a spawn gives a CPU a task, and only its `Ready` answer takes it away. -/
theorem Sched.next_holds {s : Sched κ} {stealers : List κ} {a : SchedAct κ} {d : κ} {j : TaskId} :
    ((s.next stealers a).cores d).Holds j ↔
      a = .spawn d j ∨ ((s.cores d).Holds j ∧ a ≠ .answer d j .ready) := by
  have keep : (((s.next stealers a).cores d).Holds j ↔ (s.cores d).Holds j) →
      (∀ c id, a ≠ .spawn c id) → (∀ c id, a ≠ .answer c id .ready) →
      (((s.next stealers a).cores d).Holds j ↔
        a = .spawn d j ∨ ((s.cores d).Holds j ∧ a ≠ .answer d j .ready)) := by
    intro h hs ha
    rw [h]
    simp [hs, ha]
  cases a with
  | spawn c id =>
    by_cases hd : d = c
    · subst d
      simp only [Sched.next, Sched.set_same]
      rw [Core.inserted, Core.holds_insert]
      simp [eq_comm]
    · simp [Sched.next, Sched.set_ne _ hd, Ne.symm hd]
  | answer c id p =>
    cases p with
    | pending => exact keep (Sched.set_holds Iff.rfl) (by simp) (by simp)
    | ready =>
      by_cases hd : d = c
      · subst d
        simp only [Sched.next, Sched.set_same, Core.answered]
        rw [Core.holds_remove]
        simp [eq_comm, and_comm]
      · simp [Sched.next, Sched.set_ne _ hd, Ne.symm hd]
  | pop c => exact keep (Sched.set_holds Core.popped_holds) (by simp) (by simp)
  | lookup c id => exact keep (Sched.set_holds Core.looked_holds) (by simp) (by simp)
  | wake c id => exact keep Sched.wake_holds (by simp) (by simp)
  | steal c v r => exact keep Sched.stolen_holds (by simp) (by simp)
  | interrupt c ids =>
    have h : ((s.next stealers (.interrupt c ids)).cores d).Holds j ↔
        ((s.wake c ids).cores d).Holds j := Sched.set_holds Iff.rfl
    exact keep (h.trans Sched.wake_holds) (by simp) (by simp)
  | new => exact keep Iff.rfl (by simp) (by simp)
  | _ => exact keep (Sched.set_holds Iff.rfl) (by simp) (by simp)

/-- The ids that are made and not spawned yet, and those that are spawned. -/
structure Sched.Tracked (s : Sched κ) (log : List (TaskEvent κ)) : Prop where
  nodup : s.unspawned.Nodup
  made : ∀ id ∈ s.unspawned, id < s.created
  fresh : ∀ id ∈ s.unspawned, ∀ c, .spawned c id ∉ log
  old : ∀ c id, .spawned c id ∈ log → id < s.created
  spawner : ∀ c d id, .spawned c id ∈ log → .spawned d id ∈ log → c = d
  ended : ∀ c id, .ready c id ∈ log → .spawned c id ∈ log
  held : ∀ c id, (s.cores c).Holds id ↔ .spawned c id ∈ log ∧ ∀ d, .ready d id ∉ log

omit [DecidableEq κ] in
theorem Sched.init_tracked (flags : κ → Bool) : (Sched.init flags).Tracked [] where
  nodup := List.nodup_nil
  made := by simp [Sched.init]
  fresh := by simp
  old := by simp
  spawner := by simp
  ended := by simp
  held := by simp [Sched.init, Core.Holds]

theorem Sched.next_created {s : Sched κ} {stealers : List κ} (a : SchedAct κ) :
    s.created ≤ (s.next stealers a).created := by
  cases a with
  | new => exact Nat.le_succ _
  | steal c v r =>
    cases r with
    | success n =>
      simp only [Sched.next, Sched.stolen]
      split <;> exact Nat.le_refl _
    | _ => exact Nat.le_refl _
  | _ => exact Nat.le_refl _

theorem Sched.next_unspawned {s : Sched κ} {stealers : List κ} {a : SchedAct κ}
    (hn : a ≠ .new) (hs : ∀ c id, a ≠ .spawn c id) :
    (s.next stealers a).unspawned = s.unspawned ∧ (s.next stealers a).created = s.created := by
  cases a with
  | new => exact absurd rfl hn
  | spawn c id => exact absurd rfl (hs c id)
  | steal c v r =>
    cases r with
    | success n =>
      simp only [Sched.next, Sched.stolen]
      split <;> exact ⟨rfl, rfl⟩
    | _ => exact ⟨rfl, rfl⟩
  | _ => exact ⟨rfl, rfl⟩

theorem Sched.Tracked.new {s : Sched κ} {log : List (TaskEvent κ)} {stealers : List κ}
    (h : s.Tracked log) (hn : s.created < 2 ^ 64) : (s.next stealers .new).Tracked log := by
  have hid : TaskId.new s.created = s.created := Nat.mod_eq_of_lt hn
  have hun : (s.next stealers .new).unspawned = s.created :: s.unspawned := by
    simp [Sched.next, hid]
  refine ⟨?_, ?_, ?_, ?_, h.spawner, h.ended, h.held⟩
  · rw [hun, List.nodup_cons]
    refine ⟨?_, h.nodup⟩
    intro hm
    exact Nat.lt_irrefl _ (h.made _ hm)
  · rw [hun]
    intro id hm
    rcases List.mem_cons.mp hm with rfl | hm
    · exact Nat.lt_succ_self _
    · exact Nat.lt_succ_of_lt (h.made id hm)
  · rw [hun]
    intro id hm c hc
    rcases List.mem_cons.mp hm with rfl | hm
    · exact Nat.lt_irrefl _ (h.old c _ hc)
    · exact h.fresh id hm c hc
  · intro c id hc
    exact Nat.lt_succ_of_lt (h.old c id hc)

theorem Sched.Tracked.spawn {s : Sched κ} {log : List (TaskEvent κ)} {stealers : List κ}
    (h : s.Tracked log) {c : κ} {id : TaskId} (hid : id ∈ s.unspawned) :
    (s.next stealers (.spawn c id)).Tracked (log ++ [.spawned c id]) := by
  have hsp : ∀ d j, .spawned d j ∈ log ++ [TaskEvent.spawned c id] ↔
      .spawned d j ∈ log ∨ (d = c ∧ j = id) := by simp
  have hre : ∀ d j, .ready d j ∈ log ++ [TaskEvent.spawned c id] ↔ .ready d j ∈ log := by simp
  have hun : (s.next stealers (.spawn c id)).unspawned = s.unspawned.erase id := rfl
  refine ⟨?_, ?_, ?_, ?_, ?_, ?_, ?_⟩
  · rw [hun]
    exact h.nodup.erase id
  · rw [hun]
    exact fun j hj => h.made j (List.mem_of_mem_erase hj)
  · rw [hun]
    intro j hj d hd
    obtain ⟨hne, hj⟩ := (h.nodup.mem_erase_iff).mp hj
    rcases (hsp d j).mp hd with hd | ⟨-, hd⟩
    · exact h.fresh j hj d hd
    · exact hne hd
  · intro d j hd
    rcases (hsp d j).mp hd with hd | ⟨-, rfl⟩
    · exact h.old d j hd
    · exact h.made j hid
  · intro d e j hd he
    rcases (hsp d j).mp hd with hdl | ⟨rfl, rfl⟩
    · rcases (hsp e j).mp he with hel | ⟨-, rfl⟩
      · exact h.spawner d e j hdl hel
      · exact absurd hdl (h.fresh j hid d)
    · rcases (hsp e j).mp he with hel | ⟨rfl, -⟩
      · exact absurd hel (h.fresh j hid e)
      · rfl
  · intro d j hd
    exact (hsp d j).mpr (.inl (h.ended d j ((hre d j).mp hd)))
  · intro d j
    simp only [Sched.next_holds, hsp, hre, h.held]
    have hnone : ∀ e, .ready e id ∉ log := fun e he => h.fresh id hid e (h.ended e id he)
    constructor
    · rintro (he | ⟨⟨hd, hr⟩, -⟩)
      · injection he with hc hi
        subst hc hi
        exact ⟨.inr ⟨rfl, rfl⟩, hnone⟩
      · exact ⟨.inl hd, hr⟩
    · rintro ⟨hd | ⟨rfl, rfl⟩, hr⟩
      · exact .inr ⟨⟨hd, hr⟩, by simp⟩
      · exact .inl rfl

theorem Sched.Tracked.ready {s : Sched κ} {log : List (TaskEvent κ)} {stealers : List κ}
    (h : s.Tracked log) {c : κ} {id : TaskId} (hk : (s.cores c).Holds id) :
    (s.next stealers (.answer c id .ready)).Tracked (log ++ [.ready c id]) := by
  have hsp : ∀ d j, .spawned d j ∈ log ++ [TaskEvent.ready c id] ↔ .spawned d j ∈ log := by simp
  have hre : ∀ d j, .ready d j ∈ log ++ [TaskEvent.ready c id] ↔
      .ready d j ∈ log ∨ (d = c ∧ j = id) := by simp
  obtain ⟨hc, -⟩ := (h.held c id).mp hk
  refine ⟨h.nodup, h.made, ?_, ?_, ?_, ?_, ?_⟩
  · intro j hj d
    rw [hsp]
    exact h.fresh j hj d
  · intro d j
    rw [hsp]
    exact h.old d j
  · intro d e j
    rw [hsp, hsp]
    exact h.spawner d e j
  · intro d j hd
    rw [hsp]
    rcases (hre d j).mp hd with hd | ⟨rfl, rfl⟩
    · exact h.ended d j hd
    · exact hc
  · intro d j
    simp only [Sched.next_holds, hsp, hre, h.held]
    constructor
    · rintro (he | ⟨⟨hd, hr⟩, hne⟩)
      · cases he
      · refine ⟨hd, ?_⟩
        rintro e (he | ⟨rfl, rfl⟩)
        · exact hr e he
        · exact hne (by rw [h.spawner d e j hd hc])
    · rintro ⟨hd, hr⟩
      refine .inr ⟨⟨hd, fun e he => hr e (.inl he)⟩, ?_⟩
      intro he
      injection he with hce hi
      exact hr d (.inr ⟨hce.symm, hi.symm⟩)

def PollsLegal (log : List (TaskEvent κ)) : Prop :=
  ∀ l c id r, log = l ++ .polled c id :: r → .spawned c id ∈ l ∧ ∀ d, .ready d id ∉ l

omit [DecidableEq κ] in
theorem PollsLegal.append {log : List (TaskEvent κ)} (h : PollsLegal log) {e : TaskEvent κ}
    (he : ∀ c id, e = .polled c id → .spawned c id ∈ log ∧ ∀ d, .ready d id ∉ log) :
    PollsLegal (log ++ [e]) := by
  intro l c id r hs
  rcases List.eq_nil_or_concat r with rfl | ⟨r, x, rfl⟩
  · obtain ⟨rfl, hlast⟩ := List.append_inj' hs rfl
    exact he c id (by simpa using hlast)
  · rw [List.concat_eq_append, ← List.cons_append, ← List.append_assoc] at hs
    exact h l c id r (List.append_inj' hs rfl).1

theorem Sched.Tracked.same {s : Sched κ} {log log' : List (TaskEvent κ)} {stealers : List κ}
    {a : SchedAct κ} (h : s.Tracked log) (hn : a ≠ .new) (hs : ∀ c id, a ≠ .spawn c id)
    (ha : ∀ c id, a ≠ .answer c id .ready)
    (hlog : ∀ e, (∀ c id, e ≠ .polled c id) → (e ∈ log' ↔ e ∈ log)) :
    (s.next stealers a).Tracked log' := by
  have hsame : (s.next stealers a).unspawned = s.unspawned ∧ (s.next stealers a).created = s.created :=
    Sched.next_unspawned hn hs
  obtain ⟨hun, hcr⟩ := hsame
  have hsp : ∀ c id, .spawned c id ∈ log' ↔ .spawned c id ∈ log := fun c id => hlog _ (by simp)
  have hre : ∀ c id, .ready c id ∈ log' ↔ .ready c id ∈ log := fun c id => hlog _ (by simp)
  constructor
  · rw [hun]
    exact h.nodup
  · rw [hun, hcr]
    exact h.made
  · simp only [hun, hsp]
    exact h.fresh
  · simp only [hcr, hsp]
    exact h.old
  · simp only [hsp]
    exact h.spawner
  · simp only [hsp, hre]
    exact h.ended
  · intro c id
    simp only [Sched.next_holds, hsp, hre, h.held]
    simp [hs, ha]

theorem Sched.Tracked.next {s : Sched κ} {log : List (TaskEvent κ)} {stealers : List κ}
    {a : SchedAct κ} (h : s.Tracked log) (hl : PollsLegal log) (hsound : ∀ c, (s.cores c).Sound)
    (he : s.Enabled a) (hn : (s.next stealers a).created < 2 ^ 64) :
    (s.next stealers a).Tracked (log ++ s.events a) ∧ PollsLegal (log ++ s.events a) := by
  cases a with
  | new =>
    simp only [Sched.events, List.append_nil]
    exact ⟨h.new (Nat.lt_of_succ_lt hn), hl⟩
  | spawn c id => exact ⟨h.spawn he.2, hl.append (by simp)⟩
  | answer c id p =>
    cases p with
    | pending =>
      simp only [Sched.events, List.append_nil]
      exact ⟨h.same (by simp) (by simp) (by simp) (fun _ _ => Iff.rfl), hl⟩
    | ready =>
      have hp : (s.cores c).pc.polling = some id := by
        rw [show (s.cores c).pc = _ from he]
        rfl
      exact ⟨h.ready ((hsound c).polling id hp), hl.append (by simp)⟩
  | lookup c id =>
    by_cases hk : (s.cores c).Holds id
    · simp only [Sched.events, hk, if_true]
      refine ⟨h.same (by simp) (by simp) (by simp) ?_, hl.append ?_⟩
      · intro e hne
        simp [hne]
      · intro d j hd
        injection hd with hc hi
        subst hc hi
        exact (h.held c id).mp hk
    · simp only [Sched.events, hk, if_false, List.append_nil]
      exact ⟨h.same (by simp) (by simp) (by simp) (fun _ _ => Iff.rfl), hl⟩
  | _ =>
    simp only [Sched.events, List.append_nil]
    exact ⟨h.same (by simp) (by simp) (by simp) (fun _ _ => Iff.rfl), hl⟩

def Sched.NoPanic (s : Sched κ) : Prop := ∀ c id, (s.cores c).pc ≠ .panicked id

theorem Sched.NoPanic.set {s : Sched κ} (h : s.NoPanic) {c : κ} {k : Core κ}
    (hk : ∀ id, k.pc ≠ .panicked id) : (s.set c k).NoPanic := by
  intro d id
  by_cases hd : d = c
  · subst d
    simpa using hk id
  · rw [Sched.set_ne _ hd]
    exact h d id

theorem Sched.NoPanic.wake {s : Sched κ} (h : s.NoPanic) (c : κ) (ids : List TaskId) :
    (s.wake c ids).NoPanic := by
  intro d id
  by_cases hd : d = c
  · subst d
    rw [Sched.wake_same]
    exact h c id
  · rw [Sched.wake_ne _ hd]
    exact h d id

theorem Sched.NoPanic.stolen {s : Sched κ} (h : s.NoPanic) (c v : κ) (r : StealAnswer) :
    (s.stolen c v r).NoPanic := by
  cases r with
  | empty =>
    refine h.set ?_
    intro id
    have hc := h c id
    cases hp : (s.cores c).pc <;> simp_all [Pc.skip]
  | retry => exact h
  | success n =>
    by_cases hv : v = c
    · simp only [Sched.stolen, hv, if_true]
      exact h.set (by simp)
    · simp only [Sched.stolen, hv, if_false]
      have hv' : (s.set v { s.cores v with worker := (s.cores v).worker.drop n }).NoPanic :=
        h.set (h v)
      exact hv'.set (by simp)

/-- Only the spawn of an id that is already held panics. -/
theorem Sched.NoPanic.next {s : Sched κ} {stealers : List κ} {a : SchedAct κ} (h : s.NoPanic)
    (hs : ∀ c id, a = .spawn c id → ¬ (s.cores c).Holds id) : (s.next stealers a).NoPanic := by
  cases a with
  | new => exact h
  | spawn c id =>
    have hc := hs c id rfl
    refine h.set (k := (s.cores c).inserted id) ?_
    intro j
    have hj := h c j
    rw [Core.Holds] at hc
    simp only [Core.inserted, hc]
    cases hp : (s.cores c).pc <;> simp_all [Pc.enterPush]
  | spawnPush c id =>
    refine h.set ?_
    intro j
    have hj := h c j
    cases hp : (s.cores c).pc <;> simp_all [Core.pushed, Pc.leavePush]
  | pop c =>
    refine h.set ?_
    intro j
    unfold Core.popped
    split <;> simp
  | lookup c id =>
    refine h.set ?_
    intro j
    unfold Core.looked
    split <;> simp
  | answer c id p => cases p <;> exact h.set (by simp [Core.answered])
  | check c =>
    refine h.set ?_
    intro j
    simp only [Core.checked]
    split <;> simp
  | wake c id => exact h.wake c [id]
  | setInterrupts c flag => exact h.set (h c)
  | steal c v r => exact h.stolen c v r
  | interrupt c ids =>
    refine (h.wake c ids).set ?_
    intro j
    simp only [Core.resumed]
    split
    · simp
    · exact h.wake c ids c j
  | _ => exact h.set (by simp)

theorem Sched.reaches_tracked {stealers : List κ} {flags : κ → Bool}
    {x : Sched κ × List (TaskEvent κ)}
    (h : ((scheduler stealers).logged Sched.events).Reaches anyStep (Sched.init flags, []) x)
    (hn : x.1.created < 2 ^ 64) : x.1.NoPanic ∧ x.1.Tracked x.2 ∧ PollsLegal x.2 := by
  induction h with
  | refl => exact ⟨by simp [Sched.NoPanic, Sched.init], Sched.init_tracked flags, by simp [PollsLegal]⟩
  | @tail y _ hs hst ih =>
    obtain ⟨a, he, -, rfl⟩ := hst
    have hle : y.1.created ≤ (y.1.next stealers a).created := Sched.next_created a
    obtain ⟨hp, ht, hl⟩ := ih (Nat.lt_of_le_of_lt hle hn)
    have hsound := Sched.reaches_sound (System.Reaches.unlogged anyStep hs)
    refine ⟨hp.next ?_, ht.next hl hsound he hn⟩
    rintro c id rfl hheld
    exact ht.fresh id he.2 c ((ht.held c id).mp hheld).1

theorem executors_keep_tasks {stealers : List κ} {flags : κ → Bool} {s : Sched κ}
    {log : List (TaskEvent κ)}
    (h : ((scheduler stealers).logged Sched.events).Reaches anyStep (Sched.init flags, []) (s, log))
    (hn : s.created < 2 ^ 64) : s.TasksKept log := by
  obtain ⟨hp, ht, hl⟩ := Sched.reaches_tracked h hn
  have hsound := Sched.reaches_sound (System.Reaches.unlogged anyStep h)
  exact ⟨hp, ht.spawner, ht.held, hl, fun c _ => (hsound c).cached⟩

/-- A task is woken on another CPU and by itself and answers `Ready`; CPU `d` looks up one
stale id, and steals the other one and looks it up. -/
def staleWakeRun (c d : κ) : List (SchedAct κ) :=
  [.new, .spawn c 0, .spawnPush c 0, .start c, .wake d 0, .pop c, .lookup c 0, .wake c 0,
    .answer c 0 .ready, .start d, .pop d, .lookup d 0, .pop d, .disable d, .check d,
    .steal d c (.success 1), .pop d, .lookup d 0]

theorem executors_keep_tasks_staleWakeRun :
    ∃ (s : Sched (Fin 2)) (log : List (TaskEvent (Fin 2))),
      ((scheduler [0, 1]).logged Sched.events).Reaches anyStep (Sched.init fun _ => true, [])
        (s, log) ∧ log = [.spawned 0 0, .polled 0 0, .ready 0 0] ∧ s.TasksKept log := by
  have h : ((scheduler [0, 1]).logged Sched.events).Reaches anyStep
      ((Sched.init fun _ => true : Sched (Fin 2)), [])
      (((scheduler [0, 1]).logged Sched.events).after (Sched.init fun _ => true, [])
        (staleWakeRun 0 1)) :=
    System.reaches_after (by decide) (System.meets_anyStep _)
  exact ⟨_, _, h, by decide, executors_keep_tasks h (by decide)⟩

end Nacl
