import Mathlib.Data.Fintype.Basic
import Nacl.CoreSteps

/-! Ready tasks and the ids that lead back to them. A ready task is found again
as long as its id is in some queue or in the hands of some CPU; an id that is
popped where its task is not held is dropped. -/

namespace Nacl

open Guarded

variable {κ : Type*}

/-- The id that a CPU has popped and not yet looked up, or that it is spawning. -/
def Pc.hand : Pc κ → Option TaskId
  | .lookup id | .push id _ | .panicked id => some id
  | _ => none

def Core.Carries (k : Core κ) (id : TaskId) : Prop := id ∈ k.worker ∨ k.pc.hand = some id

def Core.HoldsReady (k : Core κ) (id : TaskId) : Prop := (k.tasks id).any Task.ready = true

def Pc.inIteration (pc : Pc κ) : Bool := pc.hand.isSome || pc.isPoll

def Sched.Quiescent (s : Sched κ) : Prop :=
  ∀ c, (s.cores c).worker = [] ∧ (s.cores c).pc.inIteration = false

def Sched.NoneReady (s : Sched κ) : Prop := ∀ c id, ¬ (s.cores c).HoldsReady id

/-- Every ready task can still be found through its id. -/
def Sched.Findable (s : Sched κ) : Prop :=
  ∀ c id, (s.cores c).HoldsReady id → ∃ d, (s.cores d).Carries id

/-- No CPU looks up the last copy of the id of a ready task that another CPU
holds. -/
def Sched.KeepsLast (s : Sched κ) : SchedAct κ → Prop
  | .lookup c id => ∀ d, d ≠ c → (s.cores d).HoldsReady id →
      id ∈ (s.cores c).worker ∨ ∃ e, e ≠ c ∧ (s.cores e).Carries id
  | _ => True

instance (k : Core κ) (id : TaskId) : Decidable (k.Carries id) :=
  inferInstanceAs (Decidable (_ ∨ _))

instance (k : Core κ) (id : TaskId) : Decidable (k.HoldsReady id) :=
  inferInstanceAs (Decidable (_ = _))

instance Sched.decKeepsLast [Fintype κ] [DecidableEq κ] (s : Sched κ) :
    (a : SchedAct κ) → Decidable (s.KeepsLast a)
  | .lookup c id => inferInstanceAs (Decidable (∀ d, d ≠ c → (s.cores d).HoldsReady id →
      id ∈ (s.cores c).worker ∨ ∃ e, e ≠ c ∧ (s.cores e).Carries id))
  | .new | .spawn _ _ | .spawnPush _ _ | .start _ | .pop _ | .wake _ _ | .setInterrupts _ _
  | .answer _ _ _ | .disable _ | .check _ | .enable _ | .steal _ _ _ | .enableAndHlt _
  | .interrupt _ _ => isTrue trivial

instance [Fintype κ] (s : Sched κ) : Decidable s.Quiescent :=
  inferInstanceAs (Decidable (∀ _, _ ∧ _))

theorem Sched.Findable.quiescent {s : Sched κ} (h : s.Findable) (hq : s.Quiescent) :
    s.NoneReady := by
  intro c id hr
  obtain ⟨d, hd⟩ := h c id hr
  obtain ⟨hw, hp⟩ := hq d
  rcases hd with hm | hh
  · simp [hw] at hm
  · simp [Pc.inIteration, hh] at hp

theorem Core.Carries.mem_worker {k : Core κ} {id : TaskId} (h : k.Carries id)
    (hh : k.pc.hand ≠ some id) : id ∈ k.worker :=
  h.resolve_right hh

theorem Core.Carries.of_hand_none {k : Core κ} {id : TaskId} (h : k.Carries id)
    (hh : k.pc.hand = none) : id ∈ k.worker :=
  h.mem_worker (by simp [hh])

theorem Core.Carries.push {k : Core κ} {id : TaskId} (h : k.Carries id) (ids : List TaskId) :
    (k.push ids).Carries id :=
  h.imp (fun hm => List.mem_append_left _ hm) (fun hp => hp)

theorem Core.Carries.resumed [DecidableEq κ] {k : Core κ} {id : TaskId} (h : k.Carries id) :
    k.resumed.Carries id := by
  by_cases hp : k.pc = .halted
  · exact .inl (h.of_hand_none (by rw [hp]; rfl))
  · simpa [Core.Carries, Core.resumed, hp] using h

theorem Core.HoldsReady.of_markWoken {k : Core κ} {ids : List TaskId} {id : TaskId}
    (h : (k.markWoken ids).HoldsReady id) : id ∈ ids ∨ k.HoldsReady id := by
  by_cases hi : id ∈ ids
  · exact .inl hi
  · exact .inr (by simpa [Core.HoldsReady, Core.markWoken, hi] using h)

theorem Core.inserted_ready {k : Core κ} {id j : TaskId} (hu : k.pc.isUser = true)
    (h : (k.inserted id).HoldsReady j) : (k.inserted id).Carries j ∨ k.HoldsReady j := by
  obtain ⟨task, hp⟩ := Pc.isUser_iff.mp hu
  by_cases hj : j = id
  · subst j
    refine .inl (.inr ?_)
    by_cases ht : (k.tasks id).isSome = true
    · simp [Core.inserted, ht, Pc.hand]
    · simp [Core.inserted, ht, hp, Pc.enterPush, Pc.hand]
  · exact .inr (by simpa [Core.HoldsReady, Core.inserted, hj] using h)

theorem Core.pushed_carries {k : Core κ} {id j : TaskId} (hp : k.pc.pushing = some id)
    (h : k.Carries j) : (k.pushed id).Carries j := by
  obtain ⟨task, hp⟩ := Pc.pushing_iff.mp hp
  rcases h with hm | hh
  · exact .inl (List.mem_append_left _ hm)
  · have hj : id = j := by simpa [hp, Pc.hand] using hh
    exact .inl (by simp [Core.pushed, Core.push, hj])

theorem Core.popped_carries {k : Core κ} {id : TaskId} (hp : k.pc = .pop) (h : k.Carries id) :
    k.popped.Carries id := by
  have hm := h.of_hand_none (by rw [hp]; rfl)
  cases hw : k.worker with
  | nil => simp [hw] at hm
  | cons i rest =>
    rw [hw] at hm
    rcases List.mem_cons.mp hm with rfl | hm
    · exact .inr (by simp [Core.popped, hw, Pc.hand])
    · exact .inl (by simpa [Core.popped, hw] using hm)

theorem Core.popped_tasks (k : Core κ) : k.popped.tasks = k.tasks := by
  unfold Core.popped
  split <;> rfl

theorem Core.answered_ready {k : Core κ} {id j : TaskId} {p : Poll}
    (h : (k.answered id p).HoldsReady j) : k.HoldsReady j := by
  cases p with
  | pending => exact h
  | ready =>
    by_cases hj : j = id
    · subst j
      simp [Core.HoldsReady, Core.answered] at h
    · simpa [Core.HoldsReady, Core.answered, hj] using h

theorem Core.looked_ready {k : Core κ} {id j : TaskId} (h : (k.looked id).HoldsReady j) :
    j ≠ id ∧ k.HoldsReady j := by
  cases ht : k.tasks id with
  | none =>
    have hk : k.HoldsReady j := by simpa [Core.HoldsReady, Core.looked, ht] using h
    refine ⟨fun hj => ?_, hk⟩
    simp [Core.HoldsReady, hj, ht] at hk
  | some t =>
    by_cases hj : j = id
    · subst j
      simp [Core.HoldsReady, Core.looked, ht, Task.begin, Task.ready] at h
    · exact ⟨hj, by simpa [Core.HoldsReady, Core.looked, ht, hj] using h⟩

theorem Core.looked_worker (k : Core κ) (id : TaskId) : (k.looked id).worker = k.worker := by
  unfold Core.looked
  split <;> rfl

variable [DecidableEq κ]

theorem Sched.carried_set {s : Sched κ} {c : κ} {k : Core κ} {id : TaskId}
    (hc : (s.cores c).Carries id → k.Carries id) (h : ∃ d, (s.cores d).Carries id) :
    ∃ d, ((s.set c k).cores d).Carries id := by
  obtain ⟨d, hd⟩ := h
  by_cases hdc : d = c
  · subst hdc
    exact ⟨d, by simpa using hc hd⟩
  · exact ⟨d, by simpa [Sched.set_ne _ hdc] using hd⟩

theorem Sched.Findable.set {s : Sched κ} (h : s.Findable) {c : κ} {k : Core κ}
    (hr : ∀ id, k.HoldsReady id → k.Carries id ∨ (s.cores c).HoldsReady id)
    (hc : ∀ id, (s.cores c).Carries id → k.Carries id) : (s.set c k).Findable := by
  intro e id he
  by_cases hec : e = c
  · subst hec
    rcases hr id (by simpa using he) with hk | hk
    · exact ⟨e, by simpa using hk⟩
    · exact Sched.carried_set (hc id) (h e id hk)
  · exact Sched.carried_set (hc id) (h e id (by simpa [Sched.set_ne _ hec] using he))

theorem Sched.Findable.set_pc {s : Sched κ} (h : s.Findable) {c : κ} (pc : Pc κ) (flag : Bool)
    (hh : (s.cores c).pc.hand = none) :
    (s.set c { s.cores c with interrupts := flag, pc := pc }).Findable :=
  h.set (fun _ hr => .inr hr) (fun _ hc => .inl (hc.of_hand_none hh))

theorem Sched.Findable.lookup {s : Sched κ} (h : s.Findable) {c : κ} {id : TaskId}
    (hp : (s.cores c).pc = .lookup id) (hk : s.KeepsLast (.lookup c id)) :
    (s.set c ((s.cores c).looked id)).Findable := by
  have hown : ∀ j, j ≠ id → (s.cores c).Carries j → ((s.cores c).looked id).Carries j := by
    intro j hne hj
    refine .inl ?_
    rw [Core.looked_worker]
    exact hj.mem_worker (by simp [hp, Pc.hand, hne.symm])
  intro e j he
  by_cases hec : e = c
  · subst hec
    have hj := Core.looked_ready (by simpa using he)
    exact Sched.carried_set (hown j hj.1) (h e j hj.2)
  · have he' : (s.cores e).HoldsReady j := by simpa [Sched.set_ne _ hec] using he
    by_cases hj : j = id
    · subst hj
      rcases hk e hec he' with hm | ⟨d, hdc, hd⟩
      · exact ⟨c, .inl (by simpa [Core.looked_worker] using hm)⟩
      · exact ⟨d, by simpa [Sched.set_ne _ hdc] using hd⟩
    · exact Sched.carried_set (hown j hj) (h e j he')

theorem Sched.Findable.wake {s : Sched κ} (h : s.Findable) (c : κ) (ids : List TaskId) :
    (s.wake c ids).Findable := by
  have hcar : ∀ d id, (s.cores d).Carries id → ((s.wake c ids).cores d).Carries id := by
    intro d id hd
    have hm : ((s.cores d).markWoken ids).Carries id := hd
    by_cases hdc : d = c
    · subst hdc
      simpa using hm.push ids
    · simpa [Sched.wake_ne _ hdc] using hm
  intro e id he
  have hr : id ∈ ids ∨ (s.cores e).HoldsReady id := by
    by_cases hec : e = c
    · subst hec
      exact Core.HoldsReady.of_markWoken (by simpa [Core.HoldsReady, Core.push] using he)
    · exact Core.HoldsReady.of_markWoken (by simpa [Sched.wake_ne _ hec] using he)
  rcases hr with hm | hr
  · exact ⟨c, .inl (by simp [Core.push, hm])⟩
  · obtain ⟨d, hd⟩ := h e id hr
    exact ⟨d, hcar d id hd⟩

theorem Sched.Findable.steal {s : Sched κ} (h : s.Findable) {c v : κ} (hvc : v ≠ c) {n : Nat}
    (hh : (s.cores c).pc.hand = none) : (s.stolen c v (.success n)).Findable := by
  have hready : ∀ e id, ((s.stolen c v (.success n)).cores e).HoldsReady id →
      (s.cores e).HoldsReady id := by
    intro e id he
    simp only [Sched.stolen, hvc, if_false] at he
    by_cases hec : e = c
    · subst hec
      simpa [Core.HoldsReady] using he
    · by_cases hev : e = v
      · subst hev
        simpa [Sched.set_ne _ hec, Core.HoldsReady] using he
      · simpa [Sched.set_ne _ hec, Sched.set_ne _ hev] using he
  intro e id he
  obtain ⟨d, hd⟩ := h e id (hready e id he)
  simp only [Sched.stolen, hvc, if_false]
  by_cases hdc : d = c
  · subst hdc
    exact ⟨d, .inl (by simp [hd.of_hand_none hh])⟩
  · by_cases hdv : d = v
    · subst hdv
      rcases hd with hm | hhand
      · rw [← List.take_append_drop n (s.cores d).worker] at hm
        rcases List.mem_append.mp hm with hm | hm
        · exact ⟨c, .inl (by simp [hm])⟩
        · exact ⟨d, .inl (by simpa [Sched.set_ne _ hdc] using hm)⟩
      · exact ⟨d, .inr (by simpa [Sched.set_ne _ hdc] using hhand)⟩
    · exact ⟨d, by simpa [Sched.set_ne _ hdc, Sched.set_ne _ hdv] using hd⟩

theorem Sched.Findable.next {s : Sched κ} {stealers : List κ} {a : SchedAct κ} (h : s.Findable)
    (he : s.Enabled a) (hk : s.KeepsLast a) : (s.next stealers a).Findable := by
  cases a with
  | new => exact h
  | spawn c id =>
    obtain ⟨task, hp⟩ := Pc.isUser_iff.mp he.1
    exact h.set (fun j hj => Core.inserted_ready he.1 hj)
      (fun j hj => .inl (hj.of_hand_none (congrArg Pc.hand hp)))
  | spawnPush c id => exact h.set (fun _ hj => .inr hj) (fun _ hj => Core.pushed_carries he hj)
  | start c => exact h.set_pc .pop _ (congrArg Pc.hand he)
  | pop c =>
    refine h.set (fun j hj => .inr ?_) (fun _ hj => Core.popped_carries he hj)
    simpa [Core.HoldsReady, Core.popped_tasks] using hj
  | lookup c id => exact h.lookup he hk
  | wake c id => exact h.wake c [id]
  | setInterrupts c flag => exact h.set (fun _ hj => .inr hj) (fun _ hj => hj)
  | answer c id p =>
    refine h.set (fun _ hj => .inr (Core.answered_ready hj)) (fun j hj => .inl ?_)
    have hm : j ∈ (s.cores c).worker := hj.of_hand_none (congrArg Pc.hand he)
    cases p <;> exact hm
  | disable c => exact h.set_pc .check false (congrArg Pc.hand he)
  | check c => exact h.set_pc _ _ (congrArg Pc.hand he)
  | enable c => exact h.set_pc .pop true (congrArg Pc.hand he)
  | steal c v r =>
    obtain ⟨rest, hp⟩ := Pc.victim_iff.mp he.1
    have hh : (s.cores c).pc.hand = none := congrArg Pc.hand hp
    cases r with
    | empty => exact h.set_pc _ _ hh
    | retry => exact h
    | success n =>
      by_cases hvc : v = c
      · simpa [Sched.next, Sched.stolen, hvc] using h.set_pc .pop _ hh
      · exact h.steal hvc hh
  | enableAndHlt c => exact h.set_pc .halted true (congrArg Pc.hand he)
  | interrupt c ids => exact (h.wake c ids).set (fun _ hj => .inr hj) (fun _ hj => hj.resumed)

theorem quiescent_none_ready {stealers : List κ} {flags : κ → Bool} {s : Sched κ}
    (h : (scheduler stealers).Reaches Sched.KeepsLast (Sched.init flags) s)
    (hq : s.Quiescent) : s.NoneReady := by
  have hinit : (Sched.init flags).Findable := by
    intro c id hr
    simp [Core.HoldsReady, Sched.init] at hr
  have hf : s.Findable := h.invariant hinit (fun s a hs he hk => hs.next he hk)
  exact hf.quiescent hq

/-- CPU `c` spawns a task and has not popped its id yet; CPU `d` goes idle, steals
the id, skips it and halts; CPU `c` then finds its queue empty and halts. -/
def strandedRun (c d : κ) : List (SchedAct κ) :=
  [.new, .spawn c 0, .spawnPush c 0, .start d, .pop d, .disable d, .check d,
    .steal d c (.success 1), .pop d, .lookup d 0, .pop d, .disable d, .check d,
    .steal d c .empty, .steal d d .empty, .enableAndHlt d,
    .start c, .pop c, .disable c, .check c, .steal c c .empty, .steal c d .empty,
    .enableAndHlt c]

theorem stolen_task_stranded : ¬ ∀ (κ : Type) [DecidableEq κ] (stealers : List κ)
    (flags : κ → Bool) (s : Sched κ),
    (scheduler stealers).Reaches anyStep (Sched.init flags) s → s.Quiescent → s.NoneReady := by
  intro h
  have hr : (scheduler [(0 : Fin 2), 1]).Reaches anyStep (Sched.init fun _ => true)
      ((scheduler [0, 1]).after (Sched.init fun _ => true) (strandedRun 0 1)) :=
    System.reaches_after (by decide) (System.meets_anyStep _)
  exact h (Fin 2) [0, 1] _ _ hr (by decide) 0 0 (by decide)

/-- A handler on CPU `d` wakes the task of CPU `c` twice. CPU `d` looks up the first id in vain,
and CPU `c` steals the second one and polls the task. -/
def spareCopyRun (c d : κ) : List (SchedAct κ) :=
  [.new, .spawn c 0, .spawnPush c 0, .start c, .pop c, .lookup c 0, .answer c 0 .pending,
    .interrupt d [0, 0], .start d, .pop d, .lookup d 0, .pop c, .disable c, .check c,
    .steal c d (.success 1), .pop c, .lookup c 0, .answer c 0 .pending]

theorem quiescent_none_ready_spareCopyRun :
    ((scheduler [(1 : Fin 2)]).after (Sched.init fun _ => true) (spareCopyRun 0 1)).NoneReady :=
  quiescent_none_ready (System.reaches_after (by decide +kernel) (by decide +kernel)) (by decide +kernel)

end Nacl
