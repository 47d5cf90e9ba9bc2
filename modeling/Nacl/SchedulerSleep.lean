import Nacl.CoreSteps

/-! Going to sleep: a halted CPU has an empty worker queue, and when the polls of
`run_ready_tasks` find interrupts enabled. -/

namespace Nacl

open Guarded

variable {κ : Type*}

/-- From the emptiness check to the halt interrupts are off, so that nothing is
pushed onto the queue that was found empty. -/
def Core.Quiet (k : Core κ) : Prop :=
  match k.pc with
  | .check => k.interrupts = false
  | .steal _ => k.interrupts = false ∧ k.worker = []
  | .halted => k.worker = []
  | _ => True

theorem Core.Quiet.of_steal {k : Core κ} {rest : List κ} (h : k.Quiet) (hp : k.pc = .steal rest) :
    k.interrupts = false ∧ k.worker = [] := by
  simpa only [Core.Quiet, hp] using h

theorem Core.Step.quiet {stealers : List κ} {ok : Core κ → List TaskId → Prop} {k k' : Core κ}
    (hk : k.Quiet) (h : Core.Step stealers ok k k') : k'.Quiet := by
  cases h with
  | same => exact hk
  | woken ids => exact hk
  | robbed n hw => cases hp : k.pc <;> simp_all [Core.Quiet]
  | woke id task hp => simp [Core.Quiet, Core.push, Core.markWoken, hp]
  | flagged id found flag hp => simp [Core.Quiet, hp]
  | disabled hp => rfl
  | foundEmpty hp hw => exact ⟨by simpa only [Core.Quiet, hp] using hk, hw⟩
  | skipped v rest hp => exact hk.of_steal hp
  | halted hp => exact (hk.of_steal hp).2
  | interrupted ids hi hne => cases hp : k.pc <;> simp_all [Core.Quiet, Core.push, Core.markWoken]
  | _ => trivial

/-- The flag that `run_ready_tasks` hands to `task.poll`: the one it has when a
popped id is found in `tasks`, or the one that the running poll found. -/
def Core.PollFlag (k : Core κ) (flag : Bool) : Prop :=
  (∃ id, k.pc = .lookup id ∧ (k.tasks id).isSome = true ∧ flag = k.interrupts) ∨
    ∃ id, k.pc = .user (some (id, flag))

def Sched.PollsEnabled (s : Sched κ) : Prop :=
  ∀ c flag, (s.cores c).PollFlag flag → flag = true

def Core.Foreign (k : Core κ) (ids : List TaskId) : Prop := ∀ id ∈ ids, k.tasks id = none

/-- Interrupts may be off in `run_ready_tasks` only while the queue holds ids
that will be skipped. -/
def Core.FlagSafe (k : Core κ) : Prop :=
  match k.pc with
  | .user task | .push _ task => task.elim k.interrupts Prod.snd = true
  | .halted => k.interrupts = true
  | .pop => k.interrupts = true ∨ k.Foreign k.worker
  | .lookup id => k.interrupts = true ∨ k.Foreign (id :: k.worker)
  | _ => True

theorem Core.Foreign.markWoken {k : Core κ} {ids : List TaskId} (h : k.Foreign ids)
    (woken : List TaskId) : (k.markWoken woken).Foreign ids := by
  intro id hid
  simp [Core.markWoken, h id hid]

theorem Core.FlagSafe.of_pop {k : Core κ} (h : k.FlagSafe) (hp : k.pc = .pop) :
    k.interrupts = true ∨ k.Foreign k.worker := by
  simpa only [Core.FlagSafe, hp] using h

theorem Core.FlagSafe.of_lookup {k : Core κ} {id : TaskId} (h : k.FlagSafe)
    (hp : k.pc = .lookup id) : k.interrupts = true ∨ k.Foreign (id :: k.worker) := by
  simpa only [Core.FlagSafe, hp] using h

theorem Core.FlagSafe.of_interrupts {k : Core κ} (hi : k.interrupts = true)
    (h : k.FlagSafe) (worker : List TaskId) : { k with worker := worker }.FlagSafe := by
  cases hp : k.pc <;> simp_all [Core.FlagSafe]

theorem Core.FlagSafe.markWoken {k : Core κ} (h : k.FlagSafe) (ids : List TaskId) :
    (k.markWoken ids).FlagSafe := by
  cases hp : k.pc with
  | pop =>
    have hw := (h.of_pop hp).imp id (fun hf => hf.markWoken ids)
    simpa only [Core.FlagSafe, Core.markWoken, hp] using hw
  | lookup i =>
    have hw := (h.of_lookup hp).imp id (fun hf => hf.markWoken ids)
    simpa only [Core.FlagSafe, Core.markWoken, hp] using hw
  | _ => simp_all [Core.FlagSafe, Core.markWoken]

theorem Core.FlagSafe.robbed {k : Core κ} (h : k.FlagSafe) (n : Nat) :
    { k with worker := k.worker.drop n }.FlagSafe := by
  cases hp : k.pc with
  | pop => exact (h.of_pop hp).imp id (fun hf i hi => hf i (List.mem_of_mem_drop hi))
  | lookup i =>
    refine (h.of_lookup hp).imp id (fun hf j hj => hf j ?_)
    rcases List.mem_cons.mp hj with rfl | hj
    · exact List.mem_cons_self
    · exact List.mem_cons_of_mem _ (List.mem_of_mem_drop hj)
  | _ => simp_all [Core.FlagSafe]

theorem Core.Step.flagSafe {stealers : List κ} {k k' : Core κ} (hq : k.Quiet) (hk : k.FlagSafe)
    (h : Core.Step stealers Core.Foreign k k') : k'.FlagSafe := by
  cases h with
  | same => exact hk
  | woken ids => exact hk.markWoken ids
  | robbed n hw => exact hk.robbed n
  | inserted id task hp ht => simpa only [Core.FlagSafe, hp] using hk
  | pushed id task hp => simpa only [Core.FlagSafe, Core.push, hp] using hk
  | started hp => exact .inl (by simpa only [Core.FlagSafe, hp, Option.elim_none] using hk)
  | popped i rest hp hw => exact (hk.of_pop hp).imp id (fun hf j hj => hf j (hw ▸ hj))
  | missed i hp ht =>
    exact (hk.of_lookup hp).imp id (fun hf j hj => hf j (List.mem_cons_of_mem _ hj))
  | polled i t hp ht =>
    refine (hk.of_lookup hp).elim id (fun hf => ?_)
    simp [hf i List.mem_cons_self] at ht
  | woke id task hp => simpa only [Core.FlagSafe, Core.push, Core.markWoken, hp] using hk
  | flagged id found flag hp => simpa only [Core.FlagSafe, hp, Option.elim_some] using hk
  | finished id hp | pended id hp =>
    exact .inl (by simpa only [Core.FlagSafe, hp, Option.elim_some] using hk)
  | enabled hp => exact .inl rfl
  | keptOwn v rest hp hw => exact absurd (hq.of_steal hp).2 hw
  | stole v rest batch hp hb hok =>
    have hw : k.worker ++ batch = batch := by simp [(hq.of_steal hp).2]
    exact .inr (fun i hi => hok i (hw ▸ hi))
  | halted hp => rfl
  | interrupted ids hi hne =>
    exact Core.FlagSafe.of_interrupts (k := k.markWoken ids) hi (hk.markWoken ids) _
  | resumed ids hi hp => exact .inl hi
  | _ => trivial

theorem Core.FlagSafe.pollFlag {k : Core κ} (h : k.FlagSafe) {flag : Bool}
    (hp : k.PollFlag flag) : flag = true := by
  rcases hp with ⟨id, hp, ht, rfl⟩ | ⟨id, hp⟩
  · refine (h.of_lookup hp).elim (fun hi => hi) (fun hf => ?_)
    simp [hf id List.mem_cons_self] at ht
  · simpa only [Core.FlagSafe, hp, Option.elim_some] using h

variable [DecidableEq κ]

theorem halted_worker_empty {stealers : List κ} {flags : κ → Bool} {s : Sched κ}
    (h : (scheduler stealers).Reaches anyStep (Sched.init flags) s) {c : κ}
    (hc : (s.cores c).pc = .halted) : (s.cores c).worker = [] := by
  have hr : (scheduler stealers).Reaches (Sched.StealsMeet (fun _ _ => True)) (Sched.init flags) s :=
    h.mono (fun s a _ => by unfold Sched.StealsMeet; split <;> simp)
  have hq := Sched.core_invariant hr (fun _ => trivial) (fun _ _ hk hs => hs.quiet hk) c
  simpa only [Core.Quiet, hc] using hq

def sleepRun (c : κ) : List (SchedAct κ) :=
  [.new, .spawn c 0, .spawnPush c 0, .start c, .pop c, .lookup c 0, .answer c 0 .pending,
    .pop c, .disable c, .check c, .steal c c .empty, .enableAndHlt c]

theorem halted_worker_empty_sleepRun :
    (((scheduler [(0 : Fin 1)]).after (Sched.init fun _ => true) (sleepRun 0)).cores 0).worker = [] :=
  halted_worker_empty (System.reaches_after (by decide) (System.meets_anyStep _)) (by decide)

theorem polls_enabled_of_foreign_steals {stealers : List κ} {s : Sched κ}
    (h : (scheduler stealers).Reaches (Sched.StealsMeet Core.Foreign)
      (Sched.init fun _ => true) s) : s.PollsEnabled := by
  intro c flag hf
  have hall := Sched.core_invariant (I := fun k => k.Quiet ∧ k.FlagSafe) h
    (fun _ => ⟨trivial, rfl⟩) (fun _ _ hk hs => ⟨hs.quiet hk.1, hs.flagSafe hk.1 hk.2⟩) c
  exact hall.2.pollFlag hf

/-- CPU `c` polls its task and goes idle; a handler on CPU `d` wakes the task there;
CPU `c` steals the id back and finds its own task. -/
def stealBackRun (c d : κ) : List (SchedAct κ) :=
  [.new, .spawn c 0, .spawnPush c 0, .start c, .pop c, .lookup c 0, .answer c 0 .pending,
    .pop c, .interrupt d [0], .disable c, .check c, .steal c c .empty, .steal c d (.success 1),
    .pop c]

theorem stolen_own_task_polled_masked : ¬ ∀ (κ : Type) [DecidableEq κ] (stealers : List κ)
    (s : Sched κ), (scheduler stealers).Reaches anyStep (Sched.init fun _ => true) s →
      s.PollsEnabled := by
  intro h
  have hr : (scheduler [(0 : Fin 2), 1]).Reaches anyStep (Sched.init fun _ => true)
      ((scheduler [0, 1]).after (Sched.init fun _ => true) (stealBackRun 0 1)) :=
    System.reaches_after (by decide) (System.meets_anyStep _)
  have hf := h (Fin 2) [0, 1] _ hr 0 false (.inl ⟨0, by decide, by decide, by decide⟩)
  cases hf

def foreignStealRun (c d : κ) : List (SchedAct κ) :=
  [.new, .spawn c 0, .spawnPush c 0, .start d, .pop d, .disable d, .check d,
    .steal d c (.success 1), .pop d]

theorem polls_enabled_of_foreign_steals_run :
    ((scheduler [(0 : Fin 2), 1]).after (Sched.init fun _ => true)
      (foreignStealRun 0 1)).PollsEnabled := by
  refine polls_enabled_of_foreign_steals (System.reaches_after (by decide) ?_)
  refine ⟨trivial, trivial, trivial, trivial, trivial, trivial, trivial, ?_, trivial, trivial⟩
  exact fun _ i _ => rfl

end Nacl
