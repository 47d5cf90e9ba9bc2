import Nacl.Scheduler

/-! What one step of the scheduler can do to one CPU. Every fact about a single
CPU follows from the step relation of this file, whichever CPU the step is of. -/

namespace Nacl

variable {κ : Type*}

theorem Pc.isUser_iff {pc : Pc κ} : pc.isUser = true ↔ ∃ task, pc = .user task := by
  cases pc <;> simp [Pc.isUser]

theorem Pc.isPoll_iff {pc : Pc κ} : pc.isPoll = true ↔ ∃ id found, pc = .user (some (id, found)) := by
  rcases pc with (_ | ⟨id, found⟩) | _ <;> simp [Pc.isPoll]

theorem Pc.pushing_iff {pc : Pc κ} {id : TaskId} :
    pc.pushing = some id ↔ ∃ task, pc = .push id task := by
  cases pc <;> simp [Pc.pushing]

theorem Pc.victim_iff {pc : Pc κ} {v : κ} :
    pc.victim = some v ↔ ∃ rest, pc = .steal (v :: rest) := by
  cases pc with
  | steal rest => cases rest <;> simp [Pc.victim]
  | _ => simp [Pc.victim]

/-- The steps of one CPU and those of the others that it feels, one constructor
for each branch of the code. `ok` restricts the batches that it may steal. -/
inductive Core.Step (stealers : List κ) (ok : Core κ → List TaskId → Prop) (k : Core κ) :
    Core κ → Prop
  | same : Core.Step stealers ok k k
  | woken (ids : List TaskId) : Core.Step stealers ok k (k.markWoken ids)
  | robbed (n : Nat) (hw : k.worker ≠ []) :
    Core.Step stealers ok k { k with worker := k.worker.drop n }
  | inserted (id : TaskId) (task : Option (TaskId × Bool)) (hp : k.pc = .user task)
    (ht : k.tasks id = none) :
    Core.Step stealers ok k
      { k with tasks := Function.update k.tasks id (some .fresh), pc := .push id task }
  | collided (id : TaskId) (task : Option (TaskId × Bool)) (hp : k.pc = .user task)
    (ht : (k.tasks id).isSome = true) :
    Core.Step stealers ok k
      { k with tasks := Function.update k.tasks id (some .fresh), pc := .panicked id }
  | pushed (id : TaskId) (task : Option (TaskId × Bool)) (hp : k.pc = .push id task) :
    Core.Step stealers ok k { k.push [id] with pc := .user task }
  | started (hp : k.pc = .user none) : Core.Step stealers ok k { k with pc := .pop }
  | drained (hp : k.pc = .pop) (hw : k.worker = []) :
    Core.Step stealers ok k { k with pc := .disable }
  | popped (id : TaskId) (rest : List TaskId) (hp : k.pc = .pop) (hw : k.worker = id :: rest) :
    Core.Step stealers ok k { k with worker := rest, pc := .lookup id }
  | missed (id : TaskId) (hp : k.pc = .lookup id) (ht : k.tasks id = none) :
    Core.Step stealers ok k { k with pc := .pop }
  | polled (id : TaskId) (t : Task) (hp : k.pc = .lookup id) (ht : k.tasks id = some t) :
    Core.Step stealers ok k
      { k with
        tasks := Function.update k.tasks id (some t.begin)
        wakerCache := insert id k.wakerCache
        pc := .user (some (id, k.interrupts)) }
  | woke (id : TaskId) (task : Option (TaskId × Bool)) (hp : k.pc = .user task) :
    Core.Step stealers ok k ((k.markWoken [id]).push [id])
  | flagged (id : TaskId) (found flag : Bool) (hp : k.pc = .user (some (id, found))) :
    Core.Step stealers ok k { k with interrupts := flag }
  | finished (id : TaskId) (hp : k.pc = .user (some (id, k.interrupts))) :
    Core.Step stealers ok k
      { k with
        tasks := Function.update k.tasks id none
        wakerCache := k.wakerCache.erase id
        pc := .pop }
  | pended (id : TaskId) (hp : k.pc = .user (some (id, k.interrupts))) :
    Core.Step stealers ok k { k with pc := .pop }
  | disabled (hp : k.pc = .disable) :
    Core.Step stealers ok k { k with interrupts := false, pc := .check }
  | foundEmpty (hp : k.pc = .check) (hw : k.worker = []) :
    Core.Step stealers ok k { k with pc := .steal stealers }
  | foundWork (hp : k.pc = .check) (hw : k.worker ≠ []) :
    Core.Step stealers ok k { k with pc := .enable }
  | enabled (hp : k.pc = .enable) :
    Core.Step stealers ok k { k with interrupts := true, pc := .pop }
  | skipped (v : κ) (rest : List κ) (hp : k.pc = .steal (v :: rest)) :
    Core.Step stealers ok k { k with pc := .steal rest }
  | keptOwn (v : κ) (rest : List κ) (hp : k.pc = .steal (v :: rest)) (hw : k.worker ≠ []) :
    Core.Step stealers ok k { k with pc := .pop }
  | stole (v : κ) (rest : List κ) (batch : List TaskId) (hp : k.pc = .steal (v :: rest))
    (hb : batch ≠ []) (hok : ok k batch) :
    Core.Step stealers ok k { k with worker := k.worker ++ batch, pc := .pop }
  | halted (hp : k.pc = .steal []) :
    Core.Step stealers ok k { k with interrupts := true, pc := .halted }
  | interrupted (ids : List TaskId) (hi : k.interrupts = true) (hp : k.pc ≠ .halted) :
    Core.Step stealers ok k ((k.markWoken ids).push ids)
  | resumed (ids : List TaskId) (hi : k.interrupts = true) (hp : k.pc = .halted) :
    Core.Step stealers ok k { (k.markWoken ids).push ids with pc := .pop }

section Local

variable {stealers : List κ} {ok : Core κ → List TaskId → Prop} {k : Core κ}

theorem Core.inserted_step {id : TaskId} (h : k.pc.isUser = true) :
    Core.Step stealers ok k (k.inserted id) := by
  obtain ⟨task, hp⟩ := Pc.isUser_iff.mp h
  cases ht : k.tasks id with
  | none => simpa [Core.inserted, ht, hp, Pc.enterPush] using Core.Step.inserted id task hp ht
  | some t => simpa [Core.inserted, ht] using Core.Step.collided id task hp (by simp [ht])

theorem Core.pushed_step {id : TaskId} (h : k.pc.pushing = some id) :
    Core.Step stealers ok k (k.pushed id) := by
  obtain ⟨task, hp⟩ := Pc.pushing_iff.mp h
  simpa [Core.pushed, hp, Pc.leavePush] using Core.Step.pushed id task hp

theorem Core.popped_step (hp : k.pc = .pop) : Core.Step stealers ok k k.popped := by
  cases hw : k.worker with
  | nil => simpa [Core.popped, hw] using Core.Step.drained hp hw
  | cons id rest => simpa [Core.popped, hw] using Core.Step.popped id rest hp hw

theorem Core.looked_step {id : TaskId} (hp : k.pc = .lookup id) :
    Core.Step stealers ok k (k.looked id) := by
  cases ht : k.tasks id with
  | none => simpa [Core.looked, ht] using Core.Step.missed id hp ht
  | some t => simpa [Core.looked, ht] using Core.Step.polled id t hp ht

theorem Core.answered_step {id : TaskId} (p : Poll)
    (hp : k.pc = .user (some (id, k.interrupts))) : Core.Step stealers ok k (k.answered id p) := by
  cases p with
  | ready => exact .finished id hp
  | pending => exact .pended id hp

theorem Core.checked_step (hp : k.pc = .check) : Core.Step stealers ok k (k.checked stealers) := by
  by_cases hw : k.worker = []
  · simpa only [Core.checked, hw, if_true] using Core.Step.foundEmpty hp hw
  · simpa only [Core.checked, hw, if_false] using Core.Step.foundWork hp hw

end Local

variable [DecidableEq κ]

theorem Core.interrupted_step {stealers : List κ} {ok : Core κ → List TaskId → Prop}
    {k : Core κ} (ids : List TaskId) (hi : k.interrupts = true) :
    Core.Step stealers ok k ((k.markWoken ids).push ids).resumed := by
  by_cases hp : k.pc = .halted
  · simpa [Core.resumed, Core.push, Core.markWoken, hp] using Core.Step.resumed ids hi hp
  · simpa [Core.resumed, Core.push, Core.markWoken, hp] using Core.Step.interrupted ids hi hp

@[simp] theorem Sched.set_same (s : Sched κ) (c : κ) (k : Core κ) : (s.set c k).cores c = k := by
  simp [Sched.set]

theorem Sched.set_ne (s : Sched κ) {c d : κ} (h : d ≠ c) (k : Core κ) :
    (s.set c k).cores d = s.cores d := by
  simp [Sched.set, h]

@[simp] theorem Sched.wake_same (s : Sched κ) (c : κ) (ids : List TaskId) :
    (s.wake c ids).cores c = ((s.cores c).markWoken ids).push ids := by
  simp [Sched.wake]

theorem Sched.wake_ne (s : Sched κ) {c d : κ} (h : d ≠ c) (ids : List TaskId) :
    (s.wake c ids).cores d = (s.cores d).markWoken ids := by
  simp [Sched.wake, Sched.set_ne _ h]

def Sched.StealsMeet (ok : Core κ → List TaskId → Prop) (s : Sched κ) : SchedAct κ → Prop
  | .steal c v (.success n) => v ≠ c → ok (s.cores c) ((s.cores v).worker.take n)
  | _ => True

theorem batch_pos {len n : Nat} (hn : 0 < n) (hb : n ≤ batchBound len) : 0 < len := by
  unfold batchBound at hb
  omega

theorem Sched.stolen_core {s : Sched κ} {stealers : List κ} {ok : Core κ → List TaskId → Prop}
    {c v : κ} {r : StealAnswer} (hv : (s.cores c).pc.victim = some v) (ha : s.answers c v r)
    (hok : s.StealsMeet ok (.steal c v r)) (d : κ) :
    Core.Step stealers ok (s.cores d) ((s.stolen c v r).cores d) := by
  cases r with
  | empty =>
    by_cases hd : d = c
    · subst d
      obtain ⟨rest, hp⟩ := Pc.victim_iff.mp hv
      simpa [Sched.stolen, hp, Pc.skip] using Core.Step.skipped v rest hp
    · simpa [Sched.stolen, Sched.set_ne _ hd] using Core.Step.same
  | retry => exact .same
  | success n =>
    by_cases hvc : v = c
    · subst v
      have hw : (s.cores c).worker ≠ [] := by simpa [Sched.answers] using ha
      by_cases hd : d = c
      · subst d
        obtain ⟨rest, hp⟩ := Pc.victim_iff.mp hv
        simpa [Sched.stolen] using Core.Step.keptOwn c rest hp hw
      · simpa [Sched.stolen, Sched.set_ne _ hd] using Core.Step.same
    · have hn : 0 < n ∧ n ≤ batchBound (s.cores v).worker.length := by
        simpa [Sched.answers, hvc] using ha
      have hlen := batch_pos hn.1 hn.2
      simp only [Sched.stolen, hvc, if_false]
      by_cases hd : d = c
      · subst d
        have hb : (s.cores v).worker.take n ≠ [] := by
          have hl : ((s.cores v).worker.take n).length = min n (s.cores v).worker.length :=
            List.length_take
          intro he
          rw [he, List.length_nil] at hl
          omega
        obtain ⟨rest, hp⟩ := Pc.victim_iff.mp hv
        simpa using Core.Step.stole v rest _ hp hb (hok hvc)
      · by_cases hdv : d = v
        · subst d
          simpa [Sched.set_ne _ hd] using Core.Step.robbed n (List.length_pos_iff.mp hlen)
        · simpa [Sched.set_ne _ hd, Sched.set_ne _ hdv] using Core.Step.same

theorem Sched.set_core {s : Sched κ} {stealers : List κ} {ok : Core κ → List TaskId → Prop}
    {c : κ} {k : Core κ} (h : Core.Step stealers ok (s.cores c) k) (d : κ) :
    Core.Step stealers ok (s.cores d) ((s.set c k).cores d) := by
  by_cases hd : d = c
  · subst d
    simpa using h
  · simpa [Sched.set_ne _ hd] using Core.Step.same

theorem Sched.next_core {s : Sched κ} {stealers : List κ} {ok : Core κ → List TaskId → Prop}
    {a : SchedAct κ} (he : s.Enabled a) (hok : s.StealsMeet ok a) (d : κ) :
    Core.Step stealers ok (s.cores d) ((s.next stealers a).cores d) := by
  cases a with
  | new => exact .same
  | spawn c id => exact Sched.set_core (Core.inserted_step he.1) d
  | spawnPush c id => exact Sched.set_core (Core.pushed_step he) d
  | start c => exact Sched.set_core (.started he) d
  | pop c => exact Sched.set_core (Core.popped_step he) d
  | lookup c id => exact Sched.set_core (Core.looked_step he) d
  | wake c id =>
    by_cases hd : d = c
    · subst d
      obtain ⟨task, hp⟩ := Pc.isUser_iff.mp he
      simpa [Sched.next] using Core.Step.woke id task hp
    · simpa [Sched.next, Sched.wake_ne _ hd] using Core.Step.woken [id]
  | setInterrupts c flag =>
    obtain ⟨id, found, hp⟩ := Pc.isPoll_iff.mp he
    exact Sched.set_core (.flagged id found flag hp) d
  | answer c id p => exact Sched.set_core (Core.answered_step p he) d
  | disable c => exact Sched.set_core (.disabled he) d
  | check c => exact Sched.set_core (Core.checked_step he) d
  | enable c => exact Sched.set_core (.enabled he) d
  | steal c v r => exact Sched.stolen_core he.1 he.2 hok d
  | enableAndHlt c => exact Sched.set_core (.halted he) d
  | interrupt c ids =>
    by_cases hd : d = c
    · subst d
      simpa [Sched.next] using Core.interrupted_step ids he
    · simpa [Sched.next, Sched.wake_ne _ hd, Sched.set_ne _ hd] using Core.Step.woken ids

/-- A property of one CPU that holds before `run` and that no local step breaks
holds on every CPU in every reachable state. -/
theorem Sched.core_invariant {I : Core κ → Prop} {stealers : List κ}
    {ok : Core κ → List TaskId → Prop} {flags : κ → Bool} {s : Sched κ}
    (h : (scheduler stealers).Reaches (Sched.StealsMeet ok) (Sched.init flags) s)
    (hinit : ∀ c, I ((Sched.init flags).cores c))
    (hstep : ∀ k k', I k → Core.Step stealers ok k k' → I k') (c : κ) : I (s.cores c) := by
  have hall : ∀ d, I (s.cores d) := by
    refine h.invariant (I := fun s => ∀ d, I (s.cores d)) hinit ?_
    intro s a hs he hok d
    exact hstep _ _ (hs d) (Sched.next_core he hok d)
  exact hall c

end Nacl
