import Nacl.Executor

/-! The order in which `run_ready_tasks` polls: the pushed ids in push order,
without the entries whose task had finished when they were popped. -/

namespace Nacl

def pushes (log : List ExecEvent) : List TaskId :=
  log.filterMap fun
    | .push id => some id
    | _ => none

def pops (log : List ExecEvent) : List TaskId :=
  log.filterMap fun
    | .pop id => some id
    | _ => none

def polls (log : List ExecEvent) : List TaskId :=
  log.filterMap fun
    | .poll id => some id
    | _ => none

/-- The popped ids, without those whose task is in `done` or has answered
`Ready` earlier in the log. -/
def survivors (done : List TaskId) : List ExecEvent → List TaskId
  | [] => []
  | .pop id :: log => if id ∈ done then survivors done log else id :: survivors done log
  | .ready id :: log => survivors (id :: done) log
  | .push _ :: log | .poll _ :: log => survivors done log

/-- The task was polled, and neither pushed nor polled since that poll began. -/
def SettledIn (log : List ExecEvent) (id : TaskId) : Prop :=
  ∃ l₁ l₂, log = l₁ ++ .poll id :: l₂ ∧ .push id ∉ l₂ ∧ .poll id ∉ l₂

def AwaitsYield {σ : Type*} (r : Polled σ) (id : TaskId) (ws : List TaskId) : Prop :=
  r.wakes = ws ++ (Yield.default.poll id).wakes ∧ r.answer = (Yield.default.poll id).answer

@[simp] theorem pushes_append (l₁ l₂ : List ExecEvent) : pushes (l₁ ++ l₂) = pushes l₁ ++ pushes l₂ :=
  List.filterMap_append

@[simp] theorem pops_append (l₁ l₂ : List ExecEvent) : pops (l₁ ++ l₂) = pops l₁ ++ pops l₂ :=
  List.filterMap_append

@[simp] theorem polls_append (l₁ l₂ : List ExecEvent) : polls (l₁ ++ l₂) = polls l₁ ++ polls l₂ :=
  List.filterMap_append

@[simp] theorem pushes_map_push (ids : List TaskId) : pushes (ids.map .push) = ids := by
  simp [pushes, List.filterMap_map]

@[simp] theorem pops_map_push (ids : List TaskId) : pops (ids.map .push) = [] := by
  simp [pops]

@[simp] theorem polls_map_push (ids : List TaskId) : polls (ids.map .push) = [] := by
  simp [polls]

theorem survivors_map_push (done ids : List TaskId) : survivors done (ids.map .push) = [] := by
  induction ids with
  | nil => rfl
  | cons id ids ih => exact ih

theorem survivors_append (done : List TaskId) (l₁ l₂ : List ExecEvent) :
    ∃ done', survivors done (l₁ ++ l₂) = survivors done l₁ ++ survivors done' l₂ ∧
      ∀ id, id ∈ done' ↔ id ∈ done ∨ .ready id ∈ l₁ := by
  induction l₁ generalizing done with
  | nil => exact ⟨done, rfl, by simp⟩
  | cons ev l₁ ih =>
    cases ev with
    | pop id =>
      obtain ⟨done', he, hm⟩ := ih done
      refine ⟨done', ?_, by simpa using hm⟩
      by_cases hd : id ∈ done <;> simp [survivors, hd, he]
    | ready id =>
      obtain ⟨done', he, hm⟩ := ih (id :: done)
      refine ⟨done', he, fun j => ?_⟩
      rw [hm j]
      simp only [List.mem_cons, ExecEvent.ready.injEq]
      tauto
    | push id | poll id =>
      obtain ⟨done', he, hm⟩ := ih done
      exact ⟨done', he, by simpa using hm⟩

variable {σ : Type*} {poll : σ → TaskId → Polled σ} {e e' : Executor σ}

theorem turn_cases (h : e.turn poll = some e') : ∃ id rest, e.worker = id :: rest ∧
    (id ∉ e.tasks ∧ e' = { e with worker := rest, log := e.log ++ [.pop id] } ∨
      id ∈ e.tasks ∧ (poll e.world id).answer = .pending ∧ e'.tasks = e.tasks ∧
        e'.worker = rest ++ (poll e.world id).wakes ∧
        e'.log = e.log ++ .pop id :: .poll id :: (poll e.world id).wakes.map .push ∨
      id ∈ e.tasks ∧ (poll e.world id).answer = .ready ∧ e'.tasks = e.tasks.erase id ∧
        e'.worker = rest ++ (poll e.world id).wakes ∧
        e'.log = e.log ++ .pop id :: .poll id :: ((poll e.world id).wakes.map .push ++ [.ready id])) := by
  cases hw : e.worker with
  | nil => simp [Executor.turn, hw] at h
  | cons id rest =>
    refine ⟨id, rest, rfl, ?_⟩
    by_cases ht : id ∈ e.tasks
    · simp only [Executor.turn, hw, ht, if_true, Option.some.injEq] at h
      subst h
      cases ha : (poll e.world id).answer with
      | pending =>
        refine .inr (.inl ⟨ht, rfl, ?_, ?_, ?_⟩) <;>
          simp [Executor.poll, Executor.begin, Executor.wake, Executor.finish, ha]
      | ready =>
        refine .inr (.inr ⟨ht, rfl, ?_, ?_, ?_⟩) <;>
          simp [Executor.poll, Executor.begin, Executor.wake, Executor.finish, ha]
    · simp only [Executor.turn, hw, ht, if_false, Option.some.injEq] at h
      exact .inl ⟨ht, h.symm⟩

def Paired (l : List ExecEvent) : Prop :=
  ∀ id l₁ l₂, l = l₁ ++ .poll id :: l₂ → ∃ l₀, l₁ = l₀ ++ [.pop id]

structure Grows (e e' : Executor σ) (l : List ExecEvent) : Prop where
  log : e'.log = e.log ++ l
  fifo : pops l ++ e'.worker = e.worker ++ pushes l
  paired : Paired l

theorem Paired.append {l l' : List ExecEvent} (h : Paired l) (h' : Paired l') : Paired (l ++ l') := by
  intro id l₁ l₂ he
  rcases List.append_eq_append_iff.mp he with ⟨m, hl, hm⟩ | ⟨m, hl, hm⟩
  · obtain ⟨l₀, rfl⟩ := h' id m l₂ hm
    exact ⟨l ++ l₀, by simp [hl]⟩
  · cases m with
    | nil =>
      obtain ⟨l₀, hl₀⟩ := h' id [] l₂ (by simpa using hm.symm)
      simp at hl₀
    | cons ev m =>
      have hev : ev = .poll id := (List.cons.inj hm).1.symm
      subst hev
      exact h id l₁ m hl

theorem paired_of_no_poll {l : List ExecEvent} (h : ∀ id, .poll id ∉ l) : Paired l := by
  intro id l₁ l₂ he
  exact absurd (by simp [he]) (h id)

theorem paired_pop_poll {id : TaskId} {l : List ExecEvent} (h : ∀ j, .poll j ∉ l) :
    Paired (.pop id :: .poll id :: l) := by
  have hp : Paired [.pop id, .poll id] := by
    intro j l₁ l₂ he
    rcases l₁ with _ | ⟨a, _ | ⟨b, l₁⟩⟩
    · simp at he
    · simp only [List.cons_append, List.nil_append, List.cons.injEq, ExecEvent.poll.injEq] at he
      exact ⟨[], by simp [← he.1, he.2.1]⟩
    · simp at he
  exact hp.append (paired_of_no_poll h)

theorem turn_grows (h : e.turn poll = some e') : ∃ l, Grows e e' l := by
  obtain ⟨id, rest, hw, hc⟩ := turn_cases h
  rcases hc with ⟨-, rfl⟩ | ⟨-, -, -, hw', hl⟩ | ⟨-, -, -, hw', hl⟩
  · exact ⟨_, rfl, by simp [pops, pushes, hw], paired_of_no_poll (by simp)⟩
  · refine ⟨_, hl, ?_, paired_pop_poll (by simp)⟩
    simp [pops, pushes, hw, hw', List.filterMap_map]
  · refine ⟨_, hl, ?_, paired_pop_poll (by simp)⟩
    simp [pops, pushes, hw, hw', List.filterMap_map]

theorem Grows.trans {e'' : Executor σ} {l l' : List ExecEvent} (h : Grows e e' l)
    (h' : Grows e' e'' l') : Grows e e'' (l ++ l') := by
  refine ⟨by rw [h'.log, h.log, List.append_assoc], ?_, h.paired.append h'.paired⟩
  calc pops (l ++ l') ++ e''.worker = pops l ++ (pops l' ++ e''.worker) := by simp
    _ = pops l ++ e'.worker ++ pushes l' := by rw [h'.fifo, List.append_assoc]
    _ = e.worker ++ pushes (l ++ l') := by rw [h.fifo, pushes_append, List.append_assoc]

theorem turns_grows (poll : σ → TaskId → Polled σ) (n : Nat) (e : Executor σ) :
    ∃ l, Grows e (e.turns poll n) l := by
  induction n generalizing e with
  | zero => exact ⟨[], by simp [Executor.turns], by simp [Executor.turns, pops, pushes],
      paired_of_no_poll (by simp)⟩
  | succ n ih =>
    cases ht : e.turn poll with
    | none => exact ⟨[], by simp [Executor.turns, ht], by simp [Executor.turns, ht, pops, pushes],
        paired_of_no_poll (by simp)⟩
    | some e' =>
      obtain ⟨l, hl⟩ := turn_grows ht
      obtain ⟨l', hl'⟩ := ih e'
      exact ⟨l ++ l', by simpa [Executor.turns, ht] using hl.trans hl'⟩

structure Traced (spawned : List TaskId) (e : Executor σ) : Prop where
  fifo : pops e.log ++ e.worker = pushes e.log
  polled : polls e.log = survivors [] e.log
  held : ∀ id, id ∈ e.tasks ↔ id ∈ spawned ∧ .ready id ∉ e.log
  known : ∀ id ∈ e.worker, id ∈ spawned
  settled : ∀ id ∈ e.tasks, id ∈ e.worker ∨ SettledIn e.log id

theorem SettledIn.append {log l : List ExecEvent} {id : TaskId} (h : SettledIn log id)
    (hpush : .push id ∉ l) (hpoll : .poll id ∉ l) : SettledIn (log ++ l) id := by
  obtain ⟨l₁, l₂, rfl, h₁, h₂⟩ := h
  exact ⟨l₁, l₂ ++ l, by simp, by simp [h₁, hpush], by simp [h₂, hpoll]⟩

theorem Traced.skips_iff {spawned : List TaskId} (h : Traced spawned e) {id : TaskId}
    {rest : List TaskId} (hw : e.worker = id :: rest) : id ∉ e.tasks ↔ .ready id ∈ e.log := by
  have hs : id ∈ spawned := h.known id (by simp [hw])
  rw [h.held id]
  tauto

theorem survivors_snoc (log l : List ExecEvent) :
    ∃ done, survivors [] (log ++ l) = survivors [] log ++ survivors done l ∧
      ∀ id, id ∈ done ↔ .ready id ∈ log := by
  simpa using survivors_append [] log l

theorem survivors_pushes_ready (done ids : List TaskId) (id : TaskId) :
    survivors done (ids.map .push ++ [.ready id]) = [] := by
  obtain ⟨done', he, -⟩ := survivors_append done (ids.map .push) [.ready id]
  rw [he, survivors_map_push]
  rfl

theorem polls_snoc_poll {log l : List ExecEvent} {id : TaskId} (h : polls log = survivors [] log)
    (hid : .ready id ∉ log) (hl : polls l = []) (hs : ∀ done, survivors done l = []) :
    polls (log ++ .pop id :: .poll id :: l) = survivors [] (log ++ .pop id :: .poll id :: l) := by
  obtain ⟨done, he, hd⟩ := survivors_snoc log (.pop id :: .poll id :: l)
  have hm : id ∉ done := fun hm => hid ((hd id).mp hm)
  have hone : polls (.pop id :: .poll id :: l) = id :: polls l := rfl
  have htail : survivors done (.pop id :: .poll id :: l) = id :: survivors done l := if_neg hm
  rw [polls_append, he, h, hone, htail, hl, hs]

theorem Traced.turn {spawned : List TaskId} (h : Traced spawned e)
    (hwakes : ∀ w id, ∀ j ∈ (poll w id).wakes, j ∈ spawned) (ht : e.turn poll = some e') :
    Traced spawned e' := by
  have hfifo : pops e'.log ++ e'.worker = pushes e'.log := by
    obtain ⟨l, hl⟩ := turn_grows ht
    rw [hl.log, pops_append, pushes_append, List.append_assoc, hl.fifo, ← List.append_assoc, h.fifo]
  obtain ⟨id, rest, hw, hc⟩ := turn_cases ht
  have hskip := h.skips_iff hw
  have hrest : ∀ j ∈ rest, j ∈ spawned := fun j hj => h.known j (by simp [hw, hj])
  have hstay : ∀ j, j ≠ id → j ∈ e.worker → j ∈ rest := fun j hne hj => by simpa [hw, hne] using hj
  rcases hc with ⟨hid, rfl⟩ | ⟨hid, -, htasks, hw', hlog⟩ | ⟨hid, -, htasks, hw', hlog⟩
  · refine ⟨hfifo, ?_, fun j => ?_, hrest, fun j hj => ?_⟩
    · obtain ⟨done, he, hd⟩ := survivors_snoc e.log [.pop id]
      have hm : id ∈ done := (hd id).mpr (hskip.mp hid)
      rw [polls_append, he, h.polled]
      simp [survivors, hm, polls]
    · simpa using h.held j
    · have hne : j ≠ id := fun he => hid (he ▸ hj)
      rcases h.settled j hj with hm | hs
      · exact .inl (hstay j hne hm)
      · exact .inr (hs.append (by simp) (by simp))
  · have hnot : .ready id ∉ e.log := fun hr => hskip.mpr hr hid
    refine ⟨hfifo, ?_, fun j => ?_, fun j hj => ?_, fun j hj => ?_⟩
    · rw [hlog]
      exact polls_snoc_poll h.polled hnot (polls_map_push _) (fun done => survivors_map_push done _)
    · simpa [htasks, hlog] using h.held j
    · rw [hw'] at hj
      exact (List.mem_append.mp hj).elim (hrest j) (hwakes _ _ j)
    · rw [htasks] at hj
      by_cases hjw : j ∈ (poll e.world id).wakes
      · exact .inl (by simp [hw', hjw])
      · by_cases hne : j = id
        · subst hne
          refine .inr ⟨e.log ++ [.pop j], _, by simpa using hlog, ?_, ?_⟩ <;> simp [hjw]
        · rcases h.settled j hj with hm | hs
          · exact .inl (by simp [hw', hstay j hne hm])
          · exact .inr (hlog ▸ hs.append (by simp [hjw]) (by simp [hne]))
  · have hnot : .ready id ∉ e.log := fun hr => hskip.mpr hr hid
    refine ⟨hfifo, ?_, fun j => ?_, fun j hj => ?_, fun j hj => ?_⟩
    · rw [hlog]
      exact polls_snoc_poll h.polled hnot (by simp [polls])
        (fun done => survivors_pushes_ready done _ id)
    · have hh := h.held j
      by_cases hne : j = id <;> simp [htasks, hlog, hne, hh]
    · rw [hw'] at hj
      exact (List.mem_append.mp hj).elim (hrest j) (hwakes _ _ j)
    · rw [htasks] at hj
      obtain ⟨hne, hj⟩ := Finset.mem_erase.mp hj
      by_cases hjw : j ∈ (poll e.world id).wakes
      · exact .inl (by simp [hw', hjw])
      · rcases h.settled j hj with hm | hs
        · exact .inl (by simp [hw', hstay j hne hm])
        · exact .inr (hlog ▸ hs.append (by simp [hjw]) (by simp [hne]))

theorem Traced.turns {spawned : List TaskId} (h : Traced spawned e)
    (hwakes : ∀ w id, ∀ j ∈ (poll w id).wakes, j ∈ spawned) (n : Nat) :
    Traced spawned (e.turns poll n) := by
  induction n generalizing e with
  | zero => exact h
  | succ n ih =>
    cases ht : e.turn poll with
    | none => simpa [Executor.turns, ht] using h
    | some e' => simpa [Executor.turns, ht] using ih (h.turn hwakes ht)

theorem spawnedIds_cons_spawn (id : TaskId) (acts : List BootAct) :
    spawnedIds (.spawn id :: acts) = id :: spawnedIds acts := rfl

theorem spawnedIds_cons_wake (id : TaskId) (acts : List BootAct) :
    spawnedIds (.wake id :: acts) = spawnedIds acts := rfl

theorem boot_spec (acts : List BootAct) (e : Executor σ) (hnd : (spawnedIds acts).Nodup)
    (hfree : ∀ id ∈ spawnedIds acts, id ∉ e.tasks) :
    ∃ e', e.boot acts = some e' ∧ e'.log = e.log ++ (acts.map BootAct.id).map .push ∧
      e'.worker = e.worker ++ acts.map BootAct.id ∧
      ∀ id, id ∈ e'.tasks ↔ id ∈ e.tasks ∨ id ∈ spawnedIds acts := by
  induction acts generalizing e with
  | nil => exact ⟨e, rfl, by simp, by simp, by simp [spawnedIds]⟩
  | cons act acts ih =>
    cases act with
    | wake id =>
      rw [spawnedIds_cons_wake] at hnd hfree
      obtain ⟨e', hb, hlog, hw, ht⟩ := ih (e.wake [id]) hnd hfree
      refine ⟨e', hb, by simp [hlog, Executor.wake, BootAct.id],
        by simp [hw, Executor.wake, BootAct.id], ?_⟩
      simpa [spawnedIds_cons_wake, Executor.wake] using ht
    | spawn id =>
      rw [spawnedIds_cons_spawn] at hnd hfree
      obtain ⟨hid, hnd⟩ := List.nodup_cons.mp hnd
      have hnew : id ∉ e.tasks := hfree id (by simp)
      have hfree' : ∀ j ∈ spawnedIds acts, j ∉ insert id e.tasks := by
        intro j hj hm
        rcases Finset.mem_insert.mp hm with rfl | hm
        · exact hid hj
        · exact hfree j (by simp [hj]) hm
      obtain ⟨e', hb, hlog, hw, ht⟩ := ih ({ e with tasks := insert id e.tasks }.wake [id]) hnd hfree'
      refine ⟨e', by simp [Executor.boot, Executor.spawn, hnew, hb],
        by simp [hlog, Executor.wake, BootAct.id], by simp [hw, Executor.wake, BootAct.id], fun j => ?_⟩
      rw [ht j, spawnedIds_cons_spawn]
      simp only [Executor.wake, Finset.mem_insert, List.mem_cons]
      tauto

theorem mem_spawnedIds {acts : List BootAct} {id : TaskId} :
    id ∈ spawnedIds acts ↔ .spawn id ∈ acts := by
  induction acts with
  | nil => simp [spawnedIds]
  | cons act acts ih =>
    cases act with
    | spawn j => simp [spawnedIds_cons_spawn, ih]
    | wake j => simp [spawnedIds_cons_wake, ih]

theorem Program.start_traced (P : Program σ) :
    ∃ e, P.start = some e ∧ Traced (spawnedIds P.acts) e := by
  obtain ⟨e, hb, hlog, hw, ht⟩ := boot_spec P.acts (Executor.new P.world) P.spawned_nodup
    (by simp [Executor.new])
  simp only [Executor.new, List.nil_append] at hlog hw
  refine ⟨e, hb, by rw [hlog, hw, pops_map_push, pushes_map_push]; rfl, ?_, ?_, ?_, ?_⟩
  · rw [hlog, survivors_map_push, polls_map_push]
  · intro id
    simp [ht, hlog, Executor.new]
  · intro id hid
    rw [hw] at hid
    obtain ⟨act, hact, rfl⟩ := List.mem_map.mp hid
    cases act with
    | spawn j => exact mem_spawnedIds.mpr hact
    | wake j => exact P.boot_wakes j hact
  · intro id hid
    have hs : id ∈ spawnedIds P.acts := by simpa [ht, Executor.new] using hid
    exact .inl (hw ▸ List.mem_map.mpr ⟨.spawn id, mem_spawnedIds.mp hs, rfl⟩)

theorem runReadyTasks_eq_turns {n : Nat} (h : e.runReadyTasks poll n = some e') :
    e' = e.turns poll n ∧ e'.worker = [] := by
  induction n generalizing e with
  | zero => simp [Executor.runReadyTasks] at h
  | succ n ih =>
    cases ht : e.turn poll with
    | none =>
      have he : e = e' := by simpa [Executor.runReadyTasks, ht] using h
      subst he
      refine ⟨by simp [Executor.turns, ht], ?_⟩
      cases hw : e.worker with
      | nil => rfl
      | cons id rest =>
        by_cases hm : id ∈ e.tasks <;> simp [Executor.turn, hw, hm] at ht
    | some e₁ =>
      have hh := ih (by simpa [Executor.runReadyTasks, ht] using h)
      simpa [Executor.turns, ht] using hh

/-- When the next turn polls `id` and the poll ends by awaiting `Yield`, the task
is polled again only after what `cut` selects of the ids queued ahead of the
wake of `Yield` has been popped, from the front on. -/
def Executor.YieldWaits (poll : σ → TaskId → Polled σ) (cut : TaskId → List TaskId → List TaskId)
    (e : Executor σ) : Prop :=
  ∀ id rest ws, e.worker = id :: rest → id ∈ e.tasks → AwaitsYield (poll e.world id) id ws →
    ∀ n l₁ l₂, (e.turns poll (n + 1)).log = (e.turns poll 1).log ++ (l₁ ++ .poll id :: l₂) →
      (cut id (rest ++ ws)).IsPrefix (pops l₁)

theorem takeWhile_ne_prefix {id : TaskId} {p q xs ys : List TaskId}
    (h : p ++ id :: xs = q ++ id :: ys) : (q.takeWhile (· != id)).IsPrefix p := by
  induction q generalizing p with
  | nil => simp
  | cons a q ih =>
    by_cases ha : a = id
    · simp [ha]
    · cases p with
      | nil => exact absurd (List.cons.inj h).1.symm ha
      | cons b p =>
        obtain ⟨hb, hh⟩ := List.cons.inj h
        subst hb
        simpa [ha] using ih hh

theorem yield_waits (e : Executor σ) :
    e.YieldWaits poll (fun id q => q.takeWhile (· != id)) := by
  intro id rest ws hw hid hy n l₁ l₂ hlog
  obtain ⟨e₁, ht⟩ : ∃ e₁, e.turn poll = some e₁ := by simp [Executor.turn, hw, hid]
  have hone : e.turns poll 1 = e₁ := by simp [Executor.turns, ht]
  have hmore : e.turns poll (n + 1) = e₁.turns poll n := by simp [Executor.turns, ht]
  have hw₁ : e₁.worker = rest ++ ws ++ [id] := by
    obtain ⟨i, r, hwi, hc⟩ := turn_cases ht
    obtain ⟨rfl, rfl⟩ := List.cons.inj (hw.symm.trans hwi)
    have hwakes : (poll e.world id).wakes = ws ++ [id] := hy.1
    rcases hc with ⟨hn, -⟩ | ⟨-, -, -, hw', -⟩ | ⟨-, -, -, hw', -⟩
    · exact absurd hid hn
    · simp [hw', hwakes]
    · simp [hw', hwakes]
  obtain ⟨l, hl⟩ := turns_grows poll n e₁
  rw [hone, hmore, hl.log] at hlog
  have hll : l = l₁ ++ .poll id :: l₂ := List.append_cancel_left hlog
  obtain ⟨l₀, rfl⟩ := hl.paired id l₁ l₂ hll
  have hfifo := hl.fifo
  rw [hll, hw₁] at hfifo
  have hcut : ((rest ++ ws).takeWhile (· != id)).IsPrefix (pops l₀) := by
    have hqueue : pops l₀ ++ id :: (pops l₂ ++ (e₁.turns poll n).worker) =
        (rest ++ ws) ++ id :: pushes l := by
      simpa [pops, hll] using hfifo
    exact takeWhile_ne_prefix hqueue
  refine hcut.trans ?_
  rw [pops_append]
  exact List.prefix_append _ _

theorem run_ready_tasks_trace (P : Program σ) : ∃ e, P.start = some e ∧
    (∀ n, polls (e.turns P.poll n).log = survivors [] (e.turns P.poll n).log ∧
      pops (e.turns P.poll n).log ++ (e.turns P.poll n).worker = pushes (e.turns P.poll n).log) ∧
    (∀ n e', e.runReadyTasks P.poll n = some e' → polls e'.log = survivors [] e'.log ∧
      pops e'.log = pushes e'.log ∧ ∀ id ∈ e'.tasks, SettledIn e'.log id) ∧
    ∀ n, (e.turns P.poll n).YieldWaits P.poll (fun id q => q.takeWhile (· != id)) := by
  obtain ⟨e, hs, ht⟩ := P.start_traced
  have hall : ∀ n, Traced (spawnedIds P.acts) (e.turns P.poll n) :=
    fun n => ht.turns P.poll_wakes n
  refine ⟨e, hs, fun n => ⟨(hall n).polled, (hall n).fifo⟩, fun n e' hr => ?_, fun n => yield_waits _⟩
  obtain ⟨rfl, hw⟩ := runReadyTasks_eq_turns hr
  have hn := hall n
  refine ⟨hn.polled, by simpa [hw] using hn.fifo, fun id hid => ?_⟩
  exact (hn.settled id hid).resolve_left (by simp [hw])

/-- Task 0 wakes itself and then awaits `Yield`; afterwards both tasks await
`Yield` again and again. -/
def selfWakeProgram : Program Nat where
  acts := [.spawn 0, .spawn 1]
  world := 0
  poll w id := ⟨w + 1, if w = 0 then [0, 0] else [if id = 0 then 0 else 1], .pending⟩
  spawned_nodup := by decide
  boot_wakes := by simp
  poll_wakes w id j hj := by
    by_cases hw : w = 0
    · simp_all [spawnedIds]
    · by_cases hi : id = 0 <;> simp_all [spawnedIds]

theorem yield_overtakes_queued_id : ¬ ∀ (P : Program Nat) (e : Executor Nat) (n : Nat),
    P.start = some e → (e.turns P.poll n).YieldWaits P.poll (fun _ q => q) := by
  intro h
  obtain ⟨e, he⟩ : ∃ e, selfWakeProgram.start = some e := ⟨_, rfl⟩
  have hy := h selfWakeProgram e 2 he 0 [0, 1] []
  simp only [Program.start] at he
  obtain rfl := Option.some.inj he
  have hp := hy rfl (by decide) ⟨rfl, rfl⟩ 1 [.pop 0] [.push 0] rfl
  revert hp
  decide

end Nacl
