import Nacl.CoreSteps
import Nacl.Executor

/-! The loop of `run_ready_tasks` taken as a whole is a run of the scheduler: a turn
of `Executor` is the pop, the lookup, the waker calls and the answer of one CPU. -/

namespace Nacl

open Guarded

variable {κ σ : Type*} {poll : σ → TaskId → Polled σ}
  {e e' : Executor σ} {k : Core κ} {s : Sched κ} {c : κ}

/-- The executor of a CPU without what only one of the two models keeps. -/
structure Executor.Matches (e : Executor σ) (k : Core κ) : Prop where
  tasks : ∀ id, id ∈ e.tasks ↔ (k.tasks id).isSome = true
  wakerCache : k.wakerCache = e.wakerCache
  worker : k.worker = e.worker

theorem Executor.Matches.popped {id : TaskId} {rest : List TaskId} (h : e.Matches k)
    (hw : e.worker = id :: rest) (log : List ExecEvent) :
    ({ e with worker := rest, log := log } : Executor σ).Matches k.popped ∧
      k.popped.pc = .lookup id := by
  have hk : k.worker = id :: rest := h.worker.trans hw
  have hpop : k.popped = { k with worker := rest, pc := .lookup id } := by rw [Core.popped, hk]
  rw [hpop]
  exact ⟨⟨h.tasks, h.wakerCache, rfl⟩, rfl⟩

theorem Executor.Matches.popped_nil (h : e.Matches k) (hw : e.worker = []) :
    e.Matches k.popped ∧ k.popped.pc = .disable ∧ k.popped.worker = [] := by
  have hk : k.worker = [] := h.worker.trans hw
  have hpop : k.popped = { k with worker := [], pc := .disable } := by rw [Core.popped, hk]
  rw [hpop]
  exact ⟨⟨h.tasks, h.wakerCache, hw.symm⟩, rfl, rfl⟩

theorem Executor.Matches.skipped {id : TaskId} (h : e.Matches k) (hid : id ∉ e.tasks) :
    e.Matches (k.looked id) ∧ (k.looked id).pc = .pop := by
  have hk : k.tasks id = none := by
    rw [h.tasks, Bool.not_eq_true, Option.isSome_eq_false_iff, Option.isNone_iff_eq_none] at hid
    exact hid
  have hlook : k.looked id = { k with pc := .pop } := by rw [Core.looked, hk]
  rw [hlook]
  exact ⟨⟨h.tasks, h.wakerCache, h.worker⟩, rfl⟩

theorem Executor.Matches.begin {id : TaskId} (h : e.Matches k) (hid : id ∈ e.tasks) (world : σ) :
    (e.begin id world).Matches (k.looked id) ∧
      (k.looked id).pc = .user (some (id, (k.looked id).interrupts)) := by
  obtain ⟨t, ht⟩ := Option.isSome_iff_exists.mp ((h.tasks id).mp hid)
  have hlook : k.looked id = { k with
      tasks := Function.update k.tasks id (some t.begin)
      wakerCache := insert id k.wakerCache
      pc := .user (some (id, k.interrupts)) } := by rw [Core.looked, ht]
  rw [hlook]
  refine ⟨⟨fun j => ?_, ?_, h.worker⟩, rfl⟩
  · by_cases hj : j = id
    · subst hj
      simpa [Executor.begin] using hid
    · simpa [Executor.begin, hj] using h.tasks j
  · simp only [Executor.begin, h.wakerCache]

theorem Executor.Matches.wake (h : e.Matches k) (ids : List TaskId) :
    (e.wake ids).Matches ((k.markWoken ids).push ids) := by
  refine ⟨fun j => ?_, h.wakerCache, congrArg (· ++ ids) h.worker⟩
  by_cases hj : j ∈ ids
  · simpa [Executor.wake, Core.push, Core.markWoken, hj] using h.tasks j
  · simpa [Executor.wake, Core.push, Core.markWoken, hj] using h.tasks j

theorem Executor.Matches.finish (h : e.Matches k) (id : TaskId) (p : Poll) :
    (e.finish id p).Matches (k.answered id p) ∧ (k.answered id p).pc = .pop := by
  cases p with
  | pending => exact ⟨⟨h.tasks, h.wakerCache, h.worker⟩, rfl⟩
  | ready =>
    refine ⟨⟨fun j => ?_, congrArg (·.erase id) h.wakerCache, h.worker⟩, rfl⟩
    by_cases hj : j = id
    · simp [Executor.finish, Core.answered, hj]
    · simpa [Executor.finish, Core.answered, hj] using h.tasks j

variable [DecidableEq κ]

theorem Executor.Matches.wakes (h : e.Matches (s.cores c)) {task : Option (TaskId × Bool)}
    (hp : (s.cores c).pc = .user task) (stealers : List κ) (ids : List TaskId) :
    ∃ t, (scheduler stealers).Reaches anyStep s t ∧ (e.wake ids).Matches (t.cores c) ∧
      (t.cores c).pc = .user task ∧ (t.cores c).interrupts = (s.cores c).interrupts := by
  induction ids generalizing e s with
  | nil =>
    refine ⟨s, .refl, ⟨h.tasks, h.wakerCache, ?_⟩, hp, rfl⟩
    simpa [Executor.wake] using h.worker
  | cons id ids ih =>
    have hcore := Sched.wake_same s c [id]
    have hm : (e.wake [id]).Matches ((s.wake c [id]).cores c) := by
      rw [hcore]
      exact h.wake [id]
    obtain ⟨t, ht, hmt, hpt, hit⟩ := ih hm (by rw [hcore]; exact hp)
    refine ⟨t, .head ⟨.wake c id, ?_, trivial, rfl⟩ ht, ?_, hpt, ?_⟩
    · exact Pc.isUser_iff.mpr ⟨task, hp⟩
    · exact ⟨hmt.tasks, hmt.wakerCache, hmt.worker.trans (by simp [Executor.wake])⟩
    · rw [hit, hcore]
      rfl

theorem Executor.Matches.turn (h : e.Matches (s.cores c)) (hp : (s.cores c).pc = .pop)
    (ht : e.turn poll = some e') (stealers : List κ) :
    ∃ t, (scheduler stealers).Reaches anyStep s t ∧ e'.Matches (t.cores c) ∧
      (t.cores c).pc = .pop := by
  cases hw : e.worker with
  | nil => simp [Executor.turn, hw] at ht
  | cons id rest =>
    obtain ⟨hpopped, hlookup⟩ := h.popped hw (e.log ++ [.pop id])
    rw [← Sched.set_same s c (s.cores c).popped] at hpopped hlookup
    have hpop : (scheduler stealers).Reaches anyStep s (s.set c (s.cores c).popped) :=
      .single ⟨.pop c, hp, trivial, rfl⟩
    generalize hs₁ : s.set c (s.cores c).popped = s₁ at hpopped hlookup hpop
    have hlook : (scheduler stealers).Reaches anyStep s (s₁.set c ((s₁.cores c).looked id)) :=
      hpop.tail ⟨.lookup c id, hlookup, trivial, rfl⟩
    by_cases hid : id ∈ e.tasks
    · simp only [Executor.turn, hw, hid, if_true, Option.some.injEq] at ht
      subst ht
      obtain ⟨hbegun, huser⟩ := hpopped.begin hid (poll e.world id).state
      rw [← Sched.set_same s₁ c ((s₁.cores c).looked id)] at hbegun huser
      obtain ⟨s₂, hwakes, hmatch, hpc, hflag⟩ := hbegun.wakes huser stealers
        (poll e.world id).wakes
      rw [← hflag] at hpc
      obtain ⟨hfinish, hdone⟩ := hmatch.finish id (poll e.world id).answer
      rw [← Sched.set_same s₂ c ((s₂.cores c).answered id (poll e.world id).answer)] at hfinish hdone
      exact ⟨_, (hlook.trans hwakes).tail ⟨.answer c id _, hpc, trivial, rfl⟩, hfinish, hdone⟩
    · simp only [Executor.turn, hw, hid, if_false, Option.some.injEq] at ht
      subst ht
      obtain ⟨hskip, hdone⟩ := hpopped.skipped hid
      rw [← Sched.set_same s₁ c ((s₁.cores c).looked id)] at hskip hdone
      exact ⟨_, hlook, hskip, hdone⟩

/-- When `run_ready_tasks` returns, so has the CPU of the scheduler: it is about to
go to sleep, with the same tasks and an empty queue. -/
theorem Executor.Matches.runReadyTasks (h : e.Matches (s.cores c)) (hp : (s.cores c).pc = .pop)
    {n : Nat} (hr : e.runReadyTasks poll n = some e') (stealers : List κ) :
    ∃ t, (scheduler stealers).Reaches anyStep s t ∧ e'.Matches (t.cores c) ∧
      (t.cores c).pc = .disable ∧ (t.cores c).worker = [] := by
  induction n generalizing e s with
  | zero => cases hr
  | succ n ih =>
    cases ht : e.turn poll with
    | none =>
      rw [Executor.runReadyTasks, ht] at hr
      obtain rfl := Option.some.inj hr
      have hw : e.worker = [] := by
        cases hw : e.worker with
        | nil => rfl
        | cons id rest =>
          by_cases hid : id ∈ e.tasks <;> simp [Executor.turn, hw, hid] at ht
      have hdone := h.popped_nil hw
      rw [← Sched.set_same s c (s.cores c).popped] at hdone
      exact ⟨_, .single ⟨.pop c, hp, trivial, rfl⟩, hdone⟩
    | some e₁ =>
      rw [Executor.runReadyTasks, ht] at hr
      obtain ⟨s₁, hreach, hm, hp₁⟩ := h.turn hp ht stealers
      obtain ⟨t, hreach', hrest⟩ := ih hm hp₁ hr
      exact ⟨t, hreach.trans hreach', hrest⟩

end Nacl
