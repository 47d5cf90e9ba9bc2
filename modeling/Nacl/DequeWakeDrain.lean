import Mathlib.Data.Fintype.EquivFin
import Nacl.DequeWakeKept

/-! The main line left alone finishes its operation and pops all tasks, so a run whose
handlers wake only where it does no harm delivers every task that was pushed. -/

namespace Nacl

open Guarded Ring

variable {T β : Type*} {w : Worker T} {a : Nat}

def ResizeFor.pushing : ResizeFor T β → Bool
  | .push _ _ => true
  | _ => false

def WorkerPc.pushing : WorkerPc T β → Bool
  | .pushBack _ | .pushFront _ _ | .pushBuffer _ _ _ | .pushGrown _ _ | .pushWrite _ _ _
  | .pushStore _ _ => true
  | .resize _ k _ => k.pushing
  | _ => false

theorem WorkerPc.Next.pushing {p p' : WorkerPc T β} (h : p.Next p') (hp : p.pushing = false) :
    p'.pushing = false := by
  cases h with
  | pushBack | pushFront | pushFull | pushRoom | pushGrown | pushWrite => cases hp
  | resize newCap k r r' => exact hp
  | resume newCap k r =>
    cases k with
    | push t b => cases hp
    | _ => rfl
  | _ => rfl

theorem Worker.back_step {p : WorkerPc T β} (hp : p.pushing = false) :
    (w.step a p).1.back = w.back := by
  cases p with
  | pushStore t b => cases hp
  | resize newCap k r => exact Worker.resizeStep_back r
  | _ => rfl

/-- A pop that nothing interrupts returns `None` only if the queue is empty. -/
theorem Worker.Ok.empty_of_none {p : WorkerPc T β} (h : w.Ok p)
    (he : .returnedNone ∈ w.events p) :
    (w.step a p).1.back ≤ (w.step a p).1.base (w.step a p).2 := by
  cases p with
  | popFront b =>
    obtain rfl : b = w.back := h.known
    by_cases hb : w.back ≤ w.front
    · rw [Worker.step, if_pos hb]
      exact hb
    · rw [Worker.events, if_neg hb] at he
      cases he
  | popUndo f =>
    obtain ⟨rfl, -⟩ := h.known
    exact le_rfl
  | popAdd b len =>
    simp only [Worker.events] at he
    split at he <;> simp at he
  | pushStore t b => simp [Worker.events] at he
  | popped x => simp [Worker.events] at he
  | _ => cases he

theorem Line.Popping.of_finishing {s : Line T} {act : LineAct T} (h : s.Finishing act) :
    s.Popping act := by
  cases act with
  | step a => trivial
  | _ => exact h.elim

theorem Line.Popping.wakesSafely {s : Line T} {act : LineAct T} (h : s.Popping act) :
    s.WakesSafely act := by
  cases act with
  | wake t a => exact h.elim
  | _ => trivial

/-- The main line pops alone, with `log` the log before it began to. -/
structure Line.Alone (z : Line T × List (WorkerEvent T)) (log : List (WorkerEvent T)) : Prop where
  ok : z.1.worker.Ok z.1.pc
  pops : z.1.pc.pushing = false
  last : ∃ evs, z.2 = log ++ evs ∧
    (evs.getLast? = some .returnedNone → z.1.worker.back ≤ z.1.worker.base z.1.pc)

theorem Line.Alone.next {z : Line T × List (WorkerEvent T)} {log : List (WorkerEvent T)}
    {act : LineAct T} (h : Line.Alone z log) (he : z.1.Enabled act) (hok : z.1.Popping act) :
    Line.Alone (z.1.next act, z.2 ++ z.1.events act) log := by
  obtain ⟨hw, hp, evs, hevs, hlast⟩ := h
  cases act with
  | push t => exact hok.elim
  | wake t a => exact hok.elim
  | pop =>
    rw [WorkerPc.eq_idle he] at hw hlast
    exact ⟨⟨hw.sound, trivial⟩, rfl, evs, by rw [hevs]; exact List.append_nil _, hlast⟩
  | step a =>
    refine ⟨hw.step he.2, (z.1.worker.step_next a z.1.pc).pushing hp, evs ++ z.1.events (.step a), ?_, ?_⟩
    · rw [hevs, List.append_assoc]
    · intro hnone
      change (evs ++ z.1.worker.events z.1.pc).getLast? = some .returnedNone at hnone
      change (z.1.worker.step a z.1.pc).1.back ≤
        (z.1.worker.step a z.1.pc).1.base (z.1.worker.step a z.1.pc).2
      by_cases hnil : z.1.worker.events z.1.pc = []
      · rw [hnil, List.append_nil] at hnone
        rw [Worker.back_step hp]
        exact (hlast hnone).trans hw.base_le
      · refine hw.empty_of_none (List.mem_of_getLast? ?_)
        rw [List.getLast?_append_of_ne_nil _ hnil] at hnone
        exact hnone

theorem Line.Kept.drained {x z : Line T × List (WorkerEvent T)} (hx : x.1.Kept x.2)
    (h : Line.Drains x z) : returnedIds z.2 = pushedIds z.2 := by
  obtain ⟨y, evs, hxy, hy, hyz, hz, hlog⟩ := h
  have hky := hxy.kept (fun _ _ ha => (Line.Popping.of_finishing ha).wakesSafely) hx
  have hkz := hyz.kept (fun _ _ ha => ha.wakesSafely) hky
  have hstart : Line.Alone y y.2 := by
    have hidle := WorkerPc.eq_idle hy
    have hok := hky.ok
    rw [hidle] at hok
    refine ⟨?_, ?_, [], (List.append_nil _).symm, fun hl => by cases hl⟩
    · rw [hidle]
      exact hok.toOk rfl rfl
    · rw [hidle]
      rfl
  have halone : Line.Alone z y.2 :=
    System.Reaches.invariant (I := fun z => Line.Alone z y.2) hyz hstart
      fun z a hz he ha => hz.next he ha
  obtain ⟨evs', hevs', hempty⟩ := halone.last
  have hlast : evs'.getLast? = some .returnedNone := by
    rw [hlog, List.append_assoc] at hevs'
    rw [← List.append_cancel_left hevs', List.getLast?_append_cons]
    rfl
  have hidle := WorkerPc.eq_idle hz
  have hle := hempty hlast
  rw [hidle] at hle
  have hq : z.1.worker.queued = [] := Buffer.window_of_le hle
  have hl := hkz.left
  rw [hidle] at hl
  rw [returnedIds, pushedIds, hkz.entered, hq, hl]
  simp [Worker.inFlight]

/-- A bound on the accesses left in `resize`. -/
def ResizePc.work (w : Worker T) : ResizePc T → Nat
  | .back => 2 * (w.back - w.front) + 8
  | .front b => 2 * (b - w.front) + 7
  | .buffer b f => 2 * (b - f) + 6
  | .alloc b f _ => 2 * (b - f) + 5
  | .read b _ _ i => 2 * (b - i) + 4
  | .write b _ _ i _ => 2 * (b - i) + 3
  | .replace _ => 2
  | .swap _ => 1

def ResizeFor.work : ResizeFor T β → Nat
  | .push _ _ => 3
  | .pop _ => 1
  | .reserve _ _ => 0

/-- A bound on the accesses left in a push or a pop. -/
def WorkerPc.work (w : Worker T) : WorkerPc T β → Nat
  | .pushBack _ => 2 * (w.back - w.front) + 14
  | .pushFront _ _ => 2 * (w.back - w.front) + 13
  | .pushBuffer _ _ _ => 2 * (w.back - w.front) + 12
  | .pushGrown _ _ => 3
  | .pushWrite _ _ _ => 2
  | .pushStore _ _ => 1
  | .popBack => 2 * (w.back - w.front) + 14
  | .popFront _ => 2 * (w.back - w.front) + 13
  | .popAdd _ _ => 2 * (w.back - w.front) + 12
  | .popUndo _ => 1
  | .popBuffer _ _ => 2 * (w.back - w.front) + 11
  | .popRead _ _ _ => 2 * (w.back - w.front) + 10
  | .popped _ => 1
  | .resize _ k r => r.work w + k.work
  | _ => 0

theorem Worker.resizeStep_work {newCap : Capacity} {r r' : ResizePc T}
    (hr : (w.resizeStep newCap a r).2 = some r')
    (hi : ∀ b p new i x, r = .write b p new i x → i < b) :
    r'.work (w.resizeStep newCap a r).1 < r.work w := by
  cases r with
  | read b p new i =>
    cases hr
    by_cases hib : i = b
    · simp [hib, ResizePc.work]
    · simp [hib, ResizePc.work]
  | write b p new i x =>
    cases hr
    have hlt := hi b p new i x rfl
    simp only [ResizePc.work]
    omega
  | swap new => cases hr
  | _ =>
    cases hr
    simp [ResizePc.work, Worker.resizeStep]

theorem ResizePc.work_pos (r : ResizePc T) : 0 < r.work w := by
  cases r <;> simp [ResizePc.work]

theorem Worker.LineOk.work_step {p : WorkerPc T Empty} (h : w.LineOk p) (hp : p.isIdle = false) :
    (w.step a p).2.work (w.step a p).1 < p.work w := by
  cases p with
  | idle => cases hp
  | pushBuffer t b f =>
    simp only [Worker.step]
    split <;> simp [WorkerPc.work, ResizePc.work, ResizeFor.work]
  | popFront b =>
    simp only [Worker.step]
    split <;> simp [WorkerPc.work]
  | popAdd b len =>
    simp only [Worker.step]
    split
    · simp [WorkerPc.work]
    · simp only [WorkerPc.work]
      omega
  | popRead f len q =>
    simp only [Worker.step]
    split <;> simp [WorkerPc.work, ResizePc.work, ResizeFor.work]
  | resize newCap k r =>
    simp only [Worker.step]
    cases hr : (w.resizeStep newCap a r).2 with
    | none =>
      have hpos := r.work_pos (w := w)
      cases k with
      | reserve n k => exact k.elim
      | _ =>
        simp only [Option.map_none, Option.getD_none, ResizeFor.resume, WorkerPc.work,
          ResizeFor.work]
        omega
    | some r' =>
      have hi : ∀ b p new i x, r = .write b p new i x → i < b := by
        rintro b p new i x rfl
        exact h.known.2.1
      have hlt := Worker.resizeStep_work hr hi
      simp only [Option.map_some, Option.getD_some, WorkerPc.work]
      omega
  | reserveBack n k => exact k.elim
  | reserveFront n k b => exact k.elim
  | reserveBuffer n k len => exact k.elim
  | reserved n k => exact k.elim
  | _ => simp [WorkerPc.work, Worker.step]

/-- How many tasks the queue can hold when the operation is finished. -/
def Worker.owed (w : Worker T) (p : WorkerPc T β) : Nat :=
  w.back - w.front + if p.pushing then 1 else 0

theorem Worker.front_step {p : WorkerPc T β} (hp : ∀ f, p ≠ .popUndo f) :
    w.front ≤ (w.step a p).1.front := by
  cases p with
  | popAdd b len => exact Nat.le_succ _
  | popUndo f => exact absurd rfl (hp f)
  | resize newCap k r => exact (Worker.resizeStep_front r).ge
  | _ => exact le_rfl

theorem Worker.LineOk.owed_step {p : WorkerPc T β} (h : w.LineOk p) :
    (w.step a p).1.owed (w.step a p).2 ≤ w.owed p := by
  have hfront := Worker.front_step (w := w) (a := a) (p := p) fun f hf => by
    rw [hf] at h
    exact h.known
  by_cases hstore : ∃ t b, p = .pushStore t b
  · obtain ⟨t, b, rfl⟩ := hstore
    have hle := h.sound.le
    obtain rfl : b = w.back := h.known.1
    show w.back + 1 - w.front + 0 ≤ w.back - w.front + 1
    omega
  · have hback : (w.step a p).1.back = w.back := by
      cases p with
      | pushStore t b => exact absurd ⟨t, b, rfl⟩ hstore
      | resize newCap k r => exact Worker.resizeStep_back r
      | _ => rfl
    rw [Worker.owed, Worker.owed, hback]
    cases hp : p.pushing with
    | true =>
      split <;> simp only [if_true] <;> omega
    | false =>
      rw [(w.step_next a p).pushing hp]
      simp only [Bool.false_eq_true, if_false]
      omega

theorem Line.Runs.one {ok : Line T → LineAct T → Prop} {s : Line T} {act : LineAct T}
    (log : List (WorkerEvent T)) (he : s.Enabled act) (hok : ok s act) :
    Line.Runs ok (s, log) (s.next act, log ++ s.events act) := .single ⟨act, he, hok, rfl⟩

theorem Line.Kept.finishes {s : Line T} {log : List (WorkerEvent T)} (h : s.Kept log) :
    ∃ y, Line.Runs Line.Finishing (s, log) y ∧ y.1.pc.isIdle = true ∧
      y.1.worker.back - y.1.worker.front ≤ s.worker.owed s.pc := by
  induction hn : s.pc.work s.worker using Nat.strong_induction_on generalizing s log with
  | _ n ih =>
    cases hidle : s.pc.isIdle with
    | true => exact ⟨(s, log), .refl, hidle, Nat.le_add_right _ _⟩
    | false =>
      obtain ⟨a, ha⟩ := Infinite.exists_notMem_finset s.worker.live
      have hstep := h.step (a := a) fun _ => ha
      have hlt := h.ok.work_step (a := a) hidle
      obtain ⟨y, hrun, hy, hlen⟩ := ih _ (hn ▸ hlt) hstep rfl
      have he : s.Enabled (.step a) := ⟨hidle, fun _ => ha⟩
      have hone : Line.Runs Line.Finishing (s, log) _ := Line.Runs.one log he trivial
      exact ⟨y, hone.trans hrun, hy, hlen.trans h.ok.owed_step⟩

theorem Line.Runs.popping {s s' : Line T} {act : LineAct T} (log : List (WorkerEvent T))
    (he : s.Enabled act) (hact : s.Popping act) (hs : s.next act = s') :
    ∃ log', Line.Runs Line.Popping (s, log) (s', log') := by
  subst hs
  exact ⟨_, Line.Runs.one log he hact⟩

/-- One pop from a queue that is not empty, up to its `fetch_add`. -/
theorem Line.popOne {s : Line T} (log : List (WorkerEvent T)) (hidle : s.pc.isIdle = true)
    (hlt : s.worker.front < s.worker.back) :
    ∃ log', Line.Runs Line.Popping (s, log)
      (⟨{ s.worker with front := s.worker.front + 1 },
        .popBuffer s.worker.front (s.worker.back - s.worker.front)⟩, log') := by
  have hne : ¬ s.worker.back ≤ s.worker.front := Nat.not_le.mpr hlt
  have hne' : ¬ s.worker.back < s.worker.front + 1 := by omega
  have hstep : ∀ p : WorkerPc T Empty, p.isIdle = false → p.allocates = false →
      (⟨s.worker, p⟩ : Line T).Enabled (.step 0) :=
    fun p hp hal => ⟨hp, fun h => by rw [hal] at h; cases h⟩
  have hpop : s.Enabled .pop := hidle
  have hfront : (⟨s.worker, .popFront s.worker.back⟩ : Line T).next (.step 0) =
      ⟨s.worker, .popAdd s.worker.back (s.worker.back - s.worker.front)⟩ := by
    simp only [Line.next, Worker.step, if_neg hne]
  have hadd : (⟨s.worker, .popAdd s.worker.back (s.worker.back - s.worker.front)⟩ : Line T).next
      (.step 0) = ⟨{ s.worker with front := s.worker.front + 1 },
        .popBuffer s.worker.front (s.worker.back - s.worker.front)⟩ := by
    simp only [Line.next, Worker.step, if_neg hne']
  obtain ⟨l1, h1⟩ := Line.Runs.popping log hpop trivial rfl
  obtain ⟨l2, h2⟩ := Line.Runs.popping l1 (hstep .popBack rfl rfl) trivial rfl
  obtain ⟨l3, h3⟩ := Line.Runs.popping l2 (hstep _ rfl rfl) trivial hfront
  obtain ⟨l4, h4⟩ := Line.Runs.popping l3 (hstep _ rfl rfl) trivial hadd
  exact ⟨l4, ((h1.trans h2).trans h3).trans h4⟩

theorem Line.popNone {s : Line T} (log : List (WorkerEvent T)) (hidle : s.pc.isIdle = true)
    (hle : s.worker.back ≤ s.worker.front) :
    ∃ evs, Line.Runs Line.Popping (s, log) (⟨s.worker, .idle⟩, log ++ evs ++ [.returnedNone]) := by
  have hpop : s.Enabled .pop := hidle
  have hback : (⟨s.worker, .popBack⟩ : Line T).Enabled (.step 0) := ⟨rfl, fun h => by cases h⟩
  have hfront : (⟨s.worker, .popFront s.worker.back⟩ : Line T).Enabled (.step 0) :=
    ⟨rfl, fun h => by cases h⟩
  have h1 : Line.Runs Line.Popping (s, log) (⟨s.worker, .popBack⟩, log ++ []) :=
    Line.Runs.one log hpop trivial
  have h2 : Line.Runs Line.Popping (⟨s.worker, .popBack⟩, log ++ [])
      (⟨s.worker, .popFront s.worker.back⟩, log ++ [] ++ []) :=
    Line.Runs.one (log ++ []) hback trivial
  have h3 : Line.Runs Line.Popping (⟨s.worker, .popFront s.worker.back⟩, log ++ [] ++ [])
      (⟨s.worker, .idle⟩, log ++ [] ++ [] ++ [.returnedNone]) := by
    have hr : Line.Runs Line.Popping (⟨s.worker, .popFront s.worker.back⟩, log ++ [] ++ []) _ :=
      Line.Runs.one (log ++ [] ++ []) hfront trivial
    simp only [Line.next, Line.events, Worker.step, Worker.events, if_pos hle] at hr
    exact hr
  refine ⟨[], ?_⟩
  rw [← List.append_nil (log ++ [])]
  exact (h1.trans h2).trans h3

theorem Line.Kept.drains {s : Line T} {log : List (WorkerEvent T)} (h : s.Kept log)
    (hidle : s.pc.isIdle = true) :
    ∃ z evs, Line.Runs Line.Popping (s, log) z ∧ z.1.pc.isIdle = true ∧
      z.2 = log ++ evs ++ [.returnedNone] := by
  induction hn : s.worker.back - s.worker.front using Nat.strong_induction_on
    generalizing s log with
  | _ n ih =>
    by_cases hlt : s.worker.front < s.worker.back
    · obtain ⟨l1, h1⟩ := Line.popOne log hidle hlt
      have hk := h1.kept (fun _ _ ha => ha.wakesSafely) h
      obtain ⟨⟨t, l2⟩, h2, ht, hlen⟩ := Line.Kept.finishes hk
      have h2' : Line.Runs Line.Popping _ (t, l2) :=
        System.Reaches.mono h2 fun _ _ ha => Line.Popping.of_finishing ha
      have hrun : Line.Runs Line.Popping (s, log) (t, l2) := h1.trans h2'
      have hkt := hrun.kept (fun _ _ ha => ha.wakesSafely) h
      change t.worker.back - t.worker.front ≤ s.worker.back - (s.worker.front + 1) + 0 at hlen
      have hless : t.worker.back - t.worker.front < n := by omega
      obtain ⟨z, evs, hz, hzi, hzl⟩ := ih _ hless hkt ht rfl
      obtain ⟨pre, hpre⟩ := System.Reaches.log_append hrun
      refine ⟨z, pre ++ evs, hrun.trans hz, hzi, ?_⟩
      rw [hzl, show l2 = log ++ pre from hpre, List.append_assoc log]
    · obtain ⟨evs, hrun⟩ := Line.popNone log hidle (Nat.not_lt.mp hlt)
      exact ⟨_, evs, hrun, rfl, rfl⟩

theorem Line.Kept.delivers {s : Line T} {log : List (WorkerEvent T)} (h : s.Kept log) :
    Line.Delivers (s, log) := by
  refine ⟨?_, ?_, fun z hz => h.drained hz⟩
  · rw [returnedIds, pushedIds, h.entered, h.left, List.append_assoc, ← Multiset.coe_add]
    exact Multiset.le_add_right _ _
  · obtain ⟨⟨t, l⟩, hrun, ht, -⟩ := h.finishes
    have hk := hrun.kept (fun _ _ ha => (Line.Popping.of_finishing ha).wakesSafely) h
    obtain ⟨z, evs, hz, hzi, hzl⟩ := Line.Kept.drains hk ht
    exact ⟨z, (t, l), evs, hrun, ht, hz, hzi, hzl⟩

/-- Handlers that wake only where it does no harm. -/
theorem handler_wakes_delivered {s : Line T} {log : List (WorkerEvent T)}
    (h : Line.Runs Line.WakesSafely (Line.new, []) (s, log)) : Line.Delivers (s, log) := by
  have hk : s.Kept log := h.kept (fun _ _ ha => ha) Line.Kept.new
  exact hk.delivers

def lineAfter (x : Line TaskId × List (WorkerEvent TaskId)) (as : List (LineAct TaskId)) :
    Line TaskId × List (WorkerEvent TaskId) := ((line TaskId).logged Line.events).after x as

/-- A handler wakes task 2 in a pop that has loaded `back`. -/
def wokenInPop : List (LineAct TaskId) :=
  .push 1 :: List.replicate 5 (.step 0) ++ [.pop, .step 0, .wake 2 1]

theorem handler_wakes_delivered_pop : Line.Delivers (lineAfter (Line.new, []) wokenInPop) ∧
    (lineAfter (Line.new, []) wokenInPop).2 = [.pushed 1, .pushed 2] := by
  have hlegal : ((line TaskId).logged Line.events).Legal (Line.new, []) wokenInPop := by decide
  have hmeets : ((line TaskId).logged Line.events).Meets (fun x a => x.1.WakesSafely a)
      (Line.new, []) wokenInPop := by
    simp only [wokenInPop, System.Meets, Line.WakesSafely, List.replicate, List.cons_append,
      List.nil_append, true_and, and_true]
    intro _ h
    exact absurd h.1 (by decide)
  have hdelivers : ∀ x, Line.Runs Line.WakesSafely (Line.new, []) x → Line.Delivers x :=
    fun ⟨s, log⟩ h => handler_wakes_delivered (T := TaskId) h
  refine ⟨?_, ?_⟩
  · exact hdelivers _ (System.reaches_after hlegal hmeets)
  · decide +kernel

/-- A handler wakes task 2 in a push that has loaded `back`. -/
def wokenInPush : List (LineAct TaskId) := [.push 1, .step 0, .wake 2 1]

/-- What the main line does after it: the rest of the push, then pops. -/
def wokenInPushRest : List (LineAct TaskId) := List.replicate 4 (.step 0)

def wokenInPushPops : List (LineAct TaskId) :=
  .pop :: List.replicate 6 (.step 0) ++ .pop :: List.replicate 2 (.step 0)

/-- The store of `back` in the push takes task 2 off the queue again. -/
theorem handler_wake_lost :
    Line.Runs anyStep (Line.new, []) (lineAfter (Line.new, []) wokenInPush) ∧
      ¬ Line.Delivers (lineAfter (Line.new, []) wokenInPush) := by
  constructor
  · exact System.reaches_after (by decide) (System.meets_anyStep _)
  intro h
  have hrest : Line.Runs Line.Finishing (lineAfter (Line.new, []) wokenInPush)
      (lineAfter (lineAfter (Line.new, []) wokenInPush) wokenInPushRest) :=
    System.reaches_after (by decide) ⟨trivial, trivial, trivial, trivial, trivial⟩
  have hpops : Line.Runs Line.Popping
      (lineAfter (lineAfter (Line.new, []) wokenInPush) wokenInPushRest)
      (lineAfter (lineAfter (lineAfter (Line.new, []) wokenInPush) wokenInPushRest)
        wokenInPushPops) := by
    refine System.reaches_after (by decide) ?_
    simp [wokenInPushPops, System.Meets, Line.Popping, List.replicate]
  have hdrains : Line.Drains (lineAfter (Line.new, []) wokenInPush)
      (lineAfter (lineAfter (lineAfter (Line.new, []) wokenInPush) wokenInPushRest)
        wokenInPushPops) := by
    refine ⟨_, [.taken (some 1), .returned (some 1)], hrest, ?_, hpops, ?_, ?_⟩
    · decide +kernel
    · decide +kernel
    · decide +kernel
  exact absurd (h.exact _ hdrains) (by decide +kernel)

end Nacl
