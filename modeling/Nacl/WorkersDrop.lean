import Mathlib.Algebra.BigOperators.Group.Finset.Basic
import Mathlib.Algebra.Order.Group.Multiset
import Mathlib.Tactic.Abel
import Nacl.WorkersRuns

/-! No task is lost or given out twice by the worker queues: what was pushed has been returned, or
is in a queue and dropped with it. -/

namespace Nacl

open Guarded Ring

variable {κ T : Type*}

/-- The task that a call hands to its caller. -/
def Answer.gives : Answer T → Multiset (Option T)
  | .popped (some y) | .success (some y) => {y}
  | _ => 0

def WorkEvent.pushes : WorkEvent κ T → Multiset (Option T)
  | .pushed _ t => {some t}
  | _ => 0

def WorkEvent.gives : WorkEvent κ T → Multiset (Option T)
  | .returned _ r => r.gives
  | _ => 0

/-- The tasks that a call has taken off a queue and neither returned nor put into another. -/
def WorkStatus.held : WorkStatus κ T → Multiset (Option T)
  | .took t => {some t}
  | .holding _ _ hand => hand.map some
  | .answered r => r.gives
  | _ => 0

theorem Theft.hand_eq {α : Type*} (src dest : Flavor) (hand : List α) (op : Theft) :
    (↑hand : Multiset α) =
      ↑(op.deliver src dest hand).1.toList + ↑(op.deliver src dest hand).2 := by
  have hkeeps : (↑hand : Multiset α) = ↑(op.keeps src hand).1.toList + ↑(op.keeps src hand).2 := by
    cases op with
    | batch => exact (Multiset.zero_add _).symm
    | steal | batchAndPop =>
      cases src with
      | fifo =>
        cases hand with
        | nil => rfl
        | cons t rest => rfl
      | lifo =>
        induction hand using List.reverseRecOn with
        | nil => rfl
        | append_singleton rest t =>
          simp only [Theft.keeps, List.getLast?_concat, List.dropLast_concat, Option.toList_some]
          rw [← Multiset.coe_add, add_comm]
  rw [hkeeps, Theft.deliver]
  split
  · rfl
  · rw [Multiset.coe_reverse]

section sums

variable {M α : Type*} [AddCommMonoid M] [Fintype κ] [DecidableEq κ]

theorem sum_update (g : α → M) (f : κ → α) (c : κ) (z : α) :
    ∑ d, g (Function.update f c z d) + g (f c) = ∑ d, g (f d) + g z := by
  rw [← Finset.add_sum_erase _ _ (Finset.mem_univ c),
    ← Finset.add_sum_erase _ (fun d => g (f d)) (Finset.mem_univ c), Function.update_self]
  have hrest : ∑ d ∈ Finset.univ.erase c, g (Function.update f c z d) =
      ∑ d ∈ Finset.univ.erase c, g (f d) := by
    refine Finset.sum_congr rfl ?_
    intro d hd
    rw [Function.update_of_ne (Finset.ne_of_mem_erase hd)]
  rw [hrest, add_comm, add_comm (g z), ← add_assoc]

end sums

section conserve

variable [Fintype κ] {x y : AtomicDeques κ T} {c v : κ} {e : WorkEvent κ T}

/-- All tasks that are in queues or in the hands of a call. -/
def AtomicDeques.all (x : AtomicDeques κ T) : Multiset (Option T) :=
  ∑ v, ((x.queue v).map some : Multiset (Option T)) + ∑ c, (x.status c).held

variable [DecidableEq κ]

theorem AtomicDeques.all_set (ts : List T) (st : WorkStatus κ T) {i o : Multiset (Option T)}
    (h : i + (x.queue v).map some + (x.status c).held = o + ts.map some + st.held) :
    i + x.all = o + ((x.setQueue v ts).setStatus c st).all := by
  have hqueue := sum_update (fun ts : List T => (↑(ts.map some) : Multiset (Option T)))
    x.queue v ts
  have hstatus := sum_update WorkStatus.held x.status c st
  refine add_right_cancel (b := ↑((x.queue v).map some) + (x.status c).held) ?_
  calc i + x.all + (↑((x.queue v).map some) + (x.status c).held)
      = i + ↑((x.queue v).map some) + (x.status c).held + x.all := by abel
    _ = o + ↑(ts.map some) + st.held + x.all := by rw [h]
    _ = o + (∑ d, ↑((x.queue d).map some) + ↑(ts.map some)) +
        (∑ d, (x.status d).held + st.held) := by
      rw [AtomicDeques.all]
      abel
    _ = o + ((x.setQueue v ts).setStatus c st).all +
        (↑((x.queue v).map some) + (x.status c).held) := by
      rw [← hqueue, ← hstatus, AtomicDeques.all]
      simp only [AtomicDeques.setStatus, AtomicDeques.setQueue]
      abel

/-- A change of the status only. -/
theorem AtomicDeques.all_setStatus {st : WorkStatus κ T} {o : Multiset (Option T)}
    (h : (x.status c).held = o + st.held) : 0 + x.all = o + (x.setStatus c st).all := by
  have hall := AtomicDeques.all_set (x := x) (c := c) (v := c) (i := 0) (o := o) (x.queue c) st
    (by rw [h]; abel)
  rwa [AtomicDeques.setQueue_self] at hall

theorem AtomicDeques.Step.conserve (h : AtomicDeques.Step x e y) :
    e.pushes + x.all = e.gives + y.all := by
  cases h with
  | call c k h => exact AtomicDeques.all_setStatus (by rw [h]; rfl)
  | push c t b h =>
    refine AtomicDeques.all_set _ _ ?_
    simp only [h, WorkEvent.pushes, WorkEvent.gives, WorkStatus.held, Answer.gives, List.map_append,
      List.map_singleton, ← Multiset.coe_add, Multiset.coe_singleton]
    abel
  | takeFirst c t rest b h hf hq =>
    refine AtomicDeques.all_set _ _ ?_
    simp only [h, hq, WorkEvent.pushes, WorkEvent.gives, WorkStatus.held, List.map_cons,
      ← Multiset.cons_coe, ← Multiset.singleton_add]
    abel
  | takeLast c t rest b h hf hq =>
    refine AtomicDeques.all_set _ _ ?_
    simp only [h, hq, WorkEvent.pushes, WorkEvent.gives, WorkStatus.held, List.map_append,
      List.map_singleton, ← Multiset.coe_add, Multiset.coe_singleton]
    abel
  | sawNone c b h hq => exact AtomicDeques.all_setStatus (by rw [h]; rfl)
  | query c q b h =>
    refine AtomicDeques.all_setStatus ?_
    rw [h]
    cases q with
    | isEmpty | len => rfl
    | batch =>
      show 0 = 0 + (if (x.queue c).length = 0 then Answer.empty else Answer.success none).gives
      split <;> rfl
  | look c op v b h => exact AtomicDeques.all_setStatus (by rw [h]; rfl)
  | sawEmpty c op v b h hv => exact AtomicDeques.all_setStatus (by rw [h]; rfl)
  | sawLast c op v h hv => exact AtomicDeques.all_setStatus (by rw [h]; rfl)
  | sawRetry c op v b h => exact AtomicDeques.all_setStatus (by rw [h]; rfl)
  | steal c op v hand ts rest h hq hpos hhalf hmax =>
    have hheld : (x.status c).held = ↑(hand.map some) := by
      obtain ⟨b, hb, rfl⟩ | ⟨hst, -⟩ := h
      · rw [hb]
        rfl
      · rw [hst]
        rfl
    refine AtomicDeques.all_set _ _ ?_
    rw [hheld]
    simp only [hq, WorkEvent.pushes, WorkEvent.gives, WorkStatus.held, List.map_append,
      ← Multiset.coe_add]
    abel
  | arrive c op v hand h =>
    have hhand := congrArg (Multiset.map some) (op.hand_eq (x.flavor v) (x.flavor c) hand)
    rw [Multiset.map_add, Multiset.map_coe, Multiset.map_coe, Multiset.map_coe] at hhand
    have hgives : ∀ o : Option T, (Answer.success (o.map some)).gives = ↑(o.toList.map some) := by
      intro o
      cases o <;> rfl
    refine AtomicDeques.all_set _ _ ?_
    simp only [h, hhand, hgives, WorkEvent.pushes, WorkEvent.gives, WorkStatus.held,
      List.map_append, ← Multiset.coe_add]
    abel
  | leave c r h => exact AtomicDeques.all_setStatus (by rw [h]; exact (add_zero _).symm)
  | leaveWith c t h => exact AtomicDeques.all_setStatus (by rw [h]; rfl)

theorem AtomicDeques.conserve {log : List (WorkEvent κ T)} (h : Trace AtomicDeques.Step x log y) :
    (log.map WorkEvent.pushes).sum + x.all = (log.map WorkEvent.gives).sum + y.all := by
  induction h with
  | nil x => rfl
  | @cons x y z e log hstep _ ih =>
    rw [List.map_cons, List.map_cons, List.sum_cons, List.sum_cons]
    calc e.pushes + (log.map WorkEvent.pushes).sum + x.all
        = (log.map WorkEvent.pushes).sum + (e.pushes + x.all) := by abel
      _ = e.gives + ((log.map WorkEvent.pushes).sum + y.all) := by
        rw [hstep.conserve]
        abel
      _ = e.gives + (log.map WorkEvent.gives).sum + z.all := by
        rw [ih]
        abel

end conserve

section tight

variable {w : Worker T} {q : WorkerPc T (Raid κ)} {a : Nat}

/-- The buffers that are allocated and not retired are those that the queue or its owner
uses. -/
def Worker.Tight (w : Worker T) (q : WorkerPc T (Raid κ)) : Prop :=
  ∀ p, p ∈ w.live ↔ p = w.inner ∨ p = w.cell ∨ q.building = some p

theorem Worker.Tight.resize {newCap : Capacity} {k : ResizeFor T (Raid κ)} {r : ResizePc T}
    (h : w.Tight (.resize newCap k r)) (hok : w.Ok (.resize newCap k r)) :
    (w.step a (.resize newCap k r)).1.Tight (w.step a (.resize newCap k r)).2 := by
  cases r with
  | alloc b f p =>
    intro u
    have hu : u ∈ w.live ↔ u = w.inner ∨ u = w.cell ∨ none = some u := h u
    show u ∈ insert a w.live ↔ u = w.inner ∨ u = w.cell ∨ some a = some u
    rw [Finset.mem_insert, hu]
    grind
  | read b p new i =>
    simp only [Worker.step, Worker.resizeStep]
    split <;> exact h
  | replace new =>
    intro u
    have hu : u ∈ w.live ↔ u = w.inner ∨ u = w.cell ∨ some new = some u := h u
    have hsame : w.cell = w.inner := hok.sound.same rfl
    show u ∈ w.live ↔ u = w.inner ∨ u = new ∨ none = some u
    rw [hu, hsame]
    grind
  | swap new =>
    intro u
    have hu : u ∈ w.live ↔ u = w.inner ∨ u = w.cell ∨ none = some u := h u
    obtain ⟨hcell, hne, -⟩ := hok.known.2
    have hresume : k.resume.building = none := by cases k <;> rfl
    show u ∈ w.live.erase w.inner ↔ u = new ∨ u = w.cell ∨ k.resume.building = some u
    rw [Finset.mem_erase, hu, hcell, hresume]
    grind
  | _ => exact h

theorem Worker.Tight.step (h : w.Tight q) (hok : w.Ok q) : (w.step a q).1.Tight (w.step a q).2 := by
  cases q with
  | resize newCap k r => exact h.resize hok
  | pushBuffer t b f =>
    simp only [Worker.step]
    split <;> exact h
  | popFront b =>
    simp only [Worker.step]
    split <;> exact h
  | popAdd b len =>
    simp only [Worker.step]
    split <;> exact h
  | popRead f len p =>
    simp only [Worker.step]
    split <;> exact h
  | reserveBuffer n k len =>
    simp only [Worker.step]
    split <;> exact h
  | _ => exact h

variable {s : Workers κ T} {c u : κ} {p : WorkPc κ T}

def Workers.Tight (s : Workers κ T) : Prop := ∀ d, (s.worker d).Tight (s.pc d).owner

/-- Only `resize` is building a buffer. -/
theorem WorkPc.building_eq_none (h : ∀ q, p ≠ .own q) : p.owner.building = none := by
  cases p with
  | own q => exact absurd rfl (h q)
  | _ => rfl

theorem Loot.building_finish (h : Loot κ T) (fl : Flavor) : (h.finish fl).owner.building = none := by
  obtain ho | ⟨-, ho⟩ := h.owner_finish fl
  · rw [ho]
    rfl
  · rw [ho]
    rfl

theorem Loot.building_again (h : Loot κ T) (fl : Flavor) : (h.again fl).owner.building = none := by
  rw [Loot.again]
  split
  · exact h.building_finish fl
  · rfl

variable [DecidableEq κ]

theorem Workers.Tight.put (h : s.Tight) (hw : w.Tight p.owner) : ((s.put c w).goto c p).Tight := by
  intro d
  by_cases hd : d = c
  · rw [hd, Workers.pc_goto_self, Workers.worker_goto, Workers.worker_put_self]
    exact hw
  · rw [Workers.pc_goto_of_ne p hd, Workers.worker_goto, Workers.worker_put_of_ne w hd]
    exact h d

/-- A step outside of `resize` that keeps the buffers of the queues. -/
theorem Workers.Tight.keep (h : s.Tight) (hc : (s.pc c).owner.building = none)
    (hp : p.owner.building = none) (hlive : w.live = (s.worker u).live)
    (hinner : w.inner = (s.worker u).inner) (hcell : w.cell = (s.worker u).cell) :
    ((s.put u w).goto c p).Tight := by
  intro d r
  have hbuild : (((s.put u w).goto c p).pc d).owner.building = (s.pc d).owner.building := by
    by_cases hd : d = c
    · rw [hd, Workers.pc_goto_self, hp, hc]
    · rw [Workers.pc_goto_of_ne p hd, Workers.pc_put]
  have hd := h d r
  rw [hbuild, Workers.worker_goto]
  by_cases hu : d = u
  · subst hu
    rw [Workers.worker_put_self, hlive, hinner, hcell]
    exact hd
  · rw [Workers.worker_put_of_ne w hu]
    exact hd

theorem Workers.Tight.goto (h : s.Tight) (hc : (s.pc c).owner.building = none)
    (hp : p.owner.building = none) : (s.goto c p).Tight := by
  have hkeep := h.keep (u := c) (w := s.worker c) hc hp rfl rfl rfl
  rwa [Workers.put_self] at hkeep

theorem Workers.Tight.own (h : s.Tight) (hok : ∀ d, s.CpuOk d) (hp : s.pc c = .own q) :
    (s.advance c a (.own q)).Tight := by
  have hc := h c
  rw [hp] at hc
  by_cases hr : ∃ n k, q = .reserved n k
  · obtain ⟨n, k, rfl⟩ := hr
    exact h.goto (by rw [hp]; rfl) rfl
  · by_cases hl : s.flavor c = .lifo ∧ ∃ b, q = .popFront b
    · obtain ⟨hfl, b, rfl⟩ := hl
      rw [Workers.advance_popFront hfl]
      split <;> exact h.goto (by rw [hp]; rfl) rfl
    · rw [Workers.advance_own (fun n k he => hr ⟨n, k, he⟩) (fun hfl b he => hl ⟨hfl, b, he⟩)]
      exact h.put (Worker.Tight.step hc ((hok c).ownerAt hp).ok)

theorem Workers.Tight.advance (h : s.Tight) (hok : ∀ d, s.CpuOk d) :
    (s.advance c a (s.pc c)).Tight := by
  have hc : (∀ q, s.pc c ≠ .own q) → (s.pc c).owner.building = none := WorkPc.building_eq_none
  cases hp : s.pc c with
  | own q => exact h.own hok hp
  | lifoFront | raidCheck | raidRead | raidTask | swapFirst =>
    refine h.goto (hc fun q hq => by rw [hp] at hq; cases hq) ?_
    split <;> rfl
  | lifoRead b f r =>
    exact h.goto (hc fun q hq => by rw [hp] at hq; cases hq) (Worker.building_lifoPopped _ b f r)
  | raidBack op v f =>
    refine h.goto (hc fun q hq => by rw [hp] at hq; cases hq) ?_
    rw [WorkerPc.reserve]
    split_ifs <;> rfl
  | raidBuffer k dest destB =>
    refine h.goto (hc fun q hq => by rw [hp] at hq; cases hq) ?_
    split
    · cases s.flavor k.victim <;> rfl
    · rfl
  | lootBack l | lootCheck l y =>
    refine h.goto (hc fun q hq => by rw [hp] at hq; cases hq) ?_
    split
    · exact l.building_finish _
    · rfl
  | lifoExchange b y =>
    rw [Workers.advance]
    split
    · exact h.keep (hc fun q hq => by rw [hp] at hq; cases hq) rfl rfl rfl rfl
    · exact h.goto (hc fun q hq => by rw [hp] at hq; cases hq) rfl
  | raidExchange l =>
    rw [Workers.advance]
    split
    · refine h.keep (hc fun q hq => by rw [hp] at hq; cases hq) ?_ rfl rfl rfl
      split <;> rfl
    · exact h.goto (hc fun q hq => by rw [hp] at hq; cases hq) rfl
  | lootFirst l =>
    rw [Workers.advance]
    split
    · exact h.keep (hc fun q hq => by rw [hp] at hq; cases hq) (Loot.building_again _ _) rfl rfl rfl
    · exact h.goto (hc fun q hq => by rw [hp] at hq; cases hq) rfl
  | lootExchange l y =>
    rw [Workers.advance]
    split
    · exact h.keep (hc fun q hq => by rw [hp] at hq; cases hq) rfl rfl rfl rfl
    · exact h.goto (hc fun q hq => by rw [hp] at hq; cases hq) (l.building_finish _)
  | lootWrite l y =>
    exact h.keep (hc fun q hq => by rw [hp] at hq; cases hq) (Loot.building_again _ _) rfl rfl rfl
  | lifoStore | lifoUndo | lifoRestore | raidWrite | swapStore | swapStored | lootStore =>
    exact h.keep (hc fun q hq => by rw [hp] at hq; cases hq) rfl rfl rfl rfl
  | _ => exact h.goto (hc fun q hq => by rw [hp] at hq; cases hq) rfl

theorem WorkCall.building_start (k : WorkCall κ T) : (k.start c).owner.building = none := by
  cases k with
  | steal op v =>
    cases op with
    | steal => rfl
    | batch | batchAndPop =>
      rw [WorkCall.start]
      split <;> rfl
  | _ => rfl

theorem Workers.Tight.next {act : WorkAct κ T} (h : s.Tight) (hok : ∀ d, s.CpuOk d)
    (he : s.Enabled act) : (s.next act).Tight := by
  cases act with
  | call c k =>
    have hp := WorkPc.eq_idle he
    exact h.goto (by rw [hp]; rfl) k.building_start
  | step c a => exact h.advance hok

end tight

section drop

variable {w : Worker T} {s : Workers κ T} {v : κ}

theorem Worker.dropFrom_eq {b fuel i : Nat} (hi : i ≤ b) (hfuel : b - i < fuel) :
    w.dropFrom b fuel i = some (w.shared.window i b) := by
  induction fuel generalizing i with
  | zero => exact absurd hfuel (Nat.not_lt_zero _)
  | succ fuel ih =>
    rw [Worker.dropFrom]
    split
    · rename_i he
      rw [Buffer.window_of_le he.ge]
    · rename_i hne
      have hcons := Buffer.window_cons (r := w.shared) (show i < b by omega)
      rw [ih (by omega) (by omega), hcons]
      rfl

theorem Workers.tight_new (flavor : κ → Flavor) : (Workers.new flavor : Workers κ T).Tight := by
  intro d p
  show p ∈ ({0} : Finset Nat) ↔ p = 0 ∨ p = 0 ∨ none = some p
  rw [Finset.mem_singleton]
  grind

variable [DecidableEq κ] [Fintype κ]

/-- The buffers that are not retired, in every state of every run. -/
theorem workers_tight {flavor : κ → Flavor} {log : List (WorkEvent κ T)}
    (h : ((workers κ T).logged Workers.events).Reaches anyStep (.new flavor, []) (s, log)) :
    s.Tight := by
  have hrun : (workers κ T).Reaches anyStep (.new flavor) s :=
    System.Reaches.unlogged (x := (Workers.new flavor, [])) (y := (s, log)) anyStep h
  have hboth : (∀ d, s.CpuOk d) ∧ s.Tight := by
    refine hrun.invariant (I := fun s => (∀ d, s.CpuOk d) ∧ s.Tight)
      ⟨Workers.ok_new flavor, Workers.tight_new flavor⟩ ?_
    intro s act hs he _
    exact ⟨(Workers.ok_next hs.1 he).ok, hs.2.next hs.1 he⟩
  exact hboth.2

/-- When no call is in progress, `drop` ends for every queue, and frees the only buffer of it
that is not retired. Every task that was pushed has been returned by one call or is dropped
once, and nothing else is returned or dropped. -/
theorem workers_drop {flavor : κ → Flavor} {log : List (WorkEvent κ T)} {fuel : Nat}
    (h : ((workers κ T).logged Workers.events).Reaches anyStep (.new flavor, []) (s, log))
    (hidle : ∀ c, (s.pc c).isIdle = true)
    (hfuel : ∀ v, (s.worker v).back - (s.worker v).front < fuel) :
    ∃ tasks : κ → List (Option T),
      (∀ v, ∃ p, (s.worker v).drop fuel = some (tasks v, p) ∧ (s.worker v).live = {p}) ∧
      (log.map WorkEvent.pushes).sum =
        (log.map WorkEvent.gives).sum + ∑ v, (↑(tasks v) : Multiset (Option T)) := by
  obtain ⟨x, hx, hR, -⟩ := workers_refine h
  have hpc : ∀ c, s.pc c = .own .idle := fun c => WorkPc.eq_idle (hidle c)
  have hok : ∀ v, (s.worker v).Ok (.idle : WorkerPc T (Raid κ)) := fun v =>
    ((hR.ok v).ownerAt (hpc v)).ok
  refine ⟨s.contents, fun v => ⟨(s.worker v).inner, ?_, ?_⟩, ?_⟩
  · have hle : (s.worker v).front ≤ (s.worker v).back := (hok v).sound.le
    rw [Worker.drop, Worker.dropFrom_eq hle (hfuel v), Workers.contents,
      Workers.base_idle (hpc v) rfl, Workers.limit_at (hpc v)]
    rfl
  · have hsame : (s.worker v).cell = (s.worker v).inner := (hok v).sound.same rfl
    have htight := workers_tight h v
    rw [hpc v] at htight
    ext p
    rw [htight p, hsame, Finset.mem_singleton]
    show p = (s.worker v).inner ∨ p = (s.worker v).inner ∨ none = some p ↔ _
    grind
  · have hheld : ∀ c, (x.status c).held = 0 := by
      intro c
      have hst : x.status c = .idle := hR.statusAt (hpc c)
      rw [hst]
      rfl
    have hqueue : ∑ v, (↑((x.queue v).map some) : Multiset (Option T)) =
        ∑ v, (↑(s.contents v) : Multiset (Option T)) :=
      Finset.sum_congr rfl fun v _ => by rw [hR.queue v]
    have hall : x.all = ∑ v, (↑(s.contents v) : Multiset (Option T)) := by
      rw [AtomicDeques.all, hqueue, Finset.sum_eq_zero fun c _ => hheld c, add_zero]
    have hnew : (AtomicDeques.new flavor : AtomicDeques κ T).all = 0 := by
      have hzero : (AtomicDeques.new flavor : AtomicDeques κ T).all =
          ∑ _ : κ, 0 + ∑ _ : κ, 0 := rfl
      rw [hzero, Finset.sum_const_zero, add_zero]
    have hconserve := AtomicDeques.conserve hx
    rwa [hnew, add_zero, hall] at hconserve

theorem workers_drop_raid :
    ∃ tasks : Bool → List (Option Nat),
      (∀ v, ∃ p, (raidEnd.1.worker v).drop 5 = some (tasks v, p) ∧
        (raidEnd.1.worker v).live = {p}) ∧
      (raidEnd.2.map WorkEvent.pushes).sum =
        (raidEnd.2.map WorkEvent.gives).sum + ∑ v, (↑(tasks v) : Multiset (Option Nat)) :=
  workers_drop raidEnd_reached (by unfold raidEnd; decide +kernel) (by unfold raidEnd; decide +kernel)

end drop

end Nacl
