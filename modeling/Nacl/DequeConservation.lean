import Mathlib.Algebra.BigOperators.Group.Finset.Piecewise
import Mathlib.Algebra.Order.BigOperators.Group.Finset
import Nacl.DequeThief

/-! Every pushed task is in one queue, in the hands of one thief or with one pop, and
tasks leave a queue in the order in which they entered it. -/

namespace Nacl

open Guarded Ring

variable {κ T : Type*}

/-- Nothing is in hand or in flight at this place, and `front` is the oldest task. -/
structure DequePc.Plain (p : DequePc κ T) : Prop where
  base : ∀ w : Worker T, w.base p.owner = w.front
  hand : ∀ w : Worker T, p.inHand w = []
  flight : ∀ w : Worker T, w.inFlight p.owner = []

theorem DequePc.plain_idle : (DequePc.own .idle : DequePc κ T).Plain :=
  ⟨fun _ => rfl, fun _ => rfl, fun _ => rfl⟩

theorem DequePc.plain_reserve (n : Nat) (k : Batch κ) :
    (DequePc.own (.reserve n k) : DequePc κ T).Plain := by
  rw [WorkerPc.reserve]
  split <;> exact ⟨fun _ => rfl, fun _ => rfl, fun _ => rfl⟩

theorem DequeEvent.flatMap_own_nil (c : κ) (es : List (WorkerEvent T))
    (f : DequeEvent κ T → List (Option T)) (hf : ∀ e, f (.own c e) = []) :
    (es.map (DequeEvent.own c)).flatMap f = [] := by
  rw [List.flatMap_map, List.flatMap_eq_nil_iff]
  exact fun e _ => hf e

theorem Worker.inFlight_withFront (w : Worker T) (f : Nat) {β : Type*} (p : WorkerPc T β) :
    ({ w with front := f } : Worker T).inFlight p = w.inFlight p := by
  cases p with
  | resize newCap k r => cases k <;> rfl
  | _ => rfl

theorem DequePc.inHand_withFront (w : Worker T) (f : Nat) (p : DequePc κ T) :
    p.inHand ({ w with front := f } : Worker T) = p.inHand w := by cases p <;> rfl

variable [DecidableEq κ] {s s' : Deques κ T} {c d v : κ} {a : Nat}

theorem DequePc.plain_steal (c v : κ) : (DequePc.steal c v : DequePc κ T).Plain := by
  rw [DequePc.steal]
  split <;> exact ⟨fun _ => rfl, fun _ => rfl, fun _ => rfl⟩

/-- The places of the tasks before and after a step, and the events of the step. -/
structure Deques.Accounted (s s' : Deques κ T) (evs : List (DequeEvent κ T)) (v : κ) : Prop where
  back : (s'.worker v).back = (s.worker v).back + (evs.flatMap (DequeEvent.entered v)).length
  contents : s.contents v ++ evs.flatMap (DequeEvent.entered v) =
    evs.flatMap (DequeEvent.left v) ++ s'.contents v
  hands : s.inHand v ++ evs.flatMap (DequeEvent.stolenBy v) =
    evs.flatMap (DequeEvent.arrivedAt v) ++ s'.inHand v
  flights : s.inFlight v ++ evs.flatMap (DequeEvent.taken v) =
    evs.flatMap (DequeEvent.returned v) ++ s'.inFlight v

theorem Deques.Accounted.of_same (hb : (s'.worker v).back = (s.worker v).back)
    (hc : s'.contents v = s.contents v) (hh : s'.inHand v = s.inHand v)
    (hf : s'.inFlight v = s.inFlight v) : s.Accounted s' [] v := by
  refine ⟨hb, ?_, ?_, ?_⟩
  · rw [hc]
    exact List.append_nil _
  · rw [hh]
    exact List.append_nil _
  · rw [hf]
    exact List.append_nil _

theorem Deques.Accounted.of_eq (hw : s'.worker v = s.worker v) (hpc : s'.pc v = s.pc v) :
    s.Accounted s' [] v := by
  apply Deques.Accounted.of_same
  · rw [hw]
  · rw [Deques.contents, Deques.base, hw, hpc, Deques.contents, Deques.base]
  · rw [Deques.inHand, hw, hpc, Deques.inHand]
  · rw [Deques.inFlight, hw, hpc, Deques.inFlight]

theorem Deques.accounted_goto {p : DequePc κ T} (hp : (s.pc c).Plain) (hp' : p.Plain) (v : κ) :
    s.Accounted (s.goto c p) [] v := by
  by_cases hv : v = c
  · subst v
    apply Deques.Accounted.of_same
    · rfl
    · rw [Deques.contents, Deques.base, Deques.pc_goto_self, Deques.worker_goto, hp'.base,
        Deques.contents, Deques.base, hp.base]
    · rw [Deques.inHand, Deques.pc_goto_self, hp'.hand, Deques.inHand, hp.hand]
    · rw [Deques.inFlight, Deques.pc_goto_self, hp'.flight, Deques.inFlight, hp.flight]
  · exact .of_eq rfl (Deques.pc_goto_of_ne p hv)

/-- The steps of a CPU that change no queue. -/
theorem Deques.advance_goto {p : DequePc κ T} (hown : ∀ q, p = .own q → ∃ n k, q = .reserved n k)
    (hwrite : ∀ h i x, p ≠ .stealWrite h i x) (hstore : ∀ h, p ≠ .stealStore h)
    (hex : ∀ h, p = .stealExchange h → (s.worker h.victim).front ≠ h.f) :
    p.Plain ∧ s.occur c p = [] ∧ ∃ q, s.advance c a p = s.goto c q ∧ q.Plain := by
  cases p with
  | own q =>
    obtain ⟨n, k, rfl⟩ := hown q rfl
    exact ⟨⟨fun _ => rfl, fun _ => rfl, fun _ => rfl⟩, rfl, _, rfl,
      fun _ => rfl, fun _ => rfl, fun _ => rfl⟩
  | stealBack v f =>
    refine ⟨⟨fun _ => rfl, fun _ => rfl, fun _ => rfl⟩, rfl, _, rfl, ?_⟩
    split
    · exact ⟨fun _ => rfl, fun _ => rfl, fun _ => rfl⟩
    · exact DequePc.plain_reserve _ _
  | stealRead h i =>
    refine ⟨⟨fun _ => rfl, fun _ => rfl, fun _ => rfl⟩, rfl, _, rfl, ?_⟩
    split <;> exact ⟨fun _ => rfl, fun _ => rfl, fun _ => rfl⟩
  | stealWrite h i x => exact absurd rfl (hwrite h i x)
  | stealCheck h =>
    refine ⟨⟨fun _ => rfl, fun _ => rfl, fun _ => rfl⟩, rfl, _, rfl, ?_⟩
    split <;> exact ⟨fun _ => rfl, fun _ => rfl, fun _ => rfl⟩
  | stealExchange h =>
    have hne := hex h rfl
    exact ⟨⟨fun _ => rfl, fun _ => rfl, fun _ => rfl⟩, if_neg hne, _, if_neg hne,
      fun _ => rfl, fun _ => rfl, fun _ => rfl⟩
  | stealStore h => exact absurd rfl (hstore h)
  | stolen v r =>
    refine ⟨⟨fun _ => rfl, fun _ => rfl, fun _ => rfl⟩, rfl, _, rfl, ?_⟩
    split
    · exact DequePc.plain_steal c v
    · exact DequePc.plain_idle
  | _ =>
    exact ⟨⟨fun _ => rfl, fun _ => rfl, fun _ => rfl⟩, rfl, _, rfl,
      fun _ => rfl, fun _ => rfl, fun _ => rfl⟩

theorem DequeEvent.flatMap_own (c v : κ) (es : List (WorkerEvent T))
    (g : WorkerEvent T → Option (Option T)) (f : DequeEvent κ T → List (Option T))
    (hf : ∀ e, f (.own c e) = if c = v then (g e).toList else []) :
    (es.map (DequeEvent.own c)).flatMap f = if c = v then es.filterMap g else [] := by
  induction es with
  | nil => simp
  | cons e es ih =>
    rw [List.map_cons, List.flatMap_cons, ih, hf, List.filterMap_cons]
    by_cases hv : c = v
    · rw [if_pos hv, if_pos hv, if_pos hv]
      cases g e <;> rfl
    · rw [if_neg hv, if_neg hv, if_neg hv]
      rfl

theorem Deques.Accounted.of_flatMap {evs : List (DequeEvent κ T)} (h : s.Accounted s' [] v)
    (he : ∀ e ∈ evs, e.entered v = [] ∧ e.left v = [] ∧ e.stolenBy v = [] ∧ e.arrivedAt v = [] ∧
      e.taken v = [] ∧ e.returned v = []) : s.Accounted s' evs v := by
  have hnil : ∀ f : DequeEvent κ T → List (Option T), (∀ e ∈ evs, f e = []) → evs.flatMap f = [] :=
    fun f hf => List.flatMap_eq_nil_iff.mpr hf
  constructor
  · rw [hnil _ fun e h => (he e h).1]
    exact h.back
  · rw [hnil _ fun e h => (he e h).1, hnil _ fun e h => (he e h).2.1]
    exact h.contents
  · rw [hnil _ fun e h => (he e h).2.2.1, hnil _ fun e h => (he e h).2.2.2.1]
    exact h.hands
  · rw [hnil _ fun e h => (he e h).2.2.2.2.1, hnil _ fun e h => (he e h).2.2.2.2.2]
    exact h.flights

theorem Deques.accounted_own {p : WorkerPc T (Batch κ)} (hs : s.CpuOk c) (hp : s.pc c = .own p)
    (ha : p.allocates = true → s.Free c a) (v : κ) :
    s.Accounted ((s.put c ((s.worker c).step a p).1).goto c (.own ((s.worker c).step a p).2))
      (((s.worker c).events p).map (.own c)) v := by
  have hok : (s.worker c).Ok p := hs.ownerAt hp
  by_cases hv : v = c
  · subst v
    constructor
    · rw [DequeEvent.flatMap_own c c _ WorkerEvent.pushes _ (fun e => List.append_nil _), if_pos rfl,
        Deques.worker_goto, Deques.worker_put_self]
      exact hok.back_eq
    · rw [DequeEvent.flatMap_own c c _ WorkerEvent.pushes _ (fun e => List.append_nil _), if_pos rfl,
        DequeEvent.flatMap_own c c _ WorkerEvent.takes _ (fun e => List.append_nil _), if_pos rfl,
        Deques.contents, Deques.base, hp, Deques.contents, Deques.base, Deques.pc_goto_self,
        Deques.worker_goto, Deques.worker_put_self]
      exact hok.contents_step fun h => (ha h).1
    · rw [DequeEvent.flatMap_own_nil c _ _ (fun e => rfl),
        DequeEvent.flatMap_own_nil c _ _ (fun e => rfl), Deques.inHand, hp, Deques.inHand,
        Deques.pc_goto_self]
      rfl
    · rw [DequeEvent.flatMap_own c c _ WorkerEvent.takes _ (fun e => rfl), if_pos rfl,
        DequeEvent.flatMap_own c c _ WorkerEvent.returns _ (fun e => rfl), if_pos rfl,
        Deques.inFlight, hp, Deques.inFlight, Deques.pc_goto_self,
        Deques.worker_goto, Deques.worker_put_self]
      exact Worker.inFlight_step hok.sound.same
  · refine (Deques.Accounted.of_eq ?_ ?_).of_flatMap ?_
    · exact Deques.worker_put_of_ne _ hv
    · exact Deques.pc_goto_of_ne _ hv
    · intro e he
      obtain ⟨x, -, rfl⟩ := List.mem_map.mp he
      have hcv : c ≠ v := fun h => hv h.symm
      simp [DequeEvent.entered, DequeEvent.left, DequeEvent.stolenBy, DequeEvent.arrivedAt,
        DequeEvent.taken, DequeEvent.returned, DequeEvent.pushed, DequeEvent.stolenFrom, hcv]

theorem Deques.accounted_stealWrite {h : Haul κ} {i : Nat} {x : Option T} (hs : ∀ d, s.CpuOk d)
    (hp : s.pc c = .stealWrite h i x) (v : κ) :
    s.Accounted ((s.put c ((s.worker c).write h.dest (h.destB + i) x)).goto c (.stealRead h (i + 1)))
      [] v := by
  obtain ⟨hok, hi, -⟩ : h.Ok s c i ∧ i < h.n ∧ _ := (hs c).thiefAt hp
  have hown := ((hs c).haul (h := h) (by rw [hp]; rfl)).1
  have hroom : (s.worker c).back + h.n ≤ (s.worker c).front + (s.worker c).buffer.cap.val :=
    hown.known
  by_cases hv : v = c
  · subst v
    apply Deques.Accounted.of_same
    · rw [Deques.worker_goto, Deques.worker_put_self]
      rfl
    · rw [Deques.contents, Deques.base, Deques.pc_goto_self, Deques.worker_goto,
        Deques.worker_put_self, Deques.contents, Deques.base, hp]
      refine Agree.window (Worker.agree_write ?_ ?_)
      · rw [hok.destB]
        exact Nat.le_add_right _ _
      · rw [hok.dest, hok.destB]
        change _ < (s.worker c).front + (s.worker c).buffer.cap.val
        omega
    · rw [Deques.inHand, Deques.pc_goto_self, Deques.inHand, hp]
      rfl
    · rw [Deques.inFlight, Deques.pc_goto_self, Deques.inFlight, hp]
      rfl
  · exact .of_eq (Deques.worker_put_of_ne _ hv) (Deques.pc_goto_of_ne _ hv)

theorem Deques.accounted_exchange {h : Haul κ} (hs : ∀ d, s.CpuOk d)
    (hp : s.pc c = .stealExchange h) (hf : (s.worker h.victim).front = h.f) (v : κ) :
    s.Accounted (s.exchange c h)
      [.stole c h.victim ((s.worker h.victim).shared.window h.f (h.f + h.n))] v := by
  have hb := ((hs c).haul (h := h) (by rw [hp]; rfl)).2
  have ht : h.Ok s c h.n := (hs c).thiefAt hp
  obtain ⟨hbase, hbase', -⟩ := Deques.base_exchanged hs hb hf
  have hcv : c ≠ h.victim := hb.foreign.symm
  by_cases hv : v = h.victim
  · subst v
    constructor
    · rw [Deques.exchange_victim]
      rfl
    · rw [Deques.contents, hbase, Deques.contents, hbase', Deques.exchange_victim]
      simp only [DequeEvent.entered, DequeEvent.left, DequeEvent.pushed, DequeEvent.arrivedAt,
        DequeEvent.taken, DequeEvent.stolenFrom, List.flatMap_cons, List.flatMap_nil,
        List.append_nil, List.nil_append, if_true]
      exact Buffer.window_append (Nat.le_add_right _ _) hb.le
    · rw [Deques.inHand, Deques.inHand, Deques.exchange_victim, Deques.exchange_pc hb.foreign,
        DequePc.inHand_withFront (s.worker h.victim) (h.f + h.n)]
      simp [DequeEvent.stolenBy, DequeEvent.arrivedAt, hcv]
    · rw [Deques.inFlight, Deques.inFlight, Deques.exchange_victim, Deques.exchange_pc hb.foreign,
        Worker.inFlight_withFront (s.worker h.victim) (h.f + h.n)]
      simp [DequeEvent.taken, DequeEvent.returned]
  · by_cases hc : v = c
    · subst v
      have hpc : (s.exchange c h).pc c = .stealStore h := Deques.pc_goto_self _
      have hvc : h.victim ≠ c := hb.foreign
      constructor
      · rw [Deques.exchange_worker hcv]
        rfl
      · rw [Deques.contents, Deques.base, Deques.contents, Deques.base, hpc, hp,
          Deques.exchange_worker hcv]
        simp [DequeEvent.entered, DequeEvent.left, DequeEvent.pushed, DequeEvent.arrivedAt,
          DequeEvent.taken, DequeEvent.stolenFrom, hvc]
        rfl
      · rw [Deques.inHand, Deques.inHand, hpc, hp, Deques.exchange_worker hcv]
        simp only [DequeEvent.stolenBy, DequeEvent.arrivedAt, DequePc.inHand, List.flatMap_cons,
          List.flatMap_nil, List.append_nil, List.nil_append, if_true]
        exact (Buffer.window_shift fun j hj => ht.copied hbase.le j hj).symm
      · rw [Deques.inFlight, Deques.inFlight, hpc, hp, Deques.exchange_worker hcv]
        rfl
    · refine (Deques.Accounted.of_eq (Deques.exchange_worker hv) (Deques.exchange_pc hc)).of_flatMap ?_
      intro e he
      obtain rfl := List.mem_singleton.mp he
      have hv' : h.victim ≠ v := fun h' => hv h'.symm
      have hc' : c ≠ v := fun h' => hc h'.symm
      simp [DequeEvent.entered, DequeEvent.left, DequeEvent.stolenBy, DequeEvent.arrivedAt,
        DequeEvent.taken, DequeEvent.returned, DequeEvent.pushed, DequeEvent.stolenFrom, hv', hc']

theorem Deques.accounted_stealStore {h : Haul κ} (hs : ∀ d, s.CpuOk d)
    (hp : s.pc c = .stealStore h) (v : κ) :
    s.Accounted ((s.put c { s.worker c with back := h.destB + h.n }).goto c
        (.stolen h.victim .success))
      [.arrived c (((s.worker c).heap h.dest).window h.destB (h.destB + h.n))] v := by
  obtain ⟨hdest, hdestB⟩ : h.dest = (s.worker c).cell ∧ h.destB = (s.worker c).back := (hs c).thiefAt hp
  have hown := ((hs c).haul (h := h) (by rw [hp]; rfl)).1
  have hbuf : (s.worker c).heap h.dest = (s.worker c).shared := by
    rw [hdest]
    exact hown.buffer_eq rfl
  by_cases hv : v = c
  · subst v
    constructor
    · rw [Deques.worker_goto, Deques.worker_put_self, hdestB]
      simp only [DequeEvent.entered, DequeEvent.pushed, DequeEvent.arrivedAt, List.flatMap_cons,
        List.flatMap_nil, List.append_nil, List.nil_append, if_true]
      rw [Buffer.length_window, Nat.add_sub_cancel_left]
    · rw [Deques.contents, Deques.base, Deques.contents, Deques.base, Deques.pc_goto_self, hp,
        Deques.worker_goto, Deques.worker_put_self, hbuf, hdestB]
      simp only [DequeEvent.entered, DequeEvent.left, DequeEvent.pushed, DequeEvent.arrivedAt,
        DequeEvent.taken, DequeEvent.stolenFrom, List.flatMap_cons, List.flatMap_nil,
        List.append_nil, List.nil_append, if_true]
      exact (Buffer.window_append hown.sound.le (Nat.le_add_right _ _)).symm
    · rw [Deques.inHand, Deques.inHand, Deques.pc_goto_self, hp]
      simp [DequeEvent.stolenBy, DequeEvent.arrivedAt, DequePc.inHand]
    · rw [Deques.inFlight, Deques.inFlight, Deques.pc_goto_self, hp]
      rfl
  · refine (Deques.Accounted.of_eq ?_ ?_).of_flatMap ?_
    · exact Deques.worker_put_of_ne _ hv
    · exact Deques.pc_goto_of_ne _ hv
    · intro e he
      obtain rfl := List.mem_singleton.mp he
      have hcv : c ≠ v := fun h' => hv h'.symm
      simp [DequeEvent.entered, DequeEvent.left, DequeEvent.stolenBy, DequeEvent.arrivedAt,
        DequeEvent.taken, DequeEvent.returned, DequeEvent.pushed, DequeEvent.stolenFrom, hcv]

theorem Deques.accounted_advance (hs : ∀ d, s.CpuOk d)
    (ha : (s.pc c).allocates = true → s.Free c a) (v : κ) :
    s.Accounted (s.advance c a (s.pc c)) (s.occur c (s.pc c)) v := by
  have hquiet : (∀ q, s.pc c = .own q → ∃ n k, q = .reserved n k) →
      (∀ h i x, s.pc c ≠ .stealWrite h i x) → (∀ h, s.pc c ≠ .stealStore h) →
      (∀ h, s.pc c = .stealExchange h → (s.worker h.victim).front ≠ h.f) →
      s.Accounted (s.advance c a (s.pc c)) (s.occur c (s.pc c)) v := by
    intro hown hwrite hstore hex
    obtain ⟨hp, hev, q, hq, hq'⟩ := Deques.advance_goto (s := s) (c := c) (a := a) hown hwrite hstore hex
    rw [hev, hq]
    exact Deques.accounted_goto hp hq' v
  cases hp : s.pc c with
  | own p =>
    rw [hp] at ha hquiet
    cases p with
    | reserved n k => exact hquiet (by simp) (by simp) (by simp) (by simp)
    | _ =>
      rw [Deques.advance_own (fun n k => by simp)]
      exact Deques.accounted_own (hs c) hp ha v
  | stealWrite h i x => exact Deques.accounted_stealWrite hs hp v
  | stealExchange h =>
    by_cases hf : (s.worker h.victim).front = h.f
    · rw [Deques.advance, if_pos hf, Deques.occur, if_pos hf]
      exact Deques.accounted_exchange hs hp hf v
    · rw [hp] at hquiet
      refine hquiet (by simp) (by simp) (by simp) ?_
      intro g hg
      cases hg
      exact hf
  | stealStore h => exact Deques.accounted_stealStore hs hp v
  | _ =>
    rw [hp] at hquiet
    exact hquiet (by simp) (by simp) (by simp) (by simp)

theorem Deques.accounted_step {act : DequeAct κ T} (hs : ∀ d, s.CpuOk d) (he : s.Enabled act)
    (v : κ) : s.Accounted (s.next act) (s.events act) v := by
  cases act with
  | push c t =>
    have hp := DequePc.eq_idle he
    exact Deques.accounted_goto (hp ▸ DequePc.plain_idle) ⟨fun _ => rfl, fun _ => rfl, fun _ => rfl⟩ v
  | pop c =>
    have hp := DequePc.eq_idle he
    exact Deques.accounted_goto (hp ▸ DequePc.plain_idle) ⟨fun _ => rfl, fun _ => rfl, fun _ => rfl⟩ v
  | steal c u =>
    have hp := DequePc.eq_idle he
    exact Deques.accounted_goto (hp ▸ DequePc.plain_idle) (DequePc.plain_steal c u) v
  | step c a => exact Deques.accounted_advance hs he.2 v

/-- A list that grows at its end against one whose start is moved away. -/
theorem append_accounted {α : Type*} {xs ys zs zs' us vs : List α} (h : xs = ys ++ zs)
    (h' : zs ++ us = vs ++ zs') : xs ++ us = (ys ++ vs) ++ zs' := by
  rw [h, List.append_assoc, h', List.append_assoc]

/-- What a log says about the places of the tasks of one CPU. -/
structure Deques.Logged (s : Deques κ T) (log : List (DequeEvent κ T)) (v : κ) : Prop where
  back : (s.worker v).back = (log.flatMap (DequeEvent.entered v)).length
  contents : log.flatMap (DequeEvent.entered v) = log.flatMap (DequeEvent.left v) ++ s.contents v
  hands : log.flatMap (DequeEvent.stolenBy v) = log.flatMap (DequeEvent.arrivedAt v) ++ s.inHand v
  flights : log.flatMap (DequeEvent.taken v) = log.flatMap (DequeEvent.returned v) ++ s.inFlight v

theorem Deques.Logged.step {log evs : List (DequeEvent κ T)} (h : s.Logged log v)
    (ha : s.Accounted s' evs v) : s'.Logged (log ++ evs) v := by
  constructor
  · rw [List.flatMap_append, List.length_append, ← h.back]
    exact ha.back
  · rw [List.flatMap_append, List.flatMap_append]
    exact append_accounted h.contents ha.contents
  · rw [List.flatMap_append, List.flatMap_append]
    exact append_accounted h.hands ha.hands
  · rw [List.flatMap_append, List.flatMap_append]
    exact append_accounted h.flights ha.flights

variable [Fintype κ]

theorem Deques.logged_reaches {log : List (DequeEvent κ T)}
    (h : ((deques κ T).logged Deques.events).Reaches anyStep (Deques.new, []) (s, log)) :
    (∀ d, s.CpuOk d) ∧ ∀ v, s.Logged log v := by
  refine h.invariant (I := fun x => (∀ d, x.1.CpuOk d) ∧ ∀ v, x.1.Logged x.2 v) ?_ ?_
  · exact ⟨Deques.ok_new, fun v => ⟨rfl, rfl, rfl, rfl⟩⟩
  · rintro ⟨s, log⟩ act ⟨hs, hl⟩ he -
    exact ⟨Deques.ok_step hs he, fun v => (hl v).step (Deques.accounted_step hs he v)⟩

/-- The indices of a queue are bounded by the number of tasks that have entered it: none wraps
around before `2 ^ 63 - 1` tasks have. -/
theorem deque_indices {log : List (DequeEvent κ T)}
    (h : ((deques κ T).logged Deques.events).Reaches anyStep (Deques.new, []) (s, log)) (v : κ) :
    (s.worker v).back = (log.flatMap (DequeEvent.entered v)).length ∧
      (s.worker v).front ≤ (log.flatMap (DequeEvent.entered v)).length + 1 := by
  obtain ⟨hs, hl⟩ := Deques.logged_reaches h
  refine ⟨(hl v).back, ?_⟩
  rw [← (hl v).back]
  exact (hs v).owner.front_le

theorem sum_stolenFrom (log : List (DequeEvent κ T)) :
    ∑ v, (log.flatMap (DequeEvent.stolenFrom v) : Multiset (Option T)) =
      ∑ c, (log.flatMap (DequeEvent.stolenBy c) : Multiset (Option T)) := by
  induction log with
  | nil => rfl
  | cons e log ih =>
    have hone : ∑ v, (e.stolenFrom v : Multiset (Option T)) =
        ∑ c, (e.stolenBy c : Multiset (Option T)) := by
      cases e with
      | stole c v xs => simp [DequeEvent.stolenFrom, DequeEvent.stolenBy, apply_ite]
      | _ => rfl
    simp only [List.flatMap_cons, ← Multiset.coe_add, Finset.sum_add_distrib, hone, ih]

theorem coe_flatMap_append {α : Type*} (log : List α) (f g : α → List (Option T)) :
    (log.flatMap (fun e => f e ++ g e) : Multiset (Option T)) =
      ↑(log.flatMap f) + ↑(log.flatMap g) := by
  rw [Multiset.coe_add, Multiset.coe_eq_coe]
  exact (List.flatMap_append_perm log f g).symm

theorem Deques.sum_places {log : List (DequeEvent κ T)} (h : ∀ v, s.Logged log v) :
    ∑ c, (log.flatMap (DequeEvent.pushed c) : Multiset (Option T)) =
      ∑ c, (↑(s.contents c) + ↑(s.inHand c) + ↑(s.inFlight c) +
        ↑(log.flatMap (DequeEvent.returned c)) : Multiset (Option T)) := by
  have hqueue : ∑ c, (log.flatMap (DequeEvent.pushed c) : Multiset (Option T)) +
      ∑ c, (log.flatMap (DequeEvent.arrivedAt c) : Multiset (Option T)) =
      ∑ c, (log.flatMap (DequeEvent.taken c) : Multiset (Option T)) +
        ∑ c, (log.flatMap (DequeEvent.stolenFrom c) : Multiset (Option T)) +
        ∑ c, (s.contents c : Multiset (Option T)) := by
    rw [← Finset.sum_add_distrib, ← Finset.sum_add_distrib, ← Finset.sum_add_distrib]
    refine Finset.sum_congr rfl ?_
    intro c _
    have hc := congrArg (Multiset.ofList) (h c).contents
    rw [← Multiset.coe_add] at hc
    rw [← coe_flatMap_append, ← coe_flatMap_append]
    exact hc
  have hthief : ∑ c, (log.flatMap (DequeEvent.stolenBy c) : Multiset (Option T)) =
      ∑ c, (log.flatMap (DequeEvent.arrivedAt c) : Multiset (Option T)) +
        ∑ c, (s.inHand c : Multiset (Option T)) := by
    rw [← Finset.sum_add_distrib]
    exact Finset.sum_congr rfl fun c _ => by rw [(h c).hands, Multiset.coe_add]
  have hpop : ∑ c, (log.flatMap (DequeEvent.taken c) : Multiset (Option T)) =
      ∑ c, (log.flatMap (DequeEvent.returned c) : Multiset (Option T)) +
        ∑ c, (s.inFlight c : Multiset (Option T)) := by
    rw [← Finset.sum_add_distrib]
    exact Finset.sum_congr rfl fun c _ => by rw [(h c).flights, Multiset.coe_add]
  rw [sum_stolenFrom, hthief, hpop] at hqueue
  rw [Finset.sum_add_distrib, Finset.sum_add_distrib, Finset.sum_add_distrib]
  refine add_right_cancel (hqueue.trans ?_)
  ac_rfl

/-- No task is lost or doubled in any run. The indices of the code are these as long as fewer than
`2 ^ 63 - 1` tasks have entered each queue (`deque_indices`). -/
theorem worker_queues_conserve {log : List (DequeEvent κ T)}
    (h : ((deques κ T).logged Deques.events).Reaches anyStep (Deques.new, []) (s, log)) :
    s.Conserved log := by
  obtain ⟨-, hl⟩ := Deques.logged_reaches h
  have hplaces := Deques.sum_places hl
  refine ⟨hplaces, ?_, fun c => (hl c).contents, fun c => (hl c).hands, fun c => (hl c).flights⟩
  rw [hplaces]
  exact Finset.sum_le_sum fun c _ => Multiset.le_add_left _ _

/-- CPU `false` pushes 7 and 8, CPU `true` steals the older one and pops it. -/
def stealRun : List (DequeAct Bool TaskId) :=
  .push false 7 :: List.replicate 5 (.step false 0) ++ .push false 8 ::
    List.replicate 5 (.step false 0) ++ .steal true false :: List.replicate 15 (.step true 0) ++
      .pop true :: List.replicate 6 (.step true 0)

theorem worker_queues_conserve_stolen :
    let x := ((deques Bool TaskId).logged Deques.events).after (Deques.new, []) stealRun
    x.1.Conserved x.2 ∧ x.2.flatMap (DequeEvent.returned true) = [some 7] ∧
      x.1.contents false = [some 8] := by
  have hlegal : ((deques Bool TaskId).logged Deques.events).Legal (Deques.new, []) stealRun := by
    decide +kernel
  have hconserve : ∀ x, ((deques Bool TaskId).logged Deques.events).Reaches anyStep
      (Deques.new, []) x → x.1.Conserved x.2 := fun ⟨s, log⟩ h => worker_queues_conserve h
  refine ⟨?_, ?_, ?_⟩
  · exact hconserve _ (System.reaches_after hlegal (System.meets_anyStep _))
  · decide +kernel
  · decide +kernel

end Nacl
