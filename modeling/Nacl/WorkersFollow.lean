import Nacl.WorkersDeque

/-! Every access of an owner or a thief has events that the atomic queues allow, one lemma for
each place. -/

namespace Nacl

open Guarded Ring

variable {κ T : Type*}

/-- The places from which a call of the owner may return. -/
def WorkerPc.ends : WorkerPc T (Raid κ) → Bool
  | .idle | .pushStore _ _ | .popFront _ | .popUndo _ | .popped _ => true
  | _ => false

theorem WorkerPc.Next.ends {q q' : WorkerPc T (Raid κ)} (h : q.Next q') (hq : q' = .idle) :
    q.ends = true := by
  cases h with
  | idle | pushStore | popNone | popUndo | popped => rfl
  | resume newCap k r => cases k <;> cases hq
  | _ => cases hq

section contents

variable {s : Workers κ T} {x : AtomicDeques κ T} {v : κ} {w : Worker T} {fl : Flavor}
  {p : WorkPc κ T} {f n : Nat}

theorem Workers.base_idle (hp : s.pc v = p) (howner : p.owner = .idle) :
    s.base v = (s.worker v).front := by
  rw [Workers.base, hp, howner]
  rfl

theorem Workers.limit_at (hp : s.pc v = p) : s.limit v = (s.worker v).limit p := by
  rw [Workers.limit, hp]

theorem Workers.Refines.queue_nil (h : s.Refines x) (hle : s.limit v ≤ s.base v) :
    x.queue v = [] := by
  have hlen := h.length (v := v)
  exact List.eq_nil_of_length_eq_zero (by omega)

/-- The newest task of a queue. -/
theorem Workers.Refines.queue_snoc (h : s.Refines x) (hlt : s.base v < s.limit v) :
    ∃ rest t, x.queue v = rest ++ [t] ∧ (s.worker v).shared.read (s.limit v - 1) = some t ∧
      rest.map some = (s.worker v).shared.window (s.base v) (s.limit v - 1) := by
  have hq := h.queue v
  have hsucc : s.limit v = s.limit v - 1 + 1 := by omega
  rw [Workers.contents, hsucc, Buffer.window_snoc (by omega)] at hq
  obtain ⟨rest, last, hsplit, hrest, hlast⟩ := List.map_eq_append_iff.mp hq.symm
  obtain ⟨t, rfl, ht⟩ := List.map_eq_singleton_iff.mp hlast
  exact ⟨rest, t, hsplit, ht.symm, hrest⟩

/-- The `n` oldest tasks of a queue that a thief found. -/
theorem Workers.Refines.queue_take (h : s.Refines x) (hr : s.Reach v f n)
    (hf : (s.worker v).front = f) :
    ((x.queue v).take n).length = n ∧ 0 < n ∧ 2 * n ≤ (x.queue v).length + 1 ∧
      ∀ j, j < n → (s.worker v).shared.read (f + j) = ((x.queue v).take n)[j]? := by
  have hbase : s.base v = f := hr.base_eq (h.ok v).owner hf
  obtain ⟨hn, hle⟩ : 0 < n ∧ f + n ≤ s.limit v := hr.le_limit (h.ok v).owner hbase.le
  have hlen := h.length (v := v)
  have hback : (s.worker v).back ≤ s.limit v := (h.ok v).owner.back_le_limit
  refine ⟨?_, hn, ?_, fun j hj => ?_⟩
  · rw [List.length_take]
    omega
  · rw [Workers.Reach] at hr
    cases hfl : s.flavor v with
    | fifo =>
      rw [hfl] at hr
      have htwo : f + 2 * n ≤ (s.worker v).back + 1 := hr.2
      omega
    | lifo =>
      rw [hfl] at hr
      have hone : n = 1 := hr.1
      omega
  · rw [List.getElem?_take_of_lt hj, ← hbase]
    exact h.read (by omega)

/-- A pop that lost the race has moved `front` past the end of an empty queue. -/
theorem Workers.Refines.front_le_base (h : s.Refines x) :
    x.queue v = [] ∨ (s.worker v).front ≤ s.base v := by
  have hown := (h.ok v).owner
  have hk := hown.ok.known
  rw [Worker.base_deque] at hk
  cases hq : (s.pc v).owner with
  | popUndo f =>
    left
    rw [hq] at hk
    have hf : f = s.limit v := hk.1
    have hbase : s.base v = f := by
      rw [Workers.base, hq]
      rfl
    exact h.queue_nil (by omega)
  | _ =>
    right
    rw [Workers.base, hq]
    rfl

/-- The places of a pop of a LIFO queue where `back` is set to leave one task less. -/
def WorkPc.popsLast : WorkPc κ T → Bool
  | .lifoFront _ | .lifoCell _ _ | .lifoRead _ _ _ | .lifoExchange _ _ => true
  | _ => false

/-- When `back` is at the oldest task there is no other one, and the owner is about to pop
it. -/
theorem Workers.Refines.last (h : s.Refines x) (hle : (s.worker v).back ≤ s.base v)
    (hlt : s.base v < s.limit v) : (s.pc v).popsLast = true ∧ x.Last v := by
  have hown := (h.ok v).owner
  have hlen := h.length (v := v)
  have hl := hown.lifo
  have hone : ∀ b, (s.worker v).back = b → s.limit v ≤ b + 1 → (s.pc v).flavor = some .lifo →
      (x.status v).Calls .pop → x.Last v := by
    intro b hb hb' hfl hst
    refine ⟨List.length_eq_one_iff.mp (by omega), hst, ?_⟩
    rw [h.flavor]
    exact hown.fifo_ne hfl
  have hcell : ∀ b f, s.limit v = (if f < b then b else b + 1) → (s.worker v).back = b → ¬f < b := by
    intro b f hlim hb hfb
    rw [if_pos hfb] at hlim
    omega
  cases hp : s.pc v with
  | lifoFront b =>
    rw [hp] at hl hone
    exact ⟨rfl, hone b hl (Workers.limit_at hp).le rfl (h.statusAt hp)⟩
  | lifoExchange b y =>
    rw [hp] at hl hone
    exact ⟨rfl, hone b hl.1 (Workers.limit_at hp).le rfl (h.statusAt hp)⟩
  | lifoUndo b | lifoRestore b r =>
    rw [hp] at hl
    have hfront : (s.worker v).front = b + 1 := hl.2
    have hb := Workers.base_idle hp rfl
    have hlim : s.limit v = b + 1 := Workers.limit_at hp
    omega
  | lifoCell b f =>
    rw [hp] at hl hone
    have hge : ¬f < b := hcell b f (Workers.limit_at hp) hl.1
    have hst := h.statusAt hp
    rw [Workers.StatusAt, if_neg hge] at hst
    refine ⟨rfl, hone b hl.1 ?_ rfl hst⟩
    rw [Workers.limit_at hp]
    exact (if_neg hge).le
  | lifoRead b f q =>
    rw [hp] at hl hone
    have hge : ¬f < b := hcell b f (Workers.limit_at hp) hl.1
    have hst := h.statusAt hp
    rw [Workers.StatusAt, if_neg hge] at hst
    refine ⟨rfl, hone b hl.1 ?_ rfl hst⟩
    rw [Workers.limit_at hp]
    exact (if_neg hge).le
  | _ =>
    have hlim : s.limit v = (s.worker v).back := Workers.limit_at hp
    omega

/-- A thief that finds `back` at the oldest task finds the queue empty, or its owner about to
pop the last task. -/
theorem Workers.Refines.drained (h : s.Refines x) (hle : (s.worker v).back ≤ s.base v) :
    x.queue v = [] ∨ x.Last v := by
  have hbase : s.base v ≤ s.limit v := (h.ok v).owner.base_le_limit
  obtain he | hlt := Nat.eq_or_lt_of_le hbase
  · exact .inl (h.queue_nil he.ge)
  · exact .inr (h.last hle hlt).2

end contents

variable [DecidableEq κ] {s : Workers κ T} {x : AtomicDeques κ T} {c v : κ} {p : WorkPc κ T}
  {a b f i : Nat}

@[simp] theorem AtomicDeques.setStatus_setStatus (st st' : WorkStatus κ T) :
    (x.setStatus c st).setStatus c st' = x.setStatus c st' := by
  rw [AtomicDeques.setStatus, AtomicDeques.setStatus, AtomicDeques.setStatus, Function.update_idem]

theorem AtomicDeques.setQueue_self : x.setQueue c (x.queue c) = x := by
  rw [AtomicDeques.setQueue, Function.update_eq_self]

/-- A step of `c` that changes nothing but its place, and ends at `st` of its call. -/
theorem Workers.Refines.gotoStatus {st : WorkStatus κ T} (h : s.Refines x)
    (ha : (s.goto c p).After s) (hbase : (s.worker c).base p.owner = s.base c)
    (hlimit : (s.worker c).limit p = s.limit c)
    (hc : (s.goto c p).StatusAt (x.setStatus c st) c p) :
    (s.goto c p).Refines (x.setStatus c st) :=
  h.goto ha hbase hlimit (.setStatus x c st) rfl hc

section own

variable {q : WorkerPc T (Raid κ)}

/-- A pop that finds no task returns. -/
theorem AtomicDeques.trace_none (hst : (x.status c).Calls .pop) (hq : x.queue c = []) :
    Trace AtomicDeques.Step x [.sawNone c, .returned c (.popped none)] (x.setStatus c .idle) := by
  obtain ⟨b, hb⟩ := hst
  refine .cons (.sawNone x c b hb hq) (.single ?_)
  have hleave := AtomicDeques.Step.leave (x.setStatus c (.answered (.popped none))) c
    (.popped none) (AtomicDeques.status_setStatus x c _)
  rwa [AtomicDeques.setStatus_setStatus] at hleave

/-- An access of the owner that has events, after which the queue is `ts` and its call at
`st`. -/
theorem Workers.Refines.ownPut (ts : List T) (st : WorkStatus κ T) (h : s.Refines x)
    (hp : s.pc c = .own q) (ha : q.allocates = true → s.Free c a)
    (hlifo : s.flavor c = .lifo → ∀ b, q ≠ .popFront b)
    (hts : ((s.worker c).step a q).1.contents
      (((s.worker c).step a q).1.base ((s.worker c).step a q).2) = ts.map some)
    (hst : ((s.worker c).step a q).2.StatusAt ((s.worker c).step a q).1 st) :
    ((s.put c ((s.worker c).step a q).1).goto c (.own ((s.worker c).step a q).2)).Refines
      ((x.setQueue c ts).setStatus c st) := by
  refine h.put (Workers.ok_own h.ok hp ha hlifo) (.set x c c ts st) ?_ (fun u hu => ?_) ?_
  · rw [AtomicDeques.queue_setStatus, AtomicDeques.queue_setQueue]
    exact hts
  · exact AtomicDeques.queue_setQueue_of_ne x ts hu
  · rw [Workers.StatusAt, Workers.worker_goto, Workers.worker_put_self,
      AtomicDeques.status_setStatus]
    exact hst

theorem Workers.Refines.pushStore {t : T} (h : s.Refines x) (hp : s.pc c = .own (.pushStore t b)) :
    s.Follows x c a (.own (.pushStore t b)) := by
  obtain ⟨seen, hst⟩ : (x.status c).Calls (.push t) := h.statusAt hp
  have hts := h.ownContents (a := a) hp (fun hal => by cases hal)
  refine ⟨(x.setQueue c (x.queue c ++ [t])).setStatus c .idle, ?_, ?_⟩
  · refine .cons (.push x c t seen hst) (.single ?_)
    have hleave := AtomicDeques.Step.leave
      ((x.setQueue c (x.queue c ++ [t])).setStatus c (.answered .pushed)) c .pushed
      (AtomicDeques.status_setStatus _ c _)
    rwa [AtomicDeques.setStatus_setStatus] at hleave
  · rw [Workers.advance_own (fun n k hk => by cases hk) (fun _ b hb => by cases hb)]
    refine h.ownPut _ _ hp (fun hal => by cases hal) (fun _ b hb => by cases hb) ?_ rfl
    rw [List.map_append]
    exact hts.symm

theorem Workers.Refines.popFront (h : s.Refines x) (hp : s.pc c = .own (.popFront b)) :
    s.Follows x c a (.own (.popFront b)) := by
  have hst : (x.status c).Calls .pop := h.statusAt hp
  have hok : (s.worker c).Ok (.popFront b : WorkerPc T (Raid κ)) := ((h.ok c).ownerAt hp).ok
  have hb : b = (s.worker c).back := hok.known
  have hbase : s.base c = (s.worker c).front := by rw [Workers.base, hp]; rfl
  have hlimit : s.limit c = (s.worker c).back := by rw [Workers.limit, hp]; rfl
  have hafter := Workers.ok_ownPlace (a := a) h.ok hp (fun hal => by cases hal)
  rw [Workers.Follows, Workers.occur]
  cases hfl : s.flavor c with
  | lifo =>
    rw [Workers.advance_popFront hfl] at hafter ⊢
    split
    · rename_i hle
      rw [if_pos hle] at hafter
      exact ⟨_, AtomicDeques.trace_none hst (h.queue_nil (by omega)),
        h.gotoStatus hafter hbase.symm hlimit.symm (AtomicDeques.status_setStatus x c _)⟩
    · rename_i hlt
      rw [if_neg hlt] at hafter
      exact h.silent hafter hbase.symm hlimit.symm hst
  | fifo =>
    have hlifo : s.flavor c = .lifo → ∀ e, (.popFront b : WorkerPc T (Raid κ)) ≠ .popFront e := by
      intro hl
      rw [hfl] at hl
      cases hl
    rw [Workers.advance_own (fun n k hk => by cases hk) hlifo]
    split
    · rename_i hle
      refine ⟨_, AtomicDeques.trace_none hst (h.queue_nil (by omega)), ?_⟩
      have hput := h.ownPut (a := a) (x.queue c) .idle hp (fun hal => by cases hal)
        hlifo ?_ ?_
      · rwa [AtomicDeques.setQueue_self] at hput
      · have hev : (s.worker c).events (.popFront b : WorkerPc T (Raid κ)) = [.returnedNone] :=
          if_pos hle
        exact h.ownKeeps hp (fun hal => by cases hal) (by rw [hev]; rfl) (by rw [hev]; rfl)
      · show WorkerPc.StatusAt _ _ (if b ≤ (s.worker c).front then _ else _)
        rw [if_pos hle]
        rfl
    · rename_i hlt
      refine h.ownSilent hp (fun hal => by cases hal) hlifo (if_neg hlt) ?_
        (fun b len hq => by cases hq)
      show (if b ≤ (s.worker c).front then _ else _) ≠ _
      rw [if_neg hlt]
      exact fun he => by cases he

theorem Workers.Refines.popAdd {len : Nat} (h : s.Refines x) (hp : s.pc c = .own (.popAdd b len)) :
    s.Follows x c a (.own (.popAdd b len)) := by
  obtain ⟨seen, hst⟩ : (x.status c).Calls .pop := h.statusAt hp
  have hown := (h.ok c).ownerAt hp
  have hok : (s.worker c).Ok (.popAdd b len : WorkerPc T (Raid κ)) := hown.ok
  have hb : b = (s.worker c).back := hok.known.1
  have hle : (s.worker c).front ≤ (s.worker c).back := hok.sound.le
  have hbase : s.base c = (s.worker c).front := by rw [Workers.base, hp]; rfl
  have hlimit : s.limit c = (s.worker c).back := by rw [Workers.limit, hp]; rfl
  have hlifo : s.flavor c = .lifo → ∀ e, (.popAdd b len : WorkerPc T (Raid κ)) ≠ .popFront e :=
    fun _ e he => by cases he
  rw [Workers.Follows, Workers.occur, Workers.advance_own (fun n k hk => by cases hk) hlifo]
  by_cases hlost : b < (s.worker c).front + 1
  · rw [if_pos hlost]
    refine ⟨_, .single (.sawNone x c seen hst (h.queue_nil (by omega))), ?_⟩
    have hput := h.ownPut (a := a) (x.queue c) (.answered (.popped none)) hp
      (fun hal => by cases hal) hlifo ?_ ?_
    · rwa [AtomicDeques.setQueue_self] at hput
    · have hev : (s.worker c).events (.popAdd b len : WorkerPc T (Raid κ)) = [] := if_pos hlost
      exact h.ownKeeps hp (fun hal => by cases hal) (by rw [hev]; rfl) (by rw [hev]; rfl)
    · show WorkerPc.StatusAt _ _ (if b < (s.worker c).front + 1 then _ else _)
      rw [if_pos hlost]
      rfl
  · rw [if_neg hlost]
    have hts := h.ownContents (a := a) hp (fun hal => by cases hal)
    have hev : (s.worker c).events (.popAdd b len : WorkerPc T (Raid κ)) =
        [.taken ((s.worker c).shared.read (s.worker c).front)] := if_neg hlost
    rw [hev] at hts
    obtain ⟨t, rest, hq, ht, hrest⟩ := List.map_eq_cons_iff.mp ((List.append_nil _).symm.trans hts)
    have hfifo : x.flavor c = .fifo := by
      rw [h.flavor]
      exact (hown.flavor .fifo rfl).symm
    refine ⟨_, .single (.takeFirst x c t rest seen hst hfifo hq), ?_⟩
    refine (h.ownPut _ _ hp (fun hal => by cases hal) hlifo hrest.symm ?_).setLate _
    show WorkerPc.StatusAt _ _ (if b < (s.worker c).front + 1 then _ else _)
    rw [if_neg hlost]
    refine ⟨t, rfl, ?_⟩
    show (s.worker c).buffer.read (s.worker c).front = some t
    rw [hok.buffer_eq rfl]
    exact ht.symm

theorem Workers.Refines.popUndo (h : s.Refines x) (hp : s.pc c = .own (.popUndo f)) :
    s.Follows x c a (.own (.popUndo f)) := by
  have hst : x.status c = .answered (.popped none) := h.statusAt hp
  refine ⟨_, .single (.leave x c _ hst), ?_⟩
  rw [Workers.advance_own (fun n k hk => by cases hk) (fun _ b hb => by cases hb)]
  have hput := h.ownPut (a := a) (x.queue c) .idle hp (fun hal => by cases hal)
    (fun _ b hb => by cases hb) (h.ownKeeps hp (fun hal => by cases hal) rfl rfl) rfl
  rwa [AtomicDeques.setQueue_self] at hput

theorem Workers.Refines.popped {y : Option T} (h : s.Refines x) (hp : s.pc c = .own (.popped y)) :
    s.Follows x c a (.own (.popped y)) := by
  obtain ⟨t, hst, rfl⟩ : (x.status c).Took y := h.statusAt hp
  refine ⟨_, .single (.leaveWith x c t hst), ?_⟩
  rw [Workers.advance_own (fun n k hk => by cases hk) (fun _ b hb => by cases hb)]
  have hput := h.ownPut (a := a) (x.queue c) .idle hp (fun hal => by cases hal)
    (fun _ b hb => by cases hb) (h.ownKeeps hp (fun hal => by cases hal) rfl rfl) rfl
  rwa [AtomicDeques.setQueue_self] at hput

theorem Workers.Refines.reserved {n : Nat} {k : Raid κ} (h : s.Refines x)
    (hp : s.pc c = .own (.reserved n k)) : s.Follows x c a (.own (.reserved n k)) := by
  have hst : (x.status c).Calls (.steal k.op k.victim) := h.statusAt hp
  refine h.silent (Workers.ok_reservedOwn h.ok hp) ?_ ?_ hst
  · rw [Workers.base, hp]
    rfl
  · rw [Workers.limit, hp]
    rfl

theorem Workers.Refines.own (h : s.Refines x) (hp : s.pc c = .own q) (hidle : q ≠ .idle)
    (ha : q.allocates = true → s.Free c a) : s.Follows x c a (.own q) := by
  cases q with
  | idle => exact absurd rfl hidle
  | pushStore t b => exact h.pushStore hp
  | popFront b => exact h.popFront hp
  | popAdd b len => exact h.popAdd hp
  | popUndo f => exact h.popUndo hp
  | popped y => exact h.popped hp
  | reserved n k => exact h.reserved hp
  | _ =>
    rw [Workers.Follows, Workers.advance_own (fun n k hk => by cases hk) (fun _ b hb => by cases hb)]
    refine h.ownSilent hp ha (fun _ b hb => by cases hb) rfl ?_ (fun b len hb => by cases hb)
    intro he
    have hends := ((s.worker c).step_next a _).ends he
    cases hends

end own

section lifo

variable {y : Option T}

theorem Workers.Refines.lifoStore (h : s.Refines x) (hp : s.pc c = .lifoStore b) :
    s.Follows x c a (.lifoStore b) := by
  have hst : (x.status c).Calls .pop := h.statusAt hp
  have hback : (s.worker c).back = b + 1 := ((h.ok c).ownerAt hp).lifo
  refine ⟨x, .nil x, h.put (Workers.ok_lifoStore h.ok hp) (.refl x c) ?_ (fun _ _ => rfl) hst⟩
  have hq := h.queue c
  rw [Workers.contents, Workers.base_idle hp rfl, Workers.limit_at hp] at hq
  rw [← hq]
  show (s.worker c).shared.window (s.worker c).front (b + 1) =
    (s.worker c).shared.window (s.worker c).front (s.worker c).back
  rw [hback]

/-- The load of the front index takes the newest task of a LIFO queue that has more. -/
theorem Workers.Refines.lifoFront (h : s.Refines x) (hp : s.pc c = .lifoFront b) :
    s.Follows x c a (.lifoFront b) := by
  obtain ⟨seen, hst⟩ : (x.status c).Calls .pop := h.statusAt hp
  have hown := (h.ok c).ownerAt hp
  have hbase := Workers.base_idle hp rfl
  have hlimit : s.limit c = b + 1 := Workers.limit_at hp
  have hafter := Workers.ok_lifoFront h.ok hp
  rw [Workers.Follows, Workers.occur, Workers.advance]
  by_cases hundo : b < (s.worker c).front
  · rw [if_pos hundo] at hafter
    rw [if_pos hundo, if_pos hundo]
    refine ⟨_, .single (.sawNone x c seen hst (h.queue_nil (by omega))), ?_⟩
    exact h.gotoStatus hafter hbase.symm hlimit.symm (AtomicDeques.status_setStatus x c _)
  · rw [if_neg hundo] at hafter
    rw [if_neg hundo, if_neg hundo]
    by_cases hlast : b = (s.worker c).front
    · rw [if_pos hlast]
      have hge : ¬(s.worker c).front < b := by omega
      refine h.silent hafter hbase.symm ?_ ?_
      · rw [hlimit]
        exact if_neg hge
      · rw [Workers.StatusAt, if_neg hge]
        exact ⟨seen, hst⟩
    · rw [if_neg hlast]
      have hlt : (s.worker c).front < b := by omega
      obtain ⟨rest, t, hq, ht, hrest⟩ := h.queue_snoc (v := c) (by omega)
      have hlifo : x.flavor c = .lifo := by
        rw [h.flavor]
        exact hown.fifo_ne rfl
      refine ⟨_, .single (.takeLast x c t rest seen hst hlifo hq), ?_⟩
      refine (h.leap hafter (.set x c c rest _) ?_ (fun u hu => ?_) ?_).setLate _
      · rw [AtomicDeques.queue_setStatus, AtomicDeques.queue_setQueue, hrest, hbase, hlimit]
        rw [Worker.limit, if_pos hlt]
        rfl
      · exact AtomicDeques.queue_setQueue_of_ne x rest hu
      · rw [Workers.StatusAt, if_pos hlt, AtomicDeques.status_setStatus]
        have hsame : (s.worker c).cell = (s.worker c).inner := hown.ok.sound.same rfl
        refine ⟨t, rfl, ?_⟩
        rw [Workers.worker_goto, Worker.buffer, hsame, ← ht, hlimit]
        rfl

theorem Workers.Refines.lifoUndo (h : s.Refines x) (hp : s.pc c = .lifoUndo b) :
    s.Follows x c a (.lifoUndo b) := by
  have hst : x.status c = .answered (.popped none) := h.statusAt hp
  have hq := h.queue c
  rw [Workers.contents, Workers.base_idle hp rfl, Workers.limit_at hp] at hq
  exact ⟨x, .nil x, h.put (Workers.ok_lifoUndo h.ok hp) (.refl x c) hq (fun _ _ => rfl) (.inl hst)⟩

theorem Workers.Refines.lifoRestore {r : Option (Option T)} (h : s.Refines x)
    (hp : s.pc c = .lifoRestore b r) : s.Follows x c a (.lifoRestore b r) := by
  have hst : (x.status c).Answers (.popped r) := h.statusAt hp
  have hq := h.queue c
  rw [Workers.contents, Workers.base_idle hp rfl, Workers.limit_at hp] at hq
  exact ⟨x, .nil x, h.put (Workers.ok_lifoRestore h.ok hp) (.refl x c) hq (fun _ _ => rfl) hst⟩

theorem Workers.Refines.lifoCell (h : s.Refines x) (hp : s.pc c = .lifoCell b f) :
    s.Follows x c a (.lifoCell b f) :=
  h.silent (Workers.ok_lifoCell h.ok hp) (Workers.base_idle hp rfl).symm
    (Workers.limit_at hp).symm (h.statusAt hp)

theorem Workers.Refines.lifoRead {q : Nat} (h : s.Refines x) (hp : s.pc c = .lifoRead b f q) :
    s.Follows x c a (.lifoRead b f q) := by
  have hst := h.statusAt hp
  have hown := (h.ok c).ownerAt hp
  obtain ⟨-, -, hfb, -⟩ : _ ∧ _ ∧ f ≤ b ∧ _ := hown.lifo
  refine h.silent (Workers.ok_lifoRead h.ok hp) ?_ ?_ ?_
  · rw [Worker.base_lifoPopped, Workers.base_idle hp rfl]
  · rw [hown.limit_lifoPopped, Workers.limit_at hp]
  · rw [Workers.StatusAt] at hst
    rw [Worker.lifoPopped]
    split
    · rename_i he
      rw [if_neg (by omega)] at hst
      exact hst
    · rename_i hne
      rw [if_pos (Nat.lt_of_le_of_ne hfb (Ne.symm hne))] at hst
      split
      · exact hst
      · exact hst

theorem Workers.Refines.lifoExchange (h : s.Refines x) (hp : s.pc c = .lifoExchange b y) :
    s.Follows x c a (.lifoExchange b y) := by
  obtain ⟨seen, hst⟩ : (x.status c).Calls .pop := h.statusAt hp
  have hown := (h.ok c).ownerAt hp
  obtain ⟨-, hle, hread⟩ : (s.worker c).back = b ∧ b ≤ (s.worker c).front ∧
    ((s.worker c).front = b → y = (s.worker c).shared.read b) := hown.lifo
  have hbase := Workers.base_idle hp rfl
  have hlimit : s.limit c = b + 1 := Workers.limit_at hp
  have hafter := Workers.ok_lifoExchange h.ok hp
  rw [Workers.Follows, Workers.occur, Workers.advance]
  by_cases hf : (s.worker c).front = b
  · rw [if_pos hf] at hafter
    rw [if_pos hf, if_pos hf]
    obtain ⟨rest, t, hq, ht, hrest⟩ := h.queue_snoc (v := c) (by omega)
    have hlifo : x.flavor c = .lifo := by
      rw [h.flavor]
      exact hown.fifo_ne rfl
    have hempty : (s.worker c).shared.window (s.worker c).front b = [] :=
      Buffer.window_of_le hf.ge
    refine ⟨_, .single (.takeLast x c t rest seen hst hlifo hq), ?_⟩
    refine (h.put hafter (.set x c c rest _) ?_ (fun u hu => ?_) ?_).setLate _
    · rw [AtomicDeques.queue_setStatus, AtomicDeques.queue_setQueue, hrest, hbase, hlimit]
      exact (Buffer.window_of_le le_rfl).trans hempty.symm
    · exact AtomicDeques.queue_setQueue_of_ne x rest hu
    · rw [Workers.StatusAt, AtomicDeques.status_setStatus]
      refine .inr ⟨t, rfl, ?_⟩
      rw [hread hf, ← ht, hlimit]
      rfl
  · rw [if_neg hf] at hafter
    rw [if_neg hf, if_neg hf]
    refine ⟨_, .single (.sawNone x c seen hst (h.queue_nil (by omega))), ?_⟩
    refine h.gotoStatus hafter hbase.symm hlimit.symm ?_
    rw [Workers.StatusAt, AtomicDeques.status_setStatus]
    exact .inl rfl

end lifo

section look

variable {q : Query} {r : Answer T} {op : Theft}

theorem Workers.Refines.queryBack (h : s.Refines x) (hp : s.pc c = .queryBack q) :
    s.Follows x c a (.queryBack q) := by
  have hafter := Workers.ok_advance (a := a) (c := c) h.ok (by rw [hp]; exact fun hal => by cases hal)
  rw [hp] at hafter
  exact h.silent hafter (Workers.base_idle hp rfl).symm (Workers.limit_at hp).symm (h.statusAt hp)

theorem Workers.Refines.queryFront (h : s.Refines x) (hp : s.pc c = .queryFront q b) :
    s.Follows x c a (.queryFront q b) := by
  obtain ⟨seen, hst⟩ : (x.status c).Calls (.query q) := h.statusAt hp
  have hb : b = (s.worker c).back := (h.ok c).thiefAt hp
  have hlen : (x.queue c).length = b - (s.worker c).front := by
    rw [h.length, Workers.base_idle hp rfl, Workers.limit_at hp, hb]
    rfl
  have hafter := Workers.ok_advance (a := a) (c := c) h.ok (by rw [hp]; exact fun hal => by cases hal)
  rw [hp] at hafter
  rw [Workers.Follows, Workers.occur, ← hlen]
  refine ⟨_, .single (.query x c q seen hst), ?_⟩
  refine h.gotoStatus hafter (Workers.base_idle hp rfl).symm (Workers.limit_at hp).symm ?_
  rw [Workers.StatusAt, AtomicDeques.status_setStatus, hlen]
  exact .inl rfl

theorem Workers.Refines.answer (h : s.Refines x) (hp : s.pc c = .answer r) :
    s.Follows x c a (.answer r) := by
  have hst : (x.status c).Answers r := h.statusAt hp
  have hafter := Workers.ok_advance (a := a) (c := c) h.ok (by rw [hp]; exact fun hal => by cases hal)
  rw [hp] at hafter
  have hland : (s.goto c (.own .idle)).Refines (x.setStatus c .idle) :=
    h.gotoStatus hafter (Workers.base_idle hp rfl).symm (Workers.limit_at hp).symm
      (AtomicDeques.status_setStatus x c _)
  obtain hst | ⟨t, hst, rfl⟩ := hst
  · exact ⟨_, .single (.leave x c r hst), hland⟩
  · exact ⟨_, .single (.leaveWith x c t hst), hland⟩

theorem Workers.Refines.raidFront (h : s.Refines x) (hp : s.pc c = .raidFront op v) :
    s.Follows x c a (.raidFront op v) := by
  obtain ⟨seen, hst⟩ : (x.status c).Calls (.steal op v) := h.statusAt hp
  have hafter := Workers.ok_raidFront h.ok hp
  refine ⟨_, .single (.look x c op v seen hst), ?_⟩
  refine h.gotoStatus hafter (Workers.base_idle hp rfl).symm (Workers.limit_at hp).symm ?_
  rw [Workers.StatusAt, AtomicDeques.status_setStatus]
  refine ⟨_, rfl, ?_⟩
  obtain hnil | hle := h.front_le_base (v := v)
  · left
    rw [hnil]
    rfl
  · right
    exact hle.trans (hafter.rely v).base

theorem Workers.Refines.raidBack (h : s.Refines x) (hp : s.pc c = .raidBack op v f) :
    s.Follows x c a (.raidBack op v f) := by
  obtain ⟨seen, hst, hseen⟩ : ∃ b, x.status c = .called (.steal op v) b ∧
    (b = true ∨ f ≤ s.base v) := h.statusAt hp
  have hbase := Workers.base_idle hp rfl
  have hlimit := Workers.limit_at hp
  have hafter := Workers.ok_raidBack h.ok hp
  rw [Workers.Follows, Workers.occur, Workers.advance]
  split
  · rename_i hle
    rw [if_pos hle] at hafter
    have hland : (s.goto c (.answer .empty)).Refines (x.setStatus c (.answered .empty)) := by
      refine h.gotoStatus hafter hbase.symm hlimit.symm ?_
      rw [Workers.StatusAt, AtomicDeques.status_setStatus]
      exact .inl rfl
    cases hb : seen with
    | true =>
      rw [hb] at hst
      exact ⟨_, .single (.sawEmpty x c op v true hst (.inl rfl)), hland⟩
    | false =>
      rw [hb] at hst hseen
      have hf : f ≤ s.base v := hseen.resolve_left Bool.false_ne_true
      obtain hnil | hlast := h.drained (hle.trans hf)
      · exact ⟨_, .single (.sawEmpty x c op v false hst (.inr hnil)), hland⟩
      · exact ⟨_, .single (.sawLast x c op v hst hlast), hland.setLate _⟩
  · rename_i hlt
    rw [if_neg hlt] at hafter
    split
    · rename_i hop
      rw [if_pos hop] at hafter
      exact h.silent hafter hbase.symm hlimit.symm ⟨seen, hst⟩
    · rename_i hop
      rw [if_neg hop, WorkerPc.reserve] at hafter
      rw [WorkerPc.reserve]
      split
      · rename_i hn
        rw [if_pos hn] at hafter
        exact h.silent hafter hbase.symm hlimit.symm ⟨seen, hst⟩
      · rename_i hn
        rw [if_neg hn] at hafter
        exact h.silent hafter hbase.symm hlimit.symm ⟨seen, hst⟩

end look

end Nacl
