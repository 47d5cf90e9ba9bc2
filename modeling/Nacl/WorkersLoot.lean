import Nacl.WorkersFollow

/-! Every access of a thief past its look at the victim's queue has events that the atomic queues
allow. -/

namespace Nacl

open Guarded Ring

variable {κ T : Type*}

section hand

variable {α : Type*} {hand : List α} {m j : Nat} {op : Theft}

theorem Theft.length_keeps (src : Flavor) (h : hand.length = op.skip + m) :
    (op.keeps src hand).2.length = m := by
  cases op with
  | batch => exact h.trans (Nat.zero_add m)
  | steal | batchAndPop =>
    have hlen : hand.length = 1 + m := h
    cases src with
    | fifo =>
      show hand.tail.length = m
      rw [List.length_tail]
      omega
    | lifo =>
      show hand.dropLast.length = m
      rw [List.length_dropLast]
      omega

theorem Theft.keeps_some (src : Flavor) (hop : op ≠ .batch) (h : hand.length = op.skip + m) :
    ∃ t, (op.keeps src hand).1 = some t := by
  have hpos : hand ≠ [] := by
    intro hnil
    have hskip : op.skip = 1 := by
      cases op with
      | batch => exact absurd rfl hop
      | steal | batchAndPop => rfl
    rw [hnil, List.length_nil] at h
    omega
  cases op with
  | batch => exact absurd rfl hop
  | steal | batchAndPop =>
    cases src with
    | fifo => exact ⟨hand.head hpos, List.head?_eq_some_head hpos⟩
    | lifo => exact ⟨hand.getLast hpos, List.getLast?_eq_some_getLast hpos⟩

theorem Theft.getElem?_keeps_fifo : (op.keeps .fifo hand).2[j]? = hand[op.skip + j]? := by
  cases op with
  | batch =>
    show hand[j]? = hand[0 + j]?
    rw [Nat.zero_add]
  | steal | batchAndPop =>
    show hand.tail[j]? = hand[1 + j]?
    rw [List.getElem?_tail, Nat.add_comm]

theorem Theft.length_deliver (src dest : Flavor) (h : hand.length = op.skip + m) :
    (op.deliver src dest hand).2.length = m := by
  rw [Theft.deliver]
  split
  · exact Theft.length_keeps src h
  · rw [List.length_reverse]
    exact Theft.length_keeps src h

/-- The tasks of a FIFO queue in the room that the thief reserved, in the order of its own
queue. -/
theorem Loot.holds_fifo {l : Loot κ T} {w : Worker T} {dest : Flavor} {hand : List T}
    (hlen : hand.length = l.op.skip + l.n) (htask : l.op ≠ .batch → l.task = hand[0]?)
    (hcopy : ∀ j, j < l.n → (w.heap l.dest).read (l.place dest j) = hand[l.op.skip + j]?) :
    Loot.Holds { l with m := l.n } w .fifo hand (l.op.deliver .fifo dest hand).2 where
  size := hlen
  task hop := by
    have hl : l.task = hand[0]? := htask hop
    show l.task = (l.op.keeps .fifo hand).1
    rw [hl]
    cases ho : l.op with
    | batch => exact absurd ho hop
    | steal | batchAndPop => exact List.head?_eq_getElem?.symm
  length := Theft.length_deliver _ _ hlen
  moved i hi := by
    have hi : i < l.n := hi
    show (w.heap l.dest).read (l.destB + i) = _
    cases dest with
    | fifo =>
      rw [Theft.deliver, if_pos rfl, Theft.getElem?_keeps_fifo]
      exact hcopy i hi
    | lifo =>
      have hkeeps := Theft.length_keeps .fifo hlen
      rw [Theft.deliver, if_neg (by decide), List.getElem?_reverse (by omega), hkeeps,
        Theft.getElem?_keeps_fifo, ← hcopy (l.n - 1 - i) (by omega)]
      have hplace : l.place .lifo (l.n - 1 - i) = l.destB + i := by
        show l.destB + (l.n - 1 - (l.n - 1 - i)) = l.destB + i
        omega
      rw [hplace]

end hand

section leave

variable {s : Workers κ T} {x : AtomicDeques κ T} {c : κ} {l : Loot κ T} {hand : List T}

theorem Loot.Holds.turned {w : Worker T} (h : l.Holds w .lifo hand (l.op.keeps .lifo hand).2) :
    l.Turned w hand 0 where
  size := h.size
  task := h.task
  length := h.length
  le := Nat.zero_le _
  moved i hi := by
    have hmirror : mirror l.m 0 i = i := if_neg (by omega)
    rw [hmirror]
    exact h.moved i hi

/-- Where the call of a thief is when it has left the loop with tasks. -/
theorem Workers.statusAt_finish (hv : s.flavor l.victim = .lifo) (hg : ¬l.GivesUp)
    (hst : x.status c = .holding l.op l.victim hand)
    (hk : l.Holds (s.worker c) .lifo hand (l.op.keeps .lifo hand).2) :
    s.StatusAt x c (l.finish (s.flavor c)) := by
  rw [Loot.finish.eq_def, if_neg hg]
  cases hfl : s.flavor c with
  | fifo => exact ⟨hand, hst, hk.turned⟩
  | lifo =>
    refine ⟨hand, hst, ?_⟩
    rw [hv, hfl, Theft.deliver, if_pos rfl]
    exact hk

theorem Workers.statusAt_again (hv : s.flavor l.victim = .lifo) (hg : ¬l.GivesUp)
    (hst : x.status c = .holding l.op l.victim hand)
    (hk : l.Holds (s.worker c) .lifo hand (l.op.keeps .lifo hand).2) :
    s.StatusAt x c (l.again (s.flavor c)) := by
  rw [Loot.again]
  split
  · exact Workers.statusAt_finish hv hg hst hk
  · rw [Workers.StatusAt, WorkStatus.Robs, if_neg hg]
    exact ⟨hand, hst, hk⟩

/-- The task that a thief held before is the next one that it moves, or the task that it
took. -/
theorem Theft.keeps_lifo_snoc {α : Type*} {op : Theft} (hand : List α) (t : α) (hop : op ≠ .steal) :
    (op = .batch ∧ op.keeps .lifo (hand ++ [t]) = (none, (op.keeps .lifo hand).2 ++ [t])) ∨
      (op = .batchAndPop ∧ op.keeps .lifo (hand ++ [t]) = (some t, hand)) := by
  cases op with
  | steal => exact absurd rfl hop
  | batch => exact .inl ⟨rfl, rfl⟩
  | batchAndPop =>
    refine .inr ⟨rfl, ?_⟩
    rw [Theft.keeps, List.getLast?_concat, List.dropLast_concat]

theorem Loot.Holds.moved_snoc {w w' : Worker T} {t : T}
    (h : l.Holds w .lifo hand (l.op.keeps .lifo hand).2) (hop : l.op ≠ .steal)
    (hnew : (w'.heap l.dest).read (l.destB + l.m) = l.write (some t))
    (hold : ∀ j, j < l.m →
      (w'.heap l.dest).read (l.destB + j) = (w.heap l.dest).read (l.destB + j)) :
    (l.moved (some t)).Holds w' .lifo (hand ++ [t]) (l.op.keeps .lifo (hand ++ [t])).2 := by
  have hsize : hand.length = l.op.skip + l.m := h.size
  have hlen : (hand ++ [t]).length = l.op.skip + (l.m + 1) := by
    rw [List.length_append, hsize, List.length_singleton, Nat.add_assoc]
  refine ⟨hlen, fun hb => ?_, Theft.length_keeps .lifo hlen, fun j hj => ?_⟩
  · obtain ⟨hb', -⟩ | ⟨hb', hkeeps⟩ := Theft.keeps_lifo_snoc hand t hop
    · exact absurd hb' hb
    · show (if l.op = .batch then l.task else some t) = (l.op.keeps .lifo (hand ++ [t])).1
      rw [hkeeps, if_neg (by rw [hb']; decide)]
  · show (w'.heap l.dest).read (l.destB + j) = _
    obtain hj | rfl := Nat.lt_succ_iff_lt_or_eq.mp (show j < l.m + 1 from hj)
    · rw [hold j hj, h.moved j hj]
      obtain ⟨-, hkeeps⟩ | ⟨hb', hkeeps⟩ := Theft.keeps_lifo_snoc hand t hop
      · rw [hkeeps, List.getElem?_append_left (by rw [h.length]; exact hj)]
      · rw [hkeeps, hb']
        show hand.dropLast[j]? = hand[j]?
        have hskip : l.op.skip = 1 := by
          rw [hb']
          rfl
        rw [List.dropLast_eq_take, List.getElem?_take_of_lt (by omega)]
    · rw [hnew, Loot.write]
      obtain ⟨hb', hkeeps⟩ | ⟨hb', hkeeps⟩ := Theft.keeps_lifo_snoc hand t hop
      · rw [hkeeps, if_pos hb', ← h.length, List.getElem?_concat_length]
      · have hskip : l.op.skip = 1 := by
          rw [hb']
          rfl
        rw [hkeeps, if_neg (by rw [hb']; decide), h.task (by rw [hb']; decide), hb']
        show hand.getLast? = hand[l.m]?
        rw [List.getLast?_eq_getElem?, hsize, hskip, Nat.add_sub_cancel_left]

end leave

variable [DecidableEq κ] {s : Workers κ T} {x : AtomicDeques κ T} {c v : κ} {p : WorkPc κ T}
  {a f i : Nat}

section raid

variable {k j : Raid κ} {l : Loot κ T} {m n : Nat} {y : Option T}

/-- A thief with reserved room goes on to `p` and its call to `st`, with the queues as they
are. -/
theorem Workers.Refines.pass (st : WorkStatus κ T) (h : s.Refines x) (ha : (s.goto c p).After s)
    (hp : (s.pc c).owner = .reserved n k) (hp' : p.owner = .reserved m j ∨ p.Resting)
    (hc : (s.goto c p).StatusAt (x.setStatus c st) c p) :
    (s.goto c p).Refines (x.setStatus c st) := by
  have hbase : s.base c = (s.worker c).front := by
    rw [Workers.base, hp]
    rfl
  have hlimit : s.limit c = (s.worker c).back := WorkPc.limit_of_reserved hp _
  obtain hr | hr := hp'
  · refine h.gotoStatus ha ?_ ?_ hc
    · rw [hr, hbase]
      rfl
    · rw [WorkPc.limit_of_reserved hr, hlimit]
  · refine h.gotoStatus ha ?_ ?_ hc
    · rw [hr.owner, hbase]
      rfl
    · rw [hr.limit, hlimit]

theorem AtomicDeques.setStatus_settle (st st' : WorkStatus κ T) :
    ((x.setStatus c st).settle v).setStatus c st' = (x.setStatus c st').settle v :=
  congrArg (AtomicDeques.settle · v) (AtomicDeques.setStatus_setStatus st st')

theorem AtomicDeques.setStatus_self : x.setStatus c (x.status c) = x := by
  rw [AtomicDeques.setStatus, Function.update_eq_self]

/-- A thief with reserved room goes on, and the others do not see it. -/
theorem Workers.Refines.quiet (h : s.Refines x) (ha : (s.goto c p).After s)
    (hp : (s.pc c).owner = .reserved n k) (hp' : p.owner = .reserved m j)
    (hc : (s.goto c p).StatusAt x c p) :
    ∃ y, Trace AtomicDeques.Step x [] y ∧ (s.goto c p).Refines y := by
  have hpass := h.pass (x.status c) ha hp (.inl hp')
  rw [AtomicDeques.setStatus_self] at hpass
  exact ⟨x, .nil x, hpass hc⟩

/-- A thief that stole nothing is to try again. -/
theorem Workers.Refines.retry {op : Theft} (h : s.Refines x) (ha : (s.goto c (.answer .retry)).After s)
    (hp : (s.pc c).owner = .reserved n k) (hst : (x.status c).Calls (.steal op v)) :
    ∃ y, Trace AtomicDeques.Step x [.sawRetry c] y ∧ (s.goto c (.answer .retry)).Refines y := by
  obtain ⟨seen, hst⟩ := hst
  refine ⟨_, .single (.sawRetry x c op v seen hst), ?_⟩
  refine h.pass _ ha hp (m := n) (j := k) (.inr (WorkPc.resting_answer _)) ?_
  rw [Workers.StatusAt, AtomicDeques.status_setStatus]
  exact .inl rfl

/-- A write into the room that `c` reserved. -/
theorem Workers.Refines.write {w : Worker T} (h : s.Refines x)
    (ha : ((s.put c w).goto c p).After s) (hp : (s.pc c).owner = .reserved n k)
    (hp' : p.owner = .reserved m j) (hfront : w.front = (s.worker c).front)
    (hback : w.back = (s.worker c).back) (hc : ((s.put c w).goto c p).StatusAt x c p) :
    ∃ y, Trace AtomicDeques.Step x [] y ∧ ((s.put c w).goto c p).Refines y := by
  refine ⟨x, .nil x, h.put ha (.refl x c) ?_ (fun _ _ => rfl) hc⟩
  have hagree := (ha.rely c).shared.window
  rw [Workers.worker_goto, Workers.worker_put_self, hp, WorkPc.limit_of_reserved hp] at hagree
  have hq := h.queue c
  rw [Workers.contents, Workers.base, Workers.limit, hp, WorkPc.limit_of_reserved hp] at hq
  rw [hp', WorkPc.limit_of_reserved hp', hback, ← hq, ← hagree]
  show w.shared.window w.front _ = w.shared.window (s.worker c).front _
  rw [hfront]

theorem Workers.Refines.raidDest {dest : Nat} (h : s.Refines x) (hp : s.pc c = .raidDest k dest) :
    s.Follows x c a (.raidDest k dest) :=
  h.quiet (n := k.n) (k := k) (m := k.n) (j := k) (Workers.ok_raidDest h.ok hp) (by rw [hp]; rfl)
    rfl (h.statusAt hp)

theorem Workers.Refines.raidBuffer {dest destB : Nat} (h : s.Refines x)
    (hp : s.pc c = .raidBuffer k dest destB) : s.Follows x c a (.raidBuffer k dest destB) := by
  have hst : (x.status c).Calls (.steal k.op k.victim) := h.statusAt hp
  have howner : (s.pc c).owner = .reserved k.n k := by rw [hp]; rfl
  have hafter := Workers.ok_raidBuffer h.ok hp
  rw [Workers.Follows, Workers.advance]
  split
  · rename_i hop
    rw [if_pos hop] at hafter
    cases hfl : s.flavor k.victim with
    | fifo =>
      rw [hfl] at hafter
      exact h.quiet hafter howner (m := k.n) (j := k) rfl hst
    | lifo =>
      rw [hfl] at hafter
      refine h.quiet hafter howner (m := k.n) (j := k) rfl ?_
      have hgives : Loot.GivesUp
          (⟨k, dest, destB, (s.worker k.victim).inner, none, 0⟩ : Loot κ T) := ⟨hop, rfl⟩
      rw [Workers.StatusAt, WorkStatus.Robs, if_pos hgives]
      exact hst
  · rename_i hop
    rw [if_neg hop] at hafter
    exact h.quiet hafter howner (m := k.n) (j := k) rfl hst

theorem Workers.Refines.raidTask (h : s.Refines x) (hp : s.pc c = .raidTask l) :
    s.Follows x c a (.raidTask l) := by
  have hst : (x.status c).Calls (.steal l.op l.victim) := h.statusAt hp
  have howner : (s.pc c).owner = .reserved l.n l.toRaid := by rw [hp]; rfl
  have hafter := Workers.ok_raidTask h.ok hp
  rw [Workers.Follows, Workers.advance]
  split
  · rename_i hl
    rw [if_pos hl] at hafter
    exact h.quiet hafter howner (m := l.n) (j := l.toRaid) rfl hst
  · rename_i hl
    rw [if_neg hl] at hafter
    exact h.quiet hafter howner (m := l.n) (j := l.toRaid) rfl hst

theorem Workers.Refines.raidRead (h : s.Refines x) (hp : s.pc c = .raidRead l i) :
    s.Follows x c a (.raidRead l i) := by
  have hst : (x.status c).Calls (.steal l.op l.victim) := h.statusAt hp
  have howner : (s.pc c).owner = .reserved l.n l.toRaid := by rw [hp]; rfl
  have hafter := Workers.ok_raidRead h.ok hp
  rw [Workers.Follows, Workers.advance]
  split
  · rename_i hi
    rw [if_pos hi] at hafter
    exact h.quiet hafter howner (m := l.n) (j := l.toRaid) rfl hst
  · rename_i hi
    rw [if_neg hi] at hafter
    exact h.quiet hafter howner (m := l.n) (j := l.toRaid) rfl hst

theorem Workers.Refines.raidWrite (h : s.Refines x) (hp : s.pc c = .raidWrite l i y) :
    s.Follows x c a (.raidWrite l i y) :=
  h.write (n := l.n) (k := l.toRaid) (m := l.n) (j := l.toRaid) (Workers.ok_raidWrite h.ok hp)
    (by rw [hp]; rfl) rfl rfl rfl (h.statusAt hp)

theorem Workers.Refines.raidCheck (h : s.Refines x) (hp : s.pc c = .raidCheck l) :
    s.Follows x c a (.raidCheck l) := by
  have hst : (x.status c).Calls (.steal l.op l.victim) := h.statusAt hp
  have howner : (s.pc c).owner = .reserved l.n l.toRaid := by rw [hp]; rfl
  have hafter := Workers.ok_raidCheck h.ok hp
  rw [Workers.Follows, Workers.occur, Workers.advance]
  split
  · rename_i hin
    rw [if_pos hin] at hafter
    exact h.retry hafter howner hst
  · rename_i hin
    rw [if_neg hin] at hafter
    exact h.quiet hafter howner (m := l.n) (j := l.toRaid) rfl hst

theorem Workers.Refines.steal {op : Theft} (hand : List T) (h : s.Refines x) (hr : s.Reach v f n)
    (hf : (s.worker v).front = f)
    (hst : (∃ b, x.status c = .called (.steal op v) b ∧ hand = []) ∨
      x.status c = .holding op v hand ∧ x.flavor v = .lifo ∧ n = 1)
    (hmax : hand.length + n ≤ maxBatch) (hlate : x.InTime c v) :
    AtomicDeques.Step x (.stole c n) (((x.setQueue v ((x.queue v).drop n)).setStatus c
      (.holding op v (hand ++ (x.queue v).take n))).settle v) := by
  obtain ⟨hlen, hpos, hhalf, -⟩ := h.queue_take hr hf
  have hstep := AtomicDeques.Step.steal x c op v hand ((x.queue v).take n) ((x.queue v).drop n)
  rw [hlen, List.length_append, hlen] at hstep
  exact hstep hst (List.take_append_drop n _).symm hpos hhalf hmax hlate

/-- A thief with reserved room moves `front` past the `n` oldest tasks, and its call goes on to
`st`. -/
theorem Workers.Refines.move {st : WorkStatus κ T} (h : s.Refines x)
    (ha : ((s.put v { s.worker v with front := f + n }).goto c p).After s)
    (hr : s.Reach v f n) (hf : (s.worker v).front = f) (hp : (s.pc c).owner = .reserved i k)
    (hp' : p.owner = .reserved m j ∨ p.Resting)
    (hc : ((s.put v { s.worker v with front := f + n }).goto c p).StatusAt
      ((x.setQueue v ((x.queue v).drop n)).setStatus c st) c p) :
    ((s.put v { s.worker v with front := f + n }).goto c p).Refines
      (((x.setQueue v ((x.queue v).drop n)).setStatus c st).settle v) := by
  have hplace : ∀ w : Worker T, w.base p.owner = w.front ∧ w.limit p = w.limit (s.pc c) := by
    intro w
    rw [WorkPc.limit_of_reserved hp]
    obtain hr | hr := hp'
    · rw [hr, WorkPc.limit_of_reserved hr]
      exact ⟨rfl, rfl⟩
    · rw [hr.owner, hr.limit]
      exact ⟨rfl, rfl⟩
  refine (h.exchange ha hr hf hplace (.set x c v _ st) ?_ (fun u hu => ?_) ?_ hc).setLate _
  · rw [AtomicDeques.queue_setStatus, AtomicDeques.queue_setQueue]
  · exact AtomicDeques.queue_setQueue_of_ne x _ hu
  · rw [Workers.base, hp]
    rfl

theorem Theft.deliver_steal {α : Type*} (src dest : Flavor) (t : α) :
    Theft.deliver src dest [t] .steal = (some t, []) := by
  cases src <;> cases dest <;> rfl

/-- `steal` returns the task that it took. -/
theorem AtomicDeques.trace_steal {op : Theft} {t : T} {rest : List T} (hop : op = .steal)
    (h : AtomicDeques.Step x (.stole c n)
      (((x.setQueue v rest).setStatus c (.holding op v [t])).settle v)) :
    Trace AtomicDeques.Step x [.stole c n, .arrived c []]
      (((x.setQueue v rest).setStatus c (.answered (.success (some (some t))))).settle v) := by
  subst hop
  have harrive := AtomicDeques.Step.arrive
    (((x.setQueue v rest).setStatus c (.holding .steal v [t])).settle v) c .steal v [t]
    (AtomicDeques.status_setStatus _ c _)
  rw [Theft.deliver_steal, List.append_nil, AtomicDeques.setQueue_self,
    AtomicDeques.setStatus_settle] at harrive
  exact .cons h (.single harrive)

theorem Workers.Refines.raidExchange (h : s.Refines x) (hp : s.pc c = .raidExchange l)
    (hlate : x.InTime c l.victim) : s.Follows x c a (.raidExchange l) := by
  have hst : (x.status c).Calls (.steal l.op l.victim) := h.statusAt hp
  obtain ⟨seen, hseen⟩ := hst
  obtain ⟨hk, honce, hcopy⟩ := (h.ok c).thiefAt hp
  have howner : (s.pc c).owner = .reserved l.n l.toRaid := by rw [hp]; rfl
  have hreach : s.Reach l.victim l.f (l.op.skip + l.n) := by
    rw [← Raid.span_atOnce hk.raid honce]
    exact hk.found
  have hafter := Workers.ok_raidExchange h.ok hp
  rw [Workers.Follows, Workers.occur, Workers.advance]
  by_cases hf : (s.worker l.victim).front = l.f
  · rw [if_pos hf] at hafter
    rw [if_pos hf, if_pos hf]
    have hsteal := h.steal [] hreach hf (.inl ⟨seen, hseen, rfl⟩)
      ((Nat.zero_add _).trans_le hk.raid.few) hlate
    rw [List.nil_append] at hsteal
    obtain ⟨hlen, hpos, -, hread⟩ := h.queue_take hreach hf
    obtain ⟨htask, hcopied⟩ := hcopy (hreach.base_eq (h.ok l.victim).owner hf).le
    have htask' : l.op ≠ .batch → l.task = ((x.queue l.victim).take (l.op.skip + l.n))[0]? := by
      intro hop
      rw [htask hop, ← hread 0 hpos, Nat.add_zero]
    by_cases hop : l.op = .steal
    · rw [if_pos hop] at hafter
      rw [if_pos hop, if_pos hop]
      have hone : ((x.queue l.victim).take (l.op.skip + l.n)).length = 1 := by
        rw [hlen, hk.raid.single hop, hop]
        rfl
      obtain ⟨t, ht⟩ := List.length_eq_one_iff.mp hone
      rw [ht] at hsteal htask'
      have hne : l.op ≠ .batch := by
        rw [hop]
        decide
      refine ⟨_, AtomicDeques.trace_steal hop hsteal, h.move hafter hreach hf howner (m := l.n)
        (j := l.toRaid) (.inr (WorkPc.resting_answer _)) ?_⟩
      rw [Workers.StatusAt, AtomicDeques.status_setStatus, Loot.answer, if_neg hne, htask' hne]
      exact .inl rfl
    · rw [if_neg hop] at hafter
      rw [if_neg hop, if_neg hop]
      have hfifo : s.flavor l.victim = .fifo := honce.resolve_right hop
      refine ⟨_, .single hsteal, h.move hafter hreach hf howner (.inl rfl) ?_⟩
      rw [Workers.StatusAt, AtomicDeques.status_setStatus]
      refine ⟨_, rfl, ?_⟩
      have hworker : ((s.put l.victim { s.worker l.victim with
          front := l.f + (l.op.skip + l.n) }).goto c (.lootStore { l with m := l.n })).worker c =
          s.worker c := Workers.worker_put_of_ne _ (hk.raid.foreign hop).symm
      rw [hworker, Workers.flavor_goto, Workers.flavor_put, hfifo]
      refine Loot.holds_fifo hlen htask' (fun j hj => ?_)
      rw [hcopied j hj, Nat.add_assoc]
      exact hread (l.op.skip + j) (by omega)
  · rw [if_neg hf] at hafter
    rw [if_neg hf, if_neg hf]
    exact h.retry hafter howner ⟨seen, hseen⟩

end raid

section loop

variable {l : Loot κ T} {y : Option T}

/-- A thief leaves the loop. -/
theorem Workers.Refines.finish (h : s.Refines x) (hp : (s.pc c).owner = .reserved l.n l.toRaid)
    (ha : (s.goto c (l.finish (s.flavor c))).After s) (hv : s.flavor l.victim = .lifo)
    (hst : (x.status c).Robs (s.worker c) l) :
    ∃ y, Trace AtomicDeques.Step x (if l.GivesUp then [.sawRetry c] else []) y ∧
      (s.goto c (l.finish (s.flavor c))).Refines y := by
  rw [WorkStatus.Robs] at hst
  obtain ho | ⟨hg, ho⟩ := l.owner_finish (s.flavor c)
  · have hg : ¬l.GivesUp := by
      intro hg
      rw [Loot.finish.eq_def, if_pos hg] at ho
      cases ho
    rw [if_neg hg] at hst ⊢
    obtain ⟨hand, hst, hk⟩ := hst
    exact h.quiet ha hp ho (Workers.statusAt_finish (s := s.goto c _) hv hg hst hk)
  · rw [if_pos hg] at hst ⊢
    rw [ho] at ha ⊢
    exact h.retry ha hp hst

theorem Workers.Refines.lootBack (h : s.Refines x) (hp : s.pc c = .lootBack l) :
    s.Follows x c a (.lootBack l) := by
  have hst : (x.status c).Robs (s.worker c) l := h.statusAt hp
  have hk : l.Loop s c := (h.ok c).thiefAt hp
  have howner : (s.pc c).owner = .reserved l.n l.toRaid := by rw [hp]; rfl
  have hafter := Workers.ok_lootBack h.ok hp
  rw [Workers.Follows, Workers.occur, Workers.advance]
  by_cases hle : (s.worker l.victim).back ≤ l.f
  · rw [if_pos hle] at hafter
    simp only [hle, true_and, if_true]
    exact h.finish howner hafter hk.flavor hst
  · rw [if_neg hle] at hafter
    simp only [hle, false_and, if_false]
    exact h.quiet hafter howner (m := l.n) (j := l.toRaid) rfl hst

theorem Workers.Refines.lootRead (h : s.Refines x) (hp : s.pc c = .lootRead l) :
    s.Follows x c a (.lootRead l) :=
  h.quiet (n := l.n) (k := l.toRaid) (m := l.n) (j := l.toRaid) (Workers.ok_lootRead h.ok hp)
    (by rw [hp]; rfl) rfl (h.statusAt hp)

theorem Workers.Refines.lootCheck (h : s.Refines x) (hp : s.pc c = .lootCheck l y) :
    s.Follows x c a (.lootCheck l y) := by
  have hst : (x.status c).Robs (s.worker c) l := h.statusAt hp
  obtain ⟨hk, -⟩ := (h.ok c).thiefAt hp
  have howner : (s.pc c).owner = .reserved l.n l.toRaid := by rw [hp]; rfl
  have hafter := Workers.ok_lootCheck h.ok hp
  rw [Workers.Follows, Workers.occur, Workers.advance]
  by_cases hin : (s.worker l.victim).inner ≠ l.buffer
  · rw [if_pos hin] at hafter
    have hfinish := h.finish howner hafter hk.flavor hst
    simpa only [hin, ne_eq, not_false_eq_true, true_and, if_true] using hfinish
  · rw [if_neg hin] at hafter
    rw [if_neg fun hg => hin hg.1, if_neg hin]
    exact h.quiet hafter howner (m := l.n) (j := l.toRaid) rfl hst

/-- `steal_batch_and_pop` takes the first task of a LIFO queue. -/
theorem Workers.Refines.lootFirst (h : s.Refines x) (hp : s.pc c = .lootFirst l)
    (hlate : x.InTime c l.victim) : s.Follows x c a (.lootFirst l) := by
  have hst : (x.status c).Calls (.steal l.op l.victim) := h.statusAt hp
  obtain ⟨seen, hseen⟩ := hst
  obtain ⟨hk, hop, hlifo, hcopy⟩ := (h.ok c).thiefAt hp
  have howner : (s.pc c).owner = .reserved l.n l.toRaid := by rw [hp]; rfl
  have hne : l.op ≠ .steal := by
    rw [hop]
    decide
  have hreach : s.Reach l.victim l.f 1 := by
    have hf := hk.found
    rw [Workers.Found, hlifo] at hf
    exact hf
  have hafter := Workers.ok_lootFirst h.ok hp
  rw [Workers.Follows, Workers.occur, Workers.advance]
  by_cases hf : (s.worker l.victim).front = l.f
  · rw [if_pos hf] at hafter
    rw [if_pos hf, if_pos hf]
    have hsteal := h.steal [] hreach hf (.inl ⟨seen, hseen, rfl⟩)
      (show 0 + 1 ≤ maxBatch by decide) hlate
    rw [List.nil_append] at hsteal
    obtain ⟨hlen, hpos, -, hread⟩ := h.queue_take hreach hf
    obtain ⟨t, ht⟩ := List.length_eq_one_iff.mp hlen
    obtain ⟨htask, -⟩ := hcopy (hreach.base_eq (h.ok l.victim).owner hf).le
    rw [ht] at hsteal hread
    have hgoes : ¬Loot.GivesUp { l with f := l.f + 1 } := fun hg => by
      have hb : l.op = .batch := hg.1
      rw [hop] at hb
      cases hb
    refine ⟨_, .single hsteal, h.move hafter hreach hf howner
      (.inl (Loot.owner_again { l with f := l.f + 1 } (s.flavor c) hgoes)) ?_⟩
    have hworker : ∀ q, ((s.put l.victim { s.worker l.victim with front := l.f + 1 }).goto c
        q).worker c = s.worker c :=
      fun q => Workers.worker_put_of_ne _ (hk.raid.foreign hne).symm
    refine Workers.statusAt_again (l := { l with f := l.f + 1 }) hlifo hgoes
      (AtomicDeques.status_setStatus _ c _) ?_
    have hkeeps : l.op.keeps .lifo [t] = (some t, []) := by
      rw [hop]
      rfl
    have hskip : l.op.skip = 1 := by
      rw [hop]
      rfl
    refine ⟨?_, fun _ => ?_, ?_, fun i hi => ?_⟩
    · show 1 = l.op.skip + l.m
      rw [hskip, hk.none]
    · show l.task = (l.op.keeps .lifo [t]).1
      rw [hkeeps, htask (by rw [hop]; decide)]
      exact hread 0 Nat.one_pos
    · show (l.op.keeps .lifo [t]).2.length = l.m
      rw [hkeeps, hk.none]
      rfl
    · have hi : i < l.m := hi
      rw [hk.none] at hi
      exact absurd hi (Nat.not_lt_zero i)
  · rw [if_neg hf] at hafter
    rw [if_neg hf, if_neg hf]
    exact h.retry hafter howner ⟨seen, hseen⟩

theorem Workers.Refines.lootExchange (h : s.Refines x) (hp : s.pc c = .lootExchange l y)
    (hlate : x.InTime c l.victim) : s.Follows x c a (.lootExchange l y) := by
  have hst : (x.status c).Robs (s.worker c) l := h.statusAt hp
  obtain ⟨hk, hy⟩ := (h.ok c).thiefAt hp
  have howner : (s.pc c).owner = .reserved l.n l.toRaid := by rw [hp]; rfl
  have hafter := Workers.ok_lootExchange h.ok hp
  have hfew := hk.raid.few
  have hmore := hk.more
  rw [Workers.Follows, Workers.occur, Workers.advance]
  by_cases hf : (s.worker l.victim).front = l.f
  · rw [if_pos hf] at hafter
    rw [if_pos hf, if_pos hf]
    obtain ⟨hand, hcall, hholds⟩ : ∃ hand, ((∃ b, x.status c = .called (.steal l.op l.victim) b ∧
        hand = []) ∨ x.status c = .holding l.op l.victim hand ∧ x.flavor l.victim = .lifo ∧ 1 = 1) ∧
        l.Holds (s.worker c) .lifo hand (l.op.keeps .lifo hand).2 := by
      rw [WorkStatus.Robs] at hst
      by_cases hg : l.GivesUp
      · rw [if_pos hg] at hst
        obtain ⟨b, hb⟩ := hst
        refine ⟨[], .inl ⟨b, hb, rfl⟩, ?_, fun hop => absurd hg.1 hop, ?_, fun j hj => ?_⟩
        · rw [hg.1, hg.2]
          rfl
        · rw [hg.1, hg.2]
          rfl
        · rw [hg.2] at hj
          exact absurd hj (Nat.not_lt_zero j)
      · rw [if_neg hg] at hst
        obtain ⟨hand, hst, hholds⟩ := hst
        refine ⟨hand, .inr ⟨hst, ?_, rfl⟩, hholds⟩
        rw [h.flavor]
        exact hk.flavor
    have hsize := hholds.size
    have hsteal := h.steal hand hk.reach hf hcall (by omega) hlate
    obtain ⟨hlen, hpos, -, hread⟩ := h.queue_take hk.reach hf
    obtain ⟨t, ht⟩ := List.length_eq_one_iff.mp hlen
    rw [ht] at hsteal hread
    have hyt : y = some t := by
      rw [hy (hk.reach.base_eq (h.ok l.victim).owner hf).le]
      exact hread 0 Nat.one_pos
    have hworker : ∀ q, ((s.put l.victim { s.worker l.victim with front := l.f + 1 }).goto c
        q).worker c = s.worker c :=
      fun q => Workers.worker_put_of_ne _ (hk.raid.foreign hk.op).symm
    refine ⟨_, .single hsteal, h.move hafter hk.reach hf howner (m := l.n)
      (j := { l.toRaid with f := l.f + 1 }) (.inl rfl) ?_⟩
    rw [Workers.StatusAt, AtomicDeques.status_setStatus, hworker]
    exact ⟨hand, t, rfl, hyt, hholds.size, hholds.task, hholds.length, hholds.moved⟩
  · rw [if_neg hf] at hafter
    rw [if_neg hf, if_neg hf]
    exact h.finish howner hafter hk.flavor hst

theorem Workers.Refines.lootWrite (h : s.Refines x) (hp : s.pc c = .lootWrite l y) :
    s.Follows x c a (.lootWrite l y) := by
  obtain ⟨hand, t, hst, rfl, hholds⟩ := h.statusAt hp
  have hk : l.Loop s c := (h.ok c).thiefAt hp
  have howner : (s.pc c).owner = .reserved l.n l.toRaid := by rw [hp]; rfl
  obtain ⟨hdest, hdestB⟩ := hk.dest hk.op
  have hgoes : ¬(l.moved (some t)).GivesUp := fun hg => absurd hg.2 (Nat.succ_ne_zero l.m)
  refine h.write (Workers.ok_lootWrite h.ok hp) howner
    ((l.moved (some t)).owner_again (s.flavor c) hgoes) rfl rfl ?_
  refine Workers.statusAt_again (l := l.moved (some t)) hk.flavor hgoes hst ?_
  refine hholds.moved_snoc hk.op ?_ (fun j hj => ?_)
  · rw [Workers.worker_goto, Workers.worker_put_self, Worker.heap_write_self,
      Buffer.read_write_self]
  · rw [Workers.worker_goto, Workers.worker_put_self, hdest, hdestB]
    exact Worker.read_reserved ((h.ok c).owner.reserved howner) hk.more (hj.trans hk.more) hj.ne

end loop

section turn

variable {l : Loot κ T} {y z : Option T}

theorem Workers.Refines.swapFirst (h : s.Refines x) (hp : s.pc c = .swapFirst l i) :
    s.Follows x c a (.swapFirst l i) := by
  obtain ⟨hand, hst, hturned⟩ := h.statusAt hp
  have hk : l.Turns s c := (h.ok c).thiefAt hp
  have howner : (s.pc c).owner = .reserved l.n l.toRaid := by rw [hp]; rfl
  have hafter := Workers.ok_swapFirst h.ok hp
  have hle := hturned.le
  rw [Workers.Follows, Workers.advance]
  split
  · rename_i hi
    rw [if_pos hi] at hafter
    refine h.quiet hafter howner (m := l.n) (j := l.toRaid) rfl ⟨hand, hst, hturned, ?_⟩
    have hmirror : mirror l.m i i = i := if_neg (by omega)
    rw [hturned.moved i (by omega), hmirror]
  · rename_i hi
    rw [if_neg hi] at hafter
    refine h.quiet hafter howner (m := l.n) (j := l.toRaid) rfl ⟨hand, hst, ?_⟩
    rw [Workers.flavor_goto, hk.victim, hk.flavor]
    refine ⟨hturned.size, hturned.task, Theft.length_deliver _ _ hturned.size, fun j hj => ?_⟩
    have hlen := hturned.length
    have hmirror : mirror l.m i j = l.m - 1 - j := by
      rw [mirror]
      split
      · rfl
      · omega
    rw [Theft.deliver, if_neg (by decide), List.getElem?_reverse (by omega), hlen, ← hmirror]
    exact hturned.moved j hj

theorem Workers.Refines.swapLast (h : s.Refines x) (hp : s.pc c = .swapLast l i y) :
    s.Follows x c a (.swapLast l i y) := by
  obtain ⟨hand, hst, hturned, hy⟩ := h.statusAt hp
  obtain ⟨-, hi⟩ := (h.ok c).thiefAt hp
  refine h.quiet (n := l.n) (k := l.toRaid) (m := l.n) (j := l.toRaid)
    (Workers.ok_swapLast h.ok hp) (by rw [hp]; rfl) rfl ⟨hand, hst, hturned, hy, ?_⟩
  have hmirror : mirror l.m i (l.m - 1 - i) = l.m - 1 - i := if_neg (by omega)
  rw [hturned.moved (l.m - 1 - i) (by omega), hmirror]

theorem Workers.Refines.swapStore (h : s.Refines x) (hp : s.pc c = .swapStore l i y z) :
    s.Follows x c a (.swapStore l i y z) := by
  obtain ⟨hand, hst, hturned, hy, hz⟩ := h.statusAt hp
  obtain ⟨hk, hi⟩ := (h.ok c).thiefAt hp
  have howner : (s.pc c).owner = .reserved l.n l.toRaid := by rw [hp]; rfl
  obtain ⟨hdest, hdestB⟩ := hk.dest hk.op
  have hle := hk.le
  refine h.write (m := l.n) (j := l.toRaid) (Workers.ok_swapStore h.ok hp) howner rfl rfl rfl
    ⟨hand, hst, hy, hturned.size, hturned.task, hturned.length, fun j hj => ?_⟩
  rw [Workers.worker_goto, Workers.worker_put_self]
  by_cases hji : j = i
  · subst hji
    rw [if_pos rfl, Worker.heap_write_self, Buffer.read_write_self, hz]
  · rw [if_neg hji, ← hturned.moved j hj, hdest, hdestB]
    exact Worker.read_reserved ((h.ok c).owner.reserved howner) (by omega) (by omega) hji

theorem Workers.Refines.swapStored (h : s.Refines x) (hp : s.pc c = .swapStored l i y) :
    s.Follows x c a (.swapStored l i y) := by
  obtain ⟨hand, hst, hy, hsize, htask, hlen, hmoved⟩ := h.statusAt hp
  obtain ⟨hk, hi⟩ := (h.ok c).thiefAt hp
  have howner : (s.pc c).owner = .reserved l.n l.toRaid := by rw [hp]; rfl
  obtain ⟨hdest, hdestB⟩ := hk.dest hk.op
  have hle := hk.le
  refine h.write (m := l.n) (j := l.toRaid) (Workers.ok_swapStored h.ok hp) howner rfl rfl rfl
    ⟨hand, hst, hsize, htask, hlen, by omega, fun j hj => ?_⟩
  rw [Workers.worker_goto, Workers.worker_put_self]
  by_cases hjl : j = l.m - 1 - i
  · have hmirror : mirror l.m (i + 1) j = i := by
      rw [mirror, if_pos (by omega)]
      omega
    rw [hmirror, ← hy, hjl, Worker.heap_write_self, Buffer.read_write_self]
  · have hmirror : mirror l.m (i + 1) j = if j = i then l.m - 1 - i else mirror l.m i j := by
      rw [mirror, mirror]
      split_ifs <;> omega
    rw [hmirror, ← hmoved j hj, hdest, hdestB]
    exact Worker.read_reserved ((h.ok c).owner.reserved howner) (by omega) (by omega) hjl

/-- The store of `back` hands the moved tasks over to the own queue. -/
theorem Workers.Refines.lootStore (h : s.Refines x) (hp : s.pc c = .lootStore l) :
    s.Follows x c a (.lootStore l) := by
  obtain ⟨hand, hst, hholds⟩ := h.statusAt hp
  obtain ⟨hk, hop⟩ := (h.ok c).thiefAt hp
  have howner : (s.pc c).owner = .reserved l.n l.toRaid := by rw [hp]; rfl
  have hok := (h.ok c).owner.reserved howner
  obtain ⟨hdest, hdestB⟩ := hk.dest hop
  have hsame : (s.worker c).cell = (s.worker c).inner := hok.sound.same rfl
  have hle : (s.worker c).front ≤ (s.worker c).back := hok.sound.le
  have hwindow : ((s.worker c).heap l.dest).window l.destB (l.destB + l.m) =
      (l.op.deliver (x.flavor l.victim) (x.flavor c) hand).2.map some := by
    rw [h.flavor, Buffer.window_eq_map, hholds.length, Nat.add_sub_cancel_left]
    exact ⟨rfl, fun j hj => hholds.moved j (by omega)⟩
  rw [Workers.Follows, Workers.occur, hwindow]
  refine ⟨_, .single (.arrive x c l.op l.victim hand hst), ?_⟩
  refine h.put (Workers.ok_lootStore h.ok hp) (.set x c c _ _) ?_ (fun u hu => ?_) ?_
  · rw [AtomicDeques.queue_setStatus, AtomicDeques.queue_setQueue, List.map_append, ← hwindow,
      ← h.queue c, Workers.contents, Workers.base, Workers.limit, howner,
      WorkPc.limit_of_reserved howner, hdest, hdestB, hsame]
    exact Buffer.window_append hle (Nat.le_add_right _ _)
  · exact AtomicDeques.queue_setQueue_of_ne x _ hu
  · rw [Workers.StatusAt, AtomicDeques.status_setStatus]
    left
    rw [Loot.answer]
    split
    · rename_i hb
      rw [hb]
      rfl
    · rename_i hb
      obtain ⟨t, ht⟩ := Theft.keeps_some (s.flavor l.victim) hb hholds.size
      rw [hholds.task hb, h.flavor, Theft.deliver, ht]
      rfl

end turn

end Nacl
