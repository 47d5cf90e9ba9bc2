import Nacl.InjectorRuns

/-! The injector as a queue whose operations are atomic: every run of the injector has the
events of a run of that queue. -/

namespace Nacl

open Guarded

variable {κ T : Type*}

/-- Where the call of a party is: between its start and its effect, with tasks in hand, or
between its effect and its return. -/
inductive CallStatus (T : Type*)
  | idle
  | called (k : InjectorCall T)
  | taken (r : Option T × List T)
  | answered

/-- A first-in first-out queue. A claim takes its tasks at once and hands them out later.
`claimed` counts the tasks that were taken, and `ending` is the party that took the last task
of a block and has not moved the head on. `size` is the length of the queue when the call of
the party measured it, and `seen` says that the call has seen the queue not empty or the head
at the end of a block. -/
structure AtomicQueue (κ T : Type*) where
  queue : List T
  claimed : Nat
  ending : Option κ
  status : κ → CallStatus T
  size : κ → Option Nat
  seen : κ → Bool

def AtomicQueue.new : AtomicQueue κ T :=
  ⟨[], 0, none, fun _ => .idle, fun _ => none, fun _ => false⟩

theorem fixUp_eq (i : Nat) :
    (if (i >>> shift <<< shift) >>> shift &&& (lap - 1) = lap - 1
      then i >>> shift <<< shift + 1 <<< shift else i >>> shift <<< shift) =
      2 * (if i / 2 % 64 = 63 then i / 2 + 1 else i / 2) := by
  have hpos : (i >>> shift <<< shift) >>> shift = i / 2 := by simp only [shift]; omega
  have hand : i / 2 &&& (lap - 1) = i / 2 % 64 := Nat.and_two_pow_sub_one_eq_mod (i / 2) 6
  have hcut : i >>> shift <<< shift = 2 * (i / 2) := by simp only [shift]; omega
  rw [hpos, hand, hcut, show lap - 1 = 63 from rfl]
  by_cases hend : i / 2 % 64 = 63
  · rw [if_pos hend, if_pos hend]
    simp only [shift]
    omega
  · rw [if_neg hend, if_neg hend]

theorem lenOf_eq {tail head : Nat} (h : head / 2 ≤ tail / 2) :
    lenOf tail head = ticket (tail / 2) - ticket (head / 2) := by
  simp only [lenOf, fixUp_eq]
  simp only [lapOf, shift, lap, ticket]
  split <;> split <;> omega

theorem StealOp.deliver_map {α β : Type*} (op : StealOp) (f : α → β) (xs : List α) :
    op.deliver (xs.map f) = ((op.deliver xs).1.map f, (op.deliver xs).2.map f) := by
  rcases op with _ | dest | dest
  · simp [StealOp.deliver]
  · cases dest <;> simp [StealOp.deliver]
  · cases dest <;> simp [StealOp.deliver]

theorem ticket_add {p j : Nat} (h : p % 64 + j ≤ 63) : ticket (p + j) = ticket p + j := by
  simp only [ticket]
  omega

/-- The status of the call of a party that is at this place. -/
def InjectorPc.status (tasks : List T) : InjectorPc T → CallStatus T
  | .pushTail t _ | .pushBlock t _ _ | .pushAlloc t _ _ | .pushExchange t _ _ _ =>
    .called (.push t)
  | .stealHead op | .stealBlock op _ | .stealTail op _ _ => .called (.take op)
  | .stealExchange k => .called (.take k.op)
  | .stealNext k | .stealNextNext k _ | .stealHeadBlock k _ _ | .stealHeadIndex k _
  | .stealWait k _ | .stealRead k _ | .stealArrive k _ =>
    .taken (k.op.deliver ((tasks.drop (ticket k.start)).take k.n))
  | .emptyHead | .emptyTail _ => .called .isEmpty
  | .lenTail | .lenHead _ | .lenCheck _ _ => .called .len
  | _ => .answered

section Claimed

variable {q : Injector T} {g : Owners κ T} {pc : InjectorPc T} {k : Claim}

theorem Injector.Knows.fits (hk : q.Knows g pc) (hc : pc.claim = some k) :
    k.Fits (q.tail.index / 2) := by
  cases pc <;> simp only [InjectorPc.claim, reduceCtorEq, Option.some.injEq] at hc <;> subst hc
  case stealNext => exact hk.claimed.fits
  case stealNextNext => exact hk.1.claimed.fits
  case stealHeadBlock => exact hk.1.claimed.fits
  case stealHeadIndex => exact hk.1.claimed.fits
  case stealWait => exact hk.1.claimed.fits
  case stealRead => exact hk.1.claimed.fits
  case stealArrive => exact hk.1.claimed.fits

theorem Injector.Owned.fits_length (h : q.Owned g) (hf : k.Fits (q.tail.index / 2)) :
    ticket k.start + k.n ≤ g.tasks.length := by
  have ht := hf.tail
  rw [h.length, ← ticket_add hf.newOffset]
  simp only [ticket]
  omega

theorem InjectorPc.status_append (h : q.Owned g) (hk : q.Knows g pc) (l : List T) :
    pc.status (g.tasks ++ l) = pc.status g.tasks := by
  have htake : ∀ k, pc.claim = some k → ((g.tasks ++ l).drop (ticket k.start)).take k.n =
      (g.tasks.drop (ticket k.start)).take k.n := by
    intro k hc
    have hlen := h.fits_length (Injector.Knows.fits hk hc)
    rw [List.drop_append_of_le_length (by omega), List.take_append_of_le_length]
    rw [List.length_drop]
    omega
  cases pc <;> simp only [InjectorPc.status]
  case stealNext => rw [htake _ rfl]
  case stealNextNext => rw [htake _ rfl]
  case stealHeadBlock => rw [htake _ rfl]
  case stealHeadIndex => rw [htake _ rfl]
  case stealWait => rw [htake _ rfl]
  case stealRead => rw [htake _ rfl]
  case stealArrive => rw [htake _ rfl]

theorem Injector.Owned.got_eq {got : List (Option T)} (h : q.Owned g)
    (hc : g.Claimed (q.tail.index / 2) k got) (hlen : got.length = k.n) :
    got = ((g.tasks.drop (ticket k.start)).take k.n).map some := by
  have hle := h.fits_length hc.fits
  have hnew := hc.fits.newOffset
  apply List.ext_getElem?
  intro j
  by_cases hj : j < k.n
  · have hlt : ticket k.start + j < g.tasks.length := by omega
    rw [hc.tasks j (by omega), ticket_add (by omega), List.getElem?_map,
      List.getElem?_take_of_lt hj, List.getElem?_drop, List.getElem?_eq_getElem hlt]
    rfl
  · rw [List.getElem?_eq_none (by omega), List.getElem?_eq_none]
    rw [List.length_map, List.length_take]
    omega

end Claimed

/-- The party is to move the head from the end of a block. -/
def InjectorPc.moves : InjectorPc T → Bool
  | .stealNext _ | .stealNextNext _ _ | .stealHeadBlock _ _ _ | .stealHeadIndex _ _ => true
  | _ => false

def InjectorPc.phase (tasks : List T) (pc : InjectorPc T) : CallStatus T × Bool :=
  (pc.status tasks, pc.moves)

theorem Injector.Knows.moves {q : Injector T} {g : Owners κ T} {pc : InjectorPc T}
    (hk : q.Knows g pc) (hm : pc.moves = true) : q.head.index / 2 % 64 = 63 := by
  have hend : ∀ k, q.Moving g k → q.head.index / 2 % 64 = 63 := by
    intro k hk
    have hhead := hk.head
    have hlast := hk.last
    rw [k.newOffset_eq] at hlast
    omega
  cases pc <;> simp only [InjectorPc.moves, Bool.false_eq_true] at hm
  case stealNext k => exact hend k hk
  case stealNextNext k next => exact hend k hk.1
  case stealHeadBlock k next nextIndex => exact hend k hk.1
  case stealHeadIndex k nextIndex => exact hend k hk.1

/-- Without a push the tail only moves from the end of a block. -/
theorem Injector.Knows.tail_step {q : Injector T} {g : Owners κ T} {pc : InjectorPc T} {d : κ}
    (a : Nat) (hk : q.Knows g pc) (hpush : (q.events d pc).flatMap InjectorEvent.pushes = []) :
    (q.step a pc).1.tail.index / 2 = q.tail.index / 2 ∨ q.tail.index / 2 % 64 = 63 := by
  cases pc with
  | pushExchange t tail block new =>
    by_cases hi : q.tail.index = tail
    · simp [Injector.events, hi, InjectorEvent.pushes] at hpush
    · left
      simp only [Injector.step, if_neg hi]
  | pushTailIndex t tail block new =>
    obtain ⟨-, ho, hi, -⟩ := hk
    right
    omega
  | stealExchange k =>
    left
    simp only [Injector.step]
    split <;> rfl
  | _ => exact .inl rfl

/-- The queue holds the pushed tasks that are not claimed. -/
structure AtomicQueue.Abstracts (x : AtomicQueue κ T) (q : Injector T) (tasks : List T) : Prop where
  queue : x.queue = tasks.drop (ticket (q.head.index / 2))
  claimed : x.claimed = ticket (q.head.index / 2)
  ending : q.head.index / 2 % 64 = 63 → x.ending ≠ none

/-- What the queue has noted about the call of party `c` at its place. -/
structure AtomicQueue.Notes (x : AtomicQueue κ T) (q : Injector T) (c : κ) (pc : InjectorPc T) :
    Prop where
  size : ∀ tail head, pc = .lenCheck tail head → ∃ t, tail / 2 ≤ t ∧ t ≤ q.tail.index / 2 ∧
    head / 2 ≤ t ∧ x.size c = some (ticket t - ticket (head / 2))
  seen : ∀ head, pc = .emptyTail head → x.seen c = false →
    head / 2 = q.tail.index / 2 ∧ head / 2 % 64 < 63
  ending : x.ending = some c ↔ pc.moves = true

/-- The step to `y` of another party, which pushes `l`, leaves what is noted about `c`. -/
structure AtomicQueue.Keeps (x y : AtomicQueue κ T) (c : κ) (l : List T) : Prop where
  status : y.status c = x.status c
  size : y.size c = x.size c
  seen : y.seen c = false → x.seen c = false ∧ l = []
  ending : y.ending = some c ↔ x.ending = some c

structure Injecting.Refines (s : Injecting κ T) (g : Owners κ T) (x : AtomicQueue κ T) : Prop
    extends s.Sound g where
  abstracts : x.Abstracts s.queue g.tasks
  idle : ∀ c, (s.pc c).isIdle = true → x.status c = .idle
  status : ∀ c, (s.pc c).isIdle = false → x.status c = (s.pc c).status g.tasks
  notes : ∀ c, x.Notes s.queue c (s.pc c)

variable {s : Injecting κ T} {g : Owners κ T} {x y : AtomicQueue κ T} {q q' : Injector T} {c d : κ}
  {a : Nat} {pc : InjectorPc T} {l : List T}

theorem AtomicQueue.Keeps.refl (x : AtomicQueue κ T) (c : κ) : x.Keeps x c ([] : List T) :=
  ⟨rfl, rfl, fun h => ⟨h, rfl⟩, Iff.rfl⟩

theorem AtomicQueue.Keeps.notes (h : x.Keeps y c l) (hn : x.Notes q c pc)
    (hle : q.tail.index ≤ q'.tail.index)
    (hstill : l = [] → q'.tail.index / 2 = q.tail.index / 2 ∨ q.tail.index / 2 % 64 = 63) :
    y.Notes q' c pc where
  size tail head hp := by
    obtain ⟨t, hlo, hhi, hhead, hx⟩ := hn.size tail head hp
    exact ⟨t, hlo, by omega, hhead, by rw [h.size, hx]⟩
  seen head hp hy := by
    obtain ⟨hx, hts⟩ := h.seen hy
    obtain ⟨heq, hlt⟩ := hn.seen head hp hx
    rcases hstill hts with hsame | hlast
    · exact ⟨by rw [hsame, heq], hlt⟩
    · omega
  ending := h.ending.trans hn.ending

theorem Injecting.Refines.status_at (h : s.Refines g x) (he : s.Enabled (.step d a))
    (hp : s.pc d = pc) : x.status d = pc.status g.tasks := by
  rw [← hp]
  exact h.status d he.1

theorem Injecting.Refines.notes_at (h : s.Refines g x) (hp : s.pc d = pc) :
    x.Notes s.queue d pc := by
  rw [← hp]
  exact h.notes d

theorem Injecting.Refines.queue_nil (h : s.Refines g x) {head : Nat}
    (hle : head ≤ s.queue.head.index) (he : head / 2 = s.queue.tail.index / 2) : x.queue = [] := by
  have hht := h.owned.head_le
  rw [h.abstracts.queue, List.drop_eq_nil_iff, h.owned.length]
  simp only [ticket]
  omega

/-- The next access loads the head for `len` or for `is_empty`. -/
def InjectorPc.measures : InjectorPc T → Bool
  | .lenHead _ | .emptyHead => true
  | _ => false

def InjectorPc.measured : InjectorPc T → Bool
  | .lenCheck _ _ | .emptyTail _ => true
  | _ => false

theorem Injector.step_measured (q : Injector T) (a : Nat) (h : pc.measures = false) :
    (q.step a pc).2.measured = false := by
  have hinstall : ∀ (t : T) tail block new,
      (InjectorPc.pushInstall t tail block new).measured = false := by
    intro t tail block new
    cases new <;> rfl
  have hdone : ∀ new, (InjectorPc.pushDone new : InjectorPc T).measured = false := by
    intro new
    cases new <;> rfl
  have hdestroy : ∀ k i, (InjectorPc.destroy k i : InjectorPc T).measured = false := by
    intro k i
    cases i <;> rfl
  cases pc <;> grind [Injector.step, InjectorPc.measures, InjectorPc.measured]

theorem AtomicQueue.Notes.of_measured (h : pc.measured = false)
    (hending : x.ending = some d ↔ pc.moves = true) : x.Notes q d pc := by
  refine ⟨fun tail head hx => ?_, fun head hx _ => ?_, hending⟩ <;>
  · rw [hx] at h
    cases h

variable [DecidableEq κ]

def AtomicQueue.setStatus (x : AtomicQueue κ T) (c : κ) (v : CallStatus T) : AtomicQueue κ T :=
  { x with status := Function.update x.status c v }

/-- The start of a call, which has not measured anything. -/
def AtomicQueue.start (x : AtomicQueue κ T) (c : κ) (k : InjectorCall T) : AtomicQueue κ T :=
  { x.setStatus c (.called k) with
    size := Function.update x.size c none
    seen := Function.update x.seen c false }

/-- The effect of each call is one step between its start and its return. `is_empty` answers
`true` when the queue is empty, and `false` when at its look or at a push after it the queue was
not empty, or the head was at the end of a block. -/
inductive AtomicQueue.Step : AtomicQueue κ T → InjectorEvent κ T → AtomicQueue κ T → Prop
  | call (x : AtomicQueue κ T) (c : κ) (k : InjectorCall T) (h : x.status c = .idle) :
    Step x (.called c k) (x.start c k)
  | push (x : AtomicQueue κ T) (c : κ) (t : T) (h : x.status c = .called (.push t)) :
    Step x (.pushed c t)
      { x.setStatus c .answered with queue := x.queue ++ [t], seen := fun _ => true }
  | claim (x : AtomicQueue κ T) (c : κ) (op : StealOp) (n : Nat)
    (h : x.status c = .called (.take op)) (hpos : 0 < n) (hmost : n ≤ op.most)
    (hlen : n ≤ x.queue.length) (hend : x.ending = none) :
    Step x (.claimed c op n) { x.setStatus c (.taken (op.deliver (x.queue.take n))) with
      queue := x.queue.drop n
      claimed := x.claimed + n
      ending := if (x.claimed + n) % blockCap = 0 then some c else none }
  | move (x : AtomicQueue κ T) (c : κ) (hend : x.ending = some c) :
    Step x (.moved c) { x with ending := none }
  | deliver (x : AtomicQueue κ T) (c : κ) (r : Option T × List T) (h : x.status c = .taken r)
    (hend : x.ending ≠ some c) :
    Step x (.delivered c (r.1.map some, r.2.map some)) (x.setStatus c .answered)
  | sawEmpty (x : AtomicQueue κ T) (c : κ) (op : StealOp) (h : x.status c = .called (.take op))
    (hempty : x.queue = []) : Step x (.sawEmpty c) (x.setStatus c .answered)
  | sawRetry (x : AtomicQueue κ T) (c : κ) (op : StealOp) (h : x.status c = .called (.take op)) :
    Step x (.sawRetry c) (x.setStatus c .answered)
  | look (x : AtomicQueue κ T) (c : κ) (h : x.status c = .called .isEmpty) :
    Step x (.looked c)
      { x with seen := Function.update x.seen c (!x.queue.isEmpty || x.ending.isSome) }
  | isEmpty (x : AtomicQueue κ T) (c : κ) (r : Bool) (h : x.status c = .called .isEmpty)
    (hempty : r = true → x.queue = []) (hseen : r = false → x.seen c = true) :
    Step x (.isEmpty c r) (x.setStatus c .answered)
  | measure (x : AtomicQueue κ T) (c : κ) (h : x.status c = .called .len) :
    Step x (.measured c) { x with size := Function.update x.size c (some x.queue.length) }
  | len (x : AtomicQueue κ T) (c : κ) (n : Nat) (h : x.status c = .called .len)
    (hsize : x.size c = some n) : Step x (.len c n) (x.setStatus c .answered)
  | ret (x : AtomicQueue κ T) (c : κ) (h : x.status c = .answered) :
    Step x (.returned c) (x.setStatus c .idle)

/-- A step of party `d` whose effect takes the queue to `y`. If it is the last step of the
call, the call returns after it. -/
theorem Injecting.Refines.land (h : s.Refines g x) {pc' : InjectorPc T}
    (hl : s.queue.Lands g d l q' pc') (habs : y.Abstracts q' (g.tasks ++ l))
    (hstatus : y.status d = pc'.status (g.tasks ++ l)) (hnotes : y.Notes q' d pc')
    (hother : ∀ c, c ≠ d → x.Keeps y c l)
    (hstill : l = [] → q'.tail.index / 2 = s.queue.tail.index / 2 ∨
      s.queue.tail.index / 2 % 64 = 63) :
    ∃ z, Trace AtomicQueue.Step y (pc'.returns d) z ∧
      ∃ g', Injecting.Refines ⟨q', Function.update s.pc d pc'⟩ g' z := by
  obtain ⟨g', hsound, htasks, hchange⟩ := h.toSound.land hl
  rw [← htasks] at habs
  have hkeeps : ∀ c, c ≠ d → y.Notes q' c (s.pc c) := fun c hc =>
    (hother c hc).notes (h.notes c) (hchange.rely c hc).tail_le hstill
  have hothers : ∀ c, c ≠ d → (s.pc c).isIdle = false → y.status c = (s.pc c).status g'.tasks := by
    intro c hc hi
    rw [(hother c hc).status, h.status c hi, htasks, InjectorPc.status_append h.owned (h.knows c)]
  cases hidle : pc'.isIdle with
  | true =>
    have hpc : pc' = .idle := by cases pc' <;> simp_all [InjectorPc.isIdle]
    subst hpc
    refine ⟨y.setStatus d .idle, .single (.ret y d hstatus), g', hsound,
      ⟨habs.queue, habs.claimed, habs.ending⟩, fun c hi => ?_, fun c hi => ?_, fun c => ?_⟩
    · by_cases hc : c = d
      · rw [hc]
        simp [AtomicQueue.setStatus]
      · simp only [Function.update_of_ne hc] at hi
        simp only [AtomicQueue.setStatus, Function.update_of_ne hc, (hother c hc).status]
        exact h.idle c hi
    · by_cases hc : c = d
      · subst hc
        simp [InjectorPc.isIdle] at hi
      · simp only [Function.update_of_ne hc] at hi ⊢
        simp only [AtomicQueue.setStatus, Function.update_of_ne hc]
        exact hothers c hc hi
    · by_cases hc : c = d
      · subst hc
        simp only [Function.update_self]
        exact ⟨hnotes.size, hnotes.seen, hnotes.ending⟩
      · simp only [Function.update_of_ne hc]
        exact ⟨(hkeeps c hc).size, (hkeeps c hc).seen, (hkeeps c hc).ending⟩
  | false =>
    refine ⟨y, ?_, g', hsound, habs, fun c hi => ?_, fun c hi => ?_, fun c => ?_⟩
    · simp only [InjectorPc.returns, hidle]
      exact .nil y
    · by_cases hc : c = d
      · subst hc
        simp [hidle] at hi
      · simp only [Function.update_of_ne hc] at hi
        rw [(hother c hc).status]
        exact h.idle c hi
    · by_cases hc : c = d
      · subst hc
        simp only [Function.update_self]
        rw [hstatus, htasks]
      · simp only [Function.update_of_ne hc] at hi ⊢
        exact hothers c hc hi
    · by_cases hc : c = d
      · subst hc
        simp only [Function.update_self]
        exact hnotes
      · simp only [Function.update_of_ne hc]
        exact hkeeps c hc

def Injecting.Follows (s : Injecting κ T) (x : AtomicQueue κ T) (d : κ) (a : Nat) : Prop :=
  ∃ x', Trace AtomicQueue.Step x (s.events (.step d a)) x' ∧
    ∃ g', (s.next (.step d a)).Refines g' x'

theorem Injecting.Refines.advance (h : s.Refines g x) (he : s.Enabled (.step d a))
    (hp : s.pc d = pc) (hpush : (s.queue.events d pc).flatMap InjectorEvent.pushes = l)
    (htrace : Trace AtomicQueue.Step x (s.queue.events d pc) y)
    (habs : y.Abstracts (s.queue.step a pc).1 (g.tasks ++ l))
    (hstatus : y.status d = (s.queue.step a pc).2.status (g.tasks ++ l))
    (hnotes : y.Notes (s.queue.step a pc).1 d (s.queue.step a pc).2)
    (hother : ∀ c, c ≠ d → x.Keeps y c l) : s.Follows x d a := by
  subst hp
  have hl := h.owned.land_step (h.of d) (h.knows d) he.2
  rw [hpush] at hl
  obtain ⟨z, hret, g', hR⟩ := h.land hl habs hstatus hnotes hother fun hts =>
    (h.knows d).tail_step a (by rw [hpush, hts])
  exact ⟨z, htrace.append hret, g', hR⟩

/-- The access from `pc` has the effect of one step of the queue, to `y`, which leaves the
positions of the claims. -/
theorem Injecting.Refines.effect (h : s.Refines g x) (he : s.Enabled (.step d a))
    (hp : s.pc d = pc) (hpc : pc.measures = false)
    (hpush : (s.queue.events d pc).flatMap InjectorEvent.pushes = [])
    (htrace : Trace AtomicQueue.Step x (s.queue.events d pc) y)
    (hhead : (s.queue.step a pc).1.head.index = s.queue.head.index)
    (hqueue : y.queue = x.queue) (hclaimed : y.claimed = x.claimed) (hending : y.ending = x.ending)
    (hmoves : (s.queue.step a pc).2.moves = pc.moves)
    (hstatus : y.status d = (s.queue.step a pc).2.status g.tasks)
    (hother : ∀ c, c ≠ d → x.Keeps y c ([] : List T)) : s.Follows x d a := by
  have habs := h.abstracts
  have hnotes := h.notes_at hp
  refine h.advance he hp hpush htrace ⟨?_, ?_, ?_⟩ (by rw [List.append_nil, hstatus])
    (.of_measured (s.queue.step_measured a hpc) (by rw [hending, hmoves]; exact hnotes.ending)) hother
  · rw [hqueue, hhead, List.append_nil, habs.queue]
  · rw [hclaimed, hhead, habs.claimed]
  · rw [hending, hhead]
    exact habs.ending

theorem Injecting.Refines.silent (h : s.Refines g x) (he : s.Enabled (.step d a))
    (hp : s.pc d = pc) (hpc : pc.measures = false) (hev : s.queue.events d pc = [])
    (hhead : (s.queue.step a pc).1.head.index = s.queue.head.index)
    (hphase : (s.queue.step a pc).2.phase g.tasks = pc.phase g.tasks) : s.Follows x d a := by
  obtain ⟨hstatus, hmoves⟩ := Prod.ext_iff.mp hphase
  refine h.effect he hp hpc (by rw [hev]; rfl) (by rw [hev]; exact .nil x) hhead rfl rfl rfl
    hmoves ?_ fun c _ => .refl x c
  exact (h.status_at he hp).trans hstatus.symm

theorem AtomicQueue.keeps_setStatus (x : AtomicQueue κ T) (v : CallStatus T) (hc : c ≠ d) :
    x.Keeps (x.setStatus d v) c ([] : List T) :=
  ⟨Function.update_of_ne hc _ _, rfl, fun h => ⟨h, rfl⟩, Iff.rfl⟩

theorem AtomicQueue.setStatus_self (x : AtomicQueue κ T) (d : κ) (v : CallStatus T) :
    (x.setStatus d v).status d = v := Function.update_self _ _ _

theorem Injecting.Refines.pushExchange {t : T} {tail block : Nat} {new : Option Nat}
    (h : s.Refines g x) (he : s.Enabled (.step d a)) (hp : s.pc d = .pushExchange t tail block new) :
    s.Follows x d a := by
  by_cases hi : s.queue.tail.index = tail
  · have hlen := h.owned.length
    have hle := h.owned.head_le
    have habs := h.abstracts
    have hev : s.queue.events d (.pushExchange t tail block new) = [.pushed d t] := if_pos hi
    have hstep : s.queue.step a (.pushExchange t tail block new) = ({ s.queue with
        tail := ⟨tail + 1 <<< shift, s.queue.tail.block⟩ },
        if offsetOf tail + 1 = blockCap then .pushInstall t tail block new
        else .pushWrite t tail block new) := if_pos hi
    have hmoves : (s.queue.step a (.pushExchange t tail block new)).2.moves = false := by
      rw [hstep]
      simp only
      split
      · cases new <;> rfl
      · rfl
    have htrace := Trace.single (AtomicQueue.Step.push x d t (h.status_at he hp))
    rw [← hev] at htrace
    refine h.advance (l := [t]) he hp (by rw [hev]; rfl) htrace ⟨?_, ?_, ?_⟩ ?_
      (.of_measured (s.queue.step_measured a rfl) ?_)
      fun c hc => ⟨Function.update_of_ne hc _ _, rfl, fun hs => ?_, Iff.rfl⟩
    · rw [hstep]
      simp only
      rw [habs.queue, List.drop_append_of_le_length]
      rw [hlen]
      simp only [ticket]
      omega
    · rw [hstep]
      exact habs.claimed
    · rw [hstep]
      exact habs.ending
    · simp only [hstep]
      rw [x.setStatus_self]
      split
      · cases new <;> rfl
      · rfl
    · rw [hmoves]
      exact (h.notes_at hp).ending
    · cases hs
  · have hev : s.queue.events d (.pushExchange t tail block new) = [] := if_neg hi
    have hstep : s.queue.step a (.pushExchange t tail block new) =
        (s.queue, .pushBlock t s.queue.tail.index new) := if_neg hi
    exact h.silent he hp rfl hev (by rw [hstep]) (by rw [hstep]; rfl)

theorem Injecting.Refines.stealTail {op : StealOp} {head block : Nat} (h : s.Refines g x)
    (he : s.Enabled (.step d a)) (hp : s.pc d = .stealTail op head block) : s.Follows x d a := by
  by_cases hempty : head >>> shift = s.queue.tail.index >>> shift
  · have hev : s.queue.events d (.stealTail op head block) = [.sawEmpty d] := if_pos hempty
    have hstep : s.queue.step a (.stealTail op head block) = (s.queue, .idle) := by
      simp only [Injector.step, if_pos hempty]
    have hk := h.knows d
    rw [hp] at hk
    have hqueue : x.queue = [] := by
      simp only [shift, Nat.shiftRight_one] at hempty
      exact h.queue_nil hk.1.le hempty
    have htrace := Trace.single (AtomicQueue.Step.sawEmpty x d op (h.status_at he hp) hqueue)
    rw [← hev] at htrace
    refine h.effect he hp rfl (by rw [hev]; rfl) htrace (by rw [hstep]) rfl rfl rfl
      (by rw [hstep]; rfl) ?_ fun c hc => x.keeps_setStatus _ hc
    rw [hstep, x.setStatus_self]
    rfl
  · have hev : s.queue.events d (.stealTail op head block) = [] := if_neg hempty
    refine h.silent he hp rfl hev rfl ?_
    simp only [Injector.step, if_neg hempty]
    split <;> rfl

theorem Injecting.Refines.stealExchange {k : Claim} (h : s.Refines g x)
    (he : s.Enabled (.step d a)) (hp : s.pc d = .stealExchange k) : s.Follows x d a := by
  have hcalled := h.status_at he hp
  by_cases hi : s.queue.head.index = k.head
  · have hk := h.knows d
    rw [hp] at hk
    have hfits := hk.2
    have hlen := h.owned.fits_length hfits
    have habs := h.abstracts
    have hstart : s.queue.head.index / 2 = k.start := by rw [hi, Claim.start]
    have hoffset := hfits.offset
    have hpos := hfits.pos
    have hnew := hfits.newOffset
    have hev : s.queue.events d (.stealExchange k) = [.claimed d k.op k.n] := if_pos hi
    have hstep : s.queue.step a (.stealExchange k) = ({ s.queue with
        head := ⟨k.newHead, s.queue.head.block⟩ },
        if k.newOffset = blockCap then .stealNext k else .stealWait k []) := if_pos hi
    have hqueue : x.queue = g.tasks.drop (ticket k.start) := by rw [habs.queue, hstart]
    have hclaims : k.n ≤ x.queue.length := by
      rw [hqueue, List.length_drop]
      omega
    have hnone : x.ending = none := by
      rw [Option.eq_none_iff_forall_ne_some]
      intro c hc
      have hmoves := (h.knows c).moves ((h.notes c).ending.mp hc)
      omega
    have hlast : (x.claimed + k.n) % blockCap = 0 ↔ k.newOffset = blockCap := by
      rw [habs.claimed, hstart, k.newOffset_eq, blockCap_eq, ticket]
      omega
    have htrace := Trace.single
      (AtomicQueue.Step.claim x d k.op k.n hcalled hfits.pos hfits.most hclaims hnone)
    rw [← hev] at htrace
    refine h.advance he hp (by rw [hev]; rfl) htrace ⟨?_, ?_, ?_⟩ ?_
      (.of_measured (s.queue.step_measured a rfl) ?_)
      fun c hc => ⟨Function.update_of_ne hc _ _, rfl, fun hs => ⟨hs, rfl⟩, ?_⟩
    · simp only [hstep, hfits.newHead]
      rw [hqueue, ticket_add hfits.newOffset, List.drop_drop, List.append_nil]
    · simp only [hstep, hfits.newHead]
      rw [habs.claimed, hstart, ticket_add hfits.newOffset]
    · simp only [hstep, hfits.newHead]
      intro hend
      have hcap : k.newOffset = blockCap := by
        rw [k.newOffset_eq, blockCap_eq]
        omega
      rw [if_pos (hlast.mpr hcap)]
      exact Option.some_ne_none d
    · simp only [hstep, hqueue, List.append_nil]
      rw [x.setStatus_self]
      split <;> rfl
    · simp only [hstep, hlast]
      split <;> simp [InjectorPc.moves]
    · simp only [hnone]
      split <;> simp [Ne.symm hc]
  · have hev : s.queue.events d (.stealExchange k) = [.sawRetry d] := if_neg hi
    have hstep : s.queue.step a (.stealExchange k) = (s.queue, .idle) := if_neg hi
    have htrace := Trace.single (AtomicQueue.Step.sawRetry x d k.op hcalled)
    rw [← hev] at htrace
    refine h.effect he hp rfl (by rw [hev]; rfl) htrace (by rw [hstep]) rfl rfl rfl
      (by rw [hstep]; rfl) ?_ fun c hc => x.keeps_setStatus _ hc
    rw [hstep, x.setStatus_self]
    rfl

theorem Injecting.Refines.stealHeadIndex {k : Claim} {nextIndex : Nat} (h : s.Refines g x)
    (he : s.Enabled (.step d a)) (hp : s.pc d = .stealHeadIndex k nextIndex) : s.Follows x d a := by
  have hk := h.knows d
  rw [hp] at hk
  obtain ⟨hm, -, -, hidx, -⟩ := hk
  have hhead := hm.head
  have hlast := hm.last
  rw [k.newOffset_eq] at hlast
  have habs := h.abstracts
  have hstatus := h.status_at he hp
  have hending : x.ending = some d := (h.notes_at hp).ending.mpr rfl
  have hticket : ticket (nextIndex / 2) = ticket (s.queue.head.index / 2) := by
    simp only [ticket]
    omega
  refine h.advance (l := []) he hp rfl (Trace.single (AtomicQueue.Step.move x d hending))
    ⟨?_, ?_, ?_⟩ ?_ (.of_measured (s.queue.step_measured a rfl) ?_)
    fun c hc => ⟨rfl, rfl, fun hs => ⟨hs, rfl⟩, ?_⟩
  · simp only [Injector.step]
    rw [hticket, List.append_nil, habs.queue]
  · simp only [Injector.step]
    rw [hticket, habs.claimed]
  · simp only [Injector.step]
    omega
  · rw [List.append_nil]
    exact hstatus
  · simp [Injector.step, InjectorPc.moves]
  · simp [hending, Ne.symm hc]

theorem Injecting.Refines.stealArrive {k : Claim} {got : List (Option T)} (h : s.Refines g x)
    (he : s.Enabled (.step d a)) (hp : s.pc d = .stealArrive k got) : s.Follows x d a := by
  have hk := h.knows d
  rw [hp] at hk
  have hgot := h.owned.got_eq hk.1.claimed hk.2
  have hending : x.ending ≠ some d := by
    intro hx
    have hmoves := (h.notes_at hp).ending.mp hx
    cases hmoves
  have hdone : (s.queue.step a (.stealArrive k got)).2.moves = false ∧
      (s.queue.step a (.stealArrive k got)).2.status g.tasks = .answered := by
    simp only [Injector.step]
    split
    · cases k.offset <;> exact ⟨rfl, rfl⟩
    · exact ⟨rfl, rfl⟩
  have htrace := Trace.single (AtomicQueue.Step.deliver x d _ (h.status_at he hp) hending)
  rw [← StealOp.deliver_map, ← hgot] at htrace
  refine h.effect he hp rfl rfl htrace rfl rfl rfl rfl (by rw [hdone.1]; rfl) ?_
    fun c hc => x.keeps_setStatus _ hc
  rw [x.setStatus_self, hdone.2]

theorem Injecting.Refines.emptyHead (h : s.Refines g x) (he : s.Enabled (.step d a))
    (hp : s.pc d = .emptyHead) : s.Follows x d a := by
  have habs := h.abstracts
  have hle := h.owned.head_le
  have htrace := Trace.single (AtomicQueue.Step.look x d (h.status_at he hp))
  refine h.advance (l := []) he hp rfl htrace ⟨?_, habs.claimed, habs.ending⟩ ?_ ⟨?_, ?_, ?_⟩
    fun c hc => ⟨rfl, rfl, fun hs => ⟨?_, rfl⟩, Iff.rfl⟩
  · rw [List.append_nil]
    exact habs.queue
  · exact h.status_at he hp
  · intro tail head hx
    cases hx
  · intro head hx hseen
    simp only [Injector.step, InjectorPc.emptyTail.injEq] at hx
    simp only [Function.update_self, Bool.or_eq_false_iff, Bool.not_eq_false',
      List.isEmpty_iff, Option.isSome_eq_false_iff, Option.isNone_iff_eq_none] at hseen
    have hlt : s.queue.head.index / 2 % 64 ≠ 63 := fun hend => habs.ending hend hseen.2
    have hnil := hseen.1
    rw [habs.queue, List.drop_eq_nil_iff, h.owned.length] at hnil
    simp only [ticket] at hnil
    simp only [Injector.step]
    omega
  · exact (h.notes_at hp).ending
  · rw [← hs]
    exact (Function.update_of_ne hc _ _).symm

theorem Injecting.Refines.emptyTail {head : Nat} (h : s.Refines g x)
    (he : s.Enabled (.step d a)) (hp : s.pc d = .emptyTail head) : s.Follows x d a := by
  have hk := h.knows d
  rw [hp] at hk
  have hempty : (head >>> shift == s.queue.tail.index >>> shift) = true → x.queue = [] := by
    intro heq
    simp only [shift, Nat.shiftRight_one, beq_iff_eq] at heq
    exact h.queue_nil hk heq
  have hseen : (head >>> shift == s.queue.tail.index >>> shift) = false → x.seen d = true := by
    intro hne
    by_contra hx
    have heq := ((h.notes_at hp).seen head rfl (Bool.eq_false_of_not_eq_true hx)).1
    simp [shift, Nat.shiftRight_one, heq] at hne
  have htrace := Trace.single (AtomicQueue.Step.isEmpty x d _ (h.status_at he hp) hempty hseen)
  refine h.effect he hp rfl rfl htrace rfl rfl rfl rfl rfl ?_ fun c hc => x.keeps_setStatus _ hc
  rw [x.setStatus_self]
  rfl

theorem Injecting.Refines.lenHead {tail : Nat} (h : s.Refines g x)
    (he : s.Enabled (.step d a)) (hp : s.pc d = .lenHead tail) : s.Follows x d a := by
  have hk := h.knows d
  rw [hp] at hk
  have hle : tail ≤ s.queue.tail.index := hk
  have habs := h.abstracts
  have htrace := Trace.single (AtomicQueue.Step.measure x d (h.status_at he hp))
  refine h.advance (l := []) he hp rfl htrace ⟨?_, habs.claimed, habs.ending⟩ ?_ ⟨?_, ?_, ?_⟩
    fun c hc => ⟨rfl, Function.update_of_ne hc _ _, fun hs => ⟨hs, rfl⟩, Iff.rfl⟩
  · rw [List.append_nil]
    exact habs.queue
  · exact h.status_at he hp
  · intro tail' head' hx
    simp only [Injector.step, InjectorPc.lenCheck.injEq] at hx
    obtain ⟨rfl, rfl⟩ := hx
    refine ⟨s.queue.tail.index / 2, by omega, Nat.le_refl _, h.owned.head_le, ?_⟩
    simp only [Function.update_self]
    rw [habs.queue, List.length_drop, h.owned.length]
  · intro head hx
    cases hx
  · exact (h.notes_at hp).ending

theorem Injecting.Refines.lenCheck {tail head : Nat} (h : s.Refines g x)
    (he : s.Enabled (.step d a)) (hp : s.pc d = .lenCheck tail head) : s.Follows x d a := by
  by_cases hi : s.queue.tail.index = tail
  · obtain ⟨t, hlo, hhi, hhead, hx⟩ := (h.notes_at hp).size tail head rfl
    have ht : t = tail / 2 := by
      rw [hi] at hhi
      omega
    have hsize : x.size d = some (lenOf tail head) := by
      rw [lenOf_eq (by omega), hx, ht]
    have hev : s.queue.events d (.lenCheck tail head) = [.len d (lenOf tail head)] := if_pos hi
    have hstep : s.queue.step a (.lenCheck tail head) = (s.queue, .idle) := by
      simp only [Injector.step, if_pos hi]
    have htrace := Trace.single (AtomicQueue.Step.len x d _ (h.status_at he hp) hsize)
    rw [← hev] at htrace
    refine h.effect he hp rfl (by rw [hev]; rfl) htrace (by rw [hstep]) rfl rfl rfl
      (by rw [hstep]; rfl) ?_ fun c hc => x.keeps_setStatus _ hc
    rw [hstep, x.setStatus_self]
    rfl
  · have hev : s.queue.events d (.lenCheck tail head) = [] := if_neg hi
    have hstep : s.queue.step a (.lenCheck tail head) = (s.queue, .lenTail) := by
      simp only [Injector.step, if_neg hi]
    exact h.silent he hp rfl hev (by rw [hstep]) (by rw [hstep]; rfl)

theorem Injecting.Refines.follows (h : s.Refines g x) (he : s.Enabled (.step d a)) :
    s.Follows x d a := by
  cases hp : s.pc d with
  | idle =>
    have hbusy := he.1
    rw [hp] at hbusy
    cases hbusy
  | panicked => exact h.silent he hp rfl rfl rfl rfl
  | pushTail t new => exact h.silent he hp rfl rfl rfl rfl
  | pushBlock t tail new =>
    refine h.silent he hp rfl rfl rfl ?_
    simp only [Injector.step]
    split
    · rfl
    · split <;> rfl
  | pushAlloc t tail block => exact h.silent he hp rfl rfl rfl rfl
  | pushExchange t tail block new => exact h.pushExchange he hp
  | pushTailBlock t tail block new => exact h.silent he hp rfl rfl rfl rfl
  | pushTailIndex t tail block new => exact h.silent he hp rfl rfl rfl rfl
  | pushNext t tail block new => exact h.silent he hp rfl rfl rfl rfl
  | pushWrite t tail block new => exact h.silent he hp rfl rfl rfl rfl
  | pushState t tail block new =>
    cases new
    · exact h.silent he hp rfl rfl rfl rfl
    · exact h.silent he hp rfl rfl rfl rfl
  | pushDrop new => exact h.silent he hp rfl rfl rfl rfl
  | stealHead op => exact h.silent he hp rfl rfl rfl rfl
  | stealBlock op head =>
    refine h.silent he hp rfl rfl rfl ?_
    simp only [Injector.step]
    split
    · rfl
    · split <;> rfl
  | stealTail op head block => exact h.stealTail he hp
  | stealExchange k => exact h.stealExchange he hp
  | stealNext k =>
    refine h.silent he hp rfl rfl rfl ?_
    simp only [Injector.step]
    split <;> rfl
  | stealNextNext k next => exact h.silent he hp rfl rfl rfl rfl
  | stealHeadBlock k next nextIndex => exact h.silent he hp rfl rfl rfl rfl
  | stealHeadIndex k nextIndex => exact h.stealHeadIndex he hp
  | stealWait k got =>
    refine h.silent he hp rfl rfl rfl ?_
    simp only [Injector.step]
    split <;> rfl
  | stealRead k got =>
    refine h.silent he hp rfl rfl rfl ?_
    simp only [Injector.step]
    split <;> rfl
  | stealArrive k got => exact h.stealArrive he hp
  | stealMark k i =>
    refine h.silent he hp rfl rfl rfl ?_
    simp only [Injector.step]
    split
    · cases k.offset <;> rfl
    · split <;> rfl
  | destroyLoad k i =>
    refine h.silent he hp rfl rfl rfl ?_
    simp only [Injector.step]
    split
    · cases i <;> rfl
    · rfl
  | destroyMark k i =>
    refine h.silent he hp rfl rfl rfl ?_
    simp only [Injector.step]
    split
    · cases i <;> rfl
    · rfl
  | destroyFree k => exact h.silent he hp rfl rfl rfl rfl
  | emptyHead => exact h.emptyHead he hp
  | emptyTail head => exact h.emptyTail he hp
  | lenTail => exact h.silent he hp rfl rfl rfl rfl
  | lenHead tail => exact h.lenHead he hp
  | lenCheck tail head => exact h.lenCheck he hp

theorem Injecting.Refines.call {k : InjectorCall T} (h : s.Refines g x)
    (he : s.Enabled (.call d k)) :
    ∃ x', Trace AtomicQueue.Step x (s.events (.call d k)) x' ∧
      ∃ g', (s.next (.call d k)).Refines g' x' := by
  have habs := h.abstracts
  have hret : k.start.returns d = [] := by cases k <;> rfl
  have hmoves : x.ending = some d ↔ k.start.moves = true := by
    have hpc : (s.pc d).moves = false := by
      have hidle : (s.pc d).isIdle = true := he
      cases hp : s.pc d <;> simp_all [InjectorPc.isIdle, InjectorPc.moves]
    rw [(h.notes d).ending, hpc]
    cases k <;> exact Iff.rfl
  have hland : ∃ z, Trace AtomicQueue.Step (x.start d k) (k.start.returns d) z ∧
      ∃ g', (s.next (.call d k)).Refines g' z := by
    refine h.land (l := []) (h.toSound.land_call he) ⟨?_, habs.claimed, habs.ending⟩ ?_
      (.of_measured ?_ hmoves)
      (fun c hc => ⟨Function.update_of_ne hc _ _, Function.update_of_ne hc _ _, fun hs => ⟨?_, rfl⟩,
        Iff.rfl⟩) fun _ => .inl rfl
    · rw [List.append_nil]
      exact habs.queue
    · rw [AtomicQueue.start, x.setStatus_self]
      cases k <;> rfl
    · cases k <;> rfl
    · rw [← hs]
      exact (Function.update_of_ne hc _ _).symm
  rw [hret] at hland
  obtain ⟨x', hx', hR⟩ := hland
  exact ⟨x', (Trace.single (AtomicQueue.Step.call x d k (h.idle d he))).append hx', hR⟩

theorem Injecting.Refines.fail (h : s.Refines g x) (he : s.Enabled (.fail d)) :
    ∃ x', Trace AtomicQueue.Step x (s.events (.fail d)) x' ∧
      ∃ g', (s.next (.fail d)).Refines g' x' := by
  have hexc : (s.pc d).exchanges = true := he
  have habs := h.abstracts
  have hl := h.toSound.land_fail (d := d)
  cases hp : s.pc d with
  | pushExchange t tail block new =>
    have hst := h.status d (by rw [hp]; rfl)
    rw [hp] at hl hst
    obtain ⟨x', hx', hR⟩ := h.land (y := x) hl
      ⟨by rw [List.append_nil]; exact habs.queue, habs.claimed, habs.ending⟩ (by rw [hst]; rfl)
      (.of_measured rfl (h.notes_at hp).ending)
      (fun c _ => .refl x c) (fun _ => .inl rfl)
    refine ⟨x', ?_, by simpa only [Injecting.next, hp] using hR⟩
    simp only [Injecting.events, hp]
    exact hx'
  | stealExchange k =>
    have hst := h.status d (by rw [hp]; rfl)
    rw [hp] at hl hst
    obtain ⟨x', hx', hR⟩ := h.land (y := x.setStatus d .answered) hl
      ⟨by rw [List.append_nil]; exact habs.queue, habs.claimed, habs.ending⟩
      (by rw [x.setStatus_self]; rfl)
      (.of_measured rfl (h.notes_at hp).ending)
      (fun c hc => x.keeps_setStatus _ hc) (fun _ => .inl rfl)
    refine ⟨x', ?_, by simpa only [Injecting.next, hp] using hR⟩
    simp only [Injecting.events, hp]
    exact (Trace.single (AtomicQueue.Step.sawRetry x d k.op hst)).append hx'
  | _ =>
    rw [hp] at hexc
    cases hexc

theorem Injecting.refines_new :
    (Injecting.new : Injecting κ T).Refines Owners.new AtomicQueue.new where
  toSound := Injecting.sound_new
  abstracts := by
    refine ⟨List.drop_nil.symm, ?_, fun h => ?_⟩
    · simp [AtomicQueue.new, Injecting.new, Injector.new, ticket]
    · simp [Injecting.new, Injector.new] at h
  idle _ _ := rfl
  status _ h := by cases h
  notes _ := .of_measured rfl ⟨fun h => (by cases h), fun h => by cases h⟩

theorem injecting_refines {s : Injecting κ T} {log : List (InjectorEvent κ T)}
    (h : ((injector κ T).logged Injecting.events).Reaches anyStep (.new, []) (s, log)) :
    ∃ x, Trace AtomicQueue.Step .new log x ∧ ∃ g, s.Refines g x :=
  System.Reaches.trace (R := fun s x => ∃ g, Injecting.Refines s g x)
    (show ((injector κ T).logged Injecting.events).Reaches (fun x a => anyStep x.1 a) _ _ from h)
    ⟨_, .nil _, _, Injecting.refines_new⟩ fun s x act hR he _ => hR.elim fun g hg => by
      cases act with
      | call d k => exact hg.call he
      | step d a => exact hg.follows he
      | fail d => exact hg.fail he

/-- Every run of any number of pushes, steals, batch steals, `is_empty` and `len` calls has the
events of a run of an atomic first-in first-out queue, with one effect of each call between its
start and its return: a push takes effect at its tail exchange and a claim at its head
exchange, a claim gets the oldest tasks and hands out exactly these, `Empty` is answered only
when the queue is empty, and `len` answers the length that the queue had when the call loaded
the head. `is_empty` is true only when the queue is empty, and false only when the call has
seen it not empty, or found the head at the end of a block where the claim of the last slot
has not moved it on yet: an empty queue may then look not empty. The indices of the code are
these as long as there are fewer than `2 ^ 62` pushes (`injector_indices`). -/
theorem injector_linearizable {s : Injecting κ T} {log : List (InjectorEvent κ T)}
    (h : ((injector κ T).logged Injecting.events).Reaches anyStep (.new, []) (s, log)) :
    ∃ x, Trace AtomicQueue.Step .new log x := by
  obtain ⟨x, hx, -⟩ := injecting_refines h
  exact ⟨x, hx⟩

theorem injector_linearizable_stolen :
    ∃ x, Trace AtomicQueue.Step .new
      (((injector (Fin 2) Nat).logged Injecting.events).after (.new, [])
        (stolenRun (.stealBatchAndPop .fifo))).2 x :=
  injector_linearizable (System.reaches_after (by decide +kernel) (System.meets_anyStep _))

theorem AtomicQueue.Step.count {e : InjectorEvent κ T} (h : x.Step e y) :
    y.claimed + y.queue.length = x.claimed + x.queue.length + e.pushes.length := by
  cases h with
  | push c t hst =>
    simp only [List.length_append, InjectorEvent.pushes]
    rfl
  | claim c op n hst hpos hmost hlen hend =>
    simp only [List.length_drop, InjectorEvent.pushes, List.length_nil]
    omega
  | _ => rfl

theorem AtomicQueue.count {log : List (InjectorEvent κ T)} (h : Trace AtomicQueue.Step x log y) :
    y.claimed + y.queue.length =
      x.claimed + x.queue.length + (log.flatMap InjectorEvent.pushes).length := by
  induction h with
  | nil => rfl
  | cons hstep _ ih =>
    rw [ih, hstep.count, List.flatMap_cons, List.length_append]
    omega

/-- The indices of an injector that has had `n` pushes. Each lap has 63 slots and takes 128 of
them, so that none wraps around before there have been `2 ^ 62` pushes. -/
theorem injector_indices {s : Injecting κ T} {log : List (InjectorEvent κ T)} {n : Nat}
    (h : ((injector κ T).logged Injecting.events).Reaches anyStep (.new, []) (s, log))
    (hn : n = (log.flatMap InjectorEvent.pushes).length) :
    s.queue.tail.index ≤ 2 * (n + n / 63) + 1 ∧ s.queue.head.index ≤ 2 * (n + n / 63) + 1 := by
  obtain ⟨x, hx, g, hg⟩ := injecting_refines h
  have hcount := AtomicQueue.count hx
  have hlen := hg.owned.length
  have hle := hg.owned.head_le
  rw [hg.abstracts.claimed, hg.abstracts.queue, List.length_drop, hlen, ← hn] at hcount
  simp only [AtomicQueue.new, List.length_nil, ticket] at hcount
  omega

end Nacl
