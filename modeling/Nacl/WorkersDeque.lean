import Nacl.WorkersSteps

/-! The worker queues as double-ended queues whose operations are atomic: every run of owners
and thieves has the events of a run of these. -/

namespace Nacl

open Guarded Ring

variable {κ T : Type*}

/-- Where the call of a party is. `seen` tells whether the thief found the queue empty when it
loaded the front index; a thief holds the tasks that it took, the oldest one first. -/
inductive WorkStatus (κ T : Type*)
  | idle
  | called (k : WorkCall κ T) (seen : Bool)
  | took (t : T)
  | holding (op : Theft) (v : κ) (hand : List T)
  | answered (r : Answer T)

/-- `late v` is there when `Empty` was answered with one task left in the queue of `v`. It tells
which parties have begun a call since; these do not get that task. -/
structure AtomicDeques (κ T : Type*) where
  flavor : κ → Flavor
  queue : κ → List T
  status : κ → WorkStatus κ T
  late : κ → Option (κ → Bool)

def AtomicDeques.new (flavor : κ → Flavor) : AtomicDeques κ T :=
  ⟨flavor, fun _ => [], fun _ => .idle, fun _ => none⟩

/-- The task that the call returns and those that it moves, in the order they were taken: from
a FIFO queue it returns the first one, from a LIFO queue the last one. -/
def Theft.keeps {α : Type*} (src : Flavor) (hand : List α) : Theft → Option α × List α
  | .batch => (none, hand)
  | .steal | .batchAndPop =>
    match src with
    | .fifo => (hand.head?, hand.tail)
    | .lifo => (hand.getLast?, hand.dropLast)

/-- The moved tasks change their order when the two queues differ in flavor. -/
def Theft.deliver {α : Type*} (src dest : Flavor) (hand : List α) (op : Theft) :
    Option α × List α :=
  ((op.keeps src hand).1,
    if src = dest then (op.keeps src hand).2 else (op.keeps src hand).2.reverse)

/-- The last task of a LIFO queue while its owner is in `pop`. -/
def AtomicDeques.Last (x : AtomicDeques κ T) (v : κ) : Prop :=
  (∃ t, x.queue v = [t]) ∧ (∃ b, x.status v = .called .pop b) ∧ x.flavor v = .lifo

/-- The call of party `c` is not too late for the tasks of `v`. -/
def AtomicDeques.InTime (x : AtomicDeques κ T) (c v : κ) : Prop :=
  ∀ l, x.late v = some l → l c = false

def AtomicDeques.setLate (x : AtomicDeques κ T) (late : κ → Option (κ → Bool)) :
    AtomicDeques κ T := { x with late := late }

section

variable [DecidableEq κ]

def AtomicDeques.setStatus (x : AtomicDeques κ T) (c : κ) (st : WorkStatus κ T) :
    AtomicDeques κ T := { x with status := Function.update x.status c st }

def AtomicDeques.setQueue (x : AtomicDeques κ T) (c : κ) (ts : List T) : AtomicDeques κ T :=
  { x with queue := Function.update x.queue c ts }

/-- Party `c` begins a call. -/
def AtomicDeques.enter (x : AtomicDeques κ T) (c : κ) : AtomicDeques κ T :=
  x.setLate fun v => (x.late v).map fun l => Function.update l c true

/-- A thief answers `Empty` and leaves the last task of `v` to the calls in progress. -/
def AtomicDeques.pass (x : AtomicDeques κ T) (v : κ) : AtomicDeques κ T :=
  x.setLate (Function.update x.late v (some ((x.late v).getD fun _ => false)))

/-- Tasks of `v` are taken. -/
def AtomicDeques.settle (x : AtomicDeques κ T) (v : κ) : AtomicDeques κ T :=
  x.setLate (Function.update x.late v none)

/-- One event of the atomic queues. A thief takes at most half of a queue at once, rounded up,
and from a LIFO queue it may go on taking single tasks. It may answer `Empty` with the last task
of a LIFO queue there when the owner is in `pop`, but then only that `pop` or a thief whose call
has begun before can get the task, which is as if it had been taken before the answer. -/
inductive AtomicDeques.Step : AtomicDeques κ T → WorkEvent κ T → AtomicDeques κ T → Prop
  | call (x : AtomicDeques κ T) (c : κ) (k : WorkCall κ T) (h : x.status c = .idle) :
    Step x (.called c k) ((x.setStatus c (.called k false)).enter c)
  | push (x : AtomicDeques κ T) (c : κ) (t : T) (b : Bool) (h : x.status c = .called (.push t) b) :
    Step x (.pushed c t)
      ((x.setQueue c (x.queue c ++ [t])).setStatus c (.answered .pushed))
  | takeFirst (x : AtomicDeques κ T) (c : κ) (t : T) (rest : List T) (b : Bool)
      (h : x.status c = .called .pop b) (hf : x.flavor c = .fifo) (hq : x.queue c = t :: rest) :
    Step x (.took c) (((x.setQueue c rest).setStatus c (.took t)).settle c)
  | takeLast (x : AtomicDeques κ T) (c : κ) (t : T) (rest : List T) (b : Bool)
      (h : x.status c = .called .pop b) (hf : x.flavor c = .lifo) (hq : x.queue c = rest ++ [t]) :
    Step x (.took c) (((x.setQueue c rest).setStatus c (.took t)).settle c)
  | sawNone (x : AtomicDeques κ T) (c : κ) (b : Bool) (h : x.status c = .called .pop b)
      (hq : x.queue c = []) : Step x (.sawNone c) (x.setStatus c (.answered (.popped none)))
  | query (x : AtomicDeques κ T) (c : κ) (q : Query) (b : Bool)
      (h : x.status c = .called (.query q) b) :
    Step x (.queried c q (x.queue c).length)
      (x.setStatus c (.answered (q.answer (x.queue c).length)))
  | look (x : AtomicDeques κ T) (c : κ) (op : Theft) (v : κ) (b : Bool)
      (h : x.status c = .called (.steal op v) b) :
    Step x (.looked c) (x.setStatus c (.called (.steal op v) (x.queue v).isEmpty))
  | sawEmpty (x : AtomicDeques κ T) (c : κ) (op : Theft) (v : κ) (b : Bool)
      (h : x.status c = .called (.steal op v) b) (hv : b = true ∨ x.queue v = []) :
    Step x (.sawEmpty c) (x.setStatus c (.answered .empty))
  | sawLast (x : AtomicDeques κ T) (c : κ) (op : Theft) (v : κ)
      (h : x.status c = .called (.steal op v) false) (hv : x.Last v) :
    Step x (.sawEmpty c) ((x.setStatus c (.answered .empty)).pass v)
  | sawRetry (x : AtomicDeques κ T) (c : κ) (op : Theft) (v : κ) (b : Bool)
      (h : x.status c = .called (.steal op v) b) :
    Step x (.sawRetry c) (x.setStatus c (.answered .retry))
  | steal (x : AtomicDeques κ T) (c : κ) (op : Theft) (v : κ) (hand ts rest : List T)
      (h : (∃ b, x.status c = .called (.steal op v) b ∧ hand = []) ∨
        x.status c = .holding op v hand ∧ x.flavor v = .lifo ∧ ts.length = 1)
      (hq : x.queue v = ts ++ rest) (hpos : 0 < ts.length)
      (hhalf : 2 * ts.length ≤ (x.queue v).length + 1)
      (hmax : (hand ++ ts).length ≤ maxBatch) (hlate : x.InTime c v) :
    Step x (.stole c ts.length)
      (((x.setQueue v rest).setStatus c (.holding op v (hand ++ ts))).settle v)
  | arrive (x : AtomicDeques κ T) (c : κ) (op : Theft) (v : κ) (hand : List T)
      (h : x.status c = .holding op v hand) :
    Step x (.arrived c ((op.deliver (x.flavor v) (x.flavor c) hand).2.map some))
      ((x.setQueue c (x.queue c ++ (op.deliver (x.flavor v) (x.flavor c) hand).2)).setStatus c
        (.answered (.success ((op.deliver (x.flavor v) (x.flavor c) hand).1.map some))))
  | leave (x : AtomicDeques κ T) (c : κ) (r : Answer T) (h : x.status c = .answered r) :
    Step x (.returned c r) (x.setStatus c .idle)
  | leaveWith (x : AtomicDeques κ T) (c : κ) (t : T) (h : x.status c = .took t) :
    Step x (.returned c (.popped (some (some t)))) (x.setStatus c .idle)

end

def WorkStatus.Calls (st : WorkStatus κ T) (k : WorkCall κ T) : Prop := ∃ b, st = .called k b

def WorkStatus.Took (st : WorkStatus κ T) (x : Option T) : Prop := ∃ t, st = .took t ∧ x = some t

def WorkStatus.Answers (st : WorkStatus κ T) (r : Answer T) : Prop :=
  st = .answered r ∨ ∃ t, st = .took t ∧ r = .popped (some (some t))

def ResizeFor.StatusAt (st : WorkStatus κ T) : ResizeFor T (Raid κ) → Prop
  | .push t _ => st.Calls (.push t)
  | .pop x => st.Took x
  | .reserve _ k => st.Calls (.steal k.op k.victim)

def WorkerPc.StatusAt (w : Worker T) (st : WorkStatus κ T) : WorkerPc T (Raid κ) → Prop
  | .idle => st = .idle
  | .pushBack t | .pushFront t _ | .pushBuffer t _ _ | .pushGrown t _ | .pushWrite t _ _
  | .pushStore t _ => st.Calls (.push t)
  | .popBack | .popFront _ | .popAdd _ _ => st.Calls .pop
  | .popUndo _ => st = .answered (.popped none)
  | .popBuffer f _ => st.Took (w.buffer.read f)
  | .popRead f _ p => st.Took ((w.heap p).read f)
  | .popped x => st.Took x
  | .reserveBack _ k | .reserveFront _ k _ | .reserveBuffer _ k _ | .reserved _ k =>
    st.Calls (.steal k.op k.victim)
  | .resize _ k _ => k.StatusAt st

/-- What the thief returns and moves, as far as it has got: `g` is what it moved, in the order
in which the room that it reserved holds it. -/
structure Loot.Holds (h : Loot κ T) (w : Worker T) (src : Flavor) (hand g : List T) : Prop where
  size : hand.length = h.op.skip + h.m
  task : h.op ≠ .batch → h.task = (h.op.keeps src hand).1
  length : g.length = h.m
  moved : ∀ j, j < h.m → (w.heap h.dest).read (h.destB + j) = g[j]?

def WorkStatus.Robs (st : WorkStatus κ T) (w : Worker T) (h : Loot κ T) : Prop :=
  if h.GivesUp then st.Calls (.steal h.op h.victim)
  else ∃ hand, st = .holding h.op h.victim hand ∧
    h.Holds w .lifo hand (h.op.keeps .lifo hand).2

/-- The index of the task that is at place `j` when the outer `i` pairs of `m` tasks have been
swapped. -/
def mirror (m i j : Nat) : Nat := if j < i ∨ m - i ≤ j then m - 1 - j else j

/-- A thief that has swapped the outer `i` pairs of the tasks that it moved. -/
structure Loot.Turned (h : Loot κ T) (w : Worker T) (hand : List T) (i : Nat) : Prop where
  size : hand.length = h.op.skip + h.m
  task : h.op ≠ .batch → h.task = (h.op.keeps .lifo hand).1
  length : (h.op.keeps .lifo hand).2.length = h.m
  le : i ≤ h.m / 2
  moved : ∀ j, j < h.m →
    (w.heap h.dest).read (h.destB + j) = (h.op.keeps .lifo hand).2[mirror h.m i j]?

def Workers.StatusAt (s : Workers κ T) (x : AtomicDeques κ T) (d : κ) : WorkPc κ T → Prop
  | .own p => p.StatusAt (s.worker d) (x.status d)
  | .lifoStore _ | .lifoFront _ | .lifoExchange _ _ => (x.status d).Calls .pop
  | .lifoUndo _ => x.status d = .answered (.popped none)
  | .lifoCell b f =>
    if f < b then (x.status d).Took ((s.worker d).buffer.read b) else (x.status d).Calls .pop
  | .lifoRead b f p =>
    if f < b then (x.status d).Took (((s.worker d).heap p).read b) else (x.status d).Calls .pop
  | .lifoRestore _ r => (x.status d).Answers (.popped r)
  | .queryBack q | .queryFront q _ => (x.status d).Calls (.query q)
  | .raidFront op v => (x.status d).Calls (.steal op v)
  | .raidBack op v f => ∃ b, x.status d = .called (.steal op v) b ∧ (b = true ∨ f ≤ s.base v)
  | .raidDest k _ | .raidBuffer k _ _ => (x.status d).Calls (.steal k.op k.victim)
  | .raidTask h | .raidRead h _ | .raidWrite h _ _ | .raidCheck h | .raidExchange h | .lootFirst h =>
    (x.status d).Calls (.steal h.op h.victim)
  | .lootBack h | .lootRead h | .lootCheck h _ | .lootExchange h _ =>
    (x.status d).Robs (s.worker d) h
  | .lootWrite h y => ∃ hand t, x.status d = .holding h.op h.victim (hand ++ [t]) ∧ y = some t ∧
      h.Holds (s.worker d) .lifo hand (h.op.keeps .lifo hand).2
  | .swapFirst h i => ∃ hand, x.status d = .holding h.op h.victim hand ∧
      h.Turned (s.worker d) hand i
  | .swapLast h i y => ∃ hand, x.status d = .holding h.op h.victim hand ∧
      h.Turned (s.worker d) hand i ∧ y = (h.op.keeps .lifo hand).2[i]?
  | .swapStore h i y z => ∃ hand, x.status d = .holding h.op h.victim hand ∧
      h.Turned (s.worker d) hand i ∧ y = (h.op.keeps .lifo hand).2[i]? ∧
      z = (h.op.keeps .lifo hand).2[h.m - 1 - i]?
  | .swapStored h i y => ∃ hand, x.status d = .holding h.op h.victim hand ∧
      y = (h.op.keeps .lifo hand).2[i]? ∧ hand.length = h.op.skip + h.m ∧
      (h.op ≠ .batch → h.task = (h.op.keeps .lifo hand).1) ∧
      (h.op.keeps .lifo hand).2.length = h.m ∧
      ∀ j, j < h.m → ((s.worker d).heap h.dest).read (h.destB + j) =
        (h.op.keeps .lifo hand).2[if j = i then h.m - 1 - i else mirror h.m i j]?
  | .lootStore h => ∃ hand, x.status d = .holding h.op h.victim hand ∧
      h.Holds (s.worker d) (s.flavor h.victim) hand
        (h.op.deliver (s.flavor h.victim) (s.flavor d) hand).2
  | .answer r => (x.status d).Answers r

def Workers.contents (s : Workers κ T) (v : κ) : List (Option T) :=
  (s.worker v).shared.window (s.base v) (s.limit v)

structure Workers.Refines (s : Workers κ T) (x : AtomicDeques κ T) : Prop where
  ok : ∀ d, s.CpuOk d
  flavor : x.flavor = s.flavor
  queue : ∀ v, s.contents v = (x.queue v).map some
  status : ∀ d, s.StatusAt x d (s.pc d)

section land

variable {s s' : Workers κ T} {x x' : AtomicDeques κ T} {c d v : κ} {p : WorkPc κ T}

theorem WorkerPc.StatusAt.withFront {w : Worker T} {st : WorkStatus κ T} {q : WorkerPc T (Raid κ)}
    (h : q.StatusAt w st) (g : Nat) : q.StatusAt { w with front := g } st := by
  cases q <;> exact h

/-- The call of a party is where it was when the others have taken steps. -/
theorem Workers.StatusAt.frame (h : s.StatusAt x d p)
    (hw : ∃ g, s'.worker d = { s.worker d with front := g }) (hfl : s'.flavor = s.flavor)
    (hst : x'.status d = x.status d) (hbase : ∀ v, s.base v ≤ s'.base v) : s'.StatusAt x' d p := by
  obtain ⟨g, hg⟩ := hw
  cases p with
  | own q =>
    rw [Workers.StatusAt, hst, hg]
    exact WorkerPc.StatusAt.withFront h g
  | raidBack op v f =>
    obtain ⟨b, hb, hv⟩ := h
    rw [Workers.StatusAt, hst]
    exact ⟨b, hb, hv.imp_right fun hle => hle.trans (hbase v)⟩
  | lootStore h' =>
    rw [Workers.StatusAt, hst, hg, hfl]
    obtain ⟨hand, hh, hk⟩ := h
    exact ⟨hand, hh, hk.size, hk.task, hk.length, hk.moved⟩
  | lootWrite h' y =>
    rw [Workers.StatusAt, hst, hg]
    obtain ⟨hand, t, hh, hy, hk⟩ := h
    exact ⟨hand, t, hh, hy, hk.size, hk.task, hk.length, hk.moved⟩
  | lootBack h' | lootRead h' | lootCheck h' y | lootExchange h' y =>
    rw [Workers.StatusAt, hst, hg, WorkStatus.Robs]
    rw [Workers.StatusAt, WorkStatus.Robs] at h
    split
    · rename_i hgive
      rwa [if_pos hgive] at h
    · rename_i hgive
      rw [if_neg hgive] at h
      obtain ⟨hand, hh, hk⟩ := h
      exact ⟨hand, hh, hk.size, hk.task, hk.length, hk.moved⟩
  | swapFirst h' i =>
    rw [Workers.StatusAt, hst, hg]
    obtain ⟨hand, hh, hk⟩ := h
    exact ⟨hand, hh, hk.size, hk.task, hk.length, hk.le, hk.moved⟩
  | swapLast h' i y =>
    rw [Workers.StatusAt, hst, hg]
    obtain ⟨hand, hh, hk, hy⟩ := h
    exact ⟨hand, hh, ⟨hk.size, hk.task, hk.length, hk.le, hk.moved⟩, hy⟩
  | swapStore h' i y z =>
    rw [Workers.StatusAt, hst, hg]
    obtain ⟨hand, hh, hk, hy⟩ := h
    exact ⟨hand, hh, ⟨hk.size, hk.task, hk.length, hk.le, hk.moved⟩, hy⟩
  | swapStored h' i y =>
    rw [Workers.StatusAt, hst, hg]
    exact h
  | lifoCell b f =>
    rw [Workers.StatusAt, hst, hg]
    exact h
  | lifoRead b f q =>
    rw [Workers.StatusAt, hst, hg]
    exact h
  | _ =>
    rw [Workers.StatusAt, hst]
    exact h

theorem Workers.Refines.setLate (h : s.Refines x) (late : κ → Option (κ → Bool)) :
    s.Refines (x.setLate late) where
  ok := h.ok
  flavor := h.flavor
  queue := h.queue
  status d := (h.status d).frame ⟨(s.worker d).front, rfl⟩ rfl rfl fun _ => le_rfl

theorem Workers.Refines.statusAt (h : s.Refines x) (hp : s.pc c = p) : s.StatusAt x c p :=
  hp ▸ h.status c

/-- The oldest tasks of a queue are where a thief reads them. -/
theorem Workers.Refines.read (h : s.Refines x) {j : Nat} (hj : s.base v + j < s.limit v) :
    (s.worker v).shared.read (s.base v + j) = (x.queue v)[j]? :=
  (Buffer.window_eq_map.mp (h.queue v)).2 j hj

theorem Workers.Refines.length (h : s.Refines x) : (x.queue v).length = s.limit v - s.base v :=
  (Buffer.window_eq_map.mp (h.queue v)).1

/-- The atomic queues after a step of `c`. -/
structure AtomicDeques.Moves (x' x : AtomicDeques κ T) (c : κ) : Prop where
  flavor : x'.flavor = x.flavor
  status : ∀ d, d ≠ c → x'.status d = x.status d

theorem Workers.Refines.land (h : s.Refines x) (ha : s'.After s) (hfl : s'.flavor = s.flavor)
    (hpc : ∀ d, d ≠ c → s'.pc d = s.pc d)
    (hw : ∀ d, d ≠ c → ∃ g, s'.worker d = { s.worker d with front := g })
    (hx : x'.Moves x c) (hqueue : ∀ v, s'.contents v = (x'.queue v).map some)
    (hc : s'.StatusAt x' c (s'.pc c)) : s'.Refines x' where
  ok := ha.ok
  flavor := by rw [hx.flavor, hfl, h.flavor]
  queue := hqueue
  status d := by
    by_cases hd : d = c
    · rw [hd]
      exact hc
    · rw [hpc d hd]
      exact (h.status d).frame (hw d hd) hfl (hx.status d hd) fun v => (ha.rely v).base

theorem AtomicDeques.Moves.refl (x : AtomicDeques κ T) (c : κ) : x.Moves x c := ⟨rfl, fun _ _ => rfl⟩

variable [DecidableEq κ]

theorem AtomicDeques.Moves.set (x : AtomicDeques κ T) (c v : κ) (ts : List T) (st : WorkStatus κ T) :
    ((x.setQueue v ts).setStatus c st).Moves x c :=
  ⟨rfl, fun _ hd => Function.update_of_ne hd _ _⟩

theorem AtomicDeques.Moves.setStatus (x : AtomicDeques κ T) (c : κ) (st : WorkStatus κ T) :
    (x.setStatus c st).Moves x c := ⟨rfl, fun _ hd => Function.update_of_ne hd _ _⟩

@[simp] theorem AtomicDeques.status_setStatus (x : AtomicDeques κ T) (c : κ) (st : WorkStatus κ T) :
    (x.setStatus c st).status c = st := Function.update_self _ _ _

@[simp] theorem AtomicDeques.queue_setStatus (x : AtomicDeques κ T) (c : κ) (st : WorkStatus κ T) :
    (x.setStatus c st).queue = x.queue := rfl

@[simp] theorem AtomicDeques.queue_setQueue (x : AtomicDeques κ T) (c : κ) (ts : List T) :
    (x.setQueue c ts).queue c = ts := Function.update_self _ _ _

theorem AtomicDeques.queue_setQueue_of_ne (x : AtomicDeques κ T) (ts : List T) (hd : d ≠ c) :
    (x.setQueue c ts).queue d = x.queue d := Function.update_of_ne hd _ _

/-- A step of `c` that changes no queue but its own. -/
theorem Workers.Refines.put {w : Worker T} (h : s.Refines x) (ha : ((s.put c w).goto c p).After s)
    (hx : x'.Moves x c) (hqueue : w.shared.window (w.base p.owner) (w.limit p) = (x'.queue c).map some)
    (hother : ∀ v, v ≠ c → x'.queue v = x.queue v)
    (hc : ((s.put c w).goto c p).StatusAt x' c p) : ((s.put c w).goto c p).Refines x' := by
  have hworker : ∀ v, v ≠ c → ((s.put c w).goto c p).worker v = s.worker v :=
    fun v hv => Workers.worker_put_of_ne w hv
  refine h.land ha rfl (fun d hd => Workers.pc_goto_of_ne p hd)
    (fun d hd => ⟨(s.worker d).front, hworker d hd⟩) hx (fun v => ?_) ?_
  · by_cases hv : v = c
    · subst hv
      rw [Workers.contents, Workers.base, Workers.limit, Workers.pc_goto_self,
        Workers.worker_goto, Workers.worker_put_self]
      exact hqueue
    · rw [Workers.contents, Workers.base, Workers.limit, hworker v hv,
        Workers.pc_goto_of_ne p hv, hother v hv]
      exact h.queue v
  · rw [Workers.pc_goto_self]
    exact hc

/-- A step of `c` that changes nothing but its place, which may take a task off its queue. -/
theorem Workers.Refines.leap (h : s.Refines x) (ha : (s.goto c p).After s) (hx : x'.Moves x c)
    (hqueue : (s.worker c).shared.window ((s.worker c).base p.owner) ((s.worker c).limit p) =
      (x'.queue c).map some)
    (hother : ∀ v, v ≠ c → x'.queue v = x.queue v) (hc : (s.goto c p).StatusAt x' c p) :
    (s.goto c p).Refines x' := by
  have hput : s.put c (s.worker c) = s := Workers.put_self
  have ha' : ((s.put c (s.worker c)).goto c p).After s := by
    rw [hput]
    exact ha
  have hc' : ((s.put c (s.worker c)).goto c p).StatusAt x' c p := by
    rw [hput]
    exact hc
  have hland := h.put ha' hx hqueue hother hc'
  rwa [hput] at hland

theorem Workers.Refines.goto (h : s.Refines x) (ha : (s.goto c p).After s)
    (hbase : (s.worker c).base p.owner = s.base c) (hlimit : (s.worker c).limit p = s.limit c)
    (hx : x'.Moves x c) (hqueue : x'.queue = x.queue) (hc : (s.goto c p).StatusAt x' c p) :
    (s.goto c p).Refines x' := by
  refine h.leap ha hx ?_ (fun v _ => by rw [hqueue]) hc
  rw [hbase, hlimit, hqueue]
  exact h.queue c

/-- A thief moves `front` past the `n` oldest tasks of a queue. -/
theorem Workers.Refines.exchange {f n : Nat} (h : s.Refines x)
    (ha : ((s.put v { s.worker v with front := f + n }).goto c p).After s)
    (hr : s.Reach v f n) (hf : (s.worker v).front = f)
    (hplace : ∀ w : Worker T, w.base p.owner = w.front ∧ w.limit p = w.limit (s.pc c))
    (hx : x'.Moves x c) (hqueue : x'.queue v = (x.queue v).drop n)
    (hother : ∀ u, u ≠ v → x'.queue u = x.queue u) (hc0 : s.base c = (s.worker c).front)
    (hc : ((s.put v { s.worker v with front := f + n }).goto c p).StatusAt x' c p) :
    ((s.put v { s.worker v with front := f + n }).goto c p).Refines x' := by
  have hbase := hr.base_eq (h.ok v).owner hf
  obtain ⟨hn, hle⟩ := hr.le_limit (h.ok v).owner hbase.le
  have hworker : ∀ u, u ≠ v →
      ((s.put v { s.worker v with front := f + n }).goto c p).worker u = s.worker u :=
    fun u hu => Workers.worker_put_of_ne _ hu
  have hvictim : ((s.put v { s.worker v with front := f + n }).goto c p).worker v =
      { s.worker v with front := f + n } := Workers.worker_put_self _
  have hlimit : ∀ u, ((s.put v { s.worker v with front := f + n }).goto c p).limit u =
      s.limit u := by
    intro u
    have hpc : ∀ w : Worker T, w.limit
        (((s.put v { s.worker v with front := f + n }).goto c p).pc u) = w.limit (s.pc u) := by
      intro w
      by_cases hu : u = c
      · subst hu
        rw [Workers.pc_goto_self]
        exact (hplace w).2
      · rw [Workers.pc_goto_of_ne p hu]
        rfl
    rw [Workers.limit, hpc]
    by_cases hu : u = v
    · subst hu
      rw [hvictim, Worker.limit_withFront]
      rfl
    · rw [hworker u hu]
      rfl
  have hbases : ∀ u, u ≠ v → ((s.put v { s.worker v with front := f + n }).goto c p).base u =
      s.base u := by
    intro u hu
    by_cases hc' : u = c
    · subst hc'
      rw [Workers.base, Workers.pc_goto_self, hworker u hu, (hplace _).1, hc0]
    · rw [Workers.base, Workers.pc_goto_of_ne p hc', hworker u hu]
      rfl
  have hbasev : ((s.put v { s.worker v with front := f + n }).goto c p).base v = f + n := by
    have hkeep : ∀ q : WorkerPc T (Raid κ), (s.worker v).base q = f →
        ({ s.worker v with front := f + n } : Worker T).base q = f + n ∨ ∃ g, q = .popUndo g := by
      intro q hq
      cases q with
      | popUndo g => exact .inr ⟨g, rfl⟩
      | _ => exact .inl rfl
    rw [Workers.base, hvictim]
    by_cases hc' : v = c
    · subst hc'
      rw [Workers.pc_goto_self, (hplace _).1]
    · rw [Workers.pc_goto_of_ne p hc']
      obtain hq | ⟨g, hg⟩ := hkeep _ hbase
      · exact hq
      · -- a pop of the victim that lost the race has moved `front` past every task
        have hlost := (h.ok v).owner.ok.known
        rw [Worker.base_deque, hg] at hlost
        rw [hg] at hbase
        have hfront : (s.worker v).front = g + 1 := hlost.2
        have hgf : g = f := hbase
        omega
  refine h.land ha rfl (fun d hd => Workers.pc_goto_of_ne p hd) (fun d hd => ?_) hx (fun u => ?_) ?_
  · by_cases hd' : d = v
    · subst hd'
      exact ⟨f + n, hvictim⟩
    · exact ⟨(s.worker d).front, hworker d hd'⟩
  · by_cases hu : u = v
    · subst hu
      rw [Workers.contents, hlimit, hbasev, hqueue, hvictim, Buffer.window_eq_map, List.length_drop,
        h.length]
      refine ⟨?_, fun j hj => ?_⟩
      · change s.base u = f at hbase
        omega
      · have hread := h.read (v := u) (j := n + j) (by change s.base u = f at hbase; omega)
        change s.base u = f at hbase
        rw [hbase, ← Nat.add_assoc] at hread
        rw [List.getElem?_drop]
        exact hread
    · rw [Workers.contents, hlimit, hbases u hu, hworker u hu, hother u hu]
      exact h.queue u
  · rw [Workers.pc_goto_self]
    exact hc

/-- The access of `c` at this place has events that the atomic queues allow. -/
def Workers.Follows (s : Workers κ T) (x : AtomicDeques κ T) (c : κ) (a : Nat) (p : WorkPc κ T) :
    Prop :=
  ∃ y, Trace AtomicDeques.Step x (s.occur c p) y ∧ (s.advance c a p).Refines y

/-- A step of `c` that changes nothing but its place, and that the others do not see. -/
theorem Workers.Refines.silent (h : s.Refines x) (ha : (s.goto c p).After s)
    (hbase : (s.worker c).base p.owner = s.base c) (hlimit : (s.worker c).limit p = s.limit c)
    (hc : (s.goto c p).StatusAt x c p) :
    ∃ y, Trace AtomicDeques.Step x [] y ∧ (s.goto c p).Refines y :=
  ⟨x, .nil x, h.goto ha hbase hlimit (.refl x c) rfl hc⟩

end land

section own

variable {s : Workers κ T} {x : AtomicDeques κ T} {c : κ} {a b : Nat}

/-- An access of the owner in `push`, `reserve`, `resize` or the pop of a FIFO queue that the
others do not see. -/
theorem WorkerPc.StatusAt.step {w : Worker T} {st : WorkStatus κ T} {q : WorkerPc T (Raid κ)}
    (h : q.StatusAt w st) (hidle : (w.step a q).2 ≠ .idle) (hadd : ∀ b len, q ≠ .popAdd b len) :
    (w.step a q).2.StatusAt (w.step a q).1 st := by
  cases q with
  | pushBuffer t b f =>
    simp only [Worker.step]
    split <;> exact h
  | popFront b =>
    simp only [Worker.step] at hidle ⊢
    split
    · rename_i hb
      exact absurd (if_pos hb) hidle
    · exact h
  | popAdd b len => exact absurd rfl (hadd b len)
  | popRead f len r =>
    simp only [Worker.step]
    split <;> exact h
  | reserveBuffer n k len =>
    simp only [Worker.step]
    split <;> exact h
  | resize newCap k r =>
    simp only [Worker.step]
    cases (w.resizeStep newCap a r).2 with
    | none => cases k <;> exact h
    | some r' => exact h
  | idle | pushStore | popUndo | popped => exact absurd rfl hidle
  | _ => exact h

theorem Workers.Refines.ownContents {q : WorkerPc T (Raid κ)} (h : s.Refines x)
    (hp : s.pc c = .own q) (ha : q.allocates = true → s.Free c a) :
    (x.queue c).map some ++ ((s.worker c).events q).filterMap WorkerEvent.pushes =
      ((s.worker c).events q).filterMap WorkerEvent.takes ++
        ((s.worker c).step a q).1.contents
          (((s.worker c).step a q).1.base ((s.worker c).step a q).2) := by
  have hok : (s.worker c).Ok q := ((h.ok c).ownerAt hp).ok
  have hcontents : s.contents c = (s.worker c).contents ((s.worker c).base q) := by
    rw [Workers.contents, Workers.base, Workers.limit, hp]
    rfl
  rw [← h.queue c, hcontents]
  exact hok.contents_step fun hal => (ha hal).1

theorem Workers.Refines.ownKeeps {q : WorkerPc T (Raid κ)} (h : s.Refines x)
    (hp : s.pc c = .own q) (ha : q.allocates = true → s.Free c a)
    (hpush : ((s.worker c).events q).filterMap WorkerEvent.pushes = [])
    (htake : ((s.worker c).events q).filterMap WorkerEvent.takes = []) :
    ((s.worker c).step a q).1.contents
      (((s.worker c).step a q).1.base ((s.worker c).step a q).2) = (x.queue c).map some := by
  have hcontents := h.ownContents hp ha
  rw [hpush, htake, List.append_nil, List.nil_append] at hcontents
  exact hcontents.symm

variable [DecidableEq κ]

theorem Workers.Refines.ownSilent {q : WorkerPc T (Raid κ)} (h : s.Refines x)
    (hp : s.pc c = .own q) (ha : q.allocates = true → s.Free c a)
    (hlifo : s.flavor c = .lifo → ∀ b, q ≠ .popFront b)
    (hev : (s.worker c).events q = []) (hidle : ((s.worker c).step a q).2 ≠ .idle)
    (hadd : ∀ b len, q ≠ .popAdd b len) :
    ∃ y, Trace AtomicDeques.Step x [] y ∧
      ((s.put c ((s.worker c).step a q).1).goto c (.own ((s.worker c).step a q).2)).Refines y := by
  have hcontents := h.ownKeeps hp ha (by rw [hev]; rfl) (by rw [hev]; rfl)
  refine ⟨x, .nil x, h.put (Workers.ok_own h.ok hp ha hlifo) (.refl x c) hcontents
    (fun _ _ => rfl) ?_⟩
  have hst : q.StatusAt (s.worker c) (x.status c) := h.statusAt hp
  rw [Workers.StatusAt, Workers.worker_goto, Workers.worker_put_self]
  exact hst.step hidle hadd

end own

end Nacl
