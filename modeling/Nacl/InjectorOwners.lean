import Nacl.Injector

/-! Who may still use which slot and which block of an injector. A position is an index
without its lowest bit; position `p` is the slot `p % 64` of the block of lap `p / 64`, and
offset 63 stands for the change to the next block. -/

namespace Nacl

/-- Who frees the block of a lap: nobody yet while its last slot is unclaimed, a party that
is done with the slots from `f` on, or the reader of slot `i`. -/
inductive Destroyer (κ : Type*)
  | none
  | party (c : κ) (f : Nat)
  | slot (i : Nat)
  | freed

/-- `addr` gives the block of a lap, `home` says what an address is used for: the lap of its
block or the party that keeps it in advance. `writer` and `reader` are the parties that have
reserved or claimed a position and are not done with it. `tasks` are all pushed tasks. -/
structure Owners (κ T : Type*) where
  addr : Nat → Nat
  home : Nat → Option (Nat ⊕ κ)
  writer : Nat → Option κ
  reader : Nat → Option κ
  destroyer : Nat → Destroyer κ
  tasks : List T

/-- How many slots come before a position. -/
def ticket (p : Nat) : Nat := p - p / 64

variable {κ T : Type*}

/-- The slots from here on have no more use. -/
def Destroyer.frontier : Destroyer κ → Nat
  | .none => 63
  | .party _ f => f
  | .slot i => i + 1
  | .freed => 0

def Owners.new : Owners κ T :=
  ⟨fun _ => 0, fun a => if a = 0 then some (.inl 0) else none, fun _ => none, fun _ => none,
    fun _ => .none, []⟩

def Owners.Alive (g : Owners κ T) (k : Nat) : Prop := g.home (g.addr k) = some (.inl k)

/-- The slot of a position. -/
def Injector.at (q : Injector T) (g : Owners κ T) (p : Nat) : Slot T :=
  q.slot (g.addr (p / 64)) (p % 64)

/-- A position below head `h` and tail `t`, its writer, its reader and who destroys its
block. -/
structure PositionOk (p h t : Nat) (w r : Option κ) (d : Destroyer κ) : Prop where
  writer : w ≠ none → p < t ∧ p % 64 < 63
  reader : r ≠ none → p < h ∧ p % 64 < 63
  done : d.frontier ≤ p % 64 → r = none ∧ w = none
  waits : w ≠ none → p < h → r ≠ none
  asked : d = .slot (p % 64) → r ≠ none

structure Slot.Ok (x : Slot T) (p h t : Nat) (w r : Option κ) (d : Destroyer κ) (tasks : List T) :
    Prop where
  write : x.write = true ↔ p < t ∧ w = none
  task : p < t → w = none → x.task = tasks[ticket p]?
  read : x.read = true → p < h ∧ r = none
  unread : p < h → r = none → x.read = true ∨ d.frontier ≤ p % 64
  destroy : x.destroy = true ∧ x.read = false ↔ d = .slot (p % 64)

structure LapOk (k h : Nat) (d : Destroyer κ) : Prop where
  unclaimed : d = .none ↔ h ≤ 64 * k + 62
  frontier : d.frontier ≤ 63

structure Injector.Indexed (q : Injector T) (g : Owners κ T) : Prop where
  head_le : q.head.index / 2 ≤ q.tail.index / 2
  length : g.tasks.length = ticket (q.tail.index / 2)
  even : q.tail.index % 2 = 0
  more : q.head.index % 2 = 1 → q.head.index / 2 / 64 < q.tail.index / 2 / 64
  headBlock : q.head.index / 2 % 64 < 63 → q.head.block = g.addr (q.head.index / 2 / 64)
  tailBlock : q.tail.index / 2 % 64 < 63 → q.tail.block = g.addr (q.tail.index / 2 / 64)

structure Injector.Linked (q : Injector T) (g : Owners κ T) : Prop where
  live : ∀ a, a ∈ q.live ↔ g.home a ≠ none
  spare : ∀ a c, g.home a = some (.inr c) → q.heap a = Block.new
  home : ∀ a k, g.home a = some (.inl k) → a = g.addr k ∧ k ≤ q.tail.index / 2 / 64
  alive : ∀ k ≤ q.tail.index / 2 / 64, g.destroyer k ≠ .freed → g.Alive k
  freed : ∀ k, g.destroyer k = .freed → ¬ g.Alive k
  linked : ∀ k, g.Alive k → k < q.tail.index / 2 / 64 → g.writer (64 * k + 62) = none →
    (q.heap (g.addr k)).next = some (g.addr (k + 1))
  next : ∀ k a, g.Alive k → (q.heap (g.addr k)).next = some a →
    k < q.tail.index / 2 / 64 ∧ a = g.addr (k + 1)

structure Injector.Owned (q : Injector T) (g : Owners κ T) : Prop
    extends q.Indexed g, q.Linked g where
  lap : ∀ k, LapOk k (q.head.index / 2) (g.destroyer k)
  position : ∀ p, PositionOk p (q.head.index / 2) (q.tail.index / 2) (g.writer p) (g.reader p)
    (g.destroyer (p / 64))
  slot : ∀ p, p % 64 < 63 → g.Alive (p / 64) → (q.at g p).Ok p (q.head.index / 2)
    (q.tail.index / 2) (g.writer p) (g.reader p) (g.destroyer (p / 64)) g.tasks
  headMoves : q.head.index / 2 % 64 = 63 → g.reader (q.head.index / 2 - 1) ≠ none
  tailMoves : q.tail.index / 2 % 64 = 63 → g.writer (q.tail.index / 2 - 1) ≠ none

/-- The position that a push has reserved and not yet marked as written. -/
def InjectorPc.writing : InjectorPc T → Option Nat
  | .pushTailBlock _ tail _ _ | .pushTailIndex _ tail _ _ | .pushNext _ tail _ _
  | .pushWrite _ tail _ _ | .pushState _ tail _ _ => some (tail / 2)
  | _ => none

/-- The block that a push has allocated and not installed. -/
def InjectorPc.spare : InjectorPc T → Option Nat
  | .pushTail _ new | .pushBlock _ _ new | .pushExchange _ _ _ new | .pushWrite _ _ _ new
  | .pushState _ _ _ new => new
  | .pushTailBlock _ _ _ new | .pushTailIndex _ _ _ new | .pushDrop new => some new
  | _ => none

def InjectorPc.claim : InjectorPc T → Option Claim
  | .stealNext k | .stealNextNext k _ | .stealHeadBlock k _ _ | .stealHeadIndex k _
  | .stealWait k _ | .stealRead k _ | .stealArrive k _ => some k
  | _ => none

def Claim.start (k : Claim) : Nat := k.head / 2

/-- The positions that a thief has claimed and may still read. -/
def InjectorPc.Reads (p : Nat) : InjectorPc T → Prop
  | .stealMark k i => k.start / 64 * 64 + i ≤ p ∧ p < k.start + k.n
  | pc => ∃ k, pc.claim = some k ∧ k.start ≤ p ∧ p < k.start + k.n

/-- The lap whose block the party has to free and the frontier there. -/
def InjectorPc.Destroys (l f : Nat) : InjectorPc T → Prop
  | .destroyLoad k i | .destroyMark k i => k.start / 64 = l ∧ i + 1 = f
  | .destroyFree k => k.start / 64 = l ∧ 0 = f
  | pc => ∃ k, pc.claim = some k ∧ k.newOffset = 63 ∧ k.start / 64 = l ∧ 63 = f

structure Owners.Of (g : Owners κ T) (c : κ) (pc : InjectorPc T) : Prop where
  writer : ∀ p, g.writer p = some c ↔ pc.writing = some p
  reader : ∀ p, g.reader p = some c ↔ pc.Reads p
  destroyer : ∀ l f, g.destroyer l = .party c f ↔ pc.Destroys l f
  spare : ∀ a, g.home a = some (.inr c) ↔ pc.spare = some a

/-- A claim is of slots of one block. -/
structure Claim.Fits (k : Claim) (t : Nat) : Prop where
  offset : k.start % 64 < 63
  pos : 0 < k.n
  newOffset : k.start % 64 + k.n ≤ 63
  newHead : k.newHead / 2 = k.start + k.n
  tail : k.start + k.n ≤ t
  more : k.newHead % 2 = 1 → k.start / 64 < t / 64
  most : k.n ≤ k.op.most

/-- What a party that loaded the tail and its block may rely on. -/
structure Injector.TailSeen (q : Injector T) (tail block : Nat) : Prop where
  offset : tail / 2 % 64 < 63
  le : tail ≤ q.tail.index
  block : q.tail.index = tail → q.tail.block = block

structure Injector.HeadSeen (q : Injector T) (head block : Nat) : Prop where
  offset : head / 2 % 64 < 63
  le : head ≤ q.head.index
  block : q.head.index = head → q.head.block = block

/-- A push that has reserved its position. -/
structure Owners.Reserved (g : Owners κ T) (tail block : Nat) (t : T) : Prop where
  even : tail % 2 = 0
  block : block = g.addr (tail / 2 / 64)
  task : g.tasks[ticket (tail / 2)]? = some t

/-- A thief that has claimed its positions and read the tasks of the first ones. -/
structure Owners.Claimed (g : Owners κ T) (t : Nat) (k : Claim) (got : List (Option T)) : Prop where
  fits : k.Fits t
  block : k.block = g.addr (k.start / 64)
  length : got.length ≤ k.n
  tasks : ∀ j < got.length, got[j]? = some (g.tasks[ticket (k.start + j)]?)
  written : ∀ j < got.length, g.writer (k.start + j) = none

/-- A thief that has claimed the last slot of a block and is to move the head on. -/
structure Injector.Moving (q : Injector T) (g : Owners κ T) (k : Claim) : Prop where
  claimed : g.Claimed (q.tail.index / 2) k []
  last : k.newOffset = 63
  head : q.head.index / 2 = k.start + k.n

/-- A thief that has moved the head on if it had to. -/
structure Injector.Moved (q : Injector T) (g : Owners κ T) (k : Claim) (got : List (Option T)) :
    Prop where
  claimed : g.Claimed (q.tail.index / 2) k got
  past : k.newOffset = 63 → k.start + k.n < q.head.index / 2

/-- What a party knows at its place. -/
def Injector.Knows (q : Injector T) (g : Owners κ T) : InjectorPc T → Prop
  | .idle | .pushTail _ _ | .pushDrop _ | .stealHead _ | .emptyHead | .lenTail => True
  | .panicked => False
  | .pushBlock _ tail _ => tail ≤ q.tail.index
  | .pushAlloc _ tail block => q.TailSeen tail block
  | .pushExchange _ tail block new =>
    q.TailSeen tail block ∧ (tail / 2 % 64 + 1 = 63 → new ≠ none)
  | .pushTailBlock t tail block _ =>
    g.Reserved tail block t ∧ tail / 2 % 64 = 62 ∧ q.tail.index = tail + 2
  | .pushTailIndex t tail block new =>
    g.Reserved tail block t ∧ tail / 2 % 64 = 62 ∧ q.tail.index = tail + 2 ∧ q.tail.block = new
  | .pushNext t tail block new =>
    g.Reserved tail block t ∧ tail / 2 % 64 = 62 ∧ tail / 2 / 64 < q.tail.index / 2 / 64 ∧
      new = g.addr (tail / 2 / 64 + 1)
  | .pushWrite t tail block _ =>
    g.Reserved tail block t ∧ (tail / 2 % 64 = 62 → (q.heap block).next ≠ none)
  | .pushState t tail block _ =>
    g.Reserved tail block t ∧ (tail / 2 % 64 = 62 → (q.heap block).next ≠ none) ∧
      (q.at g (tail / 2)).task = some t
  | .stealBlock _ head =>
    head ≤ q.head.index ∧ (head % 2 = 1 → head / 2 / 64 < q.tail.index / 2 / 64)
  | .stealTail _ head block => q.HeadSeen head block ∧ head % 2 = 0
  | .stealExchange k => q.HeadSeen k.head k.block ∧ k.Fits (q.tail.index / 2)
  | .stealNext k => q.Moving g k
  | .stealNextNext k next => q.Moving g k ∧ next = g.addr (k.start / 64 + 1) ∧
    k.start / 64 < q.tail.index / 2 / 64
  | .stealHeadBlock k next nextIndex => q.Moving g k ∧ next = g.addr (k.start / 64 + 1) ∧
    k.start / 64 < q.tail.index / 2 / 64 ∧ nextIndex / 2 = k.start + k.n + 1 ∧
    (nextIndex % 2 = 1 → k.start / 64 + 1 < q.tail.index / 2 / 64)
  | .stealHeadIndex k nextIndex => q.Moving g k ∧ q.head.block = g.addr (k.start / 64 + 1) ∧
    k.start / 64 < q.tail.index / 2 / 64 ∧ nextIndex / 2 = k.start + k.n + 1 ∧
    (nextIndex % 2 = 1 → k.start / 64 + 1 < q.tail.index / 2 / 64)
  | .stealWait k got => q.Moved g k got ∧ got.length < k.n
  | .stealRead k got =>
    q.Moved g k got ∧ got.length < k.n ∧ g.writer (k.start + got.length) = none
  | .stealArrive k got => q.Moved g k got ∧ got.length = k.n
  | .stealMark k i => k.Fits (q.tail.index / 2) ∧ k.block = g.addr (k.start / 64) ∧
    k.newOffset < 63 ∧ k.offset ≤ i ∧ i < k.newOffset ∧
    (∀ j < k.n, g.writer (k.start + j) = none) ∧
    ∀ p, k.start ≤ p → p < k.start / 64 * 64 + i → g.reader p = none
  | .destroyLoad k _ | .destroyMark k _ | .destroyFree k => k.block = g.addr (k.start / 64)
  | .emptyTail head => head ≤ q.head.index
  | .lenHead tail => tail ≤ q.tail.index
  | .lenCheck tail _ => tail ≤ q.tail.index

theorem Claim.offset_eq (k : Claim) : k.offset = k.start % 64 := by
  simp only [Claim.offset, Claim.start, offsetOf, shift, lap, Nat.shiftRight_one]

theorem Claim.newOffset_eq (k : Claim) : k.newOffset = k.start % 64 + k.n := by
  rw [Claim.newOffset, k.offset_eq]

theorem Owners.Alive.addr_ne {g : Owners κ T} {k l : Nat} (hk : g.Alive k) (hl : g.Alive l)
    (hne : k ≠ l) : g.addr k ≠ g.addr l := by
  intro h
  rw [Owners.Alive, h, hl] at hk
  exact hne (Sum.inl.inj (Option.some.inj hk)).symm

theorem Owners.Alive.addr_ne_spare {g : Owners κ T} {k a : Nat} {c : κ} (hk : g.Alive k)
    (ha : g.home a = some (.inr c)) : g.addr k ≠ a := by
  intro h
  rw [Owners.Alive, h, ha] at hk
  cases hk

theorem ticket_lt {p t : Nat} (ho : p % 64 < 63) (h : p < t) : ticket p < ticket t := by
  simp only [ticket]
  omega

theorem PositionOk.congr {p h t h' t' : Nat} {w r : Option κ} {d : Destroyer κ}
    (x : PositionOk p h t w r d) (hh : p % 64 < 63 → (p < h' ↔ p < h))
    (ht : p % 64 < 63 → (p < t' ↔ p < t)) : PositionOk p h' t' w r d where
  writer hw := by
    have hx := x.writer hw
    exact ⟨(ht hx.2).mpr hx.1, hx.2⟩
  reader hr := by
    have hx := x.reader hr
    exact ⟨(hh hx.2).mpr hx.1, hx.2⟩
  done := x.done
  waits hw hp := x.waits hw ((hh (x.writer hw).2).mp hp)
  asked := x.asked

theorem Slot.Ok.congr {x : Slot T} {p h t h' t' : Nat} {w r : Option κ} {d : Destroyer κ}
    {tasks tasks' : List T} (y : x.Ok p h t w r d tasks) (hh : p < h' ↔ p < h)
    (ht : p < t' ↔ p < t) (htasks : p < t → tasks'[ticket p]? = tasks[ticket p]?) :
    x.Ok p h' t' w r d tasks' where
  write := by rw [ht]; exact y.write
  task hp hw := by rw [y.task (ht.mp hp) hw, htasks (ht.mp hp)]
  read hr := by rw [hh]; exact y.read hr
  unread hp hr := y.unread (hh.mp hp) hr
  destroy := y.destroy

end Nacl
