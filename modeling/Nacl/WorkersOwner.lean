import Nacl.DequeThief
import Nacl.Workers

/-! What a step of its owner or of a thief does to one worker queue of either flavor. A pop of
a LIFO queue moves `back` before it knows whether it gets the task there, so that the end of
the queue is `limit`, and not `back`, while such a pop is undecided. -/

namespace Nacl

open Ring

variable {κ T : Type*} {w : Worker T} {p : WorkPc κ T} {fl : Flavor} {f n a : Nat}

/-- The owner's place in terms of the FIFO queue: a thief past `reserve` still has the room it
reserved. -/
def WorkPc.owner : WorkPc κ T → WorkerPc T (Raid κ)
  | .own p => p
  | .raidDest k _ | .raidBuffer k _ _ => .reserved k.n k
  | .raidTask h | .raidRead h _ | .raidWrite h _ _ | .raidCheck h | .raidExchange h | .lootFirst h
  | .lootBack h | .lootRead h | .lootCheck h _ | .lootExchange h _ | .lootWrite h _
  | .swapFirst h _ | .swapLast h _ _ | .swapStore h _ _ _ | .swapStored h _ _ | .lootStore h =>
    .reserved h.n h.toRaid
  | _ => .idle

/-- The index behind the last task of the queue. -/
def Worker.limit (w : Worker T) : WorkPc κ T → Nat
  | .lifoFront b | .lifoUndo b | .lifoExchange b _ | .lifoRestore b _ => b + 1
  | .lifoCell b f | .lifoRead b f _ => if f < b then b else b + 1
  | _ => w.back

def Worker.deque (w : Worker T) (p : WorkPc κ T) : Worker T := { w with back := w.limit p }

/-- The flavor of the queues whose `pop` has this place. -/
def WorkPc.flavor : WorkPc κ T → Option Flavor
  | .own (.popAdd _ _) | .own (.popUndo _) | .own (.popBuffer _ _) | .own (.popRead _ _ _) =>
    some .fifo
  | .lifoStore _ | .lifoFront _ | .lifoUndo _ | .lifoCell _ _ | .lifoRead _ _ _
  | .lifoExchange _ _ | .lifoRestore _ _ => some .lifo
  | _ => none

/-- What the owner knows in a pop of a LIFO queue. -/
def Worker.LifoAt (w : Worker T) : WorkPc κ T → Prop
  | .lifoStore b => w.back = b + 1
  | .lifoFront b => w.back = b
  | .lifoUndo b | .lifoRestore b _ => w.back = b ∧ w.front = b + 1
  | .lifoCell b f => w.back = b ∧ f ≤ w.front ∧ f ≤ b
  | .lifoRead b f p => w.back = b ∧ f ≤ w.front ∧ f ≤ b ∧ p = w.cell
  | .lifoExchange b x => w.back = b ∧ b ≤ w.front ∧ (w.front = b → x = w.shared.read b)
  | _ => True

structure Worker.OwnerOk (w : Worker T) (fl : Flavor) (p : WorkPc κ T) : Prop where
  ok : (w.deque p).Ok p.owner
  lifo : w.LifoAt p
  flavor : ∀ v, p.flavor = some v → v = fl

/-- A thief has loaded the front index `f`. -/
def Worker.Sees (w : Worker T) (fl : Flavor) (f : Nat) : Prop := fl = .lifo → f ≤ w.front

/-- A thief has found `n` tasks from index `f` on. In a LIFO queue they may be gone again, but
then `front` is past `f`. -/
def Worker.Reach (w : Worker T) (fl : Flavor) (p : WorkPc κ T) (f n : Nat) : Prop :=
  match fl with
  | .fifo => 0 < n ∧ f + 2 * n ≤ w.back + 1
  | .lifo => n = 1 ∧ f ≤ w.front ∧ (w.front = f → f < w.limit p)

/-- What a step does at most to a queue, as far as its thieves are concerned, who hold the
buffers in `e`. -/
structure Worker.Rely (fl : Flavor) (e : Nat → Prop) (w : Worker T) (p : WorkPc κ T)
    (w' : Worker T) (p' : WorkPc κ T) : Prop where
  base : w.base p.owner ≤ w'.base p'.owner
  sees : fl = .lifo → w.front ≤ w'.front
  reach : ∀ f n, w.Reach fl p f n → w'.Reach fl p' f n
  shared : Agree w'.shared w.shared (w.base p.owner) (w.limit p)
  heap : ∀ q, e q → p.owner.building ≠ some q →
    Agree (w'.heap q) (w.heap q) (w.base p.owner) (w.limit p)
  building : ∀ q, e q → p.owner.building ≠ some q → p'.owner.building ≠ some q

theorem Worker.limit_congr {w' : Worker T} (h : w'.back = w.back) (p : WorkPc κ T) :
    w'.limit p = w.limit p := by
  cases p <;> first | rfl | exact h

theorem Worker.limit_withFront (w : Worker T) (f : Nat) (p : WorkPc κ T) :
    ({ w with front := f } : Worker T).limit p = w.limit p := Worker.limit_congr rfl p

theorem Worker.deque_withFront (w : Worker T) (f : Nat) (p : WorkPc κ T) :
    ({ w with front := f } : Worker T).deque p = { w.deque p with front := f } := by
  rw [Worker.deque, Worker.limit_withFront]
  rfl

theorem Worker.base_deque (w : Worker T) (p : WorkPc κ T) (q : WorkerPc T (Raid κ)) :
    (w.deque p).base q = w.base q := by cases q <;> rfl

theorem Worker.OwnerOk.base_le_limit (h : w.OwnerOk fl p) : w.base p.owner ≤ w.limit p := by
  have hle := h.ok.sound.le
  rwa [Worker.base_deque] at hle

theorem Worker.OwnerOk.back_le_limit (h : w.OwnerOk fl p) : w.back ≤ w.limit p := by
  have hl := h.lifo
  cases p with
  | lifoFront b => exact Nat.le_succ_of_le (Nat.le_of_eq hl)
  | lifoUndo b | lifoRestore b r | lifoExchange b x => exact Nat.le_succ_of_le (Nat.le_of_eq hl.1)
  | lifoCell b g | lifoRead b g q =>
    have hb : w.back = b := hl.1
    rw [hb, Worker.limit]
    split
    · exact le_rfl
    · exact Nat.le_succ b
  | _ => exact le_rfl

/-- Only a pop of a FIFO queue moves `front` past the oldest task. -/
theorem Worker.OwnerOk.base_of_lifo (h : w.OwnerOk .lifo p) : w.base p.owner = w.front := by
  have hf := h.flavor .fifo
  cases p with
  | own p =>
    cases p with
    | popUndo f => exact absurd (hf rfl) (by decide)
    | _ => rfl
  | _ => rfl

/-- The tasks that a thief found are there as long as `base` is not past them. -/
theorem Worker.Reach.le_limit (h : w.Reach fl p f n) (hw : w.OwnerOk fl p)
    (hbase : w.base p.owner ≤ f) : 0 < n ∧ f + n ≤ w.limit p := by
  cases fl with
  | fifo =>
    obtain ⟨hn, hle⟩ : 0 < n ∧ f + 2 * n ≤ w.back + 1 := h
    have hlim : w.limit p = w.back := by
      have hf := hw.flavor .lifo
      cases p with
      | lifoFront | lifoUndo | lifoExchange | lifoRestore | lifoCell | lifoRead =>
        exact absurd (hf rfl) (by decide)
      | _ => rfl
    omega
  | lifo =>
    obtain ⟨rfl, hle, hlt⟩ : n = 1 ∧ f ≤ w.front ∧ (w.front = f → f < w.limit p) := h
    rw [hw.base_of_lifo] at hbase
    have hfl := hlt (Nat.le_antisymm hbase hle)
    omega

/-- A thief that finds `front` where its tasks start finds the oldest task there. -/
theorem Worker.Reach.base_eq (h : w.Reach fl p f n) (hw : w.OwnerOk fl p) (hf : w.front = f) :
    w.base p.owner = f := by
  cases fl with
  | fifo =>
    obtain ⟨hn, hle⟩ : 0 < n ∧ f + 2 * n ≤ w.back + 1 := h
    have hk := hw.ok.known
    rw [Worker.base_deque] at hk
    cases hp : p.owner with
    | popUndo g =>
      rw [hp] at hk
      have hlim : w.limit p = w.back := by
        cases p with
        | own q => rfl
        | _ => cases hp
      have hg : g = w.limit p := hk.1
      have hfront : w.front = g + 1 := hk.2
      omega
    | _ => exact hf
  | lifo => rw [hw.base_of_lifo, hf]

theorem Worker.Sees.mono {w' : Worker T} (h : w.Sees fl f) (hle : fl = .lifo → w.front ≤ w'.front) :
    w'.Sees fl f := fun hl => (h hl).trans (hle hl)

/-- A place of the owner where it keeps its queue as it is. -/
theorem Worker.Rely.goto {e : Nat → Prop} {p' : WorkPc κ T}
    (hbase : w.base p.owner = w.base p'.owner) (hlimit : w.limit p' = w.limit p)
    (hbuild : p'.owner.building = none) : Worker.Rely fl e w p w p' where
  base := hbase.le
  sees _ := le_rfl
  reach f n h := by
    cases fl with
    | fifo => exact h
    | lifo =>
      obtain ⟨hn, hle, hlt⟩ := h
      exact ⟨hn, hle, fun he => (hlt he).trans_eq hlimit.symm⟩
  shared := Agree.refl
  heap _ _ _ := Agree.refl
  building q _ _ := by
    rw [hbuild]
    exact (Option.some_ne_none q).symm

theorem Worker.front_step_lifo {q : WorkerPc T (Raid κ)}
    (h : ∀ v, (WorkPc.own q : WorkPc κ T).flavor = some v → v = Flavor.lifo) :
    (w.step a q).1.front = w.front := by
  cases q with
  | popAdd b len => exact absurd (h .fifo rfl) (by decide)
  | popUndo f => exact absurd (h .fifo rfl) (by decide)
  | resize newCap k r => exact Worker.resizeStep_front r
  | _ => rfl

/-- A step of the owner in `push`, `reserve`, `resize` or the pop of a FIFO queue. -/
theorem Worker.OwnerOk.rely_own {e : Nat → Prop} {q : WorkerPc T (Raid κ)}
    (h : w.OwnerOk fl (.own q)) (ha : q.allocates = true → a ∉ w.live ∧ ∀ r, e r → r ≠ a) :
    Worker.Rely fl e w (.own q) (w.step a q).1 (.own (w.step a q).2) where
  base := Worker.Ok.base_le h.ok
  sees hl := (Worker.front_step_lifo (hl ▸ h.flavor)).ge
  reach f n hr := by
    have hback : w.back ≤ (w.step a q).1.back := Worker.Ok.back_le h.ok
    cases fl with
    | fifo =>
      obtain ⟨hn, hle⟩ : 0 < n ∧ f + 2 * n ≤ w.back + 1 := hr
      exact ⟨hn, by omega⟩
    | lifo =>
      obtain ⟨hn, hle, hlt⟩ := hr
      have hfront : (w.step a q).1.front = w.front := Worker.front_step_lifo h.flavor
      exact ⟨hn, hfront ▸ hle, fun he => (hlt (hfront ▸ he)).trans_le hback⟩
  shared := Worker.Ok.shared h.ok fun hal => (ha hal).1
  heap r hr hb := Worker.Ok.held h.ok hb fun hal => (ha hal).2 r hr
  building r hr hb hb' := by
    obtain hb' | ⟨hal, hq⟩ := Worker.building_step hb'
    · exact hb hb'
    · exact (ha hal).2 r hr hq

/-- A thief moves `front` past tasks that it took. -/
theorem Worker.OwnerOk.withFront (h : w.OwnerOk fl p) (hr : w.Reach fl p f n) (hf : w.front = f) :
    ({ w with front := f + n } : Worker T).OwnerOk fl p := by
  have hbase := hr.base_eq h hf
  obtain ⟨hn, hle⟩ := hr.le_limit h hbase.le
  refine ⟨?_, ?_, h.flavor⟩
  · rw [Worker.deque_withFront]
    refine h.ok.withFront ?_ ?_ hle
    · rw [Worker.base_deque, hbase]
      exact hf.symm
    · exact hf.le.trans (Nat.le_add_right f n)
  · have hl := h.lifo
    cases p with
    | lifoUndo b | lifoRestore b r =>
      have hfront : w.front = b + 1 := hl.2
      have hlim : f + n ≤ b + 1 := hle
      omega
    | lifoCell b g => exact ⟨hl.1, hl.2.1.trans (hf.le.trans (Nat.le_add_right f n)), hl.2.2⟩
    | lifoRead b g q =>
      exact ⟨hl.1, hl.2.1.trans (hf.le.trans (Nat.le_add_right f n)), hl.2.2.1, hl.2.2.2⟩
    | lifoExchange b x =>
      have hb : b ≤ w.front := hl.2.1
      refine ⟨hl.1, hb.trans (hf.le.trans (Nat.le_add_right f n)), fun he => ?_⟩
      have he' : f + n = b := he
      omega
    | _ => exact hl

theorem Worker.OwnerOk.rely_withFront {e : Nat → Prop} (h : w.OwnerOk fl p)
    (hr : w.Reach fl p f n) (hf : w.front = f) :
    Worker.Rely fl e w p { w with front := f + n } p where
  base := by
    cases p.owner with
    | popUndo g => exact le_rfl
    | _ => exact hf.le.trans (Nat.le_add_right f n)
  sees _ := hf.le.trans (Nat.le_add_right f n)
  reach g m hg := by
    have hn := (hr.le_limit h (hr.base_eq h hf).le).1
    cases fl with
    | fifo => exact hg
    | lifo =>
      obtain ⟨hm, hle, -⟩ := hg
      refine ⟨hm, hle.trans (hf.le.trans (Nat.le_add_right f n)), fun he => ?_⟩
      have he' : f + n = g := he
      omega
  shared := Agree.refl
  heap _ _ _ := Agree.refl
  building _ _ hb := hb

/-- A queue whose owner is in none of the places of a pop. -/
theorem Worker.OwnerOk.of_ok {q : WorkerPc T (Raid κ)} (h : w.Ok q)
    (hq : (WorkPc.own q : WorkPc κ T).flavor = none) : w.OwnerOk fl (.own q : WorkPc κ T) where
  ok := h
  lifo := trivial
  flavor v hv := by
    rw [hq] at hv
    cases hv

/-- The owner goes on with its queue as it is. -/
theorem Worker.OwnerOk.goto {p' : WorkPc κ T} (h : w.OwnerOk fl p) (howner : p.owner = .idle)
    (howner' : p'.owner = .idle) (hlimit : w.limit p' = w.limit p) (hl : w.LifoAt p')
    (hflavor : ∀ v, p'.flavor = some v → v = fl) : w.OwnerOk fl p' where
  ok := by
    have hok := h.ok
    rw [howner, Worker.deque, ← hlimit] at hok
    rw [howner']
    exact hok
  lifo := hl
  flavor := hflavor

section lifo

variable {e : Nat → Prop} {b : Nat} {x : Option T}

theorem Worker.OwnerOk.fifo_ne (h : w.OwnerOk fl p) (hp : p.flavor = some .lifo) : fl = .lifo :=
  (h.flavor .lifo hp).symm

theorem Worker.OwnerOk.lifoStore (h : w.OwnerOk fl (.lifoStore b : WorkPc κ T)) :
    ({ w with back := b } : Worker T).OwnerOk fl (.lifoFront b : WorkPc κ T) ∧
      Worker.Rely fl e w (.lifoStore b : WorkPc κ T) { w with back := b } (.lifoFront b) := by
  have hb : w.back = b + 1 := h.lifo
  obtain rfl := h.fifo_ne rfl
  refine ⟨⟨?_, rfl, fun v hv => (Option.some.inj hv).symm⟩, ?_⟩
  · have hok : w.Ok (.idle : WorkerPc T (Raid κ)) := h.ok
    have hdeque : ({ w with back := b } : Worker T).deque (.lifoFront b : WorkPc κ T) = w := by
      rw [Worker.deque, Worker.limit, ← hb]
    rw [hdeque]
    exact hok
  · refine ⟨le_rfl, fun _ => le_rfl, fun f n hr => ?_, Agree.refl, fun _ _ _ => Agree.refl,
      fun q _ _ => (Option.some_ne_none q).symm⟩
    obtain ⟨hn, hle, hlt⟩ := hr
    exact ⟨hn, hle, fun he => (hlt he).trans_eq hb⟩

/-- The load that decides a pop of a LIFO queue, unless one task is left. -/
theorem Worker.OwnerOk.lifoFront (h : w.OwnerOk fl (.lifoFront b : WorkPc κ T)) :
    w.OwnerOk fl (if b < w.front then .lifoUndo b else .lifoCell b w.front : WorkPc κ T) ∧
      Worker.Rely fl e w (.lifoFront b : WorkPc κ T) w
        (if b < w.front then .lifoUndo b else .lifoCell b w.front) := by
  have hb : w.back = b := h.lifo
  have hle : w.front ≤ b + 1 := h.base_le_limit
  obtain rfl := h.fifo_ne rfl
  split
  · rename_i hlt
    exact ⟨h.goto rfl rfl rfl ⟨hb, by omega⟩ fun v hv => (Option.some.inj hv).symm,
      Worker.Rely.goto rfl rfl rfl⟩
  · rename_i hge
    by_cases hlt : w.front < b
    · have hlimit : w.limit (.lifoCell b w.front : WorkPc κ T) = b := if_pos hlt
      refine ⟨⟨?_, ⟨hb, le_rfl, hlt.le⟩, fun v hv => (Option.some.inj hv).symm⟩, ?_⟩
      · have hs := h.ok.sound
        refine ⟨⟨?_, ?_, hs.innerLive, hs.cellLive, hs.same⟩, trivial⟩
        · show w.front ≤ w.limit (.lifoCell b w.front : WorkPc κ T)
          rw [hlimit]
          exact hlt.le
        · show w.limit (.lifoCell b w.front : WorkPc κ T) ≤ w.front + w.buffer.cap.val
          have hfits : b + 1 ≤ w.front + w.buffer.cap.val := hs.fits
          omega
      · -- a thief that found the task at `b` would have loaded a front index that is past it
        refine ⟨le_rfl, fun _ => le_rfl, fun f n hr => ?_, Agree.refl, fun _ _ _ => Agree.refl,
          fun q _ _ => (Option.some_ne_none q).symm⟩
        obtain ⟨hn, hle, -⟩ := hr
        exact ⟨hn, hle, fun he => by omega⟩
    · have hlimit : w.limit (.lifoCell b w.front : WorkPc κ T) = b + 1 := if_neg hlt
      exact ⟨h.goto rfl rfl hlimit ⟨hb, le_rfl, by omega⟩ fun v hv => (Option.some.inj hv).symm,
        Worker.Rely.goto rfl hlimit rfl⟩

/-- The owner stores `back` again after it got no task or the last one. -/
theorem Worker.OwnerOk.lifoBack {r : Answer T} (h : w.OwnerOk fl p) (howner : p.owner = .idle)
    (hlimit : w.limit p = b + 1) (hp : p.flavor = some .lifo) :
    ({ w with back := b + 1 } : Worker T).OwnerOk fl (.answer r : WorkPc κ T) ∧
      Worker.Rely fl e w p { w with back := b + 1 } (.answer r : WorkPc κ T) := by
  have hok := h.ok
  obtain rfl := h.fifo_ne hp
  rw [howner, Worker.deque, hlimit] at hok
  refine ⟨⟨hok, trivial, nofun⟩, ?_⟩
  refine ⟨?_, fun _ => le_rfl, fun f n hr => ?_, Agree.refl, fun _ _ _ => Agree.refl,
    fun q _ _ => (Option.some_ne_none q).symm⟩
  · rw [howner]
    exact le_rfl
  · obtain ⟨hn, hle, hlt⟩ := hr
    exact ⟨hn, hle, fun he => (hlt he).trans_eq hlimit⟩

theorem Worker.OwnerOk.lifoCell (h : w.OwnerOk fl (.lifoCell b f : WorkPc κ T)) :
    w.OwnerOk fl (.lifoRead b f w.cell : WorkPc κ T) := by
  obtain ⟨hb, hf, hfb⟩ : w.back = b ∧ f ≤ w.front ∧ f ≤ b := h.lifo
  exact h.goto rfl rfl rfl ⟨hb, hf, hfb, rfl⟩ h.flavor

theorem Worker.base_lifoPopped (w : Worker T) (b f p : Nat) :
    w.base (w.lifoPopped b f p : WorkPc κ T).owner = w.front := by
  rw [Worker.lifoPopped]
  split
  · rfl
  · split <;> rfl

theorem Worker.building_lifoPopped (w : Worker T) (b f p : Nat) :
    (w.lifoPopped b f p : WorkPc κ T).owner.building = none := by
  rw [Worker.lifoPopped]
  split
  · rfl
  · split <;> rfl

theorem Worker.OwnerOk.limit_lifoPopped {q : Nat}
    (h : w.OwnerOk fl (.lifoRead b f q : WorkPc κ T)) :
    w.limit (w.lifoPopped b f q : WorkPc κ T) = w.limit (.lifoRead b f q : WorkPc κ T) := by
  obtain ⟨hb, -, hfb, -⟩ : w.back = b ∧ f ≤ w.front ∧ f ≤ b ∧ q = w.cell := h.lifo
  rw [Worker.lifoPopped]
  split
  · rename_i he
    exact (if_neg (by omega)).symm
  · rename_i hne
    have hlt : f < b := Nat.lt_of_le_of_ne hfb (Ne.symm hne)
    split
    · exact hb.trans (if_pos hlt).symm
    · exact hb.trans (if_pos hlt).symm

theorem Worker.OwnerOk.lifoRead {q : Nat} (h : w.OwnerOk fl (.lifoRead b f q : WorkPc κ T)) :
    w.OwnerOk fl (w.lifoPopped b f q : WorkPc κ T) ∧
      Worker.Rely fl e w (.lifoRead b f q : WorkPc κ T) w (w.lifoPopped b f q) := by
  obtain ⟨hb, hf, hfb, rfl⟩ : w.back = b ∧ f ≤ w.front ∧ f ≤ b ∧ q = w.cell := h.lifo
  have hs := h.ok.sound
  refine ⟨?_, Worker.Rely.goto (w.base_lifoPopped b f w.cell).symm h.limit_lifoPopped
    (w.building_lifoPopped b f w.cell)⟩
  rw [Worker.lifoPopped]
  split
  · rename_i he
    subst he
    have hsame : w.cell = w.inner := hs.same rfl
    refine h.goto rfl rfl (if_neg (Nat.lt_irrefl b)).symm ⟨hb, hf, fun _ => ?_⟩ h.flavor
    rw [Worker.shared, ← hsame]
  · rename_i hne
    have hlt : f < b := Nat.lt_of_le_of_ne hfb (Ne.symm hne)
    have hdeque : w.deque (.lifoRead b f w.cell : WorkPc κ T) = w := by
      rw [Worker.deque, show w.limit (.lifoRead b f w.cell : WorkPc κ T) = b from if_pos hlt, ← hb]
    rw [hdeque] at hs
    split
    · rename_i hc
      refine .of_ok ⟨hs, trivial, ?_⟩ rfl
      show w.back ≤ w.front + (w.heap w.cell).cap.val / 2
      have hfour := hc.2
      omega
    · exact .of_ok ⟨hs, trivial⟩ rfl

/-- The exchange of the front index by a pop of the last task of a LIFO queue. -/
theorem Worker.OwnerOk.lifoExchange (h : w.OwnerOk fl (.lifoExchange b x : WorkPc κ T)) :
    (w.front = b → ({ w with front := b + 1 } : Worker T).OwnerOk fl
      (.lifoRestore b (some x) : WorkPc κ T) ∧
      Worker.Rely fl e w (.lifoExchange b x : WorkPc κ T) { w with front := b + 1 }
        (.lifoRestore b (some x))) ∧
    (w.front ≠ b → w.OwnerOk fl (.lifoRestore b none : WorkPc κ T) ∧
      Worker.Rely fl e w (.lifoExchange b x : WorkPc κ T) w (.lifoRestore b none)) := by
  obtain ⟨hb, hle, -⟩ : w.back = b ∧ b ≤ w.front ∧ _ := h.lifo
  have hle' : w.front ≤ b + 1 := h.base_le_limit
  obtain rfl := h.fifo_ne rfl
  constructor
  · intro hf
    have hs := h.ok.sound
    have hfits : b + 1 ≤ w.front + w.buffer.cap.val := hs.fits
    refine ⟨⟨⟨⟨?_, ?_, hs.innerLive, hs.cellLive, hs.same⟩, trivial⟩, ⟨hb, rfl⟩,
      fun v hv => (Option.some.inj hv).symm⟩, ?_⟩
    · exact le_rfl
    · show b + 1 ≤ b + 1 + w.buffer.cap.val
      exact Nat.le_add_right _ _
    · refine ⟨hle', fun _ => hle', fun f n hr => ?_, Agree.refl, fun _ _ _ => Agree.refl,
        fun q _ _ => (Option.some_ne_none q).symm⟩
      obtain ⟨hn, hfle, -⟩ := hr
      refine ⟨hn, hfle.trans hle', fun he => ?_⟩
      have he' : b + 1 = f := he
      omega
  · intro hf
    exact ⟨h.goto rfl rfl rfl ⟨hb, by omega⟩ h.flavor, Worker.Rely.goto rfl rfl rfl⟩

end lifo

section reserved

variable {e : Nat → Prop} {k : Raid κ} {i m : Nat} {x : Option T} {q : WorkPc κ T}

theorem WorkPc.limit_of_reserved (h : p.owner = .reserved n k) (w : Worker T) :
    w.limit p = w.back := by
  cases p with
  | own p => rfl
  | lifoStore | lifoFront | lifoUndo | lifoCell | lifoRead | lifoExchange | lifoRestore => cases h
  | _ => rfl

theorem WorkPc.flavor_of_reserved (h : p.owner = .reserved n k) : p.flavor = none := by
  cases p with
  | own p =>
    obtain rfl : p = .reserved n k := h
    rfl
  | lifoStore | lifoFront | lifoUndo | lifoCell | lifoRead | lifoExchange | lifoRestore => cases h
  | _ => rfl

theorem Worker.lifoAt_of_reserved (h : p.owner = .reserved n k) (w : Worker T) : w.LifoAt p := by
  cases p with
  | lifoStore | lifoFront | lifoUndo | lifoCell | lifoRead | lifoExchange | lifoRestore => cases h
  | _ => trivial

theorem Worker.OwnerOk.reserved (h : w.OwnerOk fl p) (hp : p.owner = .reserved n k) :
    w.Ok (.reserved n k) := by
  have hok := h.ok
  rwa [hp, Worker.deque, WorkPc.limit_of_reserved hp] at hok

theorem Worker.OwnerOk.of_reserved (h : w.Ok (.reserved n k)) (hp : p.owner = .reserved n k) :
    w.OwnerOk fl p where
  ok := by
    rw [hp, Worker.deque, WorkPc.limit_of_reserved hp]
    exact h
  lifo := Worker.lifoAt_of_reserved hp w
  flavor v hv := by
    rw [WorkPc.flavor_of_reserved hp] at hv
    cases hv

theorem Worker.Rely.goto_reserved (hp : p.owner = .reserved n k) {k' : Raid κ}
    (hp' : q.owner = .reserved m k') : Worker.Rely fl e w p w q := by
  refine Worker.Rely.goto ?_ ?_ ?_
  · rw [hp, hp']
    rfl
  · rw [WorkPc.limit_of_reserved hp, WorkPc.limit_of_reserved hp']
  · rw [hp']
    rfl

/-- A thief writes into the room that it reserved in its own queue. -/
theorem Worker.OwnerOk.rely_write (h : w.OwnerOk fl p) (hp : p.owner = .reserved n k) (hi : i < n)
    (hp' : q.owner = .reserved n k) :
    (w.write w.cell (w.back + i) x).OwnerOk fl q ∧
      Worker.Rely fl e w p (w.write w.cell (w.back + i) x) q := by
  have hok := h.reserved hp
  have hroom : w.back + n ≤ w.front + w.buffer.cap.val := hok.known
  have hagree : ∀ q, Agree ((w.write w.cell (w.back + i) x).heap q) (w.heap q) w.front w.back := by
    intro q
    refine Worker.agree_write (Nat.le_add_right _ _) ?_
    change w.back + i < w.front + w.buffer.cap.val
    omega
  constructor
  · exact .of_reserved hok.writeReserved hp'
  · refine ⟨?_, fun _ => le_rfl, fun f m hr => ?_, ?_, fun q _ _ => ?_, fun q _ _ => ?_⟩
    · rw [hp, hp']
      exact le_rfl
    · cases fl with
      | fifo => exact hr
      | lifo =>
        obtain ⟨hm, hle, hlt⟩ := hr
        rw [WorkPc.limit_of_reserved hp] at hlt
        refine ⟨hm, hle, fun he => ?_⟩
        rw [WorkPc.limit_of_reserved hp']
        exact hlt he
    · rw [hp, WorkPc.limit_of_reserved hp]
      exact hagree w.inner
    · rw [hp, WorkPc.limit_of_reserved hp]
      exact hagree q
    · rw [hp']
      exact (Option.some_ne_none q).symm

/-- A thief publishes the tasks that it moved to its own queue. -/
theorem Worker.OwnerOk.rely_store {r : Answer T} (h : w.OwnerOk fl p)
    (hp : p.owner = .reserved n k) (hm : m ≤ n) :
    ({ w with back := w.back + m } : Worker T).OwnerOk fl (.answer r : WorkPc κ T) ∧
      Worker.Rely fl e w p { w with back := w.back + m } (.answer r : WorkPc κ T) := by
  have hok := h.reserved hp
  have hs := hok.sound
  have hle : w.front ≤ w.back := hs.le
  have hroom : w.back + n ≤ w.front + w.buffer.cap.val := hok.known
  constructor
  · refine ⟨⟨⟨?_, ?_, hs.innerLive, hs.cellLive, hs.same⟩, trivial⟩, trivial, nofun⟩
    · show w.front ≤ w.back + m
      omega
    · show w.back + m ≤ w.front + w.buffer.cap.val
      omega
  · refine ⟨?_, fun _ => le_rfl, fun f j hr => ?_, Agree.refl, fun _ _ _ => Agree.refl,
      fun q _ _ => (Option.some_ne_none q).symm⟩
    · rw [hp]
      exact le_rfl
    · cases fl with
      | fifo =>
        obtain ⟨hj, hfj⟩ : 0 < j ∧ f + 2 * j ≤ w.back + 1 := hr
        refine ⟨hj, ?_⟩
        show f + 2 * j ≤ w.back + m + 1
        omega
      | lifo =>
        obtain ⟨hj, hfle, hlt⟩ := hr
        rw [WorkPc.limit_of_reserved hp] at hlt
        refine ⟨hj, hfle, fun he => ?_⟩
        show f < w.back + m
        have hfb := hlt he
        omega

end reserved

end Nacl
