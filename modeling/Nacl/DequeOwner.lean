import Nacl.Deque

/-! What the owner's steps keep of its queue. `base` is the index of the oldest task;
it may move up between two steps of the owner, when a thief takes tasks. -/

namespace Nacl

open Ring

variable {T β : Type*} {w : Worker T} {a base base' spare : Nat} {newCap : Capacity}

def ResizePc.swapping : ResizePc T → Bool
  | .swap _ => true
  | _ => false

def WorkerPc.swapping : WorkerPc T β → Bool
  | .resize _ _ r => r.swapping
  | _ => false

/-- The buffer that `resize` has allocated and not published yet. -/
def ResizePc.building : ResizePc T → Option Nat
  | .read _ _ new _ | .write _ _ new _ _ | .replace new => some new
  | _ => none

def WorkerPc.building : WorkerPc T β → Option Nat
  | .resize _ _ r => r.building
  | _ => none

structure Worker.Sound (w : Worker T) (base : Nat) (swapping : Bool) : Prop where
  le : base ≤ w.back
  fits : w.back ≤ base + w.buffer.cap.val
  innerLive : w.inner ∈ w.live
  cellLive : w.cell ∈ w.live
  same : swapping = false → w.cell = w.inner

structure Worker.Built (w : Worker T) (newCap : Capacity) (new : Nat) : Prop where
  live : new ∈ w.live
  ne : new ≠ w.cell
  cap : (w.heap new).cap = newCap

/-- The copy of the tasks from `f` up to `i`, where `b` and `spare` more will fit. -/
structure Worker.Copied (w : Worker T) (base spare : Nat) (newCap : Capacity)
    (b p new i f : Nat) : Prop where
  built : w.Built newCap new
  back : b = w.back
  cell : p = w.cell
  front : f ≤ base
  start : f ≤ i
  stop : i ≤ b
  room : b + spare ≤ f + newCap.val
  agree : Agree (w.heap new) w.buffer f i

/-- What the owner knows in `resize`, which is to leave room for `spare` tasks. -/
def Worker.ResizeAt (w : Worker T) (base spare : Nat) (newCap : Capacity) : ResizePc T → Prop
  | .back => w.back + spare ≤ base + newCap.val
  | .front b => b = w.back ∧ w.back + spare ≤ base + newCap.val
  | .buffer b f => b = w.back ∧ f ≤ base ∧ b + spare ≤ f + newCap.val
  | .alloc b f p => b = w.back ∧ f ≤ base ∧ b + spare ≤ f + newCap.val ∧ p = w.cell
  | .read b p new i => ∃ f, w.Copied base spare newCap b p new i f
  | .write b p new i x => i < b ∧ x = w.buffer.read i ∧ ∃ f, w.Copied base spare newCap b p new i f
  | .replace new => w.Built newCap new ∧ w.back + spare ≤ base + newCap.val ∧
      Agree (w.heap new) w.buffer base w.back
  | .swap new => w.cell = new ∧ new ≠ w.inner ∧ w.buffer.cap = newCap ∧
      w.back + spare ≤ base + newCap.val ∧ Agree w.buffer w.shared base w.back

def ResizeFor.need : ResizeFor T β → Nat
  | .push _ _ => 1
  | .pop _ => 0
  | .reserve n _ => n

def Worker.ResumeAt (w : Worker T) : ResizeFor T β → Prop
  | .push _ b => b = w.back
  | _ => True

/-- A shrink that `pop` decides on from the length `len` leaves room for the tasks. -/
def Worker.ShrinkFits (w : Worker T) (base len : Nat) : Prop :=
  minCap.val < w.buffer.cap.val → len ≤ w.buffer.cap.val / 4 →
    w.back ≤ base + w.buffer.cap.val / 2

/-- What the owner knows at a place, as long as it alone moves `back`. -/
def Worker.At (w : Worker T) (base : Nat) : WorkerPc T β → Prop
  | .pushFront _ b => b = w.back
  | .pushBuffer _ b f => b = w.back ∧ f ≤ base
  | .pushGrown _ b => b = w.back ∧ w.back < base + w.buffer.cap.val
  | .pushWrite _ b p => b = w.back ∧ p = w.cell ∧ w.back < base + w.buffer.cap.val
  | .pushStore t b =>
    b = w.back ∧ w.back < base + w.buffer.cap.val ∧ w.buffer.read w.back = some t
  | .popFront b => b = w.back
  | .popAdd b len => b = w.back ∧ w.back ≤ base + len
  | .popUndo f => f = w.back ∧ w.front = f + 1
  | .popBuffer _ len => w.ShrinkFits base len
  | .popRead _ len p => p = w.cell ∧ w.ShrinkFits base len
  | .reserveFront _ _ b => b = w.back
  | .reserveBuffer _ _ len => w.back ≤ base + len ∧ len ≤ w.buffer.cap.val
  | .reserved n _ => w.back + n ≤ base + w.buffer.cap.val
  | .resize newCap k r => w.ResumeAt k ∧ w.ResizeAt base k.need newCap r
  | _ => True

/-- The places that can come after a place. -/
inductive WorkerPc.Next : WorkerPc T β → WorkerPc T β → Prop
  | idle : Next .idle .idle
  | pushBack (t : T) (b : Nat) : Next (.pushBack t) (.pushFront t b)
  | pushFront (t : T) (b f : Nat) : Next (.pushFront t b) (.pushBuffer t b f)
  | pushFull (t : T) (b f : Nat) (newCap : Capacity) :
    Next (.pushBuffer t b f) (.resize newCap (.push t b) .back)
  | pushRoom (t : T) (b f p : Nat) : Next (.pushBuffer t b f) (.pushWrite t b p)
  | pushGrown (t : T) (b p : Nat) : Next (.pushGrown t b) (.pushWrite t b p)
  | pushWrite (t : T) (b p : Nat) : Next (.pushWrite t b p) (.pushStore t b)
  | pushStore (t : T) (b : Nat) : Next (.pushStore t b) .idle
  | popBack (b : Nat) : Next .popBack (.popFront b)
  | popNone (b : Nat) : Next (.popFront b) .idle
  | popSome (b len : Nat) : Next (.popFront b) (.popAdd b len)
  | popLost (b len f : Nat) : Next (.popAdd b len) (.popUndo f)
  | popTook (b len f : Nat) : Next (.popAdd b len) (.popBuffer f len)
  | popUndo (f : Nat) : Next (.popUndo f) .idle
  | popBuffer (f len p : Nat) : Next (.popBuffer f len) (.popRead f len p)
  | popShrink (f len p : Nat) (newCap : Capacity) (x : Option T) :
    Next (.popRead f len p) (.resize newCap (.pop x) .back)
  | popKeep (f len p : Nat) (x : Option T) : Next (.popRead f len p) (.popped x)
  | popped (x : Option T) : Next (.popped x) .idle
  | reserveBack (n : Nat) (k : β) (b : Nat) : Next (.reserveBack n k) (.reserveFront n k b)
  | reserveFront (n : Nat) (k : β) (b len : Nat) :
    Next (.reserveFront n k b) (.reserveBuffer n k len)
  | reserveGrow (n : Nat) (k : β) (len : Nat) (newCap : Capacity) :
    Next (.reserveBuffer n k len) (.resize newCap (.reserve n k) .back)
  | reserveRoom (n : Nat) (k : β) (len : Nat) : Next (.reserveBuffer n k len) (.reserved n k)
  | reserved (n : Nat) (k : β) : Next (.reserved n k) (.reserved n k)
  | resize (newCap : Capacity) (k : ResizeFor T β) (r r' : ResizePc T) :
    Next (.resize newCap k r) (.resize newCap k r')
  | resume (newCap : Capacity) (k : ResizeFor T β) (r : ResizePc T) :
    Next (.resize newCap k r) k.resume

theorem Worker.step_next (w : Worker T) (a : Nat) (p : WorkerPc T β) : p.Next (w.step a p).2 := by
  cases p with
  | pushBuffer t b f =>
    simp only [Worker.step]
    split <;> constructor
  | popFront b =>
    simp only [Worker.step]
    split <;> constructor
  | popAdd b len =>
    simp only [Worker.step]
    split <;> constructor
  | popRead f len q =>
    simp only [Worker.step]
    split <;> constructor
  | reserveBuffer n k len =>
    simp only [Worker.step]
    split <;> constructor
  | resize newCap k r =>
    simp only [Worker.step]
    cases (w.resizeStep newCap a r).2 with
    | none => exact .resume newCap k r
    | some r' => exact .resize newCap k r r'
  | _ => constructor

@[simp] theorem Worker.heap_write_self {p i : Nat} {x : Option T} :
    (w.write p i x).heap p = (w.heap p).write i x := by simp [Worker.write]

theorem Worker.heap_write_of_ne {p q i : Nat} {x : Option T} (h : q ≠ p) :
    (w.write p i x).heap q = w.heap q := by simp [Worker.write, h]

@[simp] theorem Worker.heap_alloc_self {cap : Capacity} {p : Nat} :
    (w.alloc cap p).heap p = .alloc cap := by simp [Worker.alloc]

@[simp] theorem Worker.back_alloc {cap : Capacity} {p : Nat} : (w.alloc cap p).back = w.back := rfl

theorem Worker.heap_alloc_of_ne {cap : Capacity} {p q : Nat} (h : q ≠ p) :
    (w.alloc cap p).heap q = w.heap q := by simp [Worker.alloc, h]

/-- A write past the tasks of a queue with room keeps the tasks in every buffer. -/
theorem Worker.agree_write {p i q hi : Nat} {x : Option T} (hi' : hi ≤ i)
    (hroom : i < base + (w.heap p).cap.val) :
    Agree ((w.write p i x).heap q) (w.heap q) base hi := by
  by_cases hq : q = p
  · subst q
    rw [Worker.heap_write_self]
    exact Agree.write_of_room hi' hroom
  · rw [Worker.heap_write_of_ne hq]
    exact Agree.refl

theorem Worker.cap_write {p q i : Nat} {x : Option T} :
    ((w.write p i x).heap q).cap = (w.heap q).cap := by
  by_cases hq : q = p
  · subst q
    rw [Worker.heap_write_self, Buffer.cap_write]
  · rw [Worker.heap_write_of_ne hq]

theorem Worker.Sound.mono {swapping : Bool} (h : w.Sound base swapping) (hb : base ≤ base')
    (hb' : base' ≤ w.back) : w.Sound base' swapping := by
  have hf := h.fits
  exact ⟨hb', by omega, h.innerLive, h.cellLive, h.same⟩

theorem Worker.Sound.withFront {swapping : Bool} (h : w.Sound base swapping) (f : Nat) :
    ({ w with front := f } : Worker T).Sound base swapping :=
  ⟨h.le, h.fits, h.innerLive, h.cellLive, h.same⟩

theorem Worker.Copied.mono {b p new i f : Nat} (h : w.Copied base spare newCap b p new i f)
    (hb : base ≤ base') : w.Copied base' spare newCap b p new i f :=
  { h with front := h.front.trans hb }

theorem Worker.ResizeAt.mono {r : ResizePc T} (h : w.ResizeAt base spare newCap r)
    (hb : base ≤ base') : w.ResizeAt base' spare newCap r := by
  cases r with
  | back =>
    simp only [Worker.ResizeAt] at h ⊢
    omega
  | front b =>
    simp only [Worker.ResizeAt] at h ⊢
    omega
  | buffer b f =>
    simp only [Worker.ResizeAt] at h ⊢
    omega
  | alloc b f p =>
    simp only [Worker.ResizeAt] at h ⊢
    omega
  | read b p new i =>
    obtain ⟨f, hf⟩ := h
    exact ⟨f, hf.mono hb⟩
  | write b p new i x =>
    obtain ⟨hi, hx, f, hf⟩ := h
    exact ⟨hi, hx, f, hf.mono hb⟩
  | replace new =>
    obtain ⟨hn, hroom, hag⟩ := h
    exact ⟨hn, by omega, hag.mono hb le_rfl⟩
  | swap new =>
    obtain ⟨hc, hne, hcap, hroom, hag⟩ := h
    exact ⟨hc, hne, hcap, by omega, hag.mono hb le_rfl⟩

theorem Worker.Built.withFront {new : Nat} (h : w.Built newCap new) (f : Nat) :
    ({ w with front := f } : Worker T).Built newCap new := ⟨h.live, h.ne, h.cap⟩

theorem Worker.Copied.withFront {b p new i g : Nat} (h : w.Copied base spare newCap b p new i g)
    (f : Nat) : ({ w with front := f } : Worker T).Copied base spare newCap b p new i g :=
  ⟨h.built.withFront f, h.back, h.cell, h.front, h.start, h.stop, h.room, h.agree⟩

theorem Worker.ResizeAt.withFront {r : ResizePc T} (h : w.ResizeAt base spare newCap r) (f : Nat) :
    ({ w with front := f } : Worker T).ResizeAt base spare newCap r := by
  cases r with
  | read b p new i =>
    obtain ⟨g, hg⟩ := h
    exact ⟨g, hg.withFront f⟩
  | write b p new i x =>
    obtain ⟨hi, hx, g, hg⟩ := h
    exact ⟨hi, hx, g, hg.withFront f⟩
  | replace new =>
    obtain ⟨hn, hroom, hag⟩ := h
    exact ⟨hn.withFront f, hroom, hag⟩
  | _ => exact h

theorem Worker.At.mono {p : WorkerPc T β} (h : w.At base p) (hb : base ≤ base') :
    w.At base' p := by
  cases p with
  | pushBuffer t b f => exact ⟨h.1, h.2.trans hb⟩
  | pushGrown t b => exact ⟨h.1, h.2.trans_le (Nat.add_le_add_right hb _)⟩
  | pushWrite t b q => exact ⟨h.1, h.2.1, h.2.2.trans_le (Nat.add_le_add_right hb _)⟩
  | pushStore t b => exact ⟨h.1, h.2.1.trans_le (Nat.add_le_add_right hb _), h.2.2⟩
  | popAdd b len => exact ⟨h.1, h.2.trans (Nat.add_le_add_right hb _)⟩
  | popBuffer f len => exact fun hc hl => (h hc hl).trans (Nat.add_le_add_right hb _)
  | popRead f len q => exact ⟨h.1, fun hc hl => (h.2 hc hl).trans (Nat.add_le_add_right hb _)⟩
  | reserveBuffer n k len => exact ⟨h.1.trans (Nat.add_le_add_right hb _), h.2⟩
  | reserved n k => exact Nat.le_trans h (Nat.add_le_add_right hb _)
  | resize newCap k r => exact ⟨h.1, h.2.mono hb⟩
  | _ => exact h

@[simp] theorem Worker.resizeStep_front (r : ResizePc T) :
    (w.resizeStep newCap a r).1.front = w.front := by cases r <;> rfl

@[simp] theorem Worker.resizeStep_back (r : ResizePc T) :
    (w.resizeStep newCap a r).1.back = w.back := by cases r <;> rfl

/-- `resize` writes nothing but the buffer it builds. -/
theorem Worker.resizeStep_heap {r : ResizePc T} {q : Nat} (hq : r.building ≠ some q)
    (ha : r.allocates = true → q ≠ a) : (w.resizeStep newCap a r).1.heap q = w.heap q := by
  cases r with
  | alloc b f p => exact Worker.heap_alloc_of_ne (ha rfl)
  | write b p new i x =>
    refine Worker.heap_write_of_ne ?_
    rintro rfl
    exact hq rfl
  | _ => rfl

theorem Worker.ResizeAt.sound {r : ResizePc T} (hs : w.Sound base r.swapping)
    (h : w.ResizeAt base spare newCap r) (ha : r.allocates = true → a ∉ w.live) :
    (w.resizeStep newCap a r).1.Sound base ((w.resizeStep newCap a r).2.any ResizePc.swapping) := by
  cases r with
  | alloc b f p =>
    have hne : w.cell ≠ a := fun he => ha rfl (he ▸ hs.cellLive)
    have hbuf : (w.alloc newCap a).buffer = w.buffer := Worker.heap_alloc_of_ne hne
    refine ⟨hs.le, ?_, Finset.mem_insert_of_mem hs.innerLive,
      Finset.mem_insert_of_mem hs.cellLive, fun _ => hs.same rfl⟩
    rw [show (w.resizeStep newCap a (.alloc b f p)).1.buffer = w.buffer from hbuf]
    exact hs.fits
  | write b p new i x =>
    refine ⟨hs.le, ?_, hs.innerLive, hs.cellLive, fun _ => hs.same rfl⟩
    rw [show (w.resizeStep newCap a (.write b p new i x)).1.buffer.cap = w.buffer.cap from
      Worker.cap_write]
    exact hs.fits
  | read b p new i =>
    refine ⟨hs.le, hs.fits, hs.innerLive, hs.cellLive, fun _ => hs.same rfl⟩
  | replace new =>
    obtain ⟨hn, hroom, hag⟩ := h
    have hfits : w.back ≤ base + (w.heap new).cap.val := by
      rw [hn.cap]
      omega
    exact ⟨hs.le, hfits, hs.innerLive, hn.live,
      fun hf => by simp [Worker.resizeStep, ResizePc.swapping] at hf⟩
  | swap new =>
    obtain ⟨rfl, hne, hcap, hroom, hag⟩ := h
    exact ⟨hs.le, hs.fits, Finset.mem_erase.mpr ⟨hne, hs.cellLive⟩,
      Finset.mem_erase.mpr ⟨hne, hs.cellLive⟩, fun _ => rfl⟩
  | _ => exact ⟨hs.le, hs.fits, hs.innerLive, hs.cellLive, fun _ => hs.same rfl⟩

theorem Worker.Copied.next {b p new i f : Nat} (h : w.Copied base spare newCap b p new i f)
    (hi : i < b) : (w.write new i (w.buffer.read i)).Copied base spare newCap b p new (i + 1) f := by
  have hbuf : (w.write new i (w.buffer.read i)).buffer = w.buffer :=
    Worker.heap_write_of_ne h.built.ne.symm
  have hroom : i < f + (w.heap new).cap.val := by
    rw [h.built.cap]
    have hr := h.room
    omega
  refine ⟨⟨h.built.live, h.built.ne, Worker.cap_write.trans h.built.cap⟩, h.back, h.cell, h.front,
    Nat.le_succ_of_le h.start, hi, h.room, ?_⟩
  rw [hbuf, Worker.heap_write_self]
  refine Agree.snoc ?_ Buffer.read_write_self
  exact (Agree.write_of_room le_rfl hroom).trans h.agree

theorem Worker.Sound.alloc {swapping : Bool} {f : Nat} (hs : w.Sound base swapping) (ha : a ∉ w.live)
    (hf : f ≤ base) (hroom : w.back + spare ≤ f + newCap.val) :
    (w.alloc newCap a).Copied base spare newCap w.back w.cell a f f := by
  have hne : a ≠ w.cell := fun he => ha (he ▸ hs.cellLive)
  have hcap : ((w.alloc newCap a).heap a).cap = newCap := by
    rw [Worker.heap_alloc_self, Buffer.cap_alloc]
  exact ⟨⟨Finset.mem_insert_self a _, hne, hcap⟩, rfl, rfl, hf, le_rfl, hf.trans hs.le, hroom,
    fun j hl hh => absurd hh (Nat.not_lt.mpr hl)⟩

theorem Worker.ResizeAt.next {r r' : ResizePc T} (hs : w.Sound base r.swapping)
    (h : w.ResizeAt base spare newCap r) (hf : w.front = base)
    (ha : r.allocates = true → a ∉ w.live)
    (hr : (w.resizeStep newCap a r).2 = some r') :
    (w.resizeStep newCap a r).1.ResizeAt base spare newCap r' := by
  have hle := hs.le
  cases r with
  | back =>
    cases hr
    exact ⟨rfl, h⟩
  | front b =>
    cases hr
    obtain ⟨rfl, hroom⟩ := h
    exact ⟨rfl, hf.le, by omega⟩
  | buffer b f =>
    cases hr
    exact ⟨h.1, h.2.1, h.2.2, rfl⟩
  | alloc b f p =>
    cases hr
    obtain ⟨rfl, hfb, hroom, rfl⟩ := h
    exact ⟨f, hs.alloc (ha rfl) hfb hroom⟩
  | read b p new i =>
    cases hr
    obtain ⟨f, hc⟩ := h
    change w.ResizeAt base spare newCap _
    by_cases hi : i = b
    · subst i
      rw [if_pos rfl]
      have hroom := hc.room
      have hfront := hc.front
      have hback := hc.back
      exact ⟨hc.built, by omega, hc.agree.mono hfront hback.ge⟩
    · rw [if_neg hi]
      refine ⟨Nat.lt_of_le_of_ne hc.stop hi, ?_, f, hc⟩
      rw [hc.cell, Worker.buffer]
  | write b p new i x =>
    cases hr
    obtain ⟨hi, rfl, f, hc⟩ := h
    exact ⟨f, hc.next hi⟩
  | replace new =>
    cases hr
    obtain ⟨hn, hroom, hag⟩ := h
    have hsame := hs.same rfl
    refine ⟨rfl, fun he => hn.ne (he.trans hsame.symm), hn.cap, hroom, ?_⟩
    rw [Worker.buffer, hsame] at hag
    exact hag
  | swap new => cases hr

theorem Worker.ResizeAt.done {r : ResizePc T} (h : w.ResizeAt base spare newCap r)
    (hr : (w.resizeStep newCap a r).2 = none) :
    (w.resizeStep newCap a r).1.back + spare ≤
      base + (w.resizeStep newCap a r).1.buffer.cap.val := by
  cases r with
  | swap new =>
    obtain ⟨rfl, hne, hcap, hroom, hag⟩ := h
    show w.back + spare ≤ base + w.buffer.cap.val
    rw [hcap]
    exact hroom
  | _ => cases hr

/-- What thieves find in `inner.buffer` stays the same. -/
theorem Worker.ResizeAt.shared {r : ResizePc T} (hs : w.Sound base r.swapping)
    (h : w.ResizeAt base spare newCap r) (ha : r.allocates = true → a ∉ w.live) :
    Agree (w.resizeStep newCap a r).1.shared w.shared base w.back := by
  cases r with
  | alloc b f p =>
    have hne : w.inner ≠ a := fun he => ha rfl (he ▸ hs.innerLive)
    rw [show (w.resizeStep newCap a (.alloc b f p)).1.shared = w.shared from
      Worker.heap_alloc_of_ne hne]
    exact Agree.refl
  | write b p new i x =>
    obtain ⟨hi, rfl, f, hc⟩ := h
    have hne : w.inner ≠ new := fun he => hc.built.ne (he.symm.trans (hs.same rfl).symm)
    rw [show (w.resizeStep newCap a (.write b p new i (w.buffer.read i))).1.shared = w.shared from
      Worker.heap_write_of_ne hne]
    exact Agree.refl
  | swap new =>
    obtain ⟨rfl, hne, hcap, hroom, hag⟩ := h
    exact hag
  | _ => exact Agree.refl

/-- What holds of a queue and of the place of its owner between two steps. -/
structure Worker.Ok (w : Worker T) (p : WorkerPc T β) : Prop where
  sound : w.Sound (w.base p) p.swapping
  known : w.At (w.base p) p

theorem Worker.le_growCap (len n : Nat) (cap : Capacity) (hn : 0 < n) :
    len + n ≤ (growCap len n cap).val := by
  induction cap using growCap.induct len n with
  | case1 cap h ih =>
    rw [growCap, if_pos h]
    exact ih
  | case2 cap h =>
    rw [growCap, if_neg h]
    omega

@[simp] theorem Worker.base_resume (w : Worker T) (k : ResizeFor T β) :
    w.base k.resume = w.front := by cases k <;> rfl

@[simp] theorem Worker.base_resize (w : Worker T) (k : ResizeFor T β) (r : ResizePc T) :
    w.base (.resize newCap k r) = w.front := rfl

@[simp] theorem WorkerPc.swapping_resize (k : ResizeFor T β) (r : ResizePc T) :
    (WorkerPc.resize newCap k r).swapping = r.swapping := rfl

@[simp] theorem ResizeFor.swapping_resume (k : ResizeFor T β) : k.resume.swapping = false := by
  cases k <;> rfl

theorem Worker.at_resume {k : ResizeFor T β} (hk : w.ResumeAt k)
    (h : w.back + k.need ≤ base + w.buffer.cap.val) : w.At base k.resume := by
  cases k with
  | push t b => exact ⟨hk, h⟩
  | pop x => trivial
  | reserve n k => exact h

theorem Worker.Ok.resize {k : ResizeFor T β} {r : ResizePc T} (h : w.Ok (.resize newCap k r))
    (ha : r.allocates = true → a ∉ w.live) :
    (w.step a (.resize newCap k r)).1.Ok (w.step a (.resize newCap k r)).2 := by
  obtain ⟨hs, hk, hr⟩ := h
  have hs' := hr.sound hs ha
  have hk' : (w.resizeStep newCap a r).1.ResumeAt k := by
    cases k with
    | push t b => exact hk.trans (Worker.resizeStep_back r).symm
    | _ => trivial
  rw [Worker.step]
  cases hn : (w.resizeStep newCap a r).2 with
  | none =>
    rw [hn] at hs'
    constructor
    · simpa using hs'
    · simpa using Worker.at_resume hk' (hr.done hn)
  | some r' =>
    rw [hn] at hs'
    constructor
    · simpa using hs'
    · have hnext := hr.next hs rfl ha hn
      simpa using ⟨hk', hnext⟩

theorem Worker.Ok.pushWrite {t : T} {b p : Nat} (h : w.Ok (.pushWrite t b p : WorkerPc T β)) :
    (w.write p b (some t)).Ok (.pushStore t b : WorkerPc T β) := by
  obtain ⟨hs, rfl, rfl, hroom⟩ := h
  constructor
  · refine ⟨hs.le, ?_, hs.innerLive, hs.cellLive, hs.same⟩
    rw [show (w.write w.cell w.back (some t)).buffer.cap = w.buffer.cap from Worker.cap_write]
    exact hs.fits
  · refine ⟨rfl, ?_, ?_⟩
    · rw [show (w.write w.cell w.back (some t)).buffer.cap = w.buffer.cap from Worker.cap_write]
      exact hroom
    · rw [Worker.buffer, show (w.write w.cell w.back (some t)).cell = w.cell from rfl,
        Worker.heap_write_self]
      exact Buffer.read_write_self

theorem Worker.Ok.step {p : WorkerPc T β} (h : w.Ok p) (ha : p.allocates = true → a ∉ w.live) :
    (w.step a p).1.Ok (w.step a p).2 := by
  obtain ⟨hs, hk⟩ := h
  have hle := hs.le
  have hfits := hs.fits
  cases p with
  | idle => exact ⟨hs, hk⟩
  | pushBack t => exact ⟨hs, rfl⟩
  | pushFront t b => exact ⟨hs, hk, le_rfl⟩
  | pushBuffer t b f =>
    obtain ⟨rfl, hf⟩ := hk
    by_cases hfull : w.buffer.cap.val ≤ w.back - f
    · rw [Worker.step, if_pos hfull]
      have hpos := w.buffer.cap.pos
      refine ⟨hs, rfl, ?_⟩
      show w.back + 1 ≤ w.front + w.buffer.cap.double.val
      rw [Capacity.val_double]
      change w.back ≤ w.front + w.buffer.cap.val at hfits
      omega
    · rw [Worker.step, if_neg hfull]
      change f ≤ w.front at hf
      refine ⟨hs, rfl, rfl, ?_⟩
      show w.back < w.front + w.buffer.cap.val
      omega
  | pushGrown t b => exact ⟨hs, hk.1, rfl, hk.2⟩
  | pushWrite t b q => exact Worker.Ok.pushWrite ⟨hs, hk⟩
  | pushStore t b =>
    obtain ⟨rfl, hroom, hx⟩ := hk
    exact ⟨⟨Nat.le_succ_of_le hle, hroom, hs.innerLive, hs.cellLive, hs.same⟩, trivial⟩
  | popBack => exact ⟨hs, rfl⟩
  | popFront b =>
    by_cases hb : b ≤ w.front
    · rw [Worker.step, if_pos hb]
      exact ⟨hs, trivial⟩
    · rw [Worker.step, if_neg hb]
      obtain rfl : b = w.back := hk
      refine ⟨hs, rfl, ?_⟩
      show w.back ≤ w.front + (w.back - w.front)
      omega
  | popAdd b len =>
    obtain ⟨rfl, hlen⟩ := hk
    change w.back ≤ w.front + len at hlen
    change w.front ≤ w.back at hle
    change w.back ≤ w.front + w.buffer.cap.val at hfits
    by_cases hb : w.back < w.front + 1
    · rw [Worker.step, if_pos hb]
      exact ⟨hs.withFront _, Nat.le_antisymm hle (Nat.le_of_lt_succ hb), rfl⟩
    · rw [Worker.step, if_neg hb]
      refine ⟨(hs.mono (Nat.le_succ _) (Nat.not_lt.mp hb)).withFront _, ?_⟩
      intro hc hl
      show w.back ≤ w.front + 1 + w.buffer.cap.val / 2
      change len ≤ w.buffer.cap.val / 4 at hl
      omega
  | popUndo f =>
    obtain ⟨rfl, hf⟩ := hk
    exact ⟨hs.withFront _, trivial⟩
  | popBuffer f len => exact ⟨hs, rfl, hk⟩
  | popRead f len q =>
    obtain ⟨rfl, hfit⟩ := hk
    by_cases hc : minCap.val < (w.heap w.cell).cap.val ∧ len ≤ (w.heap w.cell).cap.val / 4
    · rw [Worker.step, dif_pos hc]
      exact ⟨hs, trivial, hfit hc.1 hc.2⟩
    · rw [Worker.step, dif_neg hc]
      exact ⟨hs, trivial⟩
  | popped x => exact ⟨hs, trivial⟩
  | reserveBack n k => exact ⟨hs, rfl⟩
  | reserveFront n k b =>
    obtain rfl : b = w.back := hk
    change w.back ≤ w.front + w.buffer.cap.val at hfits
    refine ⟨hs, ?_, ?_⟩
    · show w.back ≤ w.front + (w.back - w.front)
      omega
    · show w.back - w.front ≤ w.buffer.cap.val
      omega
  | reserveBuffer n k len =>
    obtain ⟨hlen, hcap⟩ := hk
    change w.back ≤ w.front + len at hlen
    by_cases hn : w.buffer.cap.val - len < n
    · rw [Worker.step, if_pos hn]
      have hgrow := Worker.le_growCap len n w.buffer.cap.double (by omega)
      refine ⟨hs, trivial, ?_⟩
      show w.back + n ≤ w.front + (growCap len n w.buffer.cap.double).val
      omega
    · rw [Worker.step, if_neg hn]
      refine ⟨hs, ?_⟩
      show w.back + n ≤ w.front + w.buffer.cap.val
      omega
  | reserved n k => exact ⟨hs, hk⟩
  | resize newCap k r => exact Worker.Ok.resize ⟨hs, hk⟩ ha

theorem Worker.Ok.buffer_eq {p : WorkerPc T β} (h : w.Ok p) (hp : p.swapping = false) :
    w.buffer = w.shared := by
  rw [Worker.buffer, h.sound.same hp, Worker.shared]

theorem Worker.Ok.back_eq {p : WorkerPc T β} (h : w.Ok p) :
    (w.step a p).1.back = w.back + ((w.events p).filterMap WorkerEvent.pushes).length := by
  cases p with
  | pushStore t b =>
    have hb : b = w.back := h.known.1
    exact congrArg Nat.succ hb
  | popFront b =>
    simp only [Worker.events]
    split <;> rfl
  | popAdd b len =>
    simp only [Worker.events]
    split <;> rfl
  | resize newCap k r => exact Worker.resizeStep_back r
  | _ => rfl

theorem Worker.Ok.back_le {p : WorkerPc T β} (h : w.Ok p) : w.back ≤ (w.step a p).1.back :=
  Nat.le.intro h.back_eq.symm

theorem Worker.Ok.front_le {p : WorkerPc T β} (h : w.Ok p) : w.front ≤ w.back + 1 := by
  have hle := h.sound.le
  cases p with
  | popUndo f =>
    obtain ⟨hf, hfront⟩ : f = w.back ∧ w.front = f + 1 := h.known
    omega
  | _ => exact Nat.le_succ_of_le hle

theorem WorkerPc.Next.base_eq {p p' : WorkerPc T β} (h : p.Next p') (hp : ∀ b len, p ≠ .popAdd b len)
    (w : Worker T) : w.base p' = w.front := by
  cases h with
  | popLost b len f => exact absurd rfl (hp b len)
  | resume newCap k r => exact w.base_resume k
  | _ => rfl

theorem Worker.Ok.base_le {p : WorkerPc T β} (h : w.Ok p) :
    w.base p ≤ (w.step a p).1.base (w.step a p).2 := by
  cases p with
  | popAdd b len =>
    simp only [Worker.step]
    split
    · exact le_rfl
    · exact Nat.le_succ _
  | popUndo f => exact le_rfl
  | resize newCap k r =>
    rw [(w.step_next a _).base_eq (by simp)]
    exact (Worker.resizeStep_front r).ge
  | _ =>
    rw [(w.step_next a _).base_eq (by simp)]
    exact le_rfl

/-- The tasks in the queue stay where a thief finds them. -/
theorem Worker.Ok.shared {p : WorkerPc T β} (h : w.Ok p)
    (ha : p.allocates = true → a ∉ w.live) :
    Agree (w.step a p).1.shared w.shared (w.base p) w.back := by
  cases p with
  | pushWrite t b q =>
    obtain ⟨rfl, rfl, hroom⟩ := h.known
    exact Worker.agree_write le_rfl hroom
  | resize newCap k r => exact h.known.2.shared h.sound ha
  | _ => exact Agree.refl

theorem Worker.Ok.held {p : WorkerPc T β} (h : w.Ok p) {q : Nat} (hq : p.building ≠ some q)
    (ha : p.allocates = true → q ≠ a) :
    Agree ((w.step a p).1.heap q) (w.heap q) (w.base p) w.back := by
  cases p with
  | pushWrite t b q =>
    obtain ⟨rfl, rfl, hroom⟩ := h.known
    exact Worker.agree_write le_rfl hroom
  | resize newCap k r =>
    rw [show ((w.step a (.resize newCap k r)).1.heap q) = w.heap q from
      Worker.resizeStep_heap hq ha]
    exact Agree.refl
  | _ => exact Agree.refl

/-- Tasks enter the queue at its end and leave it at its start. -/
theorem Worker.Ok.contents_step {p : WorkerPc T β} (h : w.Ok p)
    (ha : p.allocates = true → a ∉ w.live) :
    w.contents (w.base p) ++ (w.events p).filterMap WorkerEvent.pushes =
      (w.events p).filterMap WorkerEvent.takes ++
        (w.step a p).1.contents ((w.step a p).1.base (w.step a p).2) := by
  cases p with
  | pushStore t b =>
    have hbuf := h.buffer_eq rfl
    obtain ⟨rfl, hroom, hx⟩ := h.known
    rw [hbuf] at hx
    have hle : w.front ≤ w.back := h.sound.le
    show w.shared.window w.front w.back ++ [some t] = w.shared.window w.front (w.back + 1)
    rw [Buffer.window_snoc hle, hx]
  | popAdd b len =>
    obtain ⟨rfl, hlen⟩ := h.known
    by_cases hb : w.back < w.front + 1
    · simp only [Worker.events, Worker.step, if_pos hb]
      exact List.append_nil _
    · simp only [Worker.events, Worker.step, if_neg hb]
      show w.shared.window w.front w.back ++ [] =
        w.shared.read w.front :: w.shared.window (w.front + 1) w.back
      rw [List.append_nil, Buffer.window_cons (Nat.not_lt.mp hb)]
  | pushBuffer t b f =>
    simp only [Worker.events, Worker.step]
    split <;> exact List.append_nil _
  | popFront b =>
    simp only [Worker.events, Worker.step]
    split <;> exact List.append_nil _
  | popRead f len q =>
    simp only [Worker.events, Worker.step]
    split <;> exact List.append_nil _
  | reserveBuffer n k len =>
    simp only [Worker.events, Worker.step]
    split <;> exact List.append_nil _
  | pushWrite t b q =>
    have hag := (h.shared ha).window
    exact (List.append_nil _).trans hag.symm
  | resize newCap k r =>
    have hag := (h.known.2.shared h.sound ha).window
    rw [(w.step_next a _).base_eq (by simp), Worker.contents, Worker.contents]
    simp only [Worker.events, Worker.step, List.filterMap_nil, List.append_nil, List.nil_append,
      Worker.resizeStep_back, Worker.resizeStep_front]
    exact hag.symm
  | _ => exact List.append_nil _

/-- A pop returns the task that it took off the queue. -/
theorem Worker.inFlight_step {p : WorkerPc T β} (hs : p.swapping = false → w.cell = w.inner) :
    w.inFlight p ++ (w.events p).filterMap WorkerEvent.takes =
      (w.events p).filterMap WorkerEvent.returns ++ (w.step a p).1.inFlight (w.step a p).2 := by
  cases p with
  | popAdd b len =>
    by_cases hb : b < w.front + 1
    · simp only [Worker.events, Worker.step, if_pos hb]
      rfl
    · simp only [Worker.events, Worker.step, if_neg hb]
      show [w.shared.read w.front] = [w.buffer.read w.front]
      rw [Worker.buffer, hs rfl, Worker.shared]
  | pushBuffer t b f =>
    simp only [Worker.events, Worker.step]
    split <;> rfl
  | popFront b =>
    simp only [Worker.events, Worker.step]
    split <;> rfl
  | popRead f len q =>
    simp only [Worker.events, Worker.step]
    split <;> rfl
  | reserveBuffer n k len =>
    simp only [Worker.events, Worker.step]
    split <;> rfl
  | resize newCap k r =>
    simp only [Worker.events, Worker.step]
    cases (w.resizeStep newCap a r).2 with
    | none => cases k <;> rfl
    | some r' => cases k <;> rfl
  | _ => rfl

end Nacl
