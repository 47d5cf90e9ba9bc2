import Nacl.DequeWake

/-! Handlers that wake only where it does no harm lose no task: the main line and its
handlers keep what the main line knows, and the log of the run accounts for all tasks. -/

namespace Nacl

open Guarded Ring

variable {T β : Type*} {w : Worker T} {a : Nat}

def Worker.queued (w : Worker T) : List (Option T) := w.buffer.window w.front w.back

/-- What the main line knows at a place, when handlers may have pushed since it
loaded `back` in a pop. -/
def Worker.LineAt (w : Worker T) : WorkerPc T β → Prop
  | .popFront b => b ≤ w.back ∧ (w.front < b → w.ShrinkFits (w.front + 1) (b - w.front))
  | .popAdd b len => w.front < b ∧ b ≤ w.back ∧ w.ShrinkFits (w.front + 1) len
  | .popUndo _ => False
  | .popBuffer f len => w.front = f + 1 ∧ w.back ≤ f + w.buffer.cap.val ∧ w.ShrinkFits w.front len
  | .popRead f len p =>
    p = w.cell ∧ w.front = f + 1 ∧ w.back ≤ f + w.buffer.cap.val ∧ w.ShrinkFits w.front len
  | .resize newCap k (.swap new) => w.ResumeAt k ∧ w.cell = new ∧ new ≠ w.inner ∧
      w.buffer.cap = newCap ∧ w.back + k.need ≤ w.front + newCap.val
  | p => w.At w.front p

structure Worker.LineOk (w : Worker T) (p : WorkerPc T β) : Prop where
  sound : w.Sound w.front p.swapping
  known : w.LineAt p

/-- The places where what the main line knows can be out of date. -/
def WorkerPc.popping : WorkerPc T β → Bool
  | .popFront _ | .popAdd _ _ | .popUndo _ | .popBuffer _ _ | .popRead _ _ _ => true
  | _ => false

theorem Worker.Ok.toLine {p : WorkerPc T β} (h : w.Ok p) (hp : p.popping = false) : w.LineOk p := by
  obtain ⟨hs, hk⟩ := h
  cases p with
  | resize newCap k r =>
    refine ⟨hs, ?_⟩
    cases r with
    | swap new =>
      obtain ⟨hr, hc, hne, hcap, hroom, -⟩ := hk
      exact ⟨hr, hc, hne, hcap, hroom⟩
    | _ => exact hk
  | popFront b => cases hp
  | popAdd b len => cases hp
  | popUndo f => cases hp
  | popBuffer f len => cases hp
  | popRead f len q => cases hp
  | _ => exact ⟨hs, hk⟩

theorem Worker.LineOk.toOk {p : WorkerPc T β} (h : w.LineOk p) (hp : p.popping = false)
    (hswap : p.swapping = false) : w.Ok p := by
  obtain ⟨hs, hk⟩ := h
  cases p with
  | resize newCap k r =>
    cases r with
    | swap new => cases hswap
    | _ => exact ⟨hs, hk⟩
  | popFront b => cases hp
  | popAdd b len => cases hp
  | popUndo f => cases hp
  | popBuffer f len => cases hp
  | popRead f len q => cases hp
  | _ => exact ⟨hs, hk⟩

theorem Worker.LineOk.swap {newCap : Capacity} {k : ResizeFor T β} {new : Nat}
    (h : w.LineOk (.resize newCap k (.swap new))) :
    (w.step a (.resize newCap k (.swap new))).1.LineOk
      (w.step a (.resize newCap k (.swap new))).2 := by
  obtain ⟨hs, hr, rfl, hne, rfl, hroom⟩ := h
  have hlive := Finset.mem_erase.mpr ⟨hne, hs.cellLive⟩
  have hok : ({ w with inner := w.cell, live := w.live.erase w.inner } : Worker T).Ok k.resume := by
    constructor
    · rw [Worker.base_resume, ResizeFor.swapping_resume]
      exact ⟨hs.le, hs.fits, hlive, hlive, fun _ => rfl⟩
    · rw [Worker.base_resume]
      refine Worker.at_resume ?_ hroom
      cases k with
      | push t b => exact hr
      | _ => trivial
  refine hok.toLine ?_
  cases k <;> rfl

theorem WorkerPc.Next.popping {p p' : WorkerPc T β} (h : p.Next p') (hp : p.popping = false)
    (hb : p ≠ .popBack) : p'.popping = false := by
  cases h with
  | popBack b => exact absurd rfl hb
  | resume newCap k r => cases k <;> rfl
  | popSome | popLost | popTook | popBuffer => cases hp
  | _ => rfl

theorem Worker.LineOk.step {p : WorkerPc T β} (h : w.LineOk p)
    (ha : p.allocates = true → a ∉ w.live) : (w.step a p).1.LineOk (w.step a p).2 := by
  have hle := h.sound.le
  have hfits := h.sound.fits
  cases p with
  | popBack =>
    refine ⟨h.sound, le_rfl, ?_⟩
    intro hlt hc hl
    change w.back - w.front ≤ w.buffer.cap.val / 4 at hl
    show w.back ≤ w.front + 1 + w.buffer.cap.val / 2
    omega
  | popFront b =>
    by_cases hb : b ≤ w.front
    · rw [Worker.step, if_pos hb]
      exact ⟨h.sound, trivial⟩
    · rw [Worker.step, if_neg hb]
      have hlt := Nat.not_le.mp hb
      exact ⟨h.sound, hlt, h.known.1, h.known.2 hlt⟩
  | popAdd b len =>
    obtain ⟨hlt, hb, hshrink⟩ := h.known
    have hnb : ¬ b < w.front + 1 := by omega
    rw [Worker.step, if_neg hnb]
    exact ⟨(h.sound.mono (Nat.le_succ _) (Nat.le_trans hlt hb)).withFront _, rfl, hfits, hshrink⟩
  | popUndo f => exact h.known.elim
  | popBuffer f len => exact ⟨h.sound, rfl, h.known⟩
  | popRead f len q =>
    obtain ⟨rfl, hf, hcap, hshrink⟩ := h.known
    by_cases hc : minCap.val < (w.heap w.cell).cap.val ∧ len ≤ (w.heap w.cell).cap.val / 4
    · rw [Worker.step, dif_pos hc]
      exact ⟨h.sound, trivial, hshrink hc.1 hc.2⟩
    · rw [Worker.step, dif_neg hc]
      exact ⟨h.sound, trivial⟩
  | resize newCap k r =>
    by_cases hr : r.swapping = true
    · cases r with
      | swap new => exact h.swap
      | _ => cases hr
    · have hok := h.toOk rfl (Bool.not_eq_true _ |>.mp hr)
      exact (hok.step ha).toLine ((w.step_next a _).popping rfl (by simp))
  | _ =>
    have hok := h.toOk rfl rfl
    exact (hok.step ha).toLine ((w.step_next a _).popping rfl (by simp))

section
variable {newCap : Capacity} {i n : Nat}

@[simp] theorem Worker.front_copyTo : (w.copyTo a i n).front = w.front := by
  induction n generalizing w i with
  | zero => rfl
  | succ n ih => exact ih

@[simp] theorem Worker.back_copyTo : (w.copyTo a i n).back = w.back := by
  induction n generalizing w i with
  | zero => rfl
  | succ n ih => exact ih

@[simp] theorem Worker.cell_copyTo : (w.copyTo a i n).cell = w.cell := by
  induction n generalizing w i with
  | zero => rfl
  | succ n ih => exact ih

@[simp] theorem Worker.inner_copyTo : (w.copyTo a i n).inner = w.inner := by
  induction n generalizing w i with
  | zero => rfl
  | succ n ih => exact ih

theorem Worker.heap_copyTo_of_ne {q : Nat} (hq : q ≠ a) : (w.copyTo a i n).heap q = w.heap q := by
  induction n generalizing w i with
  | zero => rfl
  | succ n ih => exact ih.trans (Worker.heap_write_of_ne hq)

theorem Worker.Copied.copyTo {base spare b p f : Nat} (h : w.Copied base spare newCap b p a i f)
    (hn : i + n = b) : (w.copyTo a i n).Copied base spare newCap b p a b f := by
  induction n generalizing w i with
  | zero =>
    obtain rfl : i = b := hn
    exact h
  | succ n ih => exact ih (h.next (by omega)) (by omega)

def Worker.stepOn (a : Nat) (x : Worker T × WorkerPc T β) : Worker T × WorkerPc T β := x.1.step a x.2

theorem Worker.copyTo_steps {k : ResizeFor T β} {b : Nat} (hn : i + n = b) :
    (Worker.stepOn a)^[2 * n + 1] (w, .resize newCap k (.read b w.cell a i)) =
      (w.copyTo a i n, .resize newCap k (.replace a)) := by
  induction n generalizing w i with
  | zero =>
    obtain rfl : i = b := hn
    simp [Worker.stepOn, Worker.step, Worker.resizeStep, Worker.copyTo]
  | succ n ih =>
    have hi : i ≠ b := by omega
    have hstep : (Worker.stepOn a)^[2] (w, .resize newCap k (.read b w.cell a i)) =
        (w.write a i (w.buffer.read i), .resize newCap k (.read b w.cell a (i + 1))) := by
      simp [Worker.stepOn, Worker.step, Worker.resizeStep, hi, Worker.buffer]
    rw [show 2 * (n + 1) + 1 = (2 * n + 1) + 2 by omega, Function.iterate_add_apply, hstep]
    exact ih (by omega)

/-- The accesses of a push that nothing interrupts. -/
theorem Worker.push_steps (hle : w.front ≤ w.back) (t : T) :
    ∃ n, (Worker.stepOn a)^[n] (w, (.pushBack t : WorkerPc T β)) = (w.push t a, .idle) := by
  by_cases hfull : w.buffer.cap.val ≤ w.back - w.front
  · have hstart : (Worker.stepOn a)^[7] (w, (.pushBack t : WorkerPc T β)) =
        (w.alloc w.buffer.cap.double a, .resize w.buffer.cap.double (.push t w.back)
          (.read w.back w.cell a w.front)) := by
      simp [Worker.stepOn, Worker.step, Worker.resizeStep, hfull]
    have hcopy : (Worker.stepOn a)^[2 * (w.back - w.front) + 1]
        (w.alloc w.buffer.cap.double a, (.resize w.buffer.cap.double (.push t w.back)
          (.read w.back w.cell a w.front) : WorkerPc T β)) =
        ((w.alloc w.buffer.cap.double a).copyTo a w.front (w.back - w.front),
          .resize w.buffer.cap.double (.push t w.back) (.replace a)) :=
      Worker.copyTo_steps (Nat.add_sub_of_le hle)
    refine ⟨5 + ((2 * (w.back - w.front) + 1) + 7), ?_⟩
    rw [Function.iterate_add_apply, Function.iterate_add_apply, hstart, hcopy]
    simp [Worker.stepOn, Worker.step, Worker.resizeStep, ResizeFor.resume, Worker.push,
      Worker.resize, hfull]
  · refine ⟨5, ?_⟩
    simp [Worker.stepOn, Worker.step, Worker.push, hfull]

theorem Worker.Sound.resize (hs : w.Sound w.front false) (newCap : Capacity) (ha : a ∉ w.live)
    (hroom : w.back ≤ w.front + newCap.val) :
    (w.resize newCap a).Sound w.front false ∧ (w.resize newCap a).buffer.cap = newCap ∧
      Agree (w.resize newCap a).buffer w.buffer w.front w.back := by
  have hcell : w.cell ≠ a := fun he => ha (he ▸ hs.cellLive)
  have hinner : w.inner ≠ a := fun he => ha (he ▸ hs.innerLive)
  have hstart : (w.alloc newCap a).Copied w.front 0 newCap w.back w.cell a w.front w.front :=
    hs.alloc ha le_rfl hroom
  have hcopy := hstart.copyTo (Nat.add_sub_of_le hs.le)
  have hbuf : ((w.alloc newCap a).copyTo a w.front (w.back - w.front)).buffer = w.buffer := by
    rw [Worker.buffer, Worker.cell_copyTo]
    exact (Worker.heap_copyTo_of_ne hcell).trans (Worker.heap_alloc_of_ne hcell)
  have hback : (w.resize newCap a).back = w.back := Worker.back_copyTo
  have hlive : a ∈ (w.resize newCap a).live := by
    refine Finset.mem_erase.mpr ⟨?_, hcopy.built.live⟩
    rw [Worker.inner_copyTo]
    exact hinner.symm
  have hag := hcopy.agree
  rw [hbuf] at hag
  refine ⟨⟨hback ▸ hs.le, ?_, hlive, hlive, fun _ => rfl⟩, hcopy.built.cap, hag⟩
  rw [show (w.resize newCap a).buffer.cap = newCap from hcopy.built.cap, hback]
  exact hroom

theorem Worker.push_of_room (t : T) (hroom : w.back < w.front + w.buffer.cap.val) :
    w.push t a = { w.write w.cell w.back (some t) with back := w.back + 1 } := by
  have hpos := w.buffer.cap.pos
  have hfull : ¬ w.buffer.cap.val ≤ w.back - w.front := by omega
  simp [Worker.push, hfull]

theorem Worker.push_of_full (t : T) (hfull : ¬ w.back < w.front + w.buffer.cap.val) :
    w.push t a = { (w.resize w.buffer.cap.double a).write a w.back (some t) with
      back := w.back + 1 } := by
  have hfull' : w.buffer.cap.val ≤ w.back - w.front := by omega
  simp [Worker.push, hfull', Worker.resize]

end

/-- What a push by a handler does to the queue, seen from the main line. -/
structure Worker.Pushed (w w' : Worker T) (t : T) (swapping : Bool) : Prop where
  front : w'.front = w.front
  back : w'.back = w.back + 1
  sound : w'.Sound w.front swapping
  agree : Agree w'.buffer w.buffer w.front w.back
  last : w'.buffer.read w.back = some t

theorem Worker.Sound.pushed_room {swapping : Bool} (hs : w.Sound w.front swapping) (t : T)
    (hroom : w.back < w.front + w.buffer.cap.val) : w.Pushed (w.push t a) t swapping := by
  have hcap : (w.write w.cell w.back (some t)).buffer.cap = w.buffer.cap := Worker.cap_write
  rw [Worker.push_of_room t hroom]
  refine ⟨rfl, rfl, ⟨Nat.le_succ_of_le hs.le, ?_, hs.innerLive, hs.cellLive, hs.same⟩,
    Worker.agree_write le_rfl hroom, ?_⟩
  · show w.back + 1 ≤ w.front + (w.write w.cell w.back (some t)).buffer.cap.val
    rw [hcap]
    exact hroom
  · show ((w.write w.cell w.back (some t)).heap w.cell).read w.back = some t
    rw [Worker.heap_write_self, Buffer.read_write_self]

theorem Worker.Sound.pushed_full (hs : w.Sound w.front false) (ha : a ∉ w.live) (t : T)
    (hfull : ¬ w.back < w.front + w.buffer.cap.val) :
    w.Pushed (w.push t a) t false ∧ (w.push t a).buffer.cap.val = w.buffer.cap.val * 2 := by
  have hfits := hs.fits
  have hpos := w.buffer.cap.pos
  have hroom : w.back + 1 ≤ w.front + w.buffer.cap.double.val := by
    rw [Capacity.val_double]
    omega
  obtain ⟨hs', hcap, hag⟩ := hs.resize w.buffer.cap.double ha (Nat.le_of_succ_le hroom)
  have hcap' : ((w.resize w.buffer.cap.double a).write a w.back (some t)).buffer.cap =
      w.buffer.cap.double := Worker.cap_write.trans hcap
  have hwrite : Agree ((w.resize w.buffer.cap.double a).write a w.back (some t)).buffer
      (w.resize w.buffer.cap.double a).buffer w.front w.back := by
    refine Worker.agree_write le_rfl ?_
    change w.back < w.front + (w.resize w.buffer.cap.double a).buffer.cap.val
    rw [hcap]
    exact hroom
  rw [Worker.push_of_full t hfull]
  refine ⟨⟨Worker.front_copyTo, rfl, ⟨Nat.le_succ_of_le hs.le, ?_, hs'.innerLive, hs'.cellLive,
    hs'.same⟩, hwrite.trans hag, ?_⟩, ?_⟩
  · show w.back + 1 ≤ w.front + ((w.resize w.buffer.cap.double a).write a w.back (some t)).buffer.cap.val
    rw [hcap']
    exact hroom
  · show (((w.resize w.buffer.cap.double a).write a w.back (some t)).heap a).read w.back = some t
    rw [Worker.heap_write_self, Buffer.read_write_self]
  · show ((w.resize w.buffer.cap.double a).write a w.back (some t)).buffer.cap.val = _
    rw [hcap', Capacity.val_double]

theorem Worker.cap_push_of_room (t : T) (hroom : w.back < w.front + w.buffer.cap.val) :
    (w.push t a).buffer.cap = w.buffer.cap := by
  rw [Worker.push_of_room t hroom]
  exact Worker.cap_write

theorem Worker.Sound.pushed (hs : w.Sound w.front false) (ha : a ∉ w.live) (t : T) :
    w.Pushed (w.push t a) t false := by
  by_cases hroom : w.back < w.front + w.buffer.cap.val
  · exact hs.pushed_room t hroom
  · exact (hs.pushed_full ha t hroom).1

theorem Worker.Sound.shrinkFits_push (hs : w.Sound w.front false) (ha : a ∉ w.live) (t : T)
    {len : Nat} (h : w.Shrinks len → w.back ≤ w.front + w.buffer.cap.val / 2) :
    (w.push t a).ShrinkFits (w.front + 1) len := by
  have hback := (hs.pushed ha t).back
  have hfits := hs.fits
  intro hc hl
  rw [hback]
  by_cases hroom : w.back < w.front + w.buffer.cap.val
  · rw [Worker.cap_push_of_room t hroom] at hc hl ⊢
    have hsafe := h ⟨hc, hl⟩
    omega
  · rw [(hs.pushed_full ha t hroom).2]
    omega

/-- A slot that is not in the queue any more, but still in the buffer. -/
theorem Worker.read_push_of_room (t : T) {f : Nat} (hf : f < w.back)
    (hroom : w.back < w.front + w.buffer.cap.val) (hslot : w.back < f + w.buffer.cap.val) :
    ((w.push t a).heap w.cell).read f = w.buffer.read f := by
  rw [Worker.push_of_room t hroom]
  show ((w.write w.cell w.back (some t)).heap w.cell).read f = w.buffer.read f
  rw [Worker.heap_write_self]
  exact Buffer.read_write_of_lt hf hslot

theorem Worker.cell_push_of_room (t : T) (hroom : w.back < w.front + w.buffer.cap.val) :
    (w.push t a).cell = w.cell := by
  rw [Worker.push_of_room t hroom]
  rfl

/-- A push after the `fetch_add` of a pop that took index `f`, when the buffer has a slot
left besides that one: the pop still reads the same task, and can still shrink. -/
theorem Worker.Sound.pushed_taken {swapping : Bool} {f len : Nat} (hs : w.Sound w.front swapping)
    (hf : w.front = f + 1) (hslot : w.back < f + w.buffer.cap.val)
    (hshrink : w.Shrinks len → w.back ≤ f + w.buffer.cap.val / 2) (t : T) :
    w.Pushed (w.push t a) t swapping ∧ (w.push t a).cell = w.cell ∧
      (w.push t a).back ≤ f + (w.push t a).buffer.cap.val ∧
      (w.push t a).ShrinkFits (w.push t a).front len ∧
      ((w.push t a).heap w.cell).read f = w.buffer.read f := by
  have hle := hs.le
  have hroom : w.back < w.front + w.buffer.cap.val := by omega
  have hp := hs.pushed_room (a := a) t hroom
  refine ⟨hp, Worker.cell_push_of_room t hroom, ?_, ?_,
    Worker.read_push_of_room t (by omega) hroom hslot⟩
  · rw [hp.back, Worker.cap_push_of_room t hroom]
    exact hslot
  · intro hc hl
    rw [Worker.cap_push_of_room t hroom] at hc hl ⊢
    have hsafe := hshrink ⟨hc, hl⟩
    rw [hp.back, hp.front]
    omega

theorem Worker.LineOk.wake {p : WorkerPc T Empty} (h : w.LineOk p) (hw : w.WakeSafe p)
    (ha : a ∉ w.live) (t : T) :
    (w.push t a).LineAt p ∧ w.Pushed (w.push t a) t p.swapping ∧
      (w.push t a).inFlight p = w.inFlight p := by
  cases p with
  | idle => exact ⟨trivial, h.sound.pushed ha t, rfl⟩
  | pushBack u => exact ⟨trivial, h.sound.pushed ha t, rfl⟩
  | popBack => exact ⟨trivial, h.sound.pushed ha t, rfl⟩
  | popped x => exact ⟨trivial, h.sound.pushed ha t, rfl⟩
  | pushFront u b => exact hw.elim
  | pushBuffer u b f => exact hw.elim
  | pushGrown u b => exact hw.elim
  | pushWrite u b q => exact hw.elim
  | pushStore u b => exact hw.elim
  | popFront b =>
    have hp := h.sound.pushed ha t
    refine ⟨⟨?_, ?_⟩, hp, rfl⟩
    · rw [hp.back]
      exact Nat.le_succ_of_le h.known.1
    · rw [hp.front]
      intro hlt
      exact h.sound.shrinkFits_push ha t (hw hlt)
  | popAdd b len =>
    have hp := h.sound.pushed ha t
    obtain ⟨hlt, hb, -⟩ := h.known
    refine ⟨⟨?_, ?_, ?_⟩, hp, rfl⟩
    · rw [hp.front]
      exact hlt
    · rw [hp.back]
      exact Nat.le_succ_of_le hb
    · rw [hp.front]
      exact h.sound.shrinkFits_push ha t hw
  | popUndo f => exact h.known.elim
  | popBuffer f len =>
    obtain ⟨hf, -, -⟩ := h.known
    obtain ⟨hp, hcell, hback, hfits, hread⟩ := h.sound.pushed_taken (a := a) hf hw.1 hw.2 t
    refine ⟨⟨hp.front.trans hf, hback, hfits⟩, hp, ?_⟩
    simp only [Worker.inFlight]
    rw [Worker.buffer, hcell, hread]
  | popRead f len q =>
    obtain ⟨rfl, hf, -, -⟩ := h.known
    obtain ⟨hp, hcell, hback, hfits, hread⟩ := h.sound.pushed_taken (a := a) hf hw.1 hw.2 t
    refine ⟨⟨hcell.symm, hp.front.trans hf, hback, hfits⟩, hp, ?_⟩
    simp only [Worker.inFlight]
    rw [hread, Worker.buffer]
  | reserveBack n k => exact k.elim
  | reserveFront n k b => exact k.elim
  | reserveBuffer n k len => exact k.elim
  | reserved n k => exact k.elim
  | resize newCap k r =>
    cases k with
    | push u b => cases r <;> exact hw.elim
    | reserve n k => exact k.elim
    | pop x =>
      cases r with
      | back =>
        have hp := h.sound.pushed ha t
        refine ⟨⟨trivial, ?_⟩, hp, rfl⟩
        show (w.push t a).back + 0 ≤ (w.push t a).front + newCap.val
        rw [hp.back, hp.front]
        exact hw
      | swap new =>
        obtain ⟨-, rfl, hne, hcap, hroom⟩ := h.known
        have hp := h.sound.pushed_room (a := a) t hw
        have hcell : (w.push t a).cell = w.cell := Worker.cell_push_of_room t hw
        have hinner : (w.push t a).inner = w.inner := by
          rw [Worker.push_of_room t hw]
          rfl
        refine ⟨⟨trivial, hcell, hinner ▸ hne, (Worker.cap_push_of_room t hw).trans hcap, ?_⟩, hp, rfl⟩
        rw [hp.back, hp.front, ← hcap]
        exact hw
      | _ => exact hw.elim

theorem Worker.Pushed.queued {w' : Worker T} {t : T} {swapping : Bool}
    (h : w.Pushed w' t swapping) (hle : w.front ≤ w.back) : w'.queued = w.queued ++ [some t] := by
  rw [Worker.queued, h.front, h.back, Buffer.window_snoc hle, h.agree.window, h.last, Worker.queued]

theorem Worker.ResizeAt.queued {newCap : Capacity} {spare : Nat} {r : ResizePc T}
    (hs : w.Sound w.front r.swapping) (h : r.swapping = false → w.ResizeAt w.front spare newCap r)
    (ha : r.allocates = true → a ∉ w.live) :
    (w.resizeStep newCap a r).1.queued = w.queued := by
  cases r with
  | alloc b f p =>
    have hne : w.cell ≠ a := fun he => ha rfl (he ▸ hs.cellLive)
    have hbuf : (w.alloc newCap a).buffer = w.buffer := Worker.heap_alloc_of_ne hne
    rw [Worker.queued, Worker.resizeStep_front, Worker.resizeStep_back]
    show (w.alloc newCap a).buffer.window w.front w.back = w.buffer.window w.front w.back
    rw [hbuf]
  | write b p new i x =>
    obtain ⟨hi, rfl, f, hc⟩ := h rfl
    have hbuf : (w.write new i (w.buffer.read i)).buffer = w.buffer :=
      Worker.heap_write_of_ne hc.built.ne.symm
    rw [Worker.queued, Worker.resizeStep_front, Worker.resizeStep_back]
    show (w.write new i (w.buffer.read i)).buffer.window w.front w.back =
      w.buffer.window w.front w.back
    rw [hbuf]
  | replace new =>
    obtain ⟨hn, hroom, hag⟩ := h rfl
    exact hag.window
  | _ => rfl

/-- Tasks enter the main line's queue at its end and leave it at its start. -/
theorem Worker.LineOk.queued_step {p : WorkerPc T β} (h : w.LineOk p)
    (ha : p.allocates = true → a ∉ w.live) :
    w.queued ++ (w.events p).filterMap WorkerEvent.pushes =
      (w.events p).filterMap WorkerEvent.takes ++ (w.step a p).1.queued := by
  have hle := h.sound.le
  cases p with
  | pushWrite t b q =>
    obtain ⟨rfl, rfl, hroom⟩ := h.known
    have hag : Agree (w.write w.cell w.back (some t)).buffer w.buffer w.front w.back :=
      Worker.agree_write le_rfl hroom
    exact (List.append_nil _).trans hag.window.symm
  | pushStore t b =>
    obtain ⟨rfl, hroom, hx⟩ := h.known
    show w.buffer.window w.front w.back ++ [some t] = w.buffer.window w.front (w.back + 1)
    rw [Buffer.window_snoc hle, hx]
  | popFront b =>
    simp only [Worker.events, Worker.step]
    split <;> exact List.append_nil _
  | popAdd b len =>
    obtain ⟨hlt, hb, -⟩ := h.known
    have hnb : ¬ b < w.front + 1 := by omega
    have hbuf : w.shared = w.buffer := by rw [Worker.buffer, h.sound.same rfl, Worker.shared]
    simp only [Worker.events, Worker.step, if_neg hnb]
    show w.buffer.window w.front w.back ++ [] =
      w.shared.read w.front :: w.buffer.window (w.front + 1) w.back
    rw [List.append_nil, hbuf, Buffer.window_cons (by omega)]
  | popUndo f => exact h.known.elim
  | resize newCap k r =>
    have hr : r.swapping = false → w.ResizeAt w.front k.need newCap r :=
      fun hr => (h.toOk rfl hr).known.2
    exact (List.append_nil _).trans (Worker.ResizeAt.queued h.sound hr ha).symm
  | _ => exact List.append_nil _

/-- What the log of a run says about the tasks of the main line's queue. -/
structure Line.Kept (s : Line T) (log : List (WorkerEvent T)) : Prop where
  ok : s.worker.LineOk s.pc
  entered : log.filterMap WorkerEvent.pushes =
    log.filterMap WorkerEvent.takes ++ s.worker.queued
  left : log.filterMap WorkerEvent.takes =
    log.filterMap WorkerEvent.returns ++ s.worker.inFlight s.pc

theorem Line.Kept.step {s : Line T} {log : List (WorkerEvent T)} (h : s.Kept log)
    (ha : s.pc.allocates = true → a ∉ s.worker.live) :
    (s.next (.step a)).Kept (log ++ s.events (.step a)) := by
  refine ⟨h.ok.step ha, ?_, ?_⟩
  · rw [List.filterMap_append, List.filterMap_append, h.entered, List.append_assoc,
      List.append_assoc]
    exact congrArg _ (h.ok.queued_step ha)
  · rw [List.filterMap_append, List.filterMap_append, h.left, List.append_assoc, List.append_assoc]
    exact congrArg _ (Worker.inFlight_step h.ok.sound.same)

theorem Line.Kept.wake {s : Line T} {log : List (WorkerEvent T)} (h : s.Kept log)
    (hw : s.worker.WakeSafe s.pc) (ha : a ∉ s.worker.live) (t : T) :
    (s.next (.wake t a)).Kept (log ++ s.events (.wake t a)) := by
  obtain ⟨hat, hp, hflight⟩ := h.ok.wake hw ha t
  have hs := hp.sound
  rw [← hp.front] at hs
  refine ⟨⟨hs, hat⟩, ?_, ?_⟩
  · rw [List.filterMap_append, List.filterMap_append, h.entered, List.append_assoc,
      List.append_assoc]
    exact congrArg _ (hp.queued h.ok.sound.le).symm
  · rw [List.filterMap_append, List.filterMap_append, h.left]
    show (_ ++ s.worker.inFlight s.pc) ++ [] = (_ ++ []) ++ (s.worker.push t a).inFlight s.pc
    rw [hflight, List.append_nil, List.append_nil]

theorem WorkerPc.eq_idle {p : WorkerPc T β} (h : p.isIdle = true) : p = .idle := by
  cases p with
  | idle => rfl
  | _ => cases h

theorem Line.Kept.start {s : Line T} {log : List (WorkerEvent T)} (h : s.Kept log)
    (hidle : s.pc.isIdle = true) {p : WorkerPc T Empty} (hswap : p.swapping = false)
    (hat : s.worker.LineAt p) (hflight : s.worker.inFlight p = []) :
    ({ s with pc := p } : Line T).Kept log := by
  have hs := h.ok.sound
  have hl := h.left
  rw [WorkerPc.eq_idle hidle] at hs hl
  refine ⟨⟨?_, hat⟩, h.entered, ?_⟩
  · rw [hswap]
    exact hs
  · rw [hflight]
    exact hl

theorem Line.Kept.next {s : Line T} {log : List (WorkerEvent T)} {act : LineAct T} (h : s.Kept log)
    (he : s.Enabled act) (hok : s.WakesSafely act) :
    (s.next act).Kept (log ++ s.events act) := by
  cases act with
  | push t => exact (List.append_nil log).symm ▸ h.start he rfl trivial rfl
  | pop => exact (List.append_nil log).symm ▸ h.start he rfl trivial rfl
  | step a => exact h.step he.2
  | wake t a => exact h.wake hok he t

theorem Line.Kept.new : (Line.new : Line T).Kept [] := by
  have hlive : (0 : Nat) ∈ ({0} : Finset Nat) := Finset.mem_singleton_self 0
  exact ⟨⟨⟨le_rfl, Nat.zero_le _, hlive, hlive, fun _ => rfl⟩, trivial⟩, rfl, rfl⟩

theorem Line.Runs.kept {ok : Line T → LineAct T → Prop} {x y : Line T × List (WorkerEvent T)}
    (h : Line.Runs ok x y) (hok : ∀ s a, ok s a → s.WakesSafely a) (hx : x.1.Kept x.2) :
    y.1.Kept y.2 := by
  refine System.Reaches.invariant (I := fun z => z.1.Kept z.2) h hx ?_
  intro z a hz he ha
  exact hz.next he (hok z.1 a ha)

end Nacl
