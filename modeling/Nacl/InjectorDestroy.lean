import Nacl.InjectorSteal

/-! How readers let go of their slots and how the duty to free a block passes between them. -/

namespace Nacl

variable {κ T : Type*} {q : Injector T} {g : Owners κ T} {c d : κ} {l p r i : Nat}

def Owners.letGo (g : Owners κ T) (p : Nat) : Owners κ T :=
  { g with reader := Function.update g.reader p none }

theorem Owners.reader_letGo (g : Owners κ T) {p r : Nat} (h : r ≠ p) :
    (g.letGo p).reader r = g.reader r := Function.update_of_ne h _ _

theorem Owners.reader_letGo_self (g : Owners κ T) (p : Nat) : (g.letGo p).reader p = none :=
  Function.update_self _ _ _

/-- A reader that is not done with its slot has not marked it. -/
theorem Injector.Owned.unread_of_reader (h : q.Owned g) (hr : g.reader p = some d) :
    p % 64 < 63 ∧ (q.at g p).read = false := by
  have ho := ((h.position p).reader (by rw [hr]; simp)).2
  refine ⟨ho, ?_⟩
  by_contra hread
  have hn := ((h.slot p ho (h.alive_of_reader hr)).read (by simpa using hread)).2
  rw [hr] at hn
  cases hn

theorem Owners.reader_letGo_iff (hr : g.reader p = some d) (hc : c ≠ d) :
    (g.letGo p).reader r = some c ↔ g.reader r = some c := by
  by_cases he : r = p
  · rw [he, g.reader_letGo_self, hr]
    simp [hc.symm]
  · rw [g.reader_letGo he]

/-- What the other parties see of a change of one slot that keeps its task. -/
theorem Injector.Owned.task_setSlot (h : q.Owned g) {x : Slot T} (hp : g.Alive (p / 64))
    (hx : x.task = (q.at g p).task) (hr : g.writer r = some c) :
    ((q.setSlot (g.addr (p / 64)) (p % 64) x).at g r).task = (q.at g r).task := by
  by_cases he : r = p
  · rw [he, q.at_setSlot, hx]
  · rw [q.at_setSlot_of_ne _ hp (h.alive_of_writer hr) he]

theorem Injector.Owned.headMoves_letGo (h : q.Owned g) (hp : p % 64 ≠ 62)
    (hend : q.head.index / 2 % 64 = 63) : (g.letGo p).reader (q.head.index / 2 - 1) ≠ none := by
  rw [g.reader_letGo (by omega)]
  exact h.headMoves hend

/-- The mark of a reader that nobody asked to free the block. -/
theorem Injector.Owned.mark (h : q.Owned g) (hr : g.reader p = some d) (hw : g.writer p = none)
    (hd : (q.at g p).destroy = false) (hlast : p % 64 ≠ 62) :
    q.Change g (q.setSlot (g.addr (p / 64)) (p % 64) { q.at g p with read := true })
      (g.letGo p) d := by
  have hp := h.alive_of_reader hr
  obtain ⟨hoff, hread⟩ := h.unread_of_reader hr
  have hx := h.position p
  have hy := h.slot p hoff hp
  have hne : g.destroyer (p / 64) ≠ .slot (p % 64) := by
    rw [Ne, ← hy.destroy, hd]
    simp
  have hi : Injector.Indexed q (g.letGo p) :=
    ⟨h.head_le, h.length, h.even, h.more, h.headBlock, h.tailBlock⟩
  have hl : Injector.Linked q (g.letGo p) :=
    ⟨h.live, h.spare, h.home, h.alive, h.freed, h.linked, h.next⟩
  refine ⟨⟨hi.setSlot, hl.setSlot hp, h.lap, ?_, ?_, h.headMoves_letGo hlast, h.tailMoves⟩,
    fun c hc => { Rely.refl q g c with
      passed := fun r _ hn => ?_
      task := fun r hr' => h.task_setSlot hp rfl hr'
      next := fun r _ _ => q.next_setSlot _ _ _ _
      reader := fun r => Owners.reader_letGo_iff hr hc }⟩
  · intro r
    by_cases he : r = p
    · subst he
      rw [g.reader_letGo_self]
      exact ⟨hx.writer, by simp, fun hf => ⟨rfl, (hx.done hf).2⟩, fun hn => absurd hw hn,
        fun ha => absurd ha hne⟩
    · rw [g.reader_letGo he]
      exact h.position r
  · intro r ho ha
    change ((q.setSlot (g.addr (p / 64)) (p % 64) _).at g r).Ok _ _ _ _ _ _ _
    by_cases he : r = p
    · subst he
      rw [q.at_setSlot, g.reader_letGo_self]
      refine ⟨hy.write, hy.task, fun _ => ⟨(hx.reader (by rw [hr]; simp)).1, rfl⟩,
        fun _ _ => .inl rfl, ?_⟩
      simp only [Bool.true_eq_false, and_false, false_iff]
      exact hne
    · rw [q.at_setSlot_of_ne _ hp ha he, g.reader_letGo he]
      exact h.slot r ho ha
  · by_cases he : r = p
    · rw [he, g.reader_letGo_self]
    · rw [g.reader_letGo he]
      exact hn

theorem LapOk.replace {k h : Nat} {v w : Destroyer κ} (x : LapOk k h v) (hv : v ≠ .none)
    (hw : w ≠ .none) (hf : w.frontier ≤ 63) : LapOk k h w := by
  refine ⟨?_, hf⟩
  rw [← x.unclaimed]
  exact iff_of_false hw hv

/-- The mark of a reader that was asked to free the block: nobody uses the slots from `o` on. -/
theorem Injector.Owned.takeOver (h : q.Owned g) {o : Nat} (hr : g.reader p = some d)
    (hd : (q.at g p).destroy = true) (ho : o ≤ p % 64)
    (hdone : ∀ r, r / 64 = p / 64 → o ≤ r % 64 → r < p → g.reader r = none ∧ g.writer r = none)
    (hw : g.writer p = none) (hlast : p % 64 ≠ 62) :
    q.Change g (q.setSlot (g.addr (p / 64)) (p % 64) { q.at g p with read := true })
      ((g.letGo p).pass (p / 64) (.party d o)) d := by
  have hp := h.alive_of_reader hr
  obtain ⟨hoff, hread⟩ := h.unread_of_reader hr
  have hx := h.position p
  have hy := h.slot p hoff hp
  have hslot : g.destroyer (p / 64) = .slot (p % 64) := hy.destroy.mp ⟨hd, hread⟩
  have hi : Injector.Indexed q ((g.letGo p).pass (p / 64) (.party d o)) :=
    ⟨h.head_le, h.length, h.even, h.more, h.headBlock, h.tailBlock⟩
  have hl : Injector.Linked q (g.letGo p) :=
    ⟨h.live, h.spare, h.home, h.alive, h.freed, h.linked, h.next⟩
  have hl' : Injector.Linked q ((g.letGo p).pass (p / 64) (.party d o)) :=
    hl.pass (by rw [Owners.letGo, hslot]; simp) (by simp)
  have hdest : ∀ r, r / 64 ≠ p / 64 →
      ((g.letGo p).pass (p / 64) (.party d o)).destroyer (r / 64) = g.destroyer (r / 64) :=
    fun r hr => Function.update_of_ne hr _ _
  have hself : ((g.letGo p).pass (p / 64) (.party d o)).destroyer (p / 64) = .party d o :=
    Function.update_self _ _ _
  refine ⟨⟨hi.setSlot, hl'.setSlot hp, ?_, ?_, ?_, h.headMoves_letGo hlast, h.tailMoves⟩,
    fun c hc => { Rely.refl q g c with
      passed := fun r _ hn => ?_
      task := fun r hr' => h.task_setSlot hp rfl hr'
      next := fun r _ _ => q.next_setSlot _ _ _ _
      reader := fun r => Owners.reader_letGo_iff hr hc
      destroyer := fun k f => ?_ }⟩
  · intro k
    by_cases he : k = p / 64
    · subst he
      rw [hself]
      exact (h.lap (p / 64)).replace (by rw [hslot]; simp) (by simp)
        (by simp only [Destroyer.frontier]; omega)
    · rw [Owners.destroyer_pass _ _ he]
      exact h.lap k
  · intro r
    by_cases he : r = p
    · subst he
      rw [hself]
      change PositionOk r _ _ (g.writer r) ((g.letGo r).reader r) _
      rw [g.reader_letGo_self]
      exact ⟨hx.writer, by simp, fun _ => ⟨rfl, hw⟩, fun hn => absurd hw hn, by simp⟩
    · change PositionOk r _ _ (g.writer r) ((g.letGo p).reader r) _
      rw [g.reader_letGo he]
      have hz := h.position r
      by_cases hlap : r / 64 = p / 64
      · rw [hlap, hself]
        refine ⟨hz.writer, hz.reader, fun hf => ?_, hz.waits, by simp⟩
        simp only [Destroyer.frontier] at hf
        by_cases hlt : r < p
        · exact hdone r hlap hf hlt
        · apply hz.done
          rw [hlap, hslot]
          simp only [Destroyer.frontier]
          omega
      · rw [hdest r hlap]
        exact hz
  · intro r hro ha
    change ((q.setSlot (g.addr (p / 64)) (p % 64) _).at g r).Ok _ _ _ (g.writer r)
      ((g.letGo p).reader r) _ _
    by_cases he : r = p
    · subst he
      rw [q.at_setSlot, g.reader_letGo_self, hself]
      exact ⟨hy.write, hy.task, fun _ => ⟨(hx.reader (by rw [hr]; simp)).1, rfl⟩,
        fun _ _ => .inl rfl, by simp⟩
    · rw [q.at_setSlot_of_ne _ hp ha he, g.reader_letGo he]
      have hz := h.slot r hro ha
      by_cases hlap : r / 64 = p / 64
      · rw [hlap, hslot] at hz
        rw [hlap, hself]
        refine ⟨hz.write, hz.task, hz.read, fun hlt hn => ?_, ?_⟩
        · have hu := hz.unread hlt hn
          simp only [Destroyer.frontier] at hu ⊢
          exact hu.imp_right fun hle => by omega
        · rw [hz.destroy]
          simp only [Destroyer.slot.injEq, reduceCtorEq, iff_false]
          omega
      · rw [hdest r hlap]
        exact hz
  · by_cases he : r = p
    · rw [he]
      exact g.reader_letGo_self p
    · exact (g.reader_letGo he).trans hn
  · by_cases he : k = p / 64
    · rw [he, hself, hslot]
      simp [hc.symm]
    · rw [Owners.destroyer_pass _ _ he]
      rfl

/-- The positions of a lap whose block `d` is about to free are claimed. -/
theorem Injector.Owned.lt_head_of_destroyer (h : q.Owned g) {v : Destroyer κ}
    (hd : g.destroyer (p / 64) = v) (hv : v ≠ .none) (ho : p % 64 < 63) : p < q.head.index / 2 := by
  have hk := (h.lap (p / 64)).unclaimed
  rw [hd] at hk
  have hne := mt hk.mpr hv
  omega

/-- The party that frees the block finds a slot in use, and asks its reader to go on. -/
theorem Injector.Owned.ask (h : q.Owned g)
    (hd : g.destroyer (p / 64) = .party d (p % 64 + 1)) (hoff : p % 64 < 63)
    (hread : (q.at g p).read = false) :
    q.Change g (q.setSlot (g.addr (p / 64)) (p % 64) { q.at g p with destroy := true })
      (g.pass (p / 64) (.slot (p % 64))) d := by
  have hlt := h.lt_head_of_destroyer hd (by simp) hoff
  have hle := h.head_le
  have hp : g.Alive (p / 64) := h.alive _ (by omega) (by rw [hd]; simp)
  have hx := h.position p
  have hy := h.slot p hoff hp
  have hreader : g.reader p ≠ none := by
    intro hn
    have hu := hy.unread hlt hn
    rw [hread, hd] at hu
    simp only [Bool.false_eq_true, Destroyer.frontier, false_or] at hu
    omega
  have hi : Injector.Indexed q (g.pass (p / 64) (.slot (p % 64))) :=
    ⟨h.head_le, h.length, h.even, h.more, h.headBlock, h.tailBlock⟩
  have hl := h.toLinked.pass (l := p / 64) (v := .slot (p % 64)) (by rw [hd]; simp) (by simp)
  have hself := g.destroyer_pass_self (p / 64) (.slot (p % 64))
  refine ⟨⟨hi.setSlot, hl.setSlot hp, ?_, ?_, ?_, h.headMoves, h.tailMoves⟩,
    fun c hc => { Rely.refl q g c with
      task := fun r hr' => h.task_setSlot hp rfl hr'
      next := fun r _ _ => q.next_setSlot _ _ _ _
      destroyer := fun k f => ?_ }⟩
  · intro k
    by_cases he : k = p / 64
    · subst he
      rw [hself]
      exact (h.lap (p / 64)).replace (by rw [hd]; simp) (by simp)
        (by simp only [Destroyer.frontier]; omega)
    · rw [g.destroyer_pass _ he]
      exact h.lap k
  · intro r
    have hz := h.position r
    by_cases hlap : r / 64 = p / 64
    · rw [hlap, hd] at hz
      rw [hlap, hself]
      refine ⟨hz.writer, hz.reader, hz.done, hz.waits, fun ha => ?_⟩
      have he : r = p := by
        simp only [Destroyer.slot.injEq] at ha
        omega
      rw [he]
      exact hreader
    · rw [g.destroyer_pass _ hlap]
      exact hz
  · intro r hro ha
    change ((q.setSlot (g.addr (p / 64)) (p % 64) _).at g r).Ok _ _ _ _ _ _ _
    by_cases he : r = p
    · subst he
      rw [hd] at hy
      rw [q.at_setSlot, hself]
      exact ⟨hy.write, hy.task, hy.read, hy.unread, by simp [hread]⟩
    · rw [q.at_setSlot_of_ne _ hp ha he]
      have hz := h.slot r hro ha
      by_cases hlap : r / 64 = p / 64
      · rw [hlap, hd] at hz
        rw [hlap, hself]
        refine ⟨hz.write, hz.task, hz.read, hz.unread, ?_⟩
        rw [hz.destroy]
        simp only [reduceCtorEq, Destroyer.slot.injEq, false_iff]
        omega
      · rw [g.destroyer_pass _ hlap]
        exact hz
  · by_cases he : k = p / 64
    · rw [he, hself, hd]
      simp [hc.symm]
    · rw [g.destroyer_pass _ he]

/-- The party that frees the block moves its frontier down to `j` when nobody uses the slots
from there on. -/
theorem Injector.Owned.lower (h : q.Owned g) {f j : Nat} (hd : g.destroyer l = .party d f)
    (hf : j ≤ f) (hdone : ∀ r, r / 64 = l → j ≤ r % 64 → r % 64 < f →
      g.reader r = none ∧ g.writer r = none) :
    q.Change g q (g.pass l (.party d j)) d := by
  have hl := h.toLinked.pass (l := l) (v := .party d j) (by rw [hd]; simp) (by simp)
  have hself := g.destroyer_pass_self l (.party d j)
  have hfr := (h.lap l).frontier
  rw [hd, Destroyer.frontier] at hfr
  refine ⟨⟨⟨h.head_le, h.length, h.even, h.more, h.headBlock, h.tailBlock⟩, hl, ?_, ?_, ?_,
    h.headMoves, h.tailMoves⟩,
    fun c hc => { Rely.refl q g c with
      task := fun r hr' => rfl
      destroyer := fun k f => ?_ }⟩
  · intro k
    by_cases he : k = l
    · subst he
      rw [hself]
      exact (h.lap k).replace (by rw [hd]; simp) (by simp)
        (by simp only [Destroyer.frontier]; omega)
    · rw [g.destroyer_pass _ he]
      exact h.lap k
  · intro r
    have hz := h.position r
    by_cases hlap : r / 64 = l
    · rw [hlap, hd] at hz
      rw [hlap, hself]
      refine ⟨hz.writer, hz.reader, fun hle => ?_, hz.waits, by simp⟩
      by_cases hlt : r % 64 < f
      · exact hdone r hlap hle hlt
      · exact hz.done (by simp only [Destroyer.frontier]; omega)
    · rw [g.destroyer_pass _ hlap]
      exact hz
  · intro r hro ha
    have hz := h.slot r hro ha
    change (q.at g r).Ok _ _ _ _ _ _ _
    by_cases hlap : r / 64 = l
    · rw [hlap, hd] at hz
      rw [hlap, hself]
      refine ⟨hz.write, hz.task, hz.read, fun hlt hn => ?_, by simpa using hz.destroy⟩
      exact (hz.unread hlt hn).imp_right fun hle => Nat.le_trans hf hle
    · rw [g.destroyer_pass _ hlap]
      exact hz
  · by_cases he : k = l
    · rw [he, hself, hd]
      simp [hc.symm]
    · rw [g.destroyer_pass _ he]

/-- A slot that was read before the block is destroyed has no more use. -/
theorem Injector.Owned.unused_of_read (h : q.Owned g) (ha : g.Alive (p / 64)) (hoff : p % 64 < 63)
    (hread : (q.at g p).read = true) : g.reader p = none ∧ g.writer p = none := by
  obtain ⟨hlt, hn⟩ := (h.slot p hoff ha).read hread
  refine ⟨hn, ?_⟩
  by_contra hw
  exact (h.position p).waits hw hlt hn

/-- A `DESTROY` mark in a slot that was read asks nobody. -/
theorem Injector.Owned.askDone (h : q.Owned g) (ha : g.Alive (p / 64))
    (hread : (q.at g p).read = true) :
    q.Change g (q.setSlot (g.addr (p / 64)) (p % 64) { q.at g p with destroy := true }) g d := by
  refine ⟨⟨h.toIndexed.setSlot, h.toLinked.setSlot ha, h.lap, h.position, ?_, h.headMoves,
    h.tailMoves⟩, fun c hc =>
    { Rely.refl q g c with
      task := fun r hr' => h.task_setSlot ha rfl hr'
      next := fun r _ _ => q.next_setSlot _ _ _ _ }⟩
  intro r hro hr
  by_cases he : r = p
  · subst he
    have hy := h.slot r hro hr
    rw [q.at_setSlot]
    refine ⟨hy.write, hy.task, hy.read, hy.unread, ?_⟩
    rw [← hy.destroy]
    simp [hread]
  · rw [q.at_setSlot_of_ne _ ha hr he]
    exact h.slot r hro hr

/-- The thief of the last slots of a block lets go of them without a mark. -/
theorem Injector.Owned.release (h : q.Owned g) {lo hi : Nat} (hd : g.destroyer (lo / 64) = .party d 63)
    (hlo : lo % 64 < 63) (hhi : hi = lo / 64 * 64 + 63)
    (hr : ∀ p, lo ≤ p → p < hi → g.reader p = some d)
    (hw : ∀ p, lo ≤ p → p < hi → g.writer p = none) (hpast : hi < q.head.index / 2) :
    q.Change g q ((g.setReaders lo hi none).pass (lo / 64) (.party d (lo % 64))) d := by
  have hl : Injector.Linked q (g.setReaders lo hi none) :=
    ⟨h.live, h.spare, h.home, h.alive, h.freed, h.linked, h.next⟩
  have hl' := hl.pass (l := lo / 64) (v := .party d (lo % 64)) (by rw [Owners.setReaders, hd]; simp)
    (by simp)
  have hself := (g.setReaders lo hi none).destroyer_pass_self (lo / 64) (.party d (lo % 64))
  have hreader : ∀ p, ((g.setReaders lo hi none).pass (lo / 64) (.party d (lo % 64))).reader p =
      if lo ≤ p ∧ p < hi then none else g.reader p := fun p => rfl
  refine ⟨⟨⟨h.head_le, h.length, h.even, h.more, h.headBlock, h.tailBlock⟩, hl', ?_, ?_, ?_,
    fun hend => ?_, h.tailMoves⟩,
    fun c hc => { Rely.refl q g c with
      passed := fun p _ hn => ?_
      task := fun r hr' => rfl
      reader := fun p => ?_
      destroyer := fun k f => ?_ }⟩
  · intro k
    by_cases he : k = lo / 64
    · subst he
      rw [hself]
      exact (h.lap (lo / 64)).replace (by rw [hd]; simp) (by simp)
        (by simp only [Destroyer.frontier]; omega)
    · rw [Owners.destroyer_pass _ _ he]
      exact h.lap k
  · intro p
    have hz := h.position p
    rw [hreader]
    change PositionOk p _ _ (g.writer p) _ _
    by_cases hp : lo ≤ p ∧ p < hi
    · rw [if_pos hp, show p / 64 = lo / 64 by omega, hself, hw p hp.1 hp.2]
      exact ⟨by simp, by simp, fun _ => ⟨rfl, rfl⟩, by simp, by simp⟩
    · rw [if_neg hp]
      by_cases hlap : p / 64 = lo / 64
      · rw [hlap, hd] at hz
        rw [hlap, hself]
        refine ⟨hz.writer, hz.reader, fun hle => hz.done ?_, hz.waits, by simp⟩
        simp only [Destroyer.frontier] at hle ⊢
        omega
      · rw [Owners.destroyer_pass _ _ hlap]
        exact hz
  · intro p hro ha
    have hz := h.slot p hro ha
    rw [hreader]
    change (q.at g p).Ok _ _ _ (g.writer p) _ _ _
    by_cases hlap : p / 64 = lo / 64
    · rw [hlap, hd] at hz
      rw [hlap, hself]
      refine ⟨hz.write, hz.task, fun hread => ?_, fun hlt hn => ?_, by simpa using hz.destroy⟩
      · obtain ⟨hlt, hn⟩ := hz.read hread
        refine ⟨hlt, ?_⟩
        rw [hn, ite_self]
      · by_cases hp : lo ≤ p ∧ p < hi
        · exact .inr (by simp only [Destroyer.frontier]; omega)
        · rw [if_neg hp] at hn
          have hu := hz.unread hlt hn
          simp only [Destroyer.frontier] at hu ⊢
          exact hu.imp_right fun hle => by omega
    · rw [if_neg (by omega), Owners.destroyer_pass _ _ hlap]
      exact hz
  · rw [hreader, if_neg (by omega)]
    exact h.headMoves hend
  · rw [hreader]
    simp [hn]
  · rw [hreader]
    split
    · rename_i hp
      rw [hr p hp.1 hp.2]
      simp [hc.symm]
    · rfl
  · by_cases he : k = lo / 64
    · rw [he, hself, hd]
      simp [hc.symm]
    · rw [Owners.destroyer_pass _ _ he]
      rfl

/-- The block is freed when nobody uses any of its slots. -/
theorem Injector.Owned.freeBlock (h : q.Owned g) (hd : g.destroyer l = .party d 0) :
    q.Change g (q.free (g.addr l)) ((g.drop (g.addr l)).pass l .freed) d := by
  have hk := h.lap l
  rw [hd] at hk
  have hle := h.head_le
  have hlt : ¬ q.head.index / 2 ≤ 64 * l + 62 := mt hk.unclaimed.mpr (by simp)
  have hal : g.Alive l := h.alive l (by omega) (by rw [hd]; simp)
  have hself := (g.drop (g.addr l)).destroyer_pass_self l .freed
  have hhome : ∀ a, a ≠ g.addr l → ((g.drop (g.addr l)).pass l .freed).home a = g.home a :=
    fun a ha => Function.update_of_ne ha _ _
  have hnone : ((g.drop (g.addr l)).pass l .freed).home (g.addr l) = none :=
    Function.update_self _ _ _
  have halive : ∀ k, ((g.drop (g.addr l)).pass l .freed).Alive k ↔ k ≠ l ∧ g.Alive k := by
    intro k
    by_cases he : g.addr k = g.addr l
    · have hlhs : ¬ ((g.drop (g.addr l)).pass l .freed).Alive k := by
        change ((g.drop (g.addr l)).pass l .freed).home (g.addr k) ≠ _
        rw [he, hnone]
        simp
      exact iff_of_false hlhs fun hx => (hx.2.addr_ne hal hx.1) he
    · have hne : k ≠ l := fun hx => he (by rw [hx])
      change ((g.drop (g.addr l)).pass l .freed).home (g.addr k) = _ ↔ _
      rw [hhome _ he]
      simp [hne, Owners.Alive]
  refine ⟨⟨⟨h.head_le, h.length, h.even, h.more, h.headBlock, h.tailBlock⟩,
    ⟨?_, ?_, ?_, ?_, ?_, ?_, ?_⟩, ?_, ?_, ?_, h.headMoves, h.tailMoves⟩,
    fun c hc => { Rely.refl q g c with
      task := fun r hr' => rfl
      destroyer := fun k f => ?_
      spare := fun a => ?_ }⟩
  · intro a
    rw [Injector.free, Finset.mem_erase, h.live a]
    by_cases ha : a = g.addr l
    · simp [ha, hnone]
    · rw [hhome a ha]
      simp [ha]
  · intro a e ha
    by_cases he : a = g.addr l
    · rw [he, hnone] at ha
      cases ha
    · rw [hhome a he] at ha
      exact h.spare a e ha
  · intro a k ha
    by_cases he : a = g.addr l
    · rw [he, hnone] at ha
      cases ha
    · rw [hhome a he] at ha
      exact h.home a k ha
  · intro k hk' hf
    have hne : k ≠ l := by
      rintro rfl
      exact hf hself
    rw [Owners.destroyer_pass _ _ hne] at hf
    exact (halive k).mpr ⟨hne, h.alive k hk' hf⟩
  · intro k hf
    rw [halive]
    rintro ⟨hne, hx⟩
    rw [Owners.destroyer_pass _ _ hne] at hf
    exact h.freed k hf hx
  · intro k hx hkl hw
    exact h.linked k ((halive k).mp hx).2 hkl hw
  · intro k a hx ha
    exact h.next k a ((halive k).mp hx).2 ha
  · intro k
    by_cases he : k = l
    · subst he
      rw [hself]
      exact hk.replace (by simp) (by simp) (by simp [Destroyer.frontier])
    · rw [Owners.destroyer_pass _ _ he]
      exact h.lap k
  · intro p
    have hz := h.position p
    by_cases hlap : p / 64 = l
    · rw [hlap, hd] at hz
      rw [hlap, hself]
      exact ⟨hz.writer, hz.reader, hz.done, hz.waits, by simp⟩
    · rw [Owners.destroyer_pass _ _ hlap]
      exact hz
  · intro p ho hx
    obtain ⟨hne, ha⟩ := (halive _).mp hx
    rw [Owners.destroyer_pass _ _ hne]
    exact h.slot p ho ha
  · by_cases he : k = l
    · rw [he, hself, hd]
      simp [hc.symm]
    · rw [Owners.destroyer_pass _ _ he]
      rfl
  · by_cases ha : a = g.addr l
    · rw [ha, hnone, hal]
      simp
    · rw [hhome a ha]

end Nacl
