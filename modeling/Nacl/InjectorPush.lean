import Nacl.InjectorRely

/-! The accesses of `Injector::push` to the shared memory, and what they do to the owners. -/

namespace Nacl

variable {κ T : Type*} {q : Injector T} {g : Owners κ T} {c d : κ} {t : T}

/-- A step of party `d` that keeps the owners and leaves the other parties alone. -/
structure Injector.Change (q : Injector T) (g : Owners κ T) (q' : Injector T) (g' : Owners κ T)
    (d : κ) : Prop where
  owned : q'.Owned g'
  rely : ∀ c, c ≠ d → q.Rely g q' g' c

theorem Injector.Change.refl (h : q.Owned g) : q.Change g q g d := ⟨h, fun c _ => .refl q g c⟩

theorem Injector.Change.trans {q' q'' : Injector T} {g' g'' : Owners κ T} (h : q.Change g q' g' d)
    (h' : q'.Change g' q'' g'' d) : q.Change g q'' g'' d :=
  ⟨h'.owned, fun c hc => (h.rely c hc).trans (h'.rely c hc)⟩

def Owners.reserve (g : Owners κ T) (d : κ) (p : Nat) (t : T) : Owners κ T :=
  { g with writer := Function.update g.writer p (some d), tasks := g.tasks ++ [t] }

def Owners.publish (g : Owners κ T) (p : Nat) : Owners κ T :=
  { g with writer := Function.update g.writer p none }

def Owners.keep (g : Owners κ T) (d : κ) (a : Nat) : Owners κ T :=
  { g with home := Function.update g.home a (some (.inr d)) }

def Owners.drop (g : Owners κ T) (a : Nat) : Owners κ T :=
  { g with home := Function.update g.home a none }

def Owners.install (g : Owners κ T) (k a : Nat) : Owners κ T :=
  { g with addr := Function.update g.addr k a, home := Function.update g.home a (some (.inl k)) }

theorem Injector.Owned.destroyer_of_le (h : q.Owned g) {p : Nat} (hp : q.head.index / 2 ≤ p)
    (ho : p % 64 < 63) : g.destroyer (p / 64) = .none :=
  (h.lap _).unclaimed.mpr (by omega)

theorem Injector.Owned.getElem?_tasks (h : q.Owned g) {p : Nat} (hp : p < q.tail.index / 2)
    (ho : p % 64 < 63) : (g.tasks ++ [t])[ticket p]? = g.tasks[ticket p]? := by
  apply List.getElem?_append_left
  rw [h.length]
  exact ticket_lt ho hp

/-- The tail exchange of `push`. -/
theorem Injector.Owned.reserve (h : q.Owned g) (ho : q.tail.index / 2 % 64 < 63) :
    q.Change g { q with tail := ⟨q.tail.index + 2, q.tail.block⟩ }
      (g.reserve d (q.tail.index / 2) t) d := by
  have hpos : (q.tail.index + 2) / 2 = q.tail.index / 2 + 1 := by omega
  have hlap : (q.tail.index / 2 + 1) / 64 = q.tail.index / 2 / 64 := by omega
  have hle := h.head_le
  have hnone := h.destroyer_of_le hle ho
  have hwriter : ∀ p, p ≠ q.tail.index / 2 →
      (g.reserve d (q.tail.index / 2) t).writer p = g.writer p :=
    fun p hp => Function.update_of_ne hp _ _
  have hself : (g.reserve d (q.tail.index / 2) t).writer (q.tail.index / 2) = some d :=
    Function.update_self _ _ _
  refine ⟨⟨⟨?_, ?_, ?_, ?_, h.headBlock, ?_⟩, ⟨h.live, h.spare, ?_, ?_, h.freed, ?_, ?_⟩, h.lap,
    ?_, ?_, h.headMoves, ?_⟩, fun c hc => { Rely.refl q g c with
      tail_le := by simp
      tasks := fun p hp ho => h.getElem?_tasks hp ho
      tailBlock := fun _ _ => rfl
      written := fun p hp hw => by rw [hwriter p (by omega)]; exact hw
      installing := fun p _ ho ht => by omega
      writer := fun p => ?_ }⟩
  · simp only [hpos]
    omega
  · simp only [Owners.reserve, List.length_append, h.length, List.length_singleton, hpos, ticket]
    omega
  · have he := h.even
    simp only
    omega
  · simp only [hpos, hlap]
    exact h.more
  · simp only [hpos, hlap]
    intro _
    exact h.tailBlock ho
  · simp only [hpos, hlap]
    exact h.home
  · simp only [hpos, hlap]
    exact h.alive
  · simp only [hpos, hlap]
    intro k ha hk hw
    apply h.linked k ha hk
    rwa [hwriter _ (by omega)] at hw
  · simp only [hpos, hlap]
    exact h.next
  · intro p
    simp only [hpos]
    by_cases hp : p = q.tail.index / 2
    · subst hp
      rw [hself]
      have hx := h.position (q.tail.index / 2)
      refine ⟨fun _ => ⟨by omega, ho⟩, hx.reader, ?_, fun _ hlt => by omega, hx.asked⟩
      intro hf
      simp only [Owners.reserve, hnone, Destroyer.frontier] at hf
      omega
    · rw [hwriter p hp]
      exact (h.position p).congr (fun _ => Iff.rfl) (fun _ => by omega)
  · intro p hoff ha
    have hx := h.slot p hoff ha
    simp only [hpos]
    by_cases hp : p = q.tail.index / 2
    · subst hp
      rw [hself]
      refine ⟨?_, by simp, hx.read, hx.unread, hx.destroy⟩
      simp only [reduceCtorEq, and_false, iff_false]
      intro hw
      have hlt := (hx.write.mp hw).1
      omega
    · rw [hwriter p hp]
      exact hx.congr Iff.rfl (by omega) fun hlt => h.getElem?_tasks hlt hoff
  · simp only [hpos, Nat.add_sub_cancel, hself]
    simp
  · by_cases hp : p = q.tail.index / 2
    · subst hp
      rw [hself]
      have hx := (h.position (q.tail.index / 2)).writer
      constructor
      · intro he
        exact absurd (Option.some.inj he).symm hc
      · intro he
        have hlt := (hx (by rw [he]; simp)).1
        omega
    · rw [hwriter p hp]

theorem Owners.writer_ne {p r : Nat} (hp : g.writer p = some d) (hr : g.writer r = some c)
    (hc : c ≠ d) : p ≠ r := by
  rintro rfl
  rw [hp] at hr
  exact hc (Option.some.inj hr).symm

/-- The store of `tail.block`, while the tail is at the end of a block. -/
theorem Injector.Owned.storeTailBlock (h : q.Owned g) {p a : Nat} (hw : g.writer p = some d)
    (hoff : p % 64 = 62) (ht : q.tail.index / 2 = p + 1) :
    q.Change g { q with tail := ⟨q.tail.index, a⟩ } g d where
  owned := { h with tailBlock := fun hlt => by simp only at hlt; omega }
  rely c hc := { Rely.refl q g c with
    tailBlock := fun _ hlt => by omega
    installing := fun r hr _ ht' => by
      have hne := Owners.writer_ne hw hr hc
      omega }

section Install

variable {l a k : Nat}

theorem Owners.alive_install (ha : g.home a = some (.inr d)) (hk : k ≠ l) :
    (g.install l a).Alive k ↔ g.Alive k := by
  simp only [Owners.Alive, Owners.install, Function.update_of_ne hk]
  by_cases he : g.addr k = a
  · rw [he, Function.update_self, ha]
    simp [hk.symm]
  · rw [Function.update_of_ne he]

theorem Owners.alive_install_self (g : Owners κ T) (l a : Nat) : (g.install l a).Alive l := by
  simp only [Owners.Alive, Owners.install, Function.update_self]

theorem Owners.addr_install (g : Owners κ T) (a : Nat) (hk : k ≠ l) :
    (g.install l a).addr k = g.addr k := Function.update_of_ne hk _ _

theorem Owners.addr_install_self (g : Owners κ T) (l a : Nat) : (g.install l a).addr l = a :=
  Function.update_self _ _ _

theorem Owners.home_install_inl {b : Nat} (h : (g.install l a).home b = some (.inl k)) :
    (b = a ∧ k = l) ∨ g.home b = some (.inl k) := by
  by_cases hb : b = a
  · subst hb
    simp only [Owners.install, Function.update_self, Option.some.injEq, Sum.inl.injEq] at h
    exact .inl ⟨rfl, h.symm⟩
  · simp only [Owners.install, Function.update_of_ne hb] at h
    exact .inr h

theorem Owners.home_install_inr {b : Nat} (ha : g.home a = some (.inr d)) (hc : c ≠ d) :
    (g.install l a).home b = some (.inr c) ↔ g.home b = some (.inr c) := by
  by_cases hb : b = a
  · subst hb
    simp [Owners.install, ha, hc.symm]
  · simp only [Owners.install, Function.update_of_ne hb]

variable {p : Nat}

theorem Injector.Owned.indexed_install (h : q.Owned g) (hoff : p % 64 = 62)
    (ht : q.tail.index / 2 = p + 1) :
    Injector.Indexed { q with tail := ⟨q.tail.index + 2, q.tail.block⟩ }
      (g.install (p / 64 + 1) q.tail.block) := by
  have hpos : (q.tail.index + 2) / 2 = p + 2 := by omega
  have hlap : (p + 2) / 64 = p / 64 + 1 := by omega
  have hle := h.head_le
  constructor <;> simp only [hpos, hlap]
  · omega
  · have hlen := h.length
    rw [Owners.install, hlen, ht]
    simp only [ticket]
    omega
  · have he := h.even
    omega
  · have hm := h.more
    omega
  · intro ho
    rw [g.addr_install _ (by omega)]
    exact h.headBlock ho
  · intro _
    rw [g.addr_install_self]

theorem Injector.Owned.linked_install (h : q.Owned g) (hw : g.writer p = some d)
    (hoff : p % 64 = 62) (ht : q.tail.index / 2 = p + 1)
    (ha : g.home q.tail.block = some (.inr d)) :
    Injector.Linked { q with tail := ⟨q.tail.index + 2, q.tail.block⟩ }
      (g.install (p / 64 + 1) q.tail.block) := by
  have hpos : (q.tail.index + 2) / 2 = p + 2 := by omega
  have hlap : (p + 2) / 64 = p / 64 + 1 := by omega
  have hle := h.head_le
  constructor <;> try simp only [hpos, hlap]
  · intro b
    rw [h.live b]
    by_cases hb : b = q.tail.block
    · subst hb
      simp [Owners.install, ha]
    · simp only [Owners.install, Function.update_of_ne hb]
  · intro b e hb
    apply h.spare b e
    by_cases he : b = q.tail.block
    · subst he
      simp [Owners.install] at hb
    · simpa only [Owners.install, Function.update_of_ne he] using hb
  · intro b k hb
    obtain ⟨rfl, rfl⟩ | hb' := Owners.home_install_inl hb
    · exact ⟨(g.addr_install_self _ _).symm, Nat.le_refl _⟩
    · obtain ⟨hk, hkl⟩ := h.home b k hb'
      rw [g.addr_install _ (by omega)]
      exact ⟨hk, by omega⟩
  · intro k hk hd
    by_cases he : k = p / 64 + 1
    · subst he
      exact g.alive_install_self _ _
    · rw [Owners.alive_install ha he]
      exact h.alive k (by omega) hd
  · intro k hd
    by_cases he : k = p / 64 + 1
    · have hn := (h.lap k).unclaimed.mpr (by omega)
      rw [Owners.install, hn] at hd
      cases hd
    · rw [Owners.alive_install ha he]
      exact h.freed k hd
  · intro k hk hlt hwk
    have hne : k ≠ p / 64 := by
      rintro rfl
      rw [show 64 * (p / 64) + 62 = p by omega, Owners.install, hw] at hwk
      cases hwk
    rw [Owners.alive_install ha (by omega)] at hk
    rw [g.addr_install _ (by omega), g.addr_install _ (by omega)]
    exact h.linked k hk (by omega) hwk
  · intro k b hk hb
    by_cases he : k = p / 64 + 1
    · subst he
      rw [g.addr_install_self, h.spare _ _ ha] at hb
      cases hb
    · rw [Owners.alive_install ha he] at hk
      rw [g.addr_install _ he] at hb
      obtain ⟨hlt, hb'⟩ := h.next k b hk hb
      rw [g.addr_install _ (by omega)]
      exact ⟨by omega, hb'⟩

/-- The slots of the new block are fresh, the others are as before. -/
theorem Injector.Owned.slot_install (h : q.Owned g) (hoff : p % 64 = 62)
    (ht : q.tail.index / 2 = p + 1) (ha : g.home q.tail.block = some (.inr d)) {r : Nat}
    (hro : r % 64 < 63) (hk : (g.install (p / 64 + 1) q.tail.block).Alive (r / 64)) :
    (q.at (g.install (p / 64 + 1) q.tail.block) r).Ok r (q.head.index / 2) (p + 2) (g.writer r)
      (g.reader r) (g.destroyer (r / 64)) g.tasks := by
  have hle := h.head_le
  by_cases he : r / 64 = p / 64 + 1
  · have hd := h.destroyer_of_le (p := r) (by omega) hro
    simp only [Injector.at, he, g.addr_install_self, Injector.slot, h.spare _ _ ha, Block.new]
    refine ⟨?_, fun hlt => by omega, by simp, fun hlt => by omega, ?_⟩
    · simp only [Bool.false_eq_true, false_iff, not_and]
      intro hlt
      omega
    · rw [← he, hd]
      simp
  · rw [Owners.alive_install ha he] at hk
    have hx := h.slot r hro hk
    simp only [Injector.at, g.addr_install _ he]
    exact hx.congr Iff.rfl (by omega) fun _ => rfl

/-- The store of `tail.index` that lets the tail into the new block. -/
theorem Injector.Owned.storeTailIndex (h : q.Owned g) (hw : g.writer p = some d)
    (hoff : p % 64 = 62) (ht : q.tail.index / 2 = p + 1)
    (ha : g.home q.tail.block = some (.inr d)) :
    q.Change g { q with tail := ⟨q.tail.index + 2, q.tail.block⟩ }
      (g.install (p / 64 + 1) q.tail.block) d := by
  have hpos : (q.tail.index + 2) / 2 = p + 2 := by omega
  have hwriter : ∀ r e, g.writer r = some e → r / 64 ≠ p / 64 + 1 := by
    intro r e hr
    have hlt := ((h.position r).writer (by rw [hr]; simp)).1
    omega
  refine ⟨⟨h.indexed_install hoff ht, h.linked_install hw hoff ht ha, h.lap, ?_, ?_, h.headMoves,
    fun hend => by simp only at hend; omega⟩, ?_⟩
  · intro r
    simp only [hpos]
    exact (h.position r).congr (fun _ => Iff.rfl) (fun _ => by omega)
  · intro r hro hk
    simp only [hpos]
    exact h.slot_install hoff ht ha hro hk
  · intro c hc
    exact { Rely.refl q g c with
      tail_le := by simp
      tailBlock := fun he => by simp at he
      addr := fun k hk => g.addr_install _ (by omega)
      installing := fun r hr _ ht' => by
        have hne := Owners.writer_ne hw hr hc
        omega
      task := fun r hr => by simp only [Injector.at, g.addr_install _ (hwriter r c hr)]; rfl
      next := fun r hr _ => by rw [g.addr_install _ (hwriter r c hr)]
      spare := fun b => Owners.home_install_inr ha hc }

end Install

section Memory

variable {b i k p r : Nat} {x : Slot T} {y : Block T}

theorem Injector.next_setSlot (q : Injector T) (b i : Nat) (x : Slot T) (b' : Nat) :
    ((q.setSlot b i x).heap b').next = (q.heap b').next := by
  by_cases hb : b' = b
  · subst hb
    simp only [Injector.setSlot, Injector.setBlock, Function.update_self]
  · simp only [Injector.setSlot, Injector.setBlock, Function.update_of_ne hb]

theorem Injector.heap_setSlot (q : Injector T) (i : Nat) (x : Slot T) {b b' : Nat} (hb : b' ≠ b) :
    (q.setSlot b i x).heap b' = q.heap b' := Function.update_of_ne hb _ _

theorem Injector.at_setSlot (q : Injector T) (g : Owners κ T) (p : Nat) (x : Slot T) :
    (q.setSlot (g.addr (p / 64)) (p % 64) x).at g p = x := by
  simp only [Injector.at, Injector.slot, Injector.setSlot, Injector.setBlock, Function.update_self]

theorem Injector.at_setSlot_of_ne (q : Injector T) (x : Slot T) (hp : g.Alive (p / 64))
    (hr : g.Alive (r / 64)) (hne : r ≠ p) :
    (q.setSlot (g.addr (p / 64)) (p % 64) x).at g r = q.at g r := by
  by_cases hl : r / 64 = p / 64
  · have hi : r % 64 ≠ p % 64 := by omega
    simp only [Injector.at, Injector.slot, Injector.setSlot, Injector.setBlock, hl,
      Function.update_self, Function.update_of_ne hi]
  · simp only [Injector.at, Injector.slot, q.heap_setSlot _ x (hr.addr_ne hp hl)]

theorem Injector.Indexed.setSlot (h : q.Indexed g) : (q.setSlot b i x).Indexed g :=
  ⟨h.head_le, h.length, h.even, h.more, h.headBlock, h.tailBlock⟩

theorem Injector.Linked.setSlot (h : q.Linked g) (hk : g.Alive k) :
    (q.setSlot (g.addr k) i x).Linked g where
  live := h.live
  spare a c ha := by
    rw [q.heap_setSlot _ _ (hk.addr_ne_spare ha).symm]
    exact h.spare a c ha
  home := h.home
  alive := h.alive
  freed := h.freed
  linked l hl hlt hw := by
    rw [q.next_setSlot]
    exact h.linked l hl hlt hw
  next l a hl ha := by
    rw [q.next_setSlot] at ha
    exact h.next l a hl ha

theorem Injector.Owned.alive_of_lt (h : q.Owned g) (hp : p < q.tail.index / 2)
    (hd : p % 64 < (g.destroyer (p / 64)).frontier) : g.Alive (p / 64) := by
  apply h.alive _ (by omega)
  intro hf
  rw [hf] at hd
  exact absurd hd (Nat.not_lt_zero _)

theorem Injector.Owned.alive_of_writer (h : q.Owned g) (hw : g.writer p = some d) :
    g.Alive (p / 64) := by
  have hx := h.position p
  apply h.alive_of_lt (hx.writer (by rw [hw]; simp)).1
  apply Nat.lt_of_not_le
  intro hf
  rw [(hx.done hf).2] at hw
  cases hw

theorem Injector.Owned.alive_of_reader (h : q.Owned g) (hr : g.reader p = some d) :
    g.Alive (p / 64) := by
  have hx := h.position p
  have hle := h.head_le
  have hlt := (hx.reader (by rw [hr]; simp)).1
  apply h.alive_of_lt (by omega)
  apply Nat.lt_of_not_le
  intro hf
  rw [(hx.done hf).1] at hr
  cases hr

/-- The store of the pointer to the new block. -/
theorem Injector.Owned.storeNext (h : q.Owned g) (hw : g.writer p = some d) (hoff : p % 64 = 62)
    (hl : p / 64 < q.tail.index / 2 / 64) :
    q.Change g (q.setBlock (g.addr (p / 64))
      { q.heap (g.addr (p / 64)) with next := some (g.addr (p / 64 + 1)) }) g d := by
  have hp := h.alive_of_writer hw
  have hat : ∀ r, (q.setBlock (g.addr (p / 64))
      { q.heap (g.addr (p / 64)) with next := some (g.addr (p / 64 + 1)) }).at g r = q.at g r := by
    intro r
    by_cases ha : g.addr (r / 64) = g.addr (p / 64)
    · simp only [Injector.at, Injector.slot, Injector.setBlock, ha, Function.update_self]
    · simp only [Injector.at, Injector.slot, Injector.setBlock, Function.update_of_ne ha]
  have hheap : ∀ b, b ≠ g.addr (p / 64) → (q.setBlock (g.addr (p / 64))
      { q.heap (g.addr (p / 64)) with next := some (g.addr (p / 64 + 1)) }).heap b = q.heap b :=
    fun b hb => Function.update_of_ne hb _ _
  refine ⟨{ h with spare := ?_, linked := ?_, next := ?_, slot := ?_ }, fun c hc =>
    { Rely.refl q g c with task := fun r _ => by rw [hat r], next := ?_ }⟩
  · intro a c ha
    rw [hheap _ (hp.addr_ne_spare ha).symm]
    exact h.spare a c ha
  · intro k hk hlt hwk
    have hne : k ≠ p / 64 := by
      rintro rfl
      rw [show 64 * (p / 64) + 62 = p by omega, hw] at hwk
      cases hwk
    rw [hheap _ (hk.addr_ne hp hne)]
    exact h.linked k hk hlt hwk
  · intro k a hk ha
    by_cases he : k = p / 64
    · subst he
      simp only [Injector.setBlock, Function.update_self, Option.some.injEq] at ha
      exact ⟨hl, ha.symm⟩
    · rw [hheap _ (hk.addr_ne hp he)] at ha
      exact h.next k a hk ha
  · intro r ho hr
    rw [hat r]
    exact h.slot r ho hr
  · intro r hr ho
    have hne := Owners.writer_ne hw hr hc
    rw [hheap _ ((h.alive_of_writer hr).addr_ne hp (by omega))]

/-- The write of the task, which nobody reads before the slot is marked. -/
theorem Injector.Owned.writeTask (h : q.Owned g) (hw : g.writer p = some d) :
    q.Change g (q.setSlot (g.addr (p / 64)) (p % 64) { q.at g p with task := some t }) g d := by
  have hp := h.alive_of_writer hw
  refine ⟨⟨h.toIndexed.setSlot, h.toLinked.setSlot hp, h.lap, h.position, ?_, h.headMoves,
    h.tailMoves⟩, fun c hc =>
    { Rely.refl q g c with task := ?_, next := fun r _ _ => by rw [q.next_setSlot] }⟩
  · intro r ho hr
    by_cases he : r = p
    · subst he
      have hx := h.slot r ho hr
      have hne : g.writer r ≠ none := by rw [hw]; simp
      rw [q.at_setSlot]
      exact ⟨hx.write, fun _ hn => absurd hn hne, hx.read, hx.unread, hx.destroy⟩
    · rw [q.at_setSlot_of_ne _ hp hr he]
      exact h.slot r ho hr
  · intro r hr
    rw [q.at_setSlot_of_ne _ hp (h.alive_of_writer hr) (Owners.writer_ne hw hr hc).symm]

/-- The mark that the task is written. -/
theorem Injector.Owned.publish (h : q.Owned g) (hw : g.writer p = some d)
    (ht : (q.at g p).task = g.tasks[ticket p]?)
    (hn : p % 64 = 62 → (q.heap (g.addr (p / 64))).next ≠ none) :
    q.Change g (q.setSlot (g.addr (p / 64)) (p % 64) { q.at g p with write := true })
      (g.publish p) d := by
  have hp := h.alive_of_writer hw
  have hx := h.position p
  have hlt := hx.writer (by rw [hw]; simp)
  have hself : (g.publish p).writer p = none := Function.update_self _ _ _
  have hne : ∀ r, r ≠ p → (g.publish p).writer r = g.writer r :=
    fun r hr => Function.update_of_ne hr _ _
  -- when the next block is linked, the tail is past the end of this one
  have hmoves : q.tail.index / 2 % 64 = 63 → (g.publish p).writer (q.tail.index / 2 - 1) ≠ none := by
    intro hend
    have hend' : q.tail.index / 2 - 1 ≠ p := by
      intro he
      obtain ⟨a, ha⟩ := Option.ne_none_iff_exists'.mp (hn (by omega))
      have hlap := (h.next _ a hp ha).1
      omega
    rw [hne _ hend']
    exact h.tailMoves hend
  refine ⟨⟨⟨h.head_le, h.length, h.even, h.more, h.headBlock, h.tailBlock⟩,
    { (h.toLinked.setSlot hp : Injector.Linked _ g) with linked := ?_ }, h.lap, ?_, ?_,
    h.headMoves, hmoves⟩, fun c hc =>
    { Rely.refl q g c with
      written := fun r _ hr => ?_
      task := fun r hr => ?_
      next := fun r _ _ => by rw [q.next_setSlot]; rfl
      writer := fun r => ?_ }⟩
  · intro k hk hkl hwk
    rw [q.next_setSlot]
    by_cases he : 64 * k + 62 = p
    · subst he
      have hlink : (q.heap (g.addr k)).next ≠ none := by
        have hn' := hn (by omega)
        rwa [show (64 * k + 62) / 64 = k by omega] at hn'
      obtain ⟨a, ha⟩ := Option.ne_none_iff_exists'.mp hlink
      rw [(h.next k a hk ha).2] at ha
      exact ha
    · rw [hne _ he] at hwk
      exact h.linked k hk hkl hwk
  · intro r
    by_cases he : r = p
    · subst he
      rw [hself]
      exact ⟨by simp, hx.reader, fun hf => ⟨(hx.done hf).1, rfl⟩, by simp, hx.asked⟩
    · rw [hne r he]
      exact h.position r
  · intro r ho hr
    by_cases he : r = p
    · subst he
      have hy := h.slot r ho hr
      change ((q.setSlot (g.addr (r / 64)) (r % 64) _).at g r).Ok _ _ _ _ _ _ _
      rw [q.at_setSlot, hself]
      exact ⟨by simp only [and_true, true_iff]; exact hlt.1, fun _ _ => ht, hy.read, hy.unread,
        hy.destroy⟩
    · change ((q.setSlot (g.addr (p / 64)) (p % 64) _).at g r).Ok _ _ _ _ _ _ _
      rw [q.at_setSlot_of_ne _ hp hr he, hne r he]
      exact h.slot r ho hr
  · by_cases he : r = p
    · rw [he, hself]
    · rw [hne r he]
      exact hr
  · change ((q.setSlot (g.addr (p / 64)) (p % 64) _).at g r).task = _
    rw [q.at_setSlot_of_ne _ hp (h.alive_of_writer hr) (Owners.writer_ne hw hr hc).symm]
  · by_cases he : r = p
    · subst he
      rw [hself, hw]
      simp [hc.symm]
    · rw [hne r he]

/-- The allocation of a block in advance. -/
theorem Injector.Owned.alloc (h : q.Owned g) (hfree : b ∉ q.live) :
    q.Change g (q.alloc b) (g.keep d b) d := by
  have hnone : g.home b = none := by simpa [h.live b] using hfree
  have hhome : ∀ a, a ≠ b → (g.keep d b).home a = g.home a :=
    fun a ha => Function.update_of_ne ha _ _
  have hself : (g.keep d b).home b = some (.inr d) := Function.update_self _ _ _
  have hinl : ∀ a k, (g.keep d b).home a = some (.inl k) ↔ g.home a = some (.inl k) := by
    intro a k
    by_cases ha : a = b
    · rw [ha, hself, hnone]
      simp
    · rw [hhome a ha]
  have halive : ∀ k, (g.keep d b).Alive k ↔ g.Alive k := fun k => hinl _ k
  have hne : ∀ k, g.Alive k → g.addr k ≠ b := by
    rintro k hk rfl
    rw [Owners.Alive, hnone] at hk
    cases hk
  have hheap : ∀ a, a ≠ b → (q.alloc b).heap a = q.heap a :=
    fun a ha => Function.update_of_ne ha _ _
  refine ⟨⟨⟨h.head_le, h.length, h.even, h.more, h.headBlock, h.tailBlock⟩,
    ⟨?_, ?_, ?_, ?_, ?_, ?_, ?_⟩, h.lap, h.position, ?_, h.headMoves, h.tailMoves⟩, fun c hc =>
    { Rely.refl q g c with
      task := fun r hr => ?_
      next := fun r hr _ => ?_
      spare := fun a => ?_ }⟩
  · intro a
    rw [Injector.alloc, Finset.mem_insert, h.live a]
    by_cases ha : a = b
    · simp [ha, hself]
    · rw [hhome a ha]
      simp [ha]
  · intro a e ha
    by_cases he : a = b
    · rw [he]
      exact Function.update_self _ _ _
    · rw [hhome a he] at ha
      rw [hheap a he]
      exact h.spare a e ha
  · intro a k ha
    exact h.home a k ((hinl a k).mp ha)
  · intro k hk hd
    exact (halive k).mpr (h.alive k hk hd)
  · intro k hd
    rw [halive]
    exact h.freed k hd
  · intro k hk hlt hw
    rw [halive] at hk
    exact (congrArg Block.next (hheap _ (hne k hk))).trans (h.linked k hk hlt hw)
  · intro k a hk ha
    rw [halive] at hk
    exact h.next k a hk ((congrArg Block.next (hheap _ (hne k hk))).symm.trans ha)
  · intro r ho hr
    rw [halive] at hr
    have hat : (q.alloc b).at (g.keep d b) r = q.at g r := by
      simp only [Injector.at, Injector.slot, Owners.keep, hheap _ (hne _ hr)]
    rw [hat]
    exact h.slot r ho hr
  · simp only [Injector.at, Injector.slot, Owners.keep, hheap _ (hne _ (h.alive_of_writer hr))]
  · simp only [Owners.keep, hheap _ (hne _ (h.alive_of_writer hr))]
  · by_cases ha : a = b
    · rw [ha, hself, hnone]
      simp [hc.symm]
    · rw [hhome a ha]

/-- A block that was allocated in advance and not needed is freed. -/
theorem Injector.Owned.dropSpare (h : q.Owned g) (hb : g.home b = some (.inr d)) :
    q.Change g (q.free b) (g.drop b) d := by
  have hhome : ∀ a, a ≠ b → (g.drop b).home a = g.home a :=
    fun a ha => Function.update_of_ne ha _ _
  have hself : (g.drop b).home b = none := Function.update_self _ _ _
  have hinl : ∀ a k, (g.drop b).home a = some (.inl k) ↔ g.home a = some (.inl k) := by
    intro a k
    by_cases ha : a = b
    · rw [ha, hself, hb]
      simp
    · rw [hhome a ha]
  have halive : ∀ k, (g.drop b).Alive k ↔ g.Alive k := fun k => hinl _ k
  refine ⟨⟨⟨h.head_le, h.length, h.even, h.more, h.headBlock, h.tailBlock⟩,
    ⟨?_, ?_, ?_, ?_, ?_, ?_, ?_⟩, h.lap, h.position, ?_, h.headMoves, h.tailMoves⟩, fun c hc =>
    { Rely.refl q g c with
      task := fun r hr => rfl
      spare := fun a => ?_ }⟩
  · intro a
    rw [Injector.free, Finset.mem_erase, h.live a]
    by_cases ha : a = b
    · simp [ha, hself]
    · rw [hhome a ha]
      simp [ha]
  · intro a e ha
    by_cases he : a = b
    · rw [he, hself] at ha
      cases ha
    · rw [hhome a he] at ha
      exact h.spare a e ha
  · intro a k ha
    exact h.home a k ((hinl a k).mp ha)
  · intro k hk hd
    exact (halive k).mpr (h.alive k hk hd)
  · intro k hd
    rw [halive]
    exact h.freed k hd
  · intro k hk hlt hw
    exact h.linked k ((halive k).mp hk) hlt hw
  · intro k a hk ha
    exact h.next k a ((halive k).mp hk) ha
  · intro r ho hr
    exact h.slot r ho ((halive _).mp hr)
  · by_cases ha : a = b
    · rw [ha, hself, hb]
      simp [hc.symm]
    · rw [hhome a ha]

end Memory

end Nacl
