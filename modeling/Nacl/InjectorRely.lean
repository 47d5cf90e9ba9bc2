import Nacl.InjectorOwners

/-! What the steps of the other parties leave alone: a party keeps what it owns and what it
knows. -/

namespace Nacl

variable {κ T : Type*}

/-- The change from `q` to `q'` as party `c` sees it, which did not make it. -/
structure Injector.Rely (q : Injector T) (g : Owners κ T) (q' : Injector T) (g' : Owners κ T)
    (c : κ) : Prop where
  head_le : q.head.index ≤ q'.head.index
  tail_le : q.tail.index ≤ q'.tail.index
  headBlock : q'.head.index = q.head.index → q.head.index / 2 % 64 < 63 →
    q'.head.block = q.head.block
  tailBlock : q'.tail.index = q.tail.index → q.tail.index / 2 % 64 < 63 →
    q'.tail.block = q.tail.block
  tasks : ∀ p < q.tail.index / 2, p % 64 < 63 → g'.tasks[ticket p]? = g.tasks[ticket p]?
  addr : ∀ k ≤ q.tail.index / 2 / 64, g'.addr k = g.addr k
  written : ∀ p < q.tail.index / 2, g.writer p = none → g'.writer p = none
  passed : ∀ p < q.head.index / 2, g.reader p = none → g'.reader p = none
  moving : ∀ p, g.reader p = some c → p % 64 = 62 → q.head.index / 2 = p + 1 → q'.head = q.head
  installing : ∀ p, g.writer p = some c → p % 64 = 62 → q.tail.index / 2 = p + 1 → q'.tail = q.tail
  task : ∀ p, g.writer p = some c → (q'.at g' p).task = (q.at g p).task
  next : ∀ p, g.writer p = some c → p % 64 = 62 →
    (q'.heap (g'.addr (p / 64))).next = (q.heap (g.addr (p / 64))).next
  writer : ∀ p, g'.writer p = some c ↔ g.writer p = some c
  reader : ∀ p, g'.reader p = some c ↔ g.reader p = some c
  destroyer : ∀ k f, g'.destroyer k = .party c f ↔ g.destroyer k = .party c f
  spare : ∀ a, g'.home a = some (.inr c) ↔ g.home a = some (.inr c)

variable {q q' : Injector T} {g g' : Owners κ T} {c : κ} {pc : InjectorPc T}

theorem Injector.Rely.refl (q : Injector T) (g : Owners κ T) (c : κ) : q.Rely g q g c where
  head_le := Nat.le_refl _
  tail_le := Nat.le_refl _
  headBlock _ _ := rfl
  tailBlock _ _ := rfl
  tasks _ _ _ := rfl
  addr _ _ := rfl
  written _ _ h := h
  passed _ _ h := h
  moving _ _ _ _ := rfl
  installing _ _ _ _ := rfl
  task _ _ := rfl
  next _ _ _ := rfl
  writer _ := Iff.rfl
  reader _ := Iff.rfl
  destroyer _ _ := Iff.rfl
  spare _ := Iff.rfl

theorem Injector.Rely.trans {q'' : Injector T} {g'' : Owners κ T} (h : q.Rely g q' g' c)
    (h' : q'.Rely g' q'' g'' c) : q.Rely g q'' g'' c where
  head_le := Nat.le_trans h.head_le h'.head_le
  tail_le := Nat.le_trans h.tail_le h'.tail_le
  headBlock he ho := by
    have hle := h.head_le
    have hle' := h'.head_le
    have hq : q'.head.index = q.head.index := by omega
    rw [h'.headBlock (by omega) (by rw [hq]; exact ho), h.headBlock hq ho]
  tailBlock he ho := by
    have hle := h.tail_le
    have hle' := h'.tail_le
    have hq : q'.tail.index = q.tail.index := by omega
    rw [h'.tailBlock (by omega) (by rw [hq]; exact ho), h.tailBlock hq ho]
  tasks p hp ho := by
    have hle := h.tail_le
    rw [h'.tasks p (by omega) ho, h.tasks p hp ho]
  addr k hk := by
    have hle := h.tail_le
    rw [h'.addr k (by omega), h.addr k hk]
  written p hp hw := by
    have hle := h.tail_le
    exact h'.written p (by omega) (h.written p hp hw)
  passed p hp hr := by
    have hle := h.head_le
    exact h'.passed p (by omega) (h.passed p hp hr)
  moving p hr ho hh := by
    have hq := h.moving p hr ho hh
    rw [h'.moving p ((h.reader p).mpr hr) ho (by rw [hq]; exact hh), hq]
  installing p hw ho ht := by
    have hq := h.installing p hw ho ht
    rw [h'.installing p ((h.writer p).mpr hw) ho (by rw [hq]; exact ht), hq]
  task p hw := by rw [h'.task p ((h.writer p).mpr hw), h.task p hw]
  next p hw ho := by rw [h'.next p ((h.writer p).mpr hw) ho, h.next p hw ho]
  writer p := (h'.writer p).trans (h.writer p)
  reader p := (h'.reader p).trans (h.reader p)
  destroyer k f := (h'.destroyer k f).trans (h.destroyer k f)
  spare a := (h'.spare a).trans (h.spare a)

theorem Injector.Rely.of (h : q.Rely g q' g' c) (ho : g.Of c pc) : g'.Of c pc where
  writer p := (h.writer p).trans (ho.writer p)
  reader p := (h.reader p).trans (ho.reader p)
  destroyer l f := (h.destroyer l f).trans (ho.destroyer l f)
  spare a := (h.spare a).trans (ho.spare a)

theorem Injector.Rely.tailSeen (h : q.Rely g q' g' c) {tail block : Nat}
    (hs : q.TailSeen tail block) : q'.TailSeen tail block where
  offset := hs.offset
  le := Nat.le_trans hs.le h.tail_le
  block hi := by
    have hle := hs.le
    have hmono := h.tail_le
    have hq : q.tail.index = tail := by omega
    rw [h.tailBlock (hi.trans hq.symm) (by rw [hq]; exact hs.offset)]
    exact hs.block hq

theorem Injector.Rely.headSeen (h : q.Rely g q' g' c) {head block : Nat}
    (hs : q.HeadSeen head block) : q'.HeadSeen head block where
  offset := hs.offset
  le := Nat.le_trans hs.le h.head_le
  block hi := by
    have hle := hs.le
    have hmono := h.head_le
    have hq : q.head.index = head := by omega
    rw [h.headBlock (hi.trans hq.symm) (by rw [hq]; exact hs.offset)]
    exact hs.block hq

theorem Claim.Fits.mono {k : Claim} {t t' : Nat} (hf : k.Fits t) (h : t ≤ t') : k.Fits t' where
  offset := hf.offset
  pos := hf.pos
  newOffset := hf.newOffset
  newHead := hf.newHead
  tail := Nat.le_trans hf.tail h
  more ho := by
    have hm := hf.more ho
    omega
  most := hf.most

theorem Injector.Rely.reserved (h : q.Rely g q' g' c) (ho : q.Owned g) {tail block : Nat} {t : T}
    (hw : g.writer (tail / 2) = some c) (hr : g.Reserved tail block t) :
    g'.Reserved tail block t where
  even := hr.even
  block := by
    have hlt := ((ho.position _).writer (by rw [hw]; simp)).1
    rw [h.addr _ (by omega)]
    exact hr.block
  task := by
    obtain ⟨hlt, hoff⟩ := (ho.position _).writer (w := g.writer (tail / 2)) (by rw [hw]; simp)
    rw [h.tasks _ hlt hoff]
    exact hr.task

theorem Injector.Rely.claimed (h : q.Rely g q' g' c) {k : Claim} {got : List (Option T)}
    (hc : g.Claimed (q.tail.index / 2) k got) : g'.Claimed (q'.tail.index / 2) k got where
  fits := hc.fits.mono (Nat.div_le_div_right h.tail_le)
  block := by
    have hf := hc.fits
    have hlt := hf.tail
    rw [h.addr _ (by omega)]
    exact hc.block
  length := hc.length
  tasks j hj := by
    have hlen := hc.length
    have hlt := hc.fits.tail
    have hoff := hc.fits.newOffset
    rw [h.tasks _ (by omega) (by omega)]
    exact hc.tasks j hj
  written j hj := by
    have hlen := hc.length
    have hlt := hc.fits.tail
    exact h.written _ (by omega) (hc.written j hj)

/-- While a thief moves the head to the next block, nobody else touches it. -/
theorem Injector.Rely.moving_head (h : q.Rely g q' g' c) {k : Claim}
    (hr : ∀ p, g.reader p = some c ↔ k.start ≤ p ∧ p < k.start + k.n) (hm : q.Moving g k) :
    q'.head = q.head := by
  have hpos := hm.claimed.fits.pos
  have hlast := hm.last
  rw [k.newOffset_eq] at hlast
  have hhead := hm.head
  exact h.moving (k.start + k.n - 1) ((hr _).mpr (by omega)) (by omega) (by omega)

theorem Injector.Rely.moved (h : q.Rely g q' g' c) {k : Claim}
    (hr : ∀ p, g.reader p = some c ↔ k.start ≤ p ∧ p < k.start + k.n) (hm : q.Moving g k) :
    q'.Moving g' k where
  claimed := h.claimed hm.claimed
  last := hm.last
  head := by rw [h.moving_head hr hm]; exact hm.head

theorem Injector.Rely.passing (h : q.Rely g q' g' c) {k : Claim} {got : List (Option T)}
    (hm : q.Moved g k got) : q'.Moved g' k got where
  claimed := h.claimed hm.claimed
  past hlast := by
    have hle := h.head_le
    have hp := hm.past hlast
    omega

theorem Injector.Rely.lap_lt (h : q.Rely g q' g' c) {l : Nat} (hl : l < q.tail.index / 2 / 64) :
    l < q'.tail.index / 2 / 64 := by
  have hle := h.tail_le
  omega

theorem Owners.Of.reads {k : Claim} (ho : g.Of c pc) (hpc : pc.claim = some k)
    (hm : ∀ k i, pc ≠ .stealMark k i) :
    ∀ p, g.reader p = some c ↔ k.start ≤ p ∧ p < k.start + k.n := by
  intro p
  rw [ho.reader p]
  cases pc <;> simp_all [InjectorPc.Reads, InjectorPc.claim]

/-- A block that is being destroyed is not one of a lap to come. -/
theorem Injector.Rely.destroys (h : q.Rely g q' g' c) (ho : q.Owned g) {k : Claim} {f : Nat}
    (hd : g.destroyer (k.start / 64) = .party c f) (hb : k.block = g.addr (k.start / 64)) :
    k.block = g'.addr (k.start / 64) := by
  have hne : ¬ q.head.index / 2 ≤ 64 * (k.start / 64) + 62 := by
    rw [← (ho.lap _).unclaimed, hd]
    simp
  have hle := ho.head_le
  rw [h.addr _ (by omega)]
  exact hb

theorem Injector.Rely.knows (h : q.Rely g q' g' c) (ho : q.Owned g) (hof : g.Of c pc)
    (hk : q.Knows g pc) : q'.Knows g' pc := by
  have hhead := h.head_le
  have htail := h.tail_le
  cases pc with
  | idle => trivial
  | panicked => exact hk
  | pushTail t new => trivial
  | pushBlock t tail new => exact Nat.le_trans hk htail
  | pushAlloc t tail block => exact h.tailSeen hk
  | pushExchange t tail block new => exact ⟨h.tailSeen hk.1, hk.2⟩
  | pushTailBlock t tail block new =>
    obtain ⟨hr, hoff, hi⟩ := hk
    have hw := (hof.writer (tail / 2)).mpr rfl
    refine ⟨h.reserved ho hw hr, hoff, ?_⟩
    rw [h.installing _ hw hoff (by omega)]
    exact hi
  | pushTailIndex t tail block new =>
    obtain ⟨hr, hoff, hi, hb⟩ := hk
    have hw := (hof.writer (tail / 2)).mpr rfl
    refine ⟨h.reserved ho hw hr, hoff, ?_⟩
    rw [h.installing _ hw hoff (by omega)]
    exact ⟨hi, hb⟩
  | pushNext t tail block new =>
    obtain ⟨hr, hoff, hl, hn⟩ := hk
    refine ⟨h.reserved ho ((hof.writer _).mpr rfl) hr, hoff, h.lap_lt hl, ?_⟩
    rw [h.addr _ hl]
    exact hn
  | pushWrite t tail block new =>
    obtain ⟨hr, hn⟩ := hk
    have hw := (hof.writer (tail / 2)).mpr rfl
    have hr' := h.reserved ho hw hr
    refine ⟨hr', fun hoff => ?_⟩
    rw [hr'.block, h.next _ hw hoff, ← hr.block]
    exact hn hoff
  | pushState t tail block new =>
    obtain ⟨hr, hn, ht⟩ := hk
    have hw := (hof.writer (tail / 2)).mpr rfl
    have hr' := h.reserved ho hw hr
    refine ⟨hr', fun hoff => ?_, by rw [h.task _ hw]; exact ht⟩
    rw [hr'.block, h.next _ hw hoff, ← hr.block]
    exact hn hoff
  | pushDrop new => trivial
  | stealHead op => trivial
  | stealBlock op head => exact ⟨Nat.le_trans hk.1 hhead, fun hm => h.lap_lt (hk.2 hm)⟩
  | stealTail op head block => exact ⟨h.headSeen hk.1, hk.2⟩
  | stealExchange k =>
    exact ⟨h.headSeen hk.1, hk.2.mono (Nat.div_le_div_right htail)⟩
  | stealNext k => exact h.moved (hof.reads rfl nofun) hk
  | stealNextNext k next =>
    obtain ⟨hm, hn, hl⟩ := hk
    exact ⟨h.moved (hof.reads rfl nofun) hm, by rw [h.addr _ hl]; exact hn, h.lap_lt hl⟩
  | stealHeadBlock k next nextIndex =>
    obtain ⟨hm, hn, hl, hi, hx⟩ := hk
    exact ⟨h.moved (hof.reads rfl nofun) hm, by rw [h.addr _ hl]; exact hn, h.lap_lt hl, hi,
      fun hb => h.lap_lt (hx hb)⟩
  | stealHeadIndex k nextIndex =>
    obtain ⟨hm, hn, hl, hi, hx⟩ := hk
    have hr := hof.reads rfl nofun
    refine ⟨h.moved hr hm, ?_, h.lap_lt hl, hi, fun hb => h.lap_lt (hx hb)⟩
    rw [h.moving_head hr hm, h.addr _ hl]
    exact hn
  | stealWait k got => exact ⟨h.passing hk.1, hk.2⟩
  | stealRead k got =>
    obtain ⟨hm, hlt, hw⟩ := hk
    have ht := hm.claimed.fits.tail
    exact ⟨h.passing hm, hlt, h.written _ (by omega) hw⟩
  | stealArrive k got => exact ⟨h.passing hk.1, hk.2⟩
  | stealMark k i =>
    obtain ⟨hf, hb, hlast, hlo, hhi, hw, hr⟩ := hk
    have ht := hf.tail
    have hread : g.reader (k.start / 64 * 64 + i) = some c := by
      rw [hof.reader]
      rw [k.newOffset_eq] at hhi
      exact ⟨Nat.le_refl _, by omega⟩
    have hlt := ((ho.position _).reader (by rw [hread]; simp)).1
    refine ⟨hf.mono (Nat.div_le_div_right htail), by rw [h.addr _ (by omega)]; exact hb, hlast,
      hlo, hhi, fun j hj => h.written _ (by omega) (hw j hj), fun p hp hpi => ?_⟩
    exact h.passed p (by omega) (hr p hp hpi)
  | destroyLoad k i => exact h.destroys ho ((hof.destroyer _ _).mpr ⟨rfl, rfl⟩) hk
  | destroyMark k i => exact h.destroys ho ((hof.destroyer _ _).mpr ⟨rfl, rfl⟩) hk
  | destroyFree k => exact h.destroys ho ((hof.destroyer _ _).mpr ⟨rfl, rfl⟩) hk
  | emptyHead => trivial
  | emptyTail head => exact Nat.le_trans hk hhead
  | lenTail => trivial
  | lenHead tail => exact Nat.le_trans hk htail
  | lenCheck tail head => exact Nat.le_trans hk htail

end Nacl
