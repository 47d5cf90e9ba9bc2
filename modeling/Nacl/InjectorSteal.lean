import Nacl.InjectorPush

/-! The accesses of the steal operations and of `Block::destroy` to the shared memory, and
what they do to the owners. -/

namespace Nacl

variable {κ T : Type*} {q : Injector T} {g : Owners κ T} {c d : κ} {l p r : Nat}

def Owners.pass (g : Owners κ T) (l : Nat) (v : Destroyer κ) : Owners κ T :=
  { g with destroyer := Function.update g.destroyer l v }

/-- Positions `lo` to `hi` have the reader `v`. -/
def Owners.setReaders (g : Owners κ T) (lo hi : Nat) (v : Option κ) : Owners κ T :=
  { g with reader := fun p => if lo ≤ p ∧ p < hi then v else g.reader p }

/-- The claim of the last slot of a block makes its thief the one that frees the block. -/
def Owners.claim (g : Owners κ T) (d : κ) (k : Claim) : Owners κ T :=
  if k.newOffset = 63
    then (g.setReaders k.start (k.start + k.n) (some d)).pass (k.start / 64) (.party d 63)
    else g.setReaders k.start (k.start + k.n) (some d)

theorem Owners.reader_ne (hp : g.reader p = some d) (hr : g.reader r = some c) (hc : c ≠ d) :
    p ≠ r := by
  rintro rfl
  rw [hp] at hr
  exact hc (Option.some.inj hr).symm

theorem Owners.destroyer_pass (g : Owners κ T) (v : Destroyer κ) {l k : Nat} (h : k ≠ l) :
    (g.pass l v).destroyer k = g.destroyer k := Function.update_of_ne h _ _

theorem Owners.destroyer_pass_self (g : Owners κ T) (l : Nat) (v : Destroyer κ) :
    (g.pass l v).destroyer l = v := Function.update_self _ _ _

/-- Only who frees the block of lap `l` changes, among those that keep it alive. -/
theorem Injector.Linked.pass (h : q.Linked g) {v : Destroyer κ} (hd : g.destroyer l ≠ .freed)
    (hv : v ≠ .freed) : q.Linked (g.pass l v) where
  live := h.live
  spare := h.spare
  home := h.home
  alive k hk hf := by
    apply h.alive k hk
    by_cases he : k = l
    · rw [he]
      exact hd
    · rwa [g.destroyer_pass v he] at hf
  freed k hf := by
    by_cases he : k = l
    · rw [he, g.destroyer_pass_self] at hf
      exact absurd hf hv
    · rw [g.destroyer_pass v he] at hf
      exact h.freed k hf
  linked := h.linked
  next := h.next

section Claim

variable {k : Claim}

theorem Owners.reader_claim (g : Owners κ T) (d : κ) (k : Claim) (p : Nat) :
    (g.claim d k).reader p =
      if k.start ≤ p ∧ p < k.start + k.n then some d else g.reader p := by
  unfold Owners.claim
  split <;> rfl

theorem Owners.destroyer_claim (g : Owners κ T) (d : κ) (k : Claim) (l : Nat) :
    (g.claim d k).destroyer l =
      if k.newOffset = 63 ∧ l = k.start / 64 then .party d 63 else g.destroyer l := by
  unfold Owners.claim
  by_cases hn : k.newOffset = 63
  · rw [if_pos hn]
    by_cases hl : l = k.start / 64
    · rw [hl, Owners.destroyer_pass_self, if_pos ⟨hn, rfl⟩]
    · rw [Owners.destroyer_pass _ _ hl, if_neg (fun h => hl h.2)]
      rfl
  · rw [if_neg hn, if_neg (fun h => hn h.1)]
    rfl

theorem Owners.claim_eq (g : Owners κ T) (d : κ) (k : Claim) :
    (g.claim d k).addr = g.addr ∧ (g.claim d k).home = g.home ∧ (g.claim d k).writer = g.writer ∧
      (g.claim d k).tasks = g.tasks := by
  unfold Owners.claim
  split <;> exact ⟨rfl, rfl, rfl, rfl⟩

theorem Injector.Owned.linked_claim (h : q.Owned g) (hf : k.Fits (q.tail.index / 2))
    (hs : q.head.index / 2 = k.start) : q.Linked (g.claim d k) := by
  have hoff := hf.offset
  have hnone := h.destroyer_of_le (p := k.start) (by omega) hoff
  have hlinked : q.Linked (g.setReaders k.start (k.start + k.n) (some d)) :=
    ⟨h.live, h.spare, h.home, h.alive, h.freed, h.linked, h.next⟩
  unfold Owners.claim
  split
  · exact hlinked.pass (by rw [Owners.setReaders, hnone]; simp) (by simp)
  · exact hlinked

theorem Owners.frontier_claim (g : Owners κ T) (d : κ) (k : Claim) (l : Nat)
    (hnone : g.destroyer (k.start / 64) = .none) :
    ((g.claim d k).destroyer l).frontier = (g.destroyer l).frontier := by
  rw [g.destroyer_claim]
  split
  · rename_i h
    rw [h.2, hnone]
    rfl
  · rfl

theorem Owners.slot_claim (g : Owners κ T) (d : κ) (k : Claim) (l i : Nat)
    (hnone : g.destroyer (k.start / 64) = .none) :
    (g.claim d k).destroyer l = .slot i ↔ g.destroyer l = .slot i := by
  rw [g.destroyer_claim]
  split
  · rename_i h
    rw [h.2, hnone]
    simp
  · rfl

theorem Injector.at_claim (q : Injector T) (g : Owners κ T) (d : κ) (k : Claim) (p : Nat) :
    q.at (g.claim d k) p = q.at g p := by
  rw [Injector.at, (g.claim_eq d k).1, Injector.at]

theorem Injector.Owned.position_claim (h : q.Owned g) (hf : k.Fits (q.tail.index / 2))
    (hs : q.head.index / 2 = k.start) (p : Nat) :
    PositionOk p (k.start + k.n) (q.tail.index / 2) (g.writer p) ((g.claim d k).reader p)
      ((g.claim d k).destroyer (p / 64)) := by
  have hnone := h.destroyer_of_le (p := k.start) (by omega) hf.offset
  have hoff := hf.newOffset
  have hx := h.position p
  rw [g.reader_claim]
  by_cases hp : k.start ≤ p ∧ p < k.start + k.n
  · rw [if_pos hp]
    refine ⟨hx.writer, fun _ => by omega, fun hfr => ?_, by simp, by simp⟩
    rw [g.frontier_claim d k _ hnone, show p / 64 = k.start / 64 by omega, hnone] at hfr
    simp only [Destroyer.frontier] at hfr
    omega
  · rw [if_neg hp]
    have hy : PositionOk p (k.start + k.n) (q.tail.index / 2) (g.writer p) (g.reader p)
        (g.destroyer (p / 64)) := hx.congr (fun _ => by omega) (fun _ => Iff.rfl)
    refine ⟨hy.writer, hy.reader, fun hfr => ?_, hy.waits, fun ha => ?_⟩
    · rw [g.frontier_claim d k _ hnone] at hfr
      exact hy.done hfr
    · rw [g.slot_claim d k _ _ hnone] at ha
      exact hy.asked ha

theorem Injector.Owned.slot_claim (h : q.Owned g) (hf : k.Fits (q.tail.index / 2))
    (hs : q.head.index / 2 = k.start) (hp : p % 64 < 63) (ha : g.Alive (p / 64)) :
    (q.at g p).Ok p (k.start + k.n) (q.tail.index / 2) (g.writer p) ((g.claim d k).reader p)
      ((g.claim d k).destroyer (p / 64)) g.tasks := by
  have hnone := h.destroyer_of_le (p := k.start) (by omega) hf.offset
  have hx := h.slot p hp ha
  refine ⟨hx.write, hx.task, fun hr => ?_, fun hlt hn => ?_, ?_⟩
  · have hlt := hx.read hr
    rw [g.reader_claim, if_neg (by omega)]
    exact ⟨by omega, hlt.2⟩
  · rw [g.reader_claim] at hn
    split at hn
    · cases hn
    · rw [g.frontier_claim d k _ hnone]
      exact hx.unread (by omega) hn
  · rw [g.slot_claim d k _ _ hnone]
    exact hx.destroy

/-- The head exchange of a steal. -/
theorem Injector.Owned.claim (h : q.Owned g) (hf : k.Fits (q.tail.index / 2))
    (hs : q.head.index = k.head) :
    q.Change g { q with head := ⟨k.newHead, q.head.block⟩ } (g.claim d k) d := by
  obtain ⟨haddr, hhome, hwriter, htasks⟩ := g.claim_eq d k
  have hstart : q.head.index / 2 = k.start := by rw [hs, Claim.start]
  have hoff := hf.offset
  have hnew := hf.newOffset
  have hpos := hf.pos
  have hnone := h.destroyer_of_le (p := k.start) (by omega) hoff
  have hlinked := h.linked_claim (d := d) hf hstart
  have halive : ∀ l, (g.claim d k).Alive l ↔ g.Alive l := by
    intro l
    rw [Owners.Alive, haddr, hhome, Owners.Alive]
  refine ⟨⟨⟨?_, ?_, h.even, ?_, ?_, ?_⟩, ⟨hlinked.live, hlinked.spare, hlinked.home,
    hlinked.alive, hlinked.freed, hlinked.linked, hlinked.next⟩, ?_, ?_, ?_,
    ?_, ?_⟩, ?_⟩
  · simp only [hf.newHead]
    exact hf.tail
  · rw [htasks]
    exact h.length
  · simp only [hf.newHead]
    rw [show (k.start + k.n) / 64 = k.start / 64 by omega]
    exact hf.more
  · simp only [hf.newHead]
    intro _
    rw [haddr, show (k.start + k.n) / 64 = q.head.index / 2 / 64 by omega]
    exact h.headBlock (by omega)
  · rw [haddr]
    exact h.tailBlock
  · intro l
    have hl := h.lap l
    simp only [hf.newHead]
    refine ⟨?_, ?_⟩
    · have hlast := k.newOffset_eq
      rw [g.destroyer_claim]
      split
      · simp only [reduceCtorEq, false_iff]
        omega
      · rw [hl.unclaimed]
        omega
    · rw [g.frontier_claim d k _ hnone]
      exact hl.frontier
  · intro p
    simp only [hf.newHead, hwriter]
    exact h.position_claim hf hstart p
  · intro p hp ha
    simp only [hf.newHead, hwriter, htasks]
    rw [halive] at ha
    have hx := h.slot_claim (d := d) hf hstart hp ha
    rwa [← q.at_claim g d k] at hx
  · intro _
    simp only [hf.newHead]
    rw [g.reader_claim, if_pos (by omega)]
    simp
  · rw [hwriter]
    exact h.tailMoves
  · intro c hc
    exact { Rely.refl q g c with
      head_le := by
        have hn := hf.newHead
        simp only
        omega
      headBlock := fun he => by
        have hn := hf.newHead
        simp only at he
        omega
      tasks := fun p _ _ => by rw [htasks]
      addr := fun l _ => by rw [haddr]
      written := fun p _ hw => by rw [hwriter]; exact hw
      passed := fun p hp hr => by rw [g.reader_claim, if_neg (by omega)]; exact hr
      moving := fun p _ ho hp => by omega
      task := fun p _ => congrArg Slot.task (q.at_claim g d k p)
      next := fun p _ _ => by rw [haddr]
      writer := fun p => by rw [hwriter]
      reader := fun p => by
        rw [g.reader_claim]
        split
        · have hx := h.position p
          constructor
          · intro he
            exact absurd (Option.some.inj he).symm hc
          · intro he
            have hlt := (hx.reader (by rw [he]; simp)).1
            omega
        · rfl
      destroyer := fun l f => by
        rw [g.destroyer_claim]
        split
        · rename_i hl
          rw [hl.2, hnone]
          simp [hc.symm]
        · rfl
      spare := fun a => by rw [hhome] }

end Claim

/-- The store of `head.block`, while the head is at the end of a block. -/
theorem Injector.Owned.storeHeadBlock (h : q.Owned g) {a : Nat} (hr : g.reader p = some d)
    (hoff : p % 64 = 62) (hh : q.head.index / 2 = p + 1) :
    q.Change g { q with head := ⟨q.head.index, a⟩ } g d where
  owned := { h with headBlock := fun hlt => by simp only at hlt; omega }
  rely c hc := { Rely.refl q g c with
    headBlock := fun _ hlt => by omega
    moving := fun r hr' _ hh' => by
      have hne := Owners.reader_ne hr hr' hc
      omega }

/-- The store of `head.index` that lets the head into the next block. -/
theorem Injector.Owned.storeHeadIndex (h : q.Owned g) {i : Nat} (hr : g.reader p = some d)
    (hoff : p % 64 = 62) (hh : q.head.index / 2 = p + 1) (hi : i / 2 = p + 2)
    (hb : q.head.block = g.addr (p / 64 + 1)) (hl : p / 64 < q.tail.index / 2 / 64)
    (hm : i % 2 = 1 → p / 64 + 1 < q.tail.index / 2 / 64) :
    q.Change g { q with head := ⟨i, q.head.block⟩ } g d where
  owned := { h with
    head_le := by simp only; omega
    more := fun ho => by have hmore := hm ho; simp only; omega
    headBlock := fun _ => by simp only; rw [hb]; congr 1; omega
    lap := fun k => by
      have hk := h.lap k
      refine ⟨?_, hk.frontier⟩
      rw [hk.unclaimed]
      simp only
      omega
    position := fun r => (h.position r).congr (fun _ => by simp only; omega) (fun _ => Iff.rfl)
    slot := fun r ho ha => (h.slot r ho ha).congr (by simp only; omega) Iff.rfl fun _ => rfl
    headMoves := fun hend => by simp only at hend; omega }
  rely c hc := { Rely.refl q g c with
    head_le := by simp only; omega
    headBlock := fun _ hlt => by omega
    moving := fun r hr' _ hh' => by
      have hne := Owners.reader_ne hr hr' hc
      omega }

end Nacl
