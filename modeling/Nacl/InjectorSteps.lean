import Nacl.InjectorDestroy

/-! Every access of a party keeps the owners: the steps of `push`, of the steals and of
`Block::destroy`, place by place. -/

namespace Nacl

variable {κ T : Type*} {q : Injector T} {g : Owners κ T} {d : κ} {pc pc' : InjectorPc T} {t : T}

def InjectorEvent.pushes : InjectorEvent κ T → List T
  | .pushed _ t => [t]
  | _ => []

/-- Party `d` comes to `pc'` with `ts` newly pushed, and the owners are in order there. -/
def Injector.Lands (q : Injector T) (g : Owners κ T) (d : κ) (ts : List T) (q' : Injector T)
    (pc' : InjectorPc T) : Prop :=
  ∃ g', q.Change g q' g' d ∧ g'.Of d pc' ∧ q'.Knows g' pc' ∧ g'.tasks = g.tasks ++ ts

theorem Injector.Lands.stay (h : q.Owned g) (hof : g.Of d pc') (hk : q.Knows g pc') :
    q.Lands g d [] q pc' :=
  ⟨g, .refl h, hof, hk, (List.append_nil _).symm⟩

theorem Owners.Of.same (h : g.Of d pc) (hw : pc'.writing = pc.writing)
    (hr : ∀ p, pc'.Reads p ↔ pc.Reads p) (hd : ∀ l f, pc'.Destroys l f ↔ pc.Destroys l f)
    (hs : pc'.spare = pc.spare) : g.Of d pc' where
  writer p := by rw [hw]; exact h.writer p
  reader p := (h.reader p).trans (hr p).symm
  destroyer l f := (h.destroyer l f).trans (hd l f).symm
  spare a := by rw [hs]; exact h.spare a

theorem offsetOf_eq (i : Nat) : offsetOf i = i / 2 % 64 := by
  simp only [offsetOf, shift, lap, Nat.shiftRight_one]

theorem lapOf_eq (i : Nat) : lapOf i = i / 2 / 64 := by
  simp only [lapOf, shift, lap, Nat.shiftRight_one]

theorem blockCap_eq : blockCap = 63 := rfl

theorem or_hasNext (n : Nat) : n ||| hasNext = n / 2 * 2 + 1 := by
  apply Nat.eq_of_testBit_eq
  intro i
  cases i with
  | zero => simp [hasNext]
  | succ i =>
    have hdiv : (n / 2 * 2 + 1) / 2 = n / 2 := by omega
    rw [Nat.testBit_or, Nat.testBit_succ, Nat.testBit_succ, Nat.testBit_succ, hdiv]
    simp [hasNext]

section Push

variable {tail block a : Nat} {new : Option Nat}

theorem Injector.Owned.land_pushTail (h : q.Owned g) (hof : g.Of d (.pushTail t new)) :
    q.Lands g d [] q (.pushBlock t q.tail.index new) :=
  .stay h (hof.same rfl (fun _ => Iff.rfl) (fun _ _ => Iff.rfl) rfl) (Nat.le_refl _)

theorem Injector.Owned.land_pushBlock (h : q.Owned g) (hof : g.Of d (.pushBlock t tail new))
    (hk : q.Knows g (.pushBlock t tail new)) :
    q.Lands g d [] q (if offsetOf tail = blockCap then .pushTail t new
      else if offsetOf tail + 1 = blockCap ∧ new = none then .pushAlloc t tail q.tail.block
      else .pushExchange t tail q.tail.block new) := by
  rw [offsetOf_eq, blockCap_eq]
  split
  · exact .stay h (hof.same rfl (fun _ => Iff.rfl) (fun _ _ => Iff.rfl) rfl) trivial
  · have hseen : q.TailSeen tail q.tail.block := ⟨by omega, hk, fun _ => rfl⟩
    split
    · rename_i hn
      rw [hn.2] at hof
      exact .stay h (hof.same rfl (fun _ => Iff.rfl) (fun _ _ => Iff.rfl) rfl) hseen
    · rename_i hn
      refine .stay h (hof.same rfl (fun _ => Iff.rfl) (fun _ _ => Iff.rfl) rfl) ⟨hseen, ?_⟩
      intro ho hnone
      exact hn ⟨ho, hnone⟩

theorem Injector.Owned.land_pushAlloc (h : q.Owned g) (hof : g.Of d (.pushAlloc t tail block))
    (hk : q.Knows g (.pushAlloc t tail block)) (ha : a ∉ q.live) :
    q.Lands g d [] (q.alloc a) (.pushExchange t tail block (some a)) := by
  refine ⟨g.keep d a, h.alloc ha, ⟨hof.writer, hof.reader, hof.destroyer, ?_⟩,
    ⟨⟨hk.offset, hk.le, hk.block⟩, by simp⟩, (List.append_nil _).symm⟩
  intro b
  by_cases hb : b = a
  · rw [hb]
    simp [Owners.keep, InjectorPc.spare]
  · have hs := hof.spare b
    simp only [Owners.keep, Function.update_of_ne hb]
    rw [hs]
    simp [InjectorPc.spare, Ne.symm hb]

theorem Owners.Of.reserve (hof : g.Of d (.pushExchange t tail block new)) {q : Injector T}
    (hw : pc'.writing = some (q.tail.index / 2)) (hr : ∀ p, ¬ pc'.Reads p)
    (hd : ∀ l f, ¬ pc'.Destroys l f) (hs : pc'.spare = new) :
    (g.reserve d (q.tail.index / 2) t).Of d pc' where
  writer p := by
    rw [hw]
    by_cases hp : p = q.tail.index / 2
    · rw [hp]
      simp [Owners.reserve]
    · have hx := hof.writer p
      simp only [Owners.reserve, Function.update_of_ne hp]
      rw [hx]
      simp [InjectorPc.writing, Ne.symm hp]
  reader p := by
    have hx := hof.reader p
    simp only [InjectorPc.Reads, InjectorPc.claim, reduceCtorEq, false_and, exists_false] at hx
    exact iff_of_false hx.mp (hr p)
  destroyer l f := by
    have hx := hof.destroyer l f
    simp only [InjectorPc.Destroys, InjectorPc.claim, reduceCtorEq, false_and, exists_false] at hx
    exact iff_of_false hx.mp (hd l f)
  spare a := by
    rw [hs]
    exact hof.spare a

theorem Injector.Owned.reserved (h : q.Owned g) (hs : q.TailSeen q.tail.index block) :
    (g.reserve d (q.tail.index / 2) t).Reserved q.tail.index block t where
  even := h.even
  block := by
    rw [← hs.block rfl]
    exact h.tailBlock hs.offset
  task := by
    have hl := h.length
    rw [← hl]
    exact List.getElem?_concat_length

theorem Injector.Owned.land_pushExchange (h : q.Owned g)
    (hof : g.Of d (.pushExchange t tail block new))
    (hk : q.Knows g (.pushExchange t tail block new)) (he : q.tail.index = tail) :
    q.Lands g d [t] { q with tail := ⟨tail + 1 <<< shift, q.tail.block⟩ }
      (if offsetOf tail + 1 = blockCap then .pushInstall t tail block new
        else .pushWrite t tail block new) := by
  obtain ⟨hseen, hnew⟩ := hk
  subst he
  rw [offsetOf_eq, blockCap_eq]
  have hres := h.reserved (d := d) (t := t) hseen
  have hchange := h.reserve (d := d) (t := t) hseen.offset
  split
  · rename_i ho
    cases new with
    | none => exact absurd rfl (hnew ho)
    | some a =>
      refine ⟨_, hchange, ?_, ⟨hres, by omega, rfl⟩, rfl⟩
      exact hof.reserve rfl (by simp [InjectorPc.Reads, InjectorPc.pushInstall, InjectorPc.claim])
        (by simp [InjectorPc.Destroys, InjectorPc.pushInstall, InjectorPc.claim]) rfl
  · refine ⟨_, hchange, ?_, ⟨hres, by omega⟩, rfl⟩
    exact hof.reserve rfl (by simp [InjectorPc.Reads, InjectorPc.claim])
      (by simp [InjectorPc.Destroys, InjectorPc.claim]) rfl

theorem Injector.Owned.land_pushExchange_fail (h : q.Owned g)
    (hof : g.Of d (.pushExchange t tail block new)) :
    q.Lands g d [] q (.pushBlock t q.tail.index new) :=
  .stay h (hof.same rfl (fun _ => Iff.rfl) (fun _ _ => Iff.rfl) rfl) (Nat.le_refl _)

theorem Injector.Owned.land_pushTailBlock (h : q.Owned g)
    (hof : g.Of d (.pushTailBlock t tail block a)) (hk : q.Knows g (.pushTailBlock t tail block a)) :
    q.Lands g d [] { q with tail := ⟨q.tail.index, a⟩ } (.pushTailIndex t tail block a) := by
  obtain ⟨hres, ho, hi⟩ := hk
  have hw := (hof.writer (tail / 2)).mpr rfl
  exact ⟨g, h.storeTailBlock hw ho (by omega),
    hof.same rfl (fun _ => Iff.rfl) (fun _ _ => Iff.rfl) rfl, ⟨hres, ho, hi, rfl⟩,
    (List.append_nil _).symm⟩

theorem Injector.Owned.land_pushTailIndex (h : q.Owned g)
    (hof : g.Of d (.pushTailIndex t tail block a)) (hk : q.Knows g (.pushTailIndex t tail block a)) :
    q.Lands g d [] { q with tail := ⟨tail + 1 <<< shift + 1 <<< shift, q.tail.block⟩ }
      (.pushNext t tail block a) := by
  obtain ⟨hres, ho, hi, hb⟩ := hk
  have hw := (hof.writer (tail / 2)).mpr rfl
  have ha : g.home q.tail.block = some (.inr d) := by
    rw [hb]
    exact (hof.spare a).mpr rfl
  have hidx : tail + 1 <<< shift + 1 <<< shift = q.tail.index + 2 := by
    rw [hi]
    rfl
  rw [hidx]
  refine ⟨_, h.storeTailIndex hw ho (by omega) ha, ⟨hof.writer, hof.reader, hof.destroyer, ?_⟩,
    ⟨⟨hres.even, ?_, hres.task⟩, ho, ?_, ?_⟩, (List.append_nil _).symm⟩
  · intro b
    by_cases hbe : b = q.tail.block
    · rw [hbe]
      simp [Owners.install, InjectorPc.spare]
    · have hs := hof.spare b
      simp only [Owners.install, Function.update_of_ne hbe]
      rw [hs, hb.symm]
      simp [InjectorPc.spare, Ne.symm hbe]
  · rw [g.addr_install _ (by omega)]
    exact hres.block
  · simp only
    omega
  · rw [g.addr_install_self, hb]

theorem Injector.Owned.land_pushNext (h : q.Owned g)
    (hof : g.Of d (.pushNext t tail block a)) (hk : q.Knows g (.pushNext t tail block a)) :
    q.Lands g d [] (q.setBlock block { q.heap block with next := some a })
      (.pushWrite t tail block none) := by
  obtain ⟨hres, ho, hl, hn⟩ := hk
  have hw := (hof.writer (tail / 2)).mpr rfl
  have hchange := h.storeNext hw ho hl
  rw [← hn, ← hres.block] at hchange
  refine ⟨g, hchange, hof.same rfl (fun _ => Iff.rfl) (fun _ _ => Iff.rfl) rfl,
    ⟨hres, fun _ => ?_⟩, (List.append_nil _).symm⟩
  simp [Injector.setBlock]

theorem Owners.Reserved.slot (hres : g.Reserved tail block t) (q : Injector T) :
    q.slot block (offsetOf tail) = q.at g (tail / 2) := by
  rw [Injector.at, ← hres.block, offsetOf_eq]

theorem Injector.Owned.land_pushWrite (h : q.Owned g)
    (hof : g.Of d (.pushWrite t tail block new)) (hk : q.Knows g (.pushWrite t tail block new)) :
    q.Lands g d []
      (q.setSlot block (offsetOf tail) { q.slot block (offsetOf tail) with task := some t })
      (.pushState t tail block new) := by
  obtain ⟨hres, hn⟩ := hk
  have hw := (hof.writer (tail / 2)).mpr rfl
  have hchange := h.writeTask (t := t) hw
  rw [hres.slot, offsetOf_eq, hres.block]
  refine ⟨g, hchange, hof.same rfl (fun _ => Iff.rfl) (fun _ _ => Iff.rfl) rfl,
    ⟨⟨hres.even, rfl, hres.task⟩, fun ho => ?_, ?_⟩, (List.append_nil _).symm⟩
  · rw [q.next_setSlot, ← hres.block]
    exact hn ho
  · rw [q.at_setSlot]

theorem Injector.Owned.land_pushState (h : q.Owned g)
    (hof : g.Of d (.pushState t tail block new)) (hk : q.Knows g (.pushState t tail block new)) :
    q.Lands g d []
      (q.setSlot block (offsetOf tail) { q.slot block (offsetOf tail) with write := true })
      (.pushDone new) := by
  obtain ⟨hres, hn, ht⟩ := hk
  have hw := (hof.writer (tail / 2)).mpr rfl
  have hchange := h.publish hw (by rw [ht, hres.task]) (by rw [← hres.block]; exact hn)
  have hwriter : ∀ p, (g.publish (tail / 2)).writer p ≠ some d := by
    intro p hp
    by_cases he : p = tail / 2
    · rw [he] at hp
      simp [Owners.publish] at hp
    · simp only [Owners.publish, Function.update_of_ne he] at hp
      have hx := (hof.writer p).mp hp
      exact he (Option.some.inj hx).symm
  rw [hres.slot, offsetOf_eq, hres.block]
  refine ⟨_, hchange, ?_, ?_, (List.append_nil _).symm⟩
  · cases new with
    | none =>
      exact ⟨fun p => iff_of_false (hwriter p) (by simp [InjectorPc.pushDone, InjectorPc.writing]),
        hof.reader, hof.destroyer, hof.spare⟩
    | some a =>
      exact ⟨fun p => iff_of_false (hwriter p) (by simp [InjectorPc.pushDone, InjectorPc.writing]),
        hof.reader, hof.destroyer, hof.spare⟩
  · cases new with
    | none => trivial
    | some a => trivial

theorem Injector.Owned.land_pushDrop (h : q.Owned g) (hof : g.Of d (.pushDrop a)) :
    q.Lands g d [] (q.free a) .idle := by
  refine ⟨_, h.dropSpare ((hof.spare a).mpr rfl), ⟨hof.writer, hof.reader, hof.destroyer, ?_⟩,
    trivial, (List.append_nil _).symm⟩
  intro b
  by_cases hb : b = a
  · rw [hb]
    simp [Owners.drop, InjectorPc.spare]
  · have hs := hof.spare b
    simp only [Owners.drop, Function.update_of_ne hb]
    rw [hs]
    simp [InjectorPc.spare, Ne.symm hb]

end Push

section Steal

variable {op : StealOp} {head block : Nat} {k : Claim}

theorem Injector.Owned.land_stealHead (h : q.Owned g) (hof : g.Of d (.stealHead op)) :
    q.Lands g d [] q (.stealBlock op q.head.index) :=
  .stay h (hof.same rfl (fun _ => Iff.rfl) (fun _ _ => Iff.rfl) rfl) ⟨Nat.le_refl _, h.more⟩

theorem StealOp.toEnd_pos {offset : Nat} (op : StealOp) (h : offset < 63) :
    0 < op.toEnd offset ∧ offset + op.toEnd offset ≤ 63 ∧ op.toEnd offset ≤ op.most := by
  cases op <;> simp only [StealOp.toEnd, StealOp.most, blockCap_eq, maxBatch] <;> omega

theorem StealOp.half_pos {len : Nat} (op : StealOp) (h : 0 < len) :
    0 < op.half len ∧ op.half len ≤ len ∧ op.half len ≤ op.most := by
  cases op <;> simp only [StealOp.half, StealOp.most, maxBatch] <;> omega

theorem Claim.fits_toEnd {newHead t : Nat} (ho : head / 2 % 64 < 63) (hn : newHead / 2 = head / 2)
    (hl : head / 2 / 64 < t / 64) : (Claim.toEnd op head newHead block).Fits t := by
  obtain ⟨hpos, hle, hmost⟩ := op.toEnd_pos ho
  have hnew : (Claim.toEnd op head newHead block).newHead =
      newHead + 2 * op.toEnd (head / 2 % 64) := by
    simp only [Claim.toEnd, offsetOf_eq, shift, Nat.shiftLeft_eq]
    omega
  have hlen : (Claim.toEnd op head newHead block).n = op.toEnd (head / 2 % 64) := by
    simp only [Claim.toEnd, offsetOf_eq]
  have hs : (Claim.toEnd op head newHead block).start = head / 2 := rfl
  have hop : (Claim.toEnd op head newHead block).op = op := rfl
  constructor <;> simp only [hnew, hlen, hs, hop] <;> omega

theorem Claim.fits_half {t len : Nat} (ho : head / 2 % 64 < 63) (he : head % 2 = 0)
    (hl : head / 2 / 64 = t / 64) (hlen : head / 2 + len = t) (hpos : 0 < len) :
    (Claim.half op head block len).Fits t := by
  obtain ⟨hn, hle, hmost⟩ := op.half_pos hpos
  have hnew : (Claim.half op head block len).newHead = head + 2 * op.half len := by
    simp only [Claim.half, shift, Nat.shiftLeft_eq]
    omega
  have hs : (Claim.half op head block len).start = head / 2 := rfl
  have hcount : (Claim.half op head block len).n = op.half len := rfl
  have hop : (Claim.half op head block len).op = op := rfl
  constructor <;> simp only [hnew, hs, hcount, hop] <;> omega

theorem Injector.Owned.land_stealBlock (h : q.Owned g) (hof : g.Of d (.stealBlock op head))
    (hk : q.Knows g (.stealBlock op head)) :
    q.Lands g d [] q (if offsetOf head = blockCap then .stealHead op
      else if head &&& hasNext = 0 then .stealTail op head q.head.block
      else .stealExchange (.toEnd op head head q.head.block)) := by
  obtain ⟨hle, hmore⟩ := hk
  rw [offsetOf_eq, blockCap_eq, hasNext, Nat.and_one_is_mod]
  split
  · exact .stay h (hof.same rfl (fun _ => Iff.rfl) (fun _ _ => Iff.rfl) rfl) trivial
  · have hseen : q.HeadSeen head q.head.block := ⟨by omega, hle, fun _ => rfl⟩
    split
    · rename_i he
      exact .stay h (hof.same rfl (fun _ => Iff.rfl) (fun _ _ => Iff.rfl) rfl) ⟨hseen, he⟩
    · refine .stay h (hof.same rfl (fun _ => Iff.rfl) (fun _ _ => Iff.rfl) rfl) ⟨hseen, ?_⟩
      exact Claim.fits_toEnd hseen.offset rfl (hmore (by omega))

theorem Injector.Owned.land_stealTail (h : q.Owned g) (hof : g.Of d (.stealTail op head block))
    (hk : q.Knows g (.stealTail op head block)) :
    q.Lands g d [] q (if head >>> shift = q.tail.index >>> shift then .idle
      else if lapOf head ≠ lapOf q.tail.index
        then .stealExchange (.toEnd op head (head ||| hasNext) block)
      else .stealExchange (.half op head block ((q.tail.index - head) >>> shift))) := by
  obtain ⟨hseen, heven⟩ := hk
  have hle := hseen.le
  have hht := h.head_le
  have ht := h.even
  have hshift : ∀ n : Nat, n >>> shift = n / 2 := fun n => Nat.shiftRight_one n
  by_cases hempty : head >>> shift = q.tail.index >>> shift
  · rw [if_pos hempty]
    exact .stay h (hof.same rfl (fun _ => Iff.rfl) (fun _ _ => Iff.rfl) rfl) trivial
  · rw [if_neg hempty]
    rw [hshift, hshift] at hempty
    by_cases hlap : lapOf head ≠ lapOf q.tail.index
    · rw [if_pos hlap, or_hasNext]
      rw [lapOf_eq, lapOf_eq] at hlap
      refine .stay h (hof.same rfl (fun _ => Iff.rfl) (fun _ _ => Iff.rfl) rfl) ⟨?_, ?_⟩
      · exact ⟨hseen.offset, hseen.le, hseen.block⟩
      · exact Claim.fits_toEnd hseen.offset (by omega) (by omega)
    · rw [if_neg hlap, hshift]
      rw [lapOf_eq, lapOf_eq] at hlap
      refine .stay h (hof.same rfl (fun _ => Iff.rfl) (fun _ _ => Iff.rfl) rfl) ⟨?_, ?_⟩
      · exact ⟨hseen.offset, hseen.le, hseen.block⟩
      · exact Claim.fits_half hseen.offset heven (by omega) (by omega) (by omega)

theorem Owners.Of.claim (hof : g.Of d (.stealExchange k))
    (hw : pc'.writing = none) (hs : pc'.spare = none) (hr : ∀ p, pc'.Reads p ↔
      k.start ≤ p ∧ p < k.start + k.n)
    (hd : ∀ l f, pc'.Destroys l f ↔ k.newOffset = 63 ∧ k.start / 64 = l ∧ 63 = f) :
    (g.claim d k).Of d pc' := by
  obtain ⟨haddr, hhome, hwriter, htasks⟩ := g.claim_eq d k
  constructor
  · intro p
    rw [hwriter, hw]
    exact hof.writer p
  · intro p
    have hx := hof.reader p
    simp only [InjectorPc.Reads, InjectorPc.claim, reduceCtorEq, false_and, exists_false] at hx
    rw [g.reader_claim, hr p]
    split
    · rename_i hp
      exact iff_of_true rfl hp
    · rename_i hp
      exact iff_of_false hx.mp hp
  · intro l f
    have hx := hof.destroyer l f
    simp only [InjectorPc.Destroys, InjectorPc.claim, reduceCtorEq, false_and, exists_false] at hx
    rw [g.destroyer_claim, hd l f]
    split
    · rename_i hl
      simp [hl.1, hl.2]
    · rename_i hl
      refine iff_of_false hx.mp ?_
      rintro ⟨hlast, rfl, -⟩
      exact hl ⟨hlast, rfl⟩
  · intro a
    rw [hhome, hs]
    exact hof.spare a

theorem Injector.Owned.land_stealExchange (h : q.Owned g) (hof : g.Of d (.stealExchange k))
    (hk : q.Knows g (.stealExchange k)) (he : q.head.index = k.head) :
    q.Lands g d [] { q with head := ⟨k.newHead, q.head.block⟩ }
      (if k.newOffset = blockCap then .stealNext k else .stealWait k []) := by
  obtain ⟨hseen, hfits⟩ := hk
  obtain ⟨haddr, hhome, hwriter, htasks⟩ := g.claim_eq d k
  have hblock : k.block = (g.claim d k).addr (k.start / 64) := by
    have hb := h.headBlock (by rw [he]; exact hseen.offset)
    rw [haddr, ← hseen.block he, hb, he]
    rfl
  have hclaimed : (g.claim d k).Claimed (q.tail.index / 2) k [] :=
    ⟨hfits, hblock, Nat.zero_le _, nofun, nofun⟩
  have htask : (g.claim d k).tasks = g.tasks ++ [] := by rw [htasks, List.append_nil]
  rw [blockCap_eq]
  split
  · rename_i hlast
    refine ⟨_, h.claim hfits he, ?_, ⟨hclaimed, hlast, hfits.newHead⟩, htask⟩
    exact hof.claim rfl rfl (fun _ => by simp [InjectorPc.Reads, InjectorPc.claim])
      (fun _ _ => by simp [InjectorPc.Destroys, InjectorPc.claim])
  · rename_i hlast
    refine ⟨_, h.claim hfits he, ?_, ⟨⟨hclaimed, fun he => absurd he hlast⟩, hfits.pos⟩, htask⟩
    exact hof.claim rfl rfl (fun _ => by simp [InjectorPc.Reads, InjectorPc.claim])
      (fun _ _ => by simp [InjectorPc.Destroys, InjectorPc.claim])

theorem Injector.Moving.reader (hm : q.Moving g k)
    (hr : ∀ p, g.reader p = some d ↔ k.start ≤ p ∧ p < k.start + k.n) :
    g.reader (k.start + k.n - 1) = some d ∧ (k.start + k.n - 1) % 64 = 62 ∧
      (k.start + k.n - 1) / 64 = k.start / 64 ∧ q.head.index / 2 = k.start + k.n - 1 + 1 := by
  have hpos := hm.claimed.fits.pos
  have hlast := hm.last
  rw [k.newOffset_eq] at hlast
  have hhead := hm.head
  exact ⟨(hr _).mpr (by omega), by omega, by omega, by omega⟩

theorem Injector.Owned.land_stealNext (h : q.Owned g) (hof : g.Of d (.stealNext k))
    (hk : q.Knows g (.stealNext k)) :
    q.Lands g d [] q (match (q.heap k.block).next with
      | none => .stealNext k
      | some next => .stealNextNext k next) := by
  have hm : q.Moving g k := hk
  obtain ⟨hr, -, hl, -⟩ := hm.reader (hof.reads rfl nofun)
  have ha := h.alive_of_reader hr
  rw [hl] at ha
  cases hn : (q.heap k.block).next with
  | none => exact .stay h hof hk
  | some next =>
    rw [hm.claimed.block] at hn
    obtain ⟨hlt, he⟩ := h.next _ _ ha hn
    exact .stay h (hof.same rfl (fun _ => Iff.rfl) (fun _ _ => Iff.rfl) rfl) ⟨hk, he, hlt⟩

theorem Claim.nextIndex_eq (k : Claim) (isLast : Bool) :
    k.nextIndex isLast = 2 * (k.newHead / 2 + 1) + (if isLast then 0 else 1) := by
  simp only [Claim.nextIndex, or_hasNext, shift]
  cases isLast <;> simp <;> omega

theorem Injector.Owned.land_stealNextNext {next : Nat} (h : q.Owned g)
    (hof : g.Of d (.stealNextNext k next)) (hk : q.Knows g (.stealNextNext k next)) :
    q.Lands g d [] q (.stealHeadBlock k next (k.nextIndex (q.heap next).next.isNone)) := by
  obtain ⟨hm, hn, hl⟩ := hk
  have hnew := hm.claimed.fits.newHead
  have hlast := hm.last
  rw [k.newOffset_eq] at hlast
  have hhead := hm.head
  have hidx := k.nextIndex_eq (q.heap next).next.isNone
  refine .stay h (hof.same rfl (fun _ => Iff.rfl) (fun _ _ => Iff.rfl) rfl)
    ⟨hm, hn, hl, by split at hidx <;> omega, fun ho => ?_⟩
  have hd := (h.lap (k.start / 64 + 1)).unclaimed.mpr (by omega)
  have ha := h.alive _ hl (by rw [hd]; simp)
  cases hnext : (q.heap next).next with
  | none =>
    rw [hnext] at hidx ho
    simp only [Option.isNone_none, if_true] at hidx ho
    omega
  | some b =>
    rw [hn] at hnext
    exact (h.next _ _ ha hnext).1

theorem Injector.Owned.land_stealHeadBlock {next nextIndex : Nat} (h : q.Owned g)
    (hof : g.Of d (.stealHeadBlock k next nextIndex))
    (hk : q.Knows g (.stealHeadBlock k next nextIndex)) :
    q.Lands g d [] { q with head := ⟨q.head.index, next⟩ } (.stealHeadIndex k nextIndex) := by
  obtain ⟨hm, hn, hl, hi, hx⟩ := hk
  obtain ⟨hr, ho, -, hh⟩ := hm.reader (hof.reads rfl nofun)
  exact ⟨g, h.storeHeadBlock hr ho hh, hof.same rfl (fun _ => Iff.rfl) (fun _ _ => Iff.rfl) rfl,
    ⟨⟨hm.claimed, hm.last, hm.head⟩, hn, hl, hi, hx⟩, (List.append_nil _).symm⟩

theorem Injector.Owned.land_stealHeadIndex {nextIndex : Nat} (h : q.Owned g)
    (hof : g.Of d (.stealHeadIndex k nextIndex))
    (hk : q.Knows g (.stealHeadIndex k nextIndex)) :
    q.Lands g d [] { q with head := ⟨nextIndex, q.head.block⟩ } (.stealWait k []) := by
  obtain ⟨hm, hb, hl, hi, hx⟩ := hk
  obtain ⟨hr, ho, hlap, hh⟩ := hm.reader (hof.reads rfl nofun)
  have hpos := hm.claimed.fits.pos
  refine ⟨g, h.storeHeadIndex hr ho hh (by omega) (by rw [hlap]; exact hb) (by omega) ?_,
    hof.same rfl (fun _ => Iff.rfl) (fun _ _ => Iff.rfl) rfl, ⟨⟨hm.claimed, fun _ => ?_⟩, hpos⟩,
    (List.append_nil _).symm⟩
  · rw [hlap]
    exact hx
  · simp only
    omega

theorem Owners.Claimed.at {got : List (Option T)} {t' : Nat} (hc : g.Claimed t' k got) (q : Injector T)
    {j : Nat} (hj : j < k.n) : q.slot k.block (k.offset + j) = q.at g (k.start + j) := by
  have ho := hc.fits.newOffset
  rw [Injector.at, hc.block, k.offset_eq]
  congr 2 <;> omega

theorem Injector.Owned.land_stealWait {got : List (Option T)} (h : q.Owned g)
    (hof : g.Of d (.stealWait k got)) (hk : q.Knows g (.stealWait k got)) :
    q.Lands g d [] q (if (q.slot k.block (k.offset + got.length)).write then .stealRead k got
      else .stealWait k got) := by
  obtain ⟨hm, hlt⟩ := hk
  have hc := hm.claimed
  have hr := (hof.reads rfl nofun (k.start + got.length)).mpr (by omega)
  rw [hc.at q hlt]
  split
  · rename_i hw
    have ho := (h.unread_of_reader hr).1
    refine .stay h (hof.same rfl (fun _ => Iff.rfl) (fun _ _ => Iff.rfl) rfl) ⟨hm, hlt, ?_⟩
    exact ((h.slot _ ho (h.alive_of_reader hr)).write.mp hw).2
  · exact .stay h hof ⟨hm, hlt⟩

theorem Injector.Owned.claimed_read {got : List (Option T)} (h : q.Owned g)
    (hr : g.reader (k.start + got.length) = some d) (hc : g.Claimed (q.tail.index / 2) k got)
    (hlt : got.length < k.n) (hw : g.writer (k.start + got.length) = none) :
    g.Claimed (q.tail.index / 2) k (got ++ [(q.slot k.block (k.offset + got.length)).task]) where
  fits := hc.fits
  block := hc.block
  length := by
    rw [List.length_append, List.length_singleton]
    omega
  tasks j hj := by
    have htail := hc.fits.tail
    have ho := (h.unread_of_reader hr).1
    have hx := h.slot _ ho (h.alive_of_reader hr)
    rw [List.length_append, List.length_singleton] at hj
    by_cases he : j = got.length
    · rw [he, List.getElem?_concat_length, hc.at q hlt, hx.task (by omega) hw]
    · rw [List.getElem?_append_left (by omega)]
      exact hc.tasks j (by omega)
  written j hj := by
    rw [List.length_append, List.length_singleton] at hj
    by_cases he : j = got.length
    · rw [he]
      exact hw
    · exact hc.written j (by omega)

theorem Injector.Owned.land_stealRead {got : List (Option T)} (h : q.Owned g)
    (hof : g.Of d (.stealRead k got)) (hk : q.Knows g (.stealRead k got)) :
    q.Lands g d [] q (if got.length + 1 = k.n
      then .stealArrive k (got ++ [(q.slot k.block (k.offset + got.length)).task])
      else .stealWait k (got ++ [(q.slot k.block (k.offset + got.length)).task])) := by
  obtain ⟨hm, hlt, hw⟩ := hk
  have hr := (hof.reads rfl nofun (k.start + got.length)).mpr (by omega)
  have hc' : q.Moved g k _ := ⟨h.claimed_read hr hm.claimed hlt hw, hm.past⟩
  split
  · rename_i he
    exact .stay h (hof.same rfl (fun _ => Iff.rfl) (fun _ _ => Iff.rfl) rfl)
      ⟨hc', by rw [List.length_append, List.length_singleton]; exact he⟩
  · exact .stay h (hof.same rfl (fun _ => Iff.rfl) (fun _ _ => Iff.rfl) rfl)
      ⟨hc', by rw [List.length_append, List.length_singleton]; omega⟩

end Steal

section Destroy

variable {k : Claim} {i n : Nat}

theorem InjectorPc.destroys_destroy (l f : Nat) :
    (InjectorPc.destroy k n : InjectorPc T).Destroys l f ↔ k.start / 64 = l ∧ n = f := by
  cases n <;> exact Iff.rfl

theorem InjectorPc.not_reads_destroy (p : Nat) : ¬ (InjectorPc.destroy k n : InjectorPc T).Reads p := by
  cases n <;> simp [InjectorPc.destroy, InjectorPc.Reads, InjectorPc.claim]

theorem Injector.knows_destroy : q.Knows g (.destroy k n) ↔ k.block = g.addr (k.start / 64) := by
  cases n <;> exact Iff.rfl

/-- The party owns nothing but the duty to free the block, with `n` slots to go. -/
theorem Owners.of_destroy (hw : ∀ p, g.writer p ≠ some d) (hr : ∀ p, g.reader p ≠ some d)
    (hd : ∀ l f, g.destroyer l = .party d f ↔ k.start / 64 = l ∧ n = f)
    (hs : ∀ a, g.home a ≠ some (.inr d)) : g.Of d (.destroy k n) where
  writer p := iff_of_false (hw p) (by cases n <;> simp [InjectorPc.destroy, InjectorPc.writing])
  reader p := iff_of_false (hr p) (InjectorPc.not_reads_destroy p)
  destroyer l f := (hd l f).trans (InjectorPc.destroys_destroy l f).symm
  spare a := iff_of_false (hs a) (by cases n <;> simp [InjectorPc.destroy, InjectorPc.spare])

theorem Owners.Of.not_writer {p : Nat} (hof : g.Of d pc) (hw : pc.writing = none) :
    g.writer p ≠ some d := by
  rw [Ne, hof.writer, hw]
  simp

theorem Owners.Of.not_spare {a : Nat} (hof : g.Of d pc) (hs : pc.spare = none) :
    g.home a ≠ some (.inr d) := by
  rw [Ne, hof.spare, hs]
  simp

theorem Injector.Owned.land_stealArrive {got : List (Option T)} (h : q.Owned g)
    (hof : g.Of d (.stealArrive k got)) (hk : q.Knows g (.stealArrive k got)) :
    q.Lands g d [] q
      (if k.newOffset = blockCap then .destroy k k.offset else .stealMark k k.offset) := by
  obtain ⟨hm, hlen⟩ := hk
  have hc := hm.claimed
  have hfits := hc.fits
  have ho := hfits.offset
  have hnew := hfits.newOffset
  have hr := hof.reads rfl nofun
  have hw : ∀ j < k.n, g.writer (k.start + j) = none := fun j hj => hc.written j (by omega)
  rw [blockCap_eq, k.offset_eq]
  split
  · rename_i hlast
    have hd : g.destroyer (k.start / 64) = .party d 63 :=
      (hof.destroyer _ _).mpr ⟨k, rfl, hlast, rfl, rfl⟩
    have hpast := hm.past hlast
    rw [k.newOffset_eq] at hlast
    have hend : k.start + k.n = k.start / 64 * 64 + 63 := by omega
    have hchange := h.release hd ho hend
      (fun p hlo hhi => (hr p).mpr ⟨hlo, hhi⟩) (fun p hlo hhi => by
        have hwj := hw (p - k.start) (by omega)
        rwa [show k.start + (p - k.start) = p by omega] at hwj) hpast
    refine ⟨_, hchange, Owners.of_destroy (fun p => hof.not_writer rfl) ?_ ?_
      (fun a => hof.not_spare rfl), Injector.knows_destroy.mpr hc.block, (List.append_nil _).symm⟩
    · intro p
      change (if _ then none else g.reader p) ≠ some d
      split
      · simp
      · rename_i hp
        rw [Ne, hr p]
        exact hp
    · intro l f
      by_cases hl : l = k.start / 64
      · rw [hl, Owners.destroyer_pass_self]
        simp
      · rw [Owners.destroyer_pass _ _ hl]
        refine iff_of_false (fun hx => ?_) (fun hx => hl hx.1.symm)
        obtain ⟨k', hk', -, hl', -⟩ := (hof.destroyer l f).mp hx
        rw [← Option.some.inj hk'] at hl'
        exact hl hl'.symm
  · rename_i hlast
    have hpos := hfits.pos
    refine .stay h ⟨hof.writer, fun p => ?_, fun l f => ?_, hof.spare⟩
      ⟨hfits, hc.block, ?_, ?_, ?_, hw, ?_⟩
    · rw [hr p]
      simp only [InjectorPc.Reads]
      omega
    · rw [hof.destroyer]
      refine iff_of_false ?_ (by simp [InjectorPc.Destroys, InjectorPc.claim])
      rintro ⟨k', hk', hlast', -⟩
      rw [← Option.some.inj hk'] at hlast'
      exact hlast hlast'
    · rw [k.newOffset_eq] at hlast ⊢
      omega
    · rw [k.offset_eq]
    · rw [k.newOffset_eq]
      omega
    · intro p hlo hhi
      omega

theorem Injector.Owned.land_stealMark (h : q.Owned g)
    (hof : g.Of d (.stealMark k i)) (hk : q.Knows g (.stealMark k i)) :
    q.Lands g d [] (q.setSlot k.block i { q.slot k.block i with read := true })
      (if (q.slot k.block i).destroy then .destroy k k.offset
        else if i + 1 = k.newOffset then .idle else .stealMark k (i + 1)) := by
  obtain ⟨hfits, hb, hlast, hlo, hhi, hw, hdone⟩ := hk
  rw [k.newOffset_eq] at hlast hhi
  rw [k.offset_eq] at hlo
  have ho := hfits.offset
  obtain ⟨p, hp⟩ : ∃ p, p = k.start / 64 * 64 + i := ⟨_, rfl⟩
  have hp64 : p / 64 = k.start / 64 := by omega
  have hpi : p % 64 = i := by omega
  have hr : g.reader p = some d := (hof.reader p).mpr ⟨by omega, by omega⟩
  have hwp : ∀ r, k.start ≤ r → r ≤ p → g.writer r = none := by
    intro r hlo' hhi'
    have hwj := hw (r - k.start) (by omega)
    rwa [show k.start + (r - k.start) = r by omega] at hwj
  have hslot : q.slot k.block i = q.at g p := by rw [Injector.at, hp64, hpi, hb]
  have hset : q.setSlot k.block i { q.at g p with read := true } =
      q.setSlot (g.addr (p / 64)) (p % 64) { q.at g p with read := true } := by
    rw [hp64, hpi, hb]
  have hreader : ∀ r, (g.letGo p).reader r = some d ↔ p + 1 ≤ r ∧ r < k.start + k.n := by
    intro r
    by_cases he : r = p
    · rw [he, g.reader_letGo_self]
      simp
    · rw [g.reader_letGo he, hof.reader]
      simp only [InjectorPc.Reads]
      omega
  rw [hslot, hset, k.offset_eq]
  by_cases hd : (q.at g p).destroy = true
  · rw [if_pos hd]
    have hread := (h.unread_of_reader hr).2
    have hoff := (h.unread_of_reader hr).1
    have hasked := (h.slot p hoff (h.alive_of_reader hr)).destroy.mp ⟨hd, hread⟩
    -- the slot that was asked is the last one of the claim, since nobody reads those after it
    have htop : p + 1 = k.start + k.n := by
      by_contra hne
      have hnext : g.reader (p + 1) = some d := (hof.reader _).mpr ⟨by omega, by omega⟩
      have hnone := ((h.position (p + 1)).done (by
        rw [show (p + 1) / 64 = p / 64 by omega, hasked]
        simp only [Destroyer.frontier]
        omega)).1
      rw [hnext] at hnone
      cases hnone
    have hchange := h.takeOver (o := k.start % 64) hr hd (by omega)
      (fun r hlap hle hlt => ⟨hdone r (by omega) (by omega), hwp r (by omega) (by omega)⟩)
      (hwp p (by omega) (Nat.le_refl _)) (by omega)
    refine ⟨_, hchange, Owners.of_destroy (fun p => hof.not_writer rfl) ?_ ?_
      (fun a => hof.not_spare rfl), Injector.knows_destroy.mpr hb, (List.append_nil _).symm⟩
    · intro r hrd
      have hx := (hreader r).mp hrd
      omega
    · intro l f
      by_cases hl : l = p / 64
      · rw [hl, Owners.destroyer_pass_self, hp64]
        simp
      · rw [Owners.destroyer_pass _ _ hl]
        refine iff_of_false (fun hx => ?_) (fun hx => hl (by rw [hp64]; exact hx.1.symm))
        have hy := (hof.destroyer l f).mp hx
        simp [InjectorPc.Destroys, InjectorPc.claim] at hy
  · rw [if_neg hd]
    have hchange := h.mark hr (hwp p (by omega) (Nat.le_refl _)) (by simpa using hd) (by omega)
    rw [k.newOffset_eq]
    split
    · rename_i he
      refine ⟨_, hchange, ⟨hof.writer, fun r => ?_, hof.destroyer, hof.spare⟩, trivial,
        (List.append_nil _).symm⟩
      rw [hreader]
      refine iff_of_false (by omega) (by simp [InjectorPc.Reads, InjectorPc.claim])
    · refine ⟨_, hchange, ⟨hof.writer, fun r => ?_, hof.destroyer, hof.spare⟩,
        ⟨hfits, hb, by rw [k.newOffset_eq]; exact hlast, by rw [k.offset_eq]; omega,
          by rw [k.newOffset_eq]; omega, hw, ?_⟩, (List.append_nil _).symm⟩
      · rw [hreader]
        simp only [InjectorPc.Reads]
        omega
      · intro r hlo' hhi'
        by_cases he : r = p
        · rw [he, g.reader_letGo_self]
        · rw [g.reader_letGo he]
          exact hdone r hlo' (by omega)

/-- The slot that a party about to free a block looks at. -/
theorem Injector.Owned.slot_destroy (h : q.Owned g) (hb : k.block = g.addr (k.start / 64))
    (hd : g.destroyer (k.start / 64) = .party d (i + 1)) :
    ∃ p, p / 64 = k.start / 64 ∧ p % 64 = i ∧ i < 63 ∧ g.Alive (p / 64) ∧
      q.slot k.block i = q.at g p := by
  have hle := h.head_le
  have hk := h.lap (k.start / 64)
  rw [hd] at hk
  have hi : i + 1 ≤ 63 := hk.frontier
  have hlt : ¬ q.head.index / 2 ≤ 64 * (k.start / 64) + 62 := mt hk.unclaimed.mpr (by simp)
  have ha := h.alive (k.start / 64) (by omega) (by rw [hd]; simp)
  have hp : (k.start / 64 * 64 + i) / 64 = k.start / 64 := by omega
  have hpi : (k.start / 64 * 64 + i) % 64 = i := by omega
  refine ⟨k.start / 64 * 64 + i, hp, hpi, by omega, by rw [hp]; exact ha, ?_⟩
  rw [Injector.at, hp, hpi, hb]

theorem Owners.of_lower (hof : g.Of d pc) (hw : pc.writing = none)
    (hr : ∀ p, ¬ pc.Reads p) (hs : pc.spare = none)
    (hd : ∀ l f, pc.Destroys l f ↔ k.start / 64 = l ∧ n = f) :
    (g.pass (k.start / 64) (.party d i)).Of d (.destroy k i) := by
  refine Owners.of_destroy (fun p => hof.not_writer hw) (fun p => ?_) (fun l f => ?_)
    (fun a => hof.not_spare hs)
  · exact mt (hof.reader p).mp (hr p)
  · by_cases hl : l = k.start / 64
    · rw [hl, g.destroyer_pass_self]
      simp
    · rw [g.destroyer_pass _ hl, hof.destroyer, hd]
      exact iff_of_false (fun hx => hl hx.1.symm) (fun hx => hl hx.1.symm)

theorem Injector.Owned.land_destroyLoad (h : q.Owned g) (hof : g.Of d (.destroyLoad k i))
    (hk : q.Knows g (.destroyLoad k i)) :
    q.Lands g d [] q (if (q.slot k.block i).read then .destroy k i else .destroyMark k i) := by
  have hd : g.destroyer (k.start / 64) = .party d (i + 1) := (hof.destroyer _ _).mpr ⟨rfl, rfl⟩
  obtain ⟨p, hp, hpi, hi, ha, hslot⟩ := h.slot_destroy hk hd
  rw [hslot]
  split
  · rename_i hread
    have hchange := h.lower (j := i) hd (by omega) fun r hlap hlo hhi => by
      rw [show r = p by omega]
      exact h.unused_of_read ha (by omega) hread
    exact ⟨_, hchange, Owners.of_lower hof rfl (by simp [InjectorPc.Reads, InjectorPc.claim]) rfl
      (fun _ _ => Iff.rfl), Injector.knows_destroy.mpr hk, (List.append_nil _).symm⟩
  · exact .stay h (hof.same rfl (fun _ => Iff.rfl) (fun _ _ => Iff.rfl) rfl) hk

theorem Injector.Owned.land_destroyMark (h : q.Owned g) (hof : g.Of d (.destroyMark k i))
    (hk : q.Knows g (.destroyMark k i)) :
    q.Lands g d [] (q.setSlot k.block i { q.slot k.block i with destroy := true })
      (if (q.slot k.block i).read then .destroy k i else .idle) := by
  have hb : k.block = g.addr (k.start / 64) := hk
  have hd : g.destroyer (k.start / 64) = .party d (i + 1) := (hof.destroyer _ _).mpr ⟨rfl, rfl⟩
  obtain ⟨p, hp, hpi, hi, ha, hslot⟩ := h.slot_destroy hk hd
  have hset : q.setSlot k.block i { q.at g p with destroy := true } =
      q.setSlot (g.addr (p / 64)) (p % 64) { q.at g p with destroy := true } := by
    rw [hp, hpi, hb]
  rw [hslot, hset]
  by_cases hread : (q.at g p).read = true
  · rw [if_pos hread]
    have hasked := h.askDone (d := d) ha hread
    have hchange := hasked.owned.lower (j := i) hd (by omega) fun r hlap hlo hhi => by
      rw [show r = p by omega]
      exact h.unused_of_read ha (by omega) hread
    exact ⟨_, hasked.trans hchange,
      Owners.of_lower hof rfl (by simp [InjectorPc.Reads, InjectorPc.claim]) rfl
        (fun _ _ => Iff.rfl), Injector.knows_destroy.mpr hk, (List.append_nil _).symm⟩
  · rw [if_neg hread]
    have hchange := h.ask (d := d) (p := p) (by rw [hp, hpi]; exact hd) (by omega)
      (by simpa using hread)
    refine ⟨_, hchange, ⟨hof.writer, hof.reader, fun l f => ?_, hof.spare⟩, trivial,
      (List.append_nil _).symm⟩
    refine iff_of_false (fun hx => ?_) (by simp [InjectorPc.Destroys, InjectorPc.claim])
    by_cases hl : l = p / 64
    · rw [hl, g.destroyer_pass_self] at hx
      cases hx
    · rw [g.destroyer_pass _ hl] at hx
      exact hl (by rw [hp]; exact ((hof.destroyer l f).mp hx).1.symm)

theorem Injector.Owned.land_destroyFree (h : q.Owned g) (hof : g.Of d (.destroyFree k))
    (hk : q.Knows g (.destroyFree k)) : q.Lands g d [] (q.free k.block) .idle := by
  have hb : k.block = g.addr (k.start / 64) := hk
  have hd : g.destroyer (k.start / 64) = .party d 0 := (hof.destroyer _ _).mpr ⟨rfl, rfl⟩
  rw [hb]
  refine ⟨_, h.freeBlock hd, ⟨hof.writer, hof.reader, fun l f => ?_, fun a => ?_⟩, trivial,
    (List.append_nil _).symm⟩
  · refine iff_of_false (fun hx => ?_) (by simp [InjectorPc.Destroys, InjectorPc.claim])
    by_cases hl : l = k.start / 64
    · rw [hl, Owners.destroyer_pass_self] at hx
      cases hx
    · rw [Owners.destroyer_pass _ _ hl] at hx
      exact hl ((hof.destroyer l f).mp hx).1.symm
  · refine iff_of_false (fun hx => ?_) (by simp [InjectorPc.spare])
    change Function.update g.home (g.addr (k.start / 64)) none a = _ at hx
    by_cases ha : a = g.addr (k.start / 64)
    · rw [ha, Function.update_self] at hx
      cases hx
    · rw [Function.update_of_ne ha] at hx
      exact hof.not_spare rfl hx

end Destroy

/-- The owners are in order after every access of a party. -/
theorem Injector.Owned.land_step {a : Nat} (h : q.Owned g) (hof : g.Of d pc) (hk : q.Knows g pc)
    (ha : pc.allocates = true → a ∉ q.live) :
    q.Lands g d ((q.events d pc).flatMap InjectorEvent.pushes) (q.step a pc).1 (q.step a pc).2 := by
  cases pc with
  | idle => exact .stay h hof hk
  | panicked => exact hk.elim
  | pushTail t new => exact h.land_pushTail hof
  | pushBlock t tail new => exact h.land_pushBlock hof hk
  | pushAlloc t tail block => exact h.land_pushAlloc hof hk (ha rfl)
  | pushExchange t tail block new =>
    simp only [Injector.step, Injector.events]
    by_cases he : q.tail.index = tail
    · rw [if_pos he, if_pos he]
      exact h.land_pushExchange hof hk he
    · rw [if_neg he, if_neg he]
      exact h.land_pushExchange_fail hof
  | pushTailBlock t tail block new => exact h.land_pushTailBlock hof hk
  | pushTailIndex t tail block new => exact h.land_pushTailIndex hof hk
  | pushNext t tail block new => exact h.land_pushNext hof hk
  | pushWrite t tail block new => exact h.land_pushWrite hof hk
  | pushState t tail block new => exact h.land_pushState hof hk
  | pushDrop new => exact h.land_pushDrop hof
  | stealHead op => exact h.land_stealHead hof
  | stealBlock op head => exact h.land_stealBlock hof hk
  | stealTail op head block =>
    have hev : (q.events d (.stealTail op head block)).flatMap InjectorEvent.pushes = [] := by
      simp only [Injector.events]
      split <;> rfl
    rw [hev]
    exact h.land_stealTail hof hk
  | stealExchange k =>
    simp only [Injector.step, Injector.events]
    by_cases he : q.head.index = k.head
    · rw [if_pos he, if_pos he]
      exact h.land_stealExchange hof hk he
    · rw [if_neg he, if_neg he]
      exact .stay h (hof.same rfl (fun _ => Iff.rfl) (fun _ _ => Iff.rfl) rfl) trivial
  | stealNext k => exact h.land_stealNext hof hk
  | stealNextNext k next => exact h.land_stealNextNext hof hk
  | stealHeadBlock k next nextIndex => exact h.land_stealHeadBlock hof hk
  | stealHeadIndex k nextIndex => exact h.land_stealHeadIndex hof hk
  | stealWait k got => exact h.land_stealWait hof hk
  | stealRead k got => exact h.land_stealRead hof hk
  | stealArrive k got => exact h.land_stealArrive hof hk
  | stealMark k i => exact h.land_stealMark hof hk
  | destroyLoad k i => exact h.land_destroyLoad hof hk
  | destroyMark k i => exact h.land_destroyMark hof hk
  | destroyFree k => exact h.land_destroyFree hof hk
  | emptyHead =>
    exact .stay h (hof.same rfl (fun _ => Iff.rfl) (fun _ _ => Iff.rfl) rfl) (Nat.le_refl _)
  | emptyTail head =>
    exact .stay h (hof.same rfl (fun _ => Iff.rfl) (fun _ _ => Iff.rfl) rfl) trivial
  | lenTail =>
    exact .stay h (hof.same rfl (fun _ => Iff.rfl) (fun _ _ => Iff.rfl) rfl) (Nat.le_refl _)
  | lenHead tail =>
    exact .stay h (hof.same rfl (fun _ => Iff.rfl) (fun _ _ => Iff.rfl) rfl) hk
  | lenCheck tail head =>
    have hev : (q.events d (.lenCheck tail head)).flatMap InjectorEvent.pushes = [] := by
      simp only [Injector.events]
      split <;> rfl
    rw [hev]
    simp only [Injector.step]
    split <;> exact .stay h (hof.same rfl (fun _ => Iff.rfl) (fun _ _ => Iff.rfl) rfl) trivial

end Nacl
