import Mathlib.Data.Finset.Max
import Mathlib.Data.Fintype.EquivFin
import Nacl.InjectorRuns

/-! The spin loops of an injector cannot block each other for good: a pusher that has reserved
its slot waits for nobody, a thief that has claimed its slots waits only for such pushers, and
the others wait only for these two. -/

namespace Nacl

open Guarded

variable {κ T : Type*} {q : Injector T} {g : Owners κ T} {s : Injecting κ T} {c : κ}
  {pc : InjectorPc T} {a : Nat}

/-- A load in a spin loop that goes around once more. -/
def Injector.Waits (q : Injector T) : InjectorPc T → Prop
  | .pushBlock _ tail _ => q.tail.index = tail ∧ offsetOf tail = blockCap
  | .stealBlock _ head => q.head.index = head ∧ offsetOf head = blockCap
  | .stealNext k => (q.heap k.block).next = none
  | .stealWait k got => (q.slot k.block (k.offset + got.length)).write = false
  | _ => False

/-- Whom the rest of the call may wait for: nobody, pushers that have reserved a slot, or also
thieves that have claimed slots. -/
def InjectorPc.needs : InjectorPc T → Nat
  | .pushTail _ _ | .pushBlock _ _ _ | .pushAlloc _ _ _ | .pushExchange _ _ _ _ | .stealHead _
  | .stealBlock _ _ | .stealTail _ _ _ | .stealExchange _ => 2
  | .stealNext _ | .stealNextNext _ _ | .stealHeadBlock _ _ _ | .stealHeadIndex _ _
  | .stealWait _ _ | .stealRead _ _ => 1
  | _ => 0

/-- The accesses to the slots of a claim that come after the reads. -/
def Claim.rest (k : Claim) : Nat := k.n + 2 * k.offset + 3

/-- How many accesses the call has left when the party has the queue for itself. -/
def Injector.cost (q : Injector T) : InjectorPc T → Nat
  | .idle | .panicked => 0
  | .pushDrop _ => 1
  | .pushState _ _ _ _ => 2
  | .pushWrite _ _ _ _ => 3
  | .pushNext _ _ _ _ => 4
  | .pushTailIndex _ _ _ _ => 5
  | .pushTailBlock _ _ _ _ => 6
  | .pushExchange _ tail _ _ => if q.tail.index = tail then 7 else 14
  | .pushAlloc _ tail _ => if q.tail.index = tail then 8 else 15
  | .pushBlock _ tail _ => if q.tail.index = tail then 9 else 16
  | .pushTail _ _ => 10
  | .destroyFree _ => 1
  | .destroyMark _ i => 2 * i + 2
  | .destroyLoad _ i => 2 * i + 3
  | .stealMark k i => k.newOffset - i + 2 * k.offset + 2
  | .stealArrive k _ => k.rest
  | .stealRead k got => 2 * (k.n - got.length) + k.rest
  | .stealWait k got => 2 * (k.n - got.length) + k.rest + 1
  | .stealHeadIndex k _ => 2 * k.n + k.rest + 2
  | .stealHeadBlock k _ _ => 2 * k.n + k.rest + 3
  | .stealNextNext k _ => 2 * k.n + k.rest + 4
  | .stealNext k => 2 * k.n + k.rest + 5
  | .stealExchange _ => 200
  | .stealTail _ _ _ => 201
  | .stealBlock _ head => if q.head.index = head then 202 else 204
  | .stealHead _ => 203
  | .emptyTail _ => 1
  | .emptyHead => 2
  | .lenCheck tail _ => if q.tail.index = tail then 1 else 4
  | .lenHead tail => if q.tail.index = tail then 2 else 5
  | .lenTail => 3

theorem Injector.cost_destroy (q : Injector T) (k : Claim) (i : Nat) :
    q.cost (InjectorPc.destroy k i) ≤ 2 * i + 1 := by
  cases i with
  | zero => exact le_rfl
  | succ i => exact le_rfl

theorem Claim.Fits.rest_le {k : Claim} {t : Nat} (h : k.Fits t) : 2 * k.n + k.rest + 5 < 200 := by
  have hoff := h.newOffset
  rw [Claim.rest, k.offset_eq]
  omega

theorem Injector.cost_pushDone (q : Injector T) (new : Option Nat) :
    q.cost (InjectorPc.pushDone new) < 2 := by
  cases new with
  | none => exact Nat.zero_lt_two
  | some new => exact Nat.one_lt_two

theorem Injector.cost_pushInstall (q : Injector T) (t : T) (tail block : Nat) (new : Option Nat) :
    q.cost (InjectorPc.pushInstall t tail block new) < 7 := by
  cases new with
  | none => exact Nat.succ_pos 6
  | some new => exact Nat.lt_succ_self 6

/-- Every access that is not one more turn of a spin loop leaves less to do. -/
theorem Injector.Knows.cost_step (h : q.Knows g pc) (hw : ¬q.Waits pc) (hidle : pc.isIdle = false) :
    (q.step a pc).1.cost (q.step a pc).2 < q.cost pc := by
  cases pc with
  | idle => cases hidle
  | panicked => exact absurd h id
  | pushBlock t tail new =>
    have hoff : q.tail.index = tail → offsetOf tail ≠ blockCap := fun he ho => hw ⟨he, ho⟩
    simp only [Injector.step]
    by_cases he : q.tail.index = tail
    · rw [if_neg (hoff he)]
      split <;> simp only [Injector.cost, if_pos he] <;> omega
    · split
      · simp only [Injector.cost, if_neg he]
        omega
      · split <;> simp only [Injector.cost, if_neg he] <;> omega
  | pushAlloc t tail block =>
    show (if q.tail.index = tail then 7 else 14) < if q.tail.index = tail then 8 else 15
    split <;> omega
  | pushExchange t tail block new =>
    by_cases he : q.tail.index = tail
    · have hcost : q.cost (.pushExchange t tail block new) = 7 := if_pos he
      rw [hcost, Injector.step, if_pos he]
      dsimp only
      split
      · exact Injector.cost_pushInstall _ t tail block new
      · exact show 3 < 7 by decide
    · have hcost : q.cost (.pushExchange t tail block new) = 14 := if_neg he
      have hnext : q.cost (.pushBlock t q.tail.index new) = 9 := if_pos rfl
      rw [hcost, Injector.step, if_neg he, hnext]
      decide
  | pushState t tail block new =>
    exact Injector.cost_pushDone _ new
  | stealBlock op head =>
    have hoff : q.head.index = head → offsetOf head ≠ blockCap := fun he ho => hw ⟨he, ho⟩
    simp only [Injector.step]
    by_cases he : q.head.index = head
    · rw [if_neg (hoff he)]
      split <;> simp only [Injector.cost, if_pos he] <;> omega
    · split
      · simp only [Injector.cost, if_neg he]
        omega
      · split <;> simp only [Injector.cost, if_neg he] <;> omega
  | stealTail op head block =>
    simp only [Injector.step]
    split
    · exact Nat.succ_pos _
    · split <;> exact Nat.lt_succ_self _
  | stealExchange k =>
    have hrest := h.2.rest_le
    simp only [Injector.step]
    split
    · split
      · simp only [Injector.cost]
        omega
      · simp only [Injector.cost, List.length_nil]
        omega
    · exact Nat.succ_pos _
  | stealNext k =>
    simp only [Injector.step]
    cases hn : (q.heap k.block).next with
    | none => exact absurd hn hw
    | some next => exact Nat.lt_succ_self _
  | stealWait k got =>
    simp only [Injector.step]
    split
    · exact Nat.lt_succ_self _
    · rename_i hwrite
      exact absurd (Bool.eq_false_of_not_eq_true hwrite) hw
  | stealRead k got =>
    have hlen : got.length < k.n := h.2.1
    simp only [Injector.step]
    split
    · simp only [Injector.cost]
      omega
    · simp only [Injector.cost, List.length_append, List.length_singleton]
      omega
  | stealArrive k got =>
    simp only [Injector.step]
    split
    · refine (Injector.cost_destroy q k k.offset).trans_lt ?_
      simp only [Injector.cost, Claim.rest]
      omega
    · simp only [Injector.cost, Claim.rest, Claim.newOffset]
      omega
  | stealMark k i =>
    obtain ⟨-, -, -, -, hi, -⟩ := h
    simp only [Injector.step]
    split
    · refine (Injector.cost_destroy _ k k.offset).trans_lt ?_
      simp only [Injector.cost]
      omega
    · split
      · simp only [Injector.cost]
        omega
      · simp only [Injector.cost]
        omega
  | destroyLoad k i =>
    simp only [Injector.step]
    split
    · refine (Injector.cost_destroy _ k i).trans_lt ?_
      simp only [Injector.cost]
      omega
    · exact Nat.lt_succ_self _
  | destroyMark k i =>
    simp only [Injector.step]
    split
    · exact (Injector.cost_destroy _ k i).trans_lt (Nat.lt_succ_self _)
    · exact Nat.succ_pos _
  | lenCheck tail head =>
    simp only [Injector.step]
    by_cases he : q.tail.index = tail
    · simp only [if_pos he, Injector.cost]
      omega
    · simp only [if_neg he, Injector.cost]
      omega
  | lenHead tail =>
    show (if q.tail.index = tail then 1 else 4) < if q.tail.index = tail then 2 else 5
    split <;> omega
  | pushTail | lenTail | stealHead =>
    simp only [Injector.step, Injector.cost, if_true]
    omega
  | _ =>
    simp only [Injector.step, Injector.cost, List.length_nil]
    omega

theorem InjectorPc.needs_of_writing {p : Nat} (h : pc.writing = some p) :
    pc.needs = 0 ∧ pc.isIdle = false := by
  cases pc with
  | pushTailBlock | pushTailIndex | pushNext | pushWrite | pushState => exact ⟨rfl, rfl⟩
  | _ => cases h

theorem InjectorPc.needs_of_reads {p : Nat} (h : pc.Reads p) :
    pc.needs ≤ 1 ∧ pc.isIdle = false := by
  cases pc with
  | stealMark | stealArrive => exact ⟨Nat.zero_le 1, rfl⟩
  | stealNext | stealNextNext | stealHeadBlock | stealHeadIndex | stealWait | stealRead =>
    exact ⟨le_rfl, rfl⟩
  | _ =>
    obtain ⟨k, hk, -⟩ := h
    cases hk

theorem Injecting.Sound.needs_of_writer (h : s.Sound g) {p : Nat} (hw : g.writer p ≠ none) :
    ∃ d, (s.pc d).needs = 0 ∧ (s.pc d).isIdle = false := by
  obtain ⟨d, hd⟩ := Option.ne_none_iff_exists'.mp hw
  exact ⟨d, InjectorPc.needs_of_writing (((h.of d).writer p).mp hd)⟩

theorem Injecting.Sound.needs_of_reader (h : s.Sound g) {p : Nat} (hr : g.reader p ≠ none) :
    ∃ d, (s.pc d).needs ≤ 1 ∧ (s.pc d).isIdle = false := by
  obtain ⟨d, hd⟩ := Option.ne_none_iff_exists'.mp hr
  exact ⟨d, InjectorPc.needs_of_reads (((h.of d).reader p).mp hd)⟩

/-- A party in a spin loop waits for one that is not in a loop of its kind. -/
theorem Injecting.Sound.waits (h : s.Sound g) (hw : s.queue.Waits (s.pc c)) :
    ∃ d, (s.pc d).needs < (s.pc c).needs ∧ (s.pc d).isIdle = false := by
  have hof := h.of c
  have hk := h.knows c
  cases hp : s.pc c with
  | pushBlock t tail new =>
    rw [hp] at hw
    obtain ⟨he, ho⟩ := hw
    rw [offsetOf_eq, blockCap_eq, ← he] at ho
    obtain ⟨d, hd, hidle⟩ := h.needs_of_writer (h.owned.tailMoves ho)
    exact ⟨d, by rw [hd]; exact Nat.zero_lt_two, hidle⟩
  | stealBlock op head =>
    rw [hp] at hw
    obtain ⟨he, ho⟩ := hw
    rw [offsetOf_eq, blockCap_eq, ← he] at ho
    obtain ⟨d, hd, hidle⟩ := h.needs_of_reader (h.owned.headMoves ho)
    exact ⟨d, Nat.lt_succ_of_le hd, hidle⟩
  | stealNext k =>
    rw [hp] at hw hof hk
    have hlast := hk.last
    have htail := hk.claimed.fits.tail
    rw [k.newOffset_eq] at hlast
    have hpos := hk.claimed.fits.pos
    have hr := (hof.reads rfl (fun _ _ he => by cases he) k.start).mpr (by omega)
    have halive := h.owned.alive_of_reader hr
    have hnext : (s.queue.heap (g.addr (k.start / 64))).next = none := by
      rw [← hk.claimed.block]
      exact hw
    obtain ⟨d, hd, hidle⟩ : ∃ d, (s.pc d).needs = 0 ∧ (s.pc d).isIdle = false := by
      by_cases hlap : k.start / 64 < s.queue.tail.index / 2 / 64
      · refine h.needs_of_writer (p := 64 * (k.start / 64) + 62) fun hnone => ?_
        rw [h.owned.linked _ halive hlap hnone] at hnext
        cases hnext
      · exact h.needs_of_writer (h.owned.tailMoves (by omega))
    exact ⟨d, by rw [hd]; exact Nat.one_pos, hidle⟩
  | stealWait k got =>
    rw [hp] at hw hof hk
    obtain ⟨hm, hlt⟩ := hk
    have hr := (hof.reads rfl (fun _ _ he => by cases he) (k.start + got.length)).mpr (by omega)
    have htail := hm.claimed.fits.tail
    have hx := h.owned.slot _ (h.owned.unread_of_reader hr).1 (h.owned.alive_of_reader hr)
    obtain ⟨d, hd, hidle⟩ := h.needs_of_writer (p := k.start + got.length) fun hnone => by
      have hwrite := hx.write.mpr ⟨by omega, hnone⟩
      rw [← hm.claimed.at s.queue hlt] at hwrite
      rw [Injector.Waits, hwrite] at hw
      cases hw
    exact ⟨d, by rw [hd]; exact Nat.one_pos, hidle⟩
  | _ =>
    rw [hp] at hw
    exact absurd hw id

/-- A call comes to wait for fewer parties as it goes on. -/
theorem Injector.needs_step (q : Injector T) (a : Nat) (pc : InjectorPc T) :
    (q.step a pc).2.needs ≤ pc.needs := by
  have hdestroy : ∀ k i, (InjectorPc.destroy k i : InjectorPc T).needs = 0 := by
    intro k i
    cases i <;> rfl
  cases pc with
  | pushBlock t tail new =>
    simp only [Injector.step]
    split
    · exact le_rfl
    · split <;> exact le_rfl
  | pushExchange t tail block new =>
    simp only [Injector.step]
    split
    · split
      · cases new <;> exact Nat.zero_le _
      · exact Nat.zero_le _
    · exact le_rfl
  | pushState t tail block new => cases new <;> exact Nat.zero_le _
  | stealBlock op head =>
    simp only [Injector.step]
    split
    · exact le_rfl
    · split <;> exact le_rfl
  | stealTail op head block =>
    simp only [Injector.step]
    split
    · exact Nat.zero_le _
    · split <;> exact le_rfl
  | stealExchange k =>
    simp only [Injector.step]
    split
    · split <;> exact Nat.le_succ 1
    · exact Nat.zero_le _
  | stealNext k =>
    simp only [Injector.step]
    cases (q.heap k.block).next <;> exact le_rfl
  | stealWait k got =>
    simp only [Injector.step]
    split <;> exact le_rfl
  | stealRead k got =>
    simp only [Injector.step]
    split
    · exact Nat.zero_le _
    · exact le_rfl
  | stealArrive k got =>
    simp only [Injector.step]
    split
    · exact (hdestroy _ _).le
    · exact le_rfl
  | stealMark k i =>
    simp only [Injector.step]
    split
    · exact (hdestroy _ _).le
    · split <;> exact le_rfl
  | destroyLoad k i | destroyMark k i =>
    simp only [Injector.step]
    split
    · exact (hdestroy _ _).le
    · exact le_rfl
  | lenCheck tail head =>
    simp only [Injector.step]
    split <;> exact le_rfl
  | _ => exact le_rfl

theorem Injecting.Sound.cost_le (h : s.Sound g) (c : κ) : s.queue.cost (s.pc c) ≤ 204 := by
  have hk := h.knows c
  have hbound := (h.owned.safe (h.of c) hk).bound
  cases hp : s.pc c with
  | pushBlock | pushAlloc | pushExchange | stealBlock | lenHead | lenCheck =>
    simp only [Injector.cost]
    split <;> omega
  | stealNext k =>
    rw [hp] at hk
    have hrest := hk.claimed.fits.rest_le
    simp only [Injector.cost]
    omega
  | stealNextNext k | stealHeadBlock k | stealHeadIndex k | stealWait k | stealRead k
  | stealArrive k =>
    rw [hp] at hk
    have hrest := hk.1.claimed.fits.rest_le
    simp only [Injector.cost]
    omega
  | stealMark k i =>
    rw [hp] at hk
    obtain ⟨hfits, -, -, hlow, -⟩ := hk
    have hrest := hfits.rest_le
    rw [Claim.rest] at hrest
    simp only [Injector.cost, Claim.newOffset]
    omega
  | destroyLoad k i | destroyMark k i =>
    rw [hp] at hbound
    have hi := hbound i rfl
    rw [blockCap_eq] at hi
    simp only [Injector.cost]
    omega
  | _ =>
    simp only [Injector.cost]
    omega

def InjectorAct.party : InjectorAct κ T → κ
  | .call c _ | .step c _ | .fail c => c

def Injecting.busy [Fintype κ] (s : Injecting κ T) : Finset κ :=
  Finset.univ.filter fun c => (s.pc c).isIdle = false

theorem Injecting.mem_busy [Fintype κ] (s : Injecting κ T) :
    c ∈ s.busy ↔ (s.pc c).isIdle = false := by
  simp [Injecting.busy]

variable [DecidableEq κ]

/-- A party that waits for no more than the others do comes to the end of its call by its own
steps. -/
theorem Injecting.Sound.solo (h : s.Sound g)
    (hmin : ∀ d, (s.pc d).isIdle = false → (s.pc c).needs ≤ (s.pc d).needs) :
    ∃ as : List (InjectorAct κ T), (injector κ T).Legal s as ∧
      (∀ act ∈ as, ∃ a, act = .step c a) ∧ as.length ≤ s.queue.cost (s.pc c) ∧
      (((injector κ T).after s as).pc c).isIdle = true ∧
      (∀ d, d ≠ c → ((injector κ T).after s as).pc d = s.pc d) ∧
      ∃ g', ((injector κ T).after s as).Sound g' := by
  induction hn : s.queue.cost (s.pc c) using Nat.strong_induction_on generalizing s g with
  | _ n ih =>
    cases hidle : (s.pc c).isIdle with
    | true =>
      exact ⟨[], trivial, fun _ hact => absurd hact List.not_mem_nil, Nat.zero_le _, hidle,
        fun _ _ => rfl, g, h⟩
    | false =>
      -- nobody waits for less, so the access is no turn of a spin loop
      have hgo : ¬s.queue.Waits (s.pc c) := by
        intro hw
        obtain ⟨d, hlt, hd⟩ := h.waits hw
        exact absurd (hmin d hd) (Nat.not_le.mpr hlt)
      obtain ⟨a, ha⟩ := Infinite.exists_notMem_finset s.queue.live
      have he : s.Enabled (.step c a) := ⟨hidle, fun _ => ha⟩
      obtain ⟨g', hg'⟩ := h.next he
      have hself : (s.next (.step c a)).pc c = (s.queue.step a (s.pc c)).2 :=
        Function.update_self ..
      have hother : ∀ d, d ≠ c → (s.next (.step c a)).pc d = s.pc d := fun d hd =>
        Function.update_of_ne hd ..
      have hless : (s.next (.step c a)).queue.cost ((s.next (.step c a)).pc c) < n := by
        rw [hself, ← hn]
        exact (h.knows c).cost_step hgo hidle
      have hmin' : ∀ d, ((s.next (.step c a)).pc d).isIdle = false →
          ((s.next (.step c a)).pc c).needs ≤ ((s.next (.step c a)).pc d).needs := by
        intro d hd
        rw [hself]
        by_cases hdc : d = c
        · rw [hdc, hself]
        · rw [hother d hdc] at hd ⊢
          exact (s.queue.needs_step a (s.pc c)).trans (hmin d hd)
      obtain ⟨as, hlegal, hown, hlen, hend, hrest, hsound⟩ := ih _ hless hg' hmin' rfl
      refine ⟨.step c a :: as, ⟨he, hlegal⟩, ?_, hlen.trans_lt hless, hend, ?_, hsound⟩
      · intro act hact
        rcases List.mem_cons.mp hact with rfl | hact
        · exact ⟨a, rfl⟩
        · exact hown act hact
      · intro d hd
        exact (hrest d hd).trans (hother d hd)

/-- How many of the actions are those of a party. -/
def InjectorAct.count (as : List (InjectorAct κ T)) (c : κ) : Nat :=
  as.countP fun act => act.party = c

theorem InjectorAct.count_append (as bs : List (InjectorAct κ T)) (c : κ) :
    count (as ++ bs) c = count as c + count bs c := List.countP_append

theorem InjectorAct.count_other {as : List (InjectorAct κ T)} {d : κ}
    (h : ∀ act ∈ as, ∃ a, act = .step d a) (hc : c ≠ d) : count as c = 0 := by
  refine List.countP_eq_zero.mpr fun act hact hp => ?_
  obtain ⟨a, rfl⟩ := h act hact
  exact hc (of_decide_eq_true hp).symm

variable [Fintype κ]

theorem Injecting.Sound.completes (h : s.Sound g) :
    ∃ as : List (InjectorAct κ T), (injector κ T).Legal s as ∧
      (∀ act ∈ as, ∃ c a, act = .step c a) ∧
      (∀ c, InjectorAct.count as c ≤ if (s.pc c).isIdle then 0 else 204) ∧
      ∀ c, (((injector κ T).after s as).pc c).isIdle = true := by
  induction hn : s.busy.card using Nat.strong_induction_on generalizing s g with
  | _ n ih =>
    rcases s.busy.eq_empty_or_nonempty with hempty | hbusy
    · refine ⟨[], trivial, fun _ hact => absurd hact List.not_mem_nil, fun _ => Nat.zero_le _,
        fun c => ?_⟩
      by_contra hc
      have hmem : c ∈ s.busy := s.mem_busy.mpr (eq_false_of_ne_true hc)
      rw [hempty] at hmem
      exact absurd hmem (Finset.notMem_empty c)
    · obtain ⟨c, hc, hmin⟩ := s.busy.exists_min_image (fun c => (s.pc c).needs) hbusy
      obtain ⟨as, hlegal, hown, hlen, hend, hrest, g', hsound⟩ := h.solo fun d hd =>
        hmin d (s.mem_busy.mpr hd)
      have hless : ((injector κ T).after s as).busy.card < n := by
        rw [← hn]
        refine Finset.card_lt_card ((Finset.ssubset_iff_of_subset fun d hd => ?_).mpr ⟨c, hc, ?_⟩)
        · by_cases hdc : d = c
          · rw [hdc]
            exact hc
          · rw [Injecting.mem_busy, hrest d hdc] at hd
            exact s.mem_busy.mpr hd
        · rw [Injecting.mem_busy, hend]
          exact Bool.true_eq_false_eq_False
      obtain ⟨bs, hlegal', hown', hlen', hend'⟩ := ih _ hless hsound rfl
      refine ⟨as ++ bs, System.legal_append_iff.mpr ⟨hlegal, hlegal'⟩, ?_, ?_, ?_⟩
      · intro act hact
        rcases List.mem_append.mp hact with hact | hact
        · obtain ⟨a, ha⟩ := hown act hact
          exact ⟨c, a, ha⟩
        · exact hown' act hact
      · intro d
        rw [InjectorAct.count_append]
        by_cases hdc : d = c
        · -- the party is idle after its own part, so it has no part in the rest
          have hrest' := hlen' d
          have hcost := h.cost_le c
          have hcount : InjectorAct.count as d ≤ as.length := List.countP_le_length
          have hbusy' : (s.pc d).isIdle = false := by
            rw [hdc]
            exact s.mem_busy.mp hc
          rw [hdc, hend, if_pos rfl, ← hdc] at hrest'
          rw [hbusy', if_neg Bool.false_ne_true]
          omega
        · rw [InjectorAct.count_other hown hdc, Nat.zero_add, ← hrest d hdc]
          exact hlen' d
      · rw [System.after_append]
        exact hend'

/-- No run of any number of parties comes to a state where the spin loops block each other: the
parties can always go on to the end of all their calls, where each party makes no more than 204
accesses to the injector. The accesses of a batch to its destination queue come on top. -/
theorem injector_completes (h : (injector κ T).Reaches anyStep .new s) :
    ∃ as : List (InjectorAct κ T), (injector κ T).Legal s as ∧
      (∀ act ∈ as, ∃ c a, act = .step c a) ∧ (∀ c, InjectorAct.count as c ≤ 204) ∧
      ∀ c, (((injector κ T).after s as).pc c).isIdle = true := by
  obtain ⟨g, hg⟩ := injector_sound h
  obtain ⟨as, hlegal, hown, hcount, hend⟩ := hg.completes
  refine ⟨as, hlegal, hown, fun c => (hcount c).trans ?_, hend⟩
  split
  · exact Nat.zero_le _
  · exact le_rfl

/-- The first party has reserved its slot and not written it; the second has claimed the slot and
spins. -/
def spinningRun : List (InjectorAct Bool Nat) :=
  .call false (.push 7) :: List.replicate 3 (.step false 0) ++ .call true (.take .steal) ::
    List.replicate 6 (.step true 0)

theorem injector_completes_spinning :
    (((injector Bool Nat).after .new spinningRun).pc true).needs = 1 ∧
    ∃ as : List (InjectorAct Bool Nat),
      (injector Bool Nat).Legal ((injector Bool Nat).after .new spinningRun) as ∧
      (∀ act ∈ as, ∃ c a, act = .step c a) ∧ (∀ c, InjectorAct.count as c ≤ 204) ∧
      ∀ c, (((injector Bool Nat).after ((injector Bool Nat).after .new spinningRun)
        as).pc c).isIdle = true :=
  ⟨by decide +kernel,
    injector_completes (System.reaches_after (by decide +kernel) (System.meets_anyStep _))⟩

end Nacl
