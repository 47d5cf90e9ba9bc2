import Nacl.WorkersLate

/-! Whole runs of the worker queues. -/

namespace Nacl

open Guarded Ring

variable {κ T : Type*} {s : Workers κ T} {x : AtomicDeques κ T} {c : κ} {a : Nat}

theorem Workers.refines_new (flavor : κ → Flavor) :
    (Workers.new flavor : Workers κ T).Refines (.new flavor) where
  ok := Workers.ok_new flavor
  flavor := rfl
  queue _ := rfl
  status _ := rfl

theorem Workers.gated_new (flavor : κ → Flavor) :
    (Workers.new flavor : Workers κ T).Gated (.new flavor) := by
  intro v l hl
  cases hl

variable [DecidableEq κ]

theorem Workers.Refines.follows (h : s.Refines x) (hg : s.Gated x) (he : s.Enabled (.step c a)) :
    s.Follows x c a (s.pc c) := by
  obtain ⟨hidle, ha⟩ := he
  cases hp : s.pc c with
  | own q =>
    rw [hp] at hidle ha
    refine h.own hp (fun hq => ?_) ha
    rw [hq] at hidle
    cases hidle
  | lifoStore b => exact h.lifoStore hp
  | lifoFront b => exact h.lifoFront hp
  | lifoUndo b => exact h.lifoUndo hp
  | lifoCell b f => exact h.lifoCell hp
  | lifoRead b f q => exact h.lifoRead hp
  | lifoExchange b y => exact h.lifoExchange hp
  | lifoRestore b r => exact h.lifoRestore hp
  | queryBack q => exact h.queryBack hp
  | queryFront q b => exact h.queryFront hp
  | raidFront op v => exact h.raidFront hp
  | raidBack op v f => exact h.raidBack hp
  | raidDest k dest => exact h.raidDest hp
  | raidBuffer k dest destB => exact h.raidBuffer hp
  | raidTask l => exact h.raidTask hp
  | raidRead l i => exact h.raidRead hp
  | raidWrite l i y => exact h.raidWrite hp
  | raidCheck l => exact h.raidCheck hp
  | raidExchange l => exact h.raidExchange hp (hg.inTime (by rw [hp]; rfl))
  | lootFirst l => exact h.lootFirst hp (hg.inTime (by rw [hp]; rfl))
  | lootBack l => exact h.lootBack hp
  | lootRead l => exact h.lootRead hp
  | lootCheck l y => exact h.lootCheck hp
  | lootExchange l y => exact h.lootExchange hp (hg.inTime (by rw [hp]; rfl))
  | lootWrite l y => exact h.lootWrite hp
  | swapFirst l i => exact h.swapFirst hp
  | swapLast l i y => exact h.swapLast hp
  | swapStore l i y z => exact h.swapStore hp
  | swapStored l i y => exact h.swapStored hp
  | lootStore l => exact h.lootStore hp
  | answer r => exact h.answer hp

/-- A call starts where its status says. -/
theorem WorkCall.statusAt_start (k : WorkCall κ T) (hst : x.status c = .called (k.at c) false) :
    s.StatusAt x c (k.start c) := by
  cases k with
  | push t => exact ⟨_, hst⟩
  | pop => exact ⟨_, hst⟩
  | query q => exact ⟨_, hst⟩
  | steal op v =>
    cases op with
    | steal => exact ⟨_, hst⟩
    | batch =>
      rw [WorkCall.at] at hst
      rw [WorkCall.start]
      split
      · rename_i hv
        rw [if_pos hv] at hst
        exact ⟨_, hst⟩
      · rename_i hv
        rw [if_neg hv] at hst
        exact ⟨_, hst⟩
    | batchAndPop =>
      rw [WorkCall.at] at hst
      rw [WorkCall.start]
      split
      · rename_i hv
        rw [if_pos hv] at hst
        exact ⟨_, hst⟩
      · rename_i hv
        rw [if_neg hv] at hst
        exact ⟨_, hst⟩

theorem WorkCall.start_same (k : WorkCall κ T) (w : Worker T) :
    w.base (k.start c).owner = w.front ∧ w.limit (k.start c) = w.back := by
  cases k with
  | push t => exact ⟨rfl, rfl⟩
  | pop => exact ⟨rfl, rfl⟩
  | query q => exact ⟨rfl, rfl⟩
  | steal op v =>
    cases op with
    | steal => exact ⟨rfl, rfl⟩
    | batch | batchAndPop =>
      rw [WorkCall.start]
      split <;> exact ⟨rfl, rfl⟩

theorem Workers.Refines.call {k : WorkCall κ T} (h : s.Refines x) (hg : s.Gated x)
    (he : (s.pc c).isIdle = true) :
    ∃ y, Trace AtomicDeques.Step x [.called c (k.at c)] y ∧ (s.goto c (k.start c)).Refines y ∧
      (s.goto c (k.start c)).Gated y := by
  have hp := WorkPc.eq_idle he
  obtain ⟨hbase, hlimit⟩ := WorkCall.start_same (c := c) k (s.worker c)
  refine ⟨_, .single (.call x c (k.at c) (h.statusAt hp)), ?_, hg.call h he rfl⟩
  refine (h.gotoStatus (Workers.ok_call h.ok he k) ?_ ?_ ?_).setLate _
  · rw [hbase, Workers.base_idle hp rfl]
  · rw [hlimit, Workers.limit_at hp]
    rfl
  · exact WorkCall.statusAt_start k (AtomicDeques.status_setStatus x c _)

theorem Workers.Refines.next {act : WorkAct κ T} (h : s.Refines x) (hg : s.Gated x)
    (he : s.Enabled act) :
    ∃ y, Trace AtomicDeques.Step x (s.events act) y ∧ (s.next act).Refines y ∧
      (s.next act).Gated y := by
  cases act with
  | call c k => exact h.call hg he
  | step c a =>
    obtain ⟨y, hy, hR⟩ := h.follows hg he
    exact ⟨y, hy, hR, hg.advance h he hy hR⟩

variable [Fintype κ]

theorem workers_refine {flavor : κ → Flavor} {log : List (WorkEvent κ T)}
    (h : ((workers κ T).logged Workers.events).Reaches anyStep (.new flavor, []) (s, log)) :
    ∃ x, Trace AtomicDeques.Step (.new flavor) log x ∧ s.Refines x ∧ s.Gated x :=
  System.Reaches.trace (R := fun s x => Workers.Refines s x ∧ s.Gated x)
    (show ((workers κ T).logged Workers.events).Reaches (fun x a => anyStep x.1 a) _ _ from h)
    ⟨_, .nil _, Workers.refines_new flavor, Workers.gated_new flavor⟩
    fun _ _ _ hR he _ => hR.1.next hR.2 he

/-- Four pushes on a LIFO queue, and a `steal_batch_and_pop` of a FIFO queue's owner that is
interrupted by a pop. -/
def raidRun : List (WorkAct Bool Nat) :=
  [3, 4, 5, 6].flatMap (fun t => .call false (.push t) :: List.replicate 5 (.step false 0)) ++
    .call true (.steal .batchAndPop false) :: List.replicate 8 (.step true 0) ++
    .call false .pop :: List.replicate 5 (.step false 0) ++ List.replicate 10 (.step true 0) ++
    List.replicate 2 (.step false 0)

def raidFlavor (c : Bool) : Flavor := if c then .fifo else .lifo

@[irreducible] def raidEnd : Workers Bool Nat × List (WorkEvent Bool Nat) :=
  ((workers Bool Nat).logged Workers.events).after (.new raidFlavor, []) raidRun

theorem raidRun_legal :
    ((workers Bool Nat).logged Workers.events).Legal (.new raidFlavor, []) raidRun := by
  decide +kernel

theorem raidEnd_reached : ((workers Bool Nat).logged Workers.events).Reaches anyStep
    (.new raidFlavor, []) raidEnd := by
  unfold raidEnd
  exact System.reaches_after raidRun_legal (System.meets_anyStep _)

end Nacl
