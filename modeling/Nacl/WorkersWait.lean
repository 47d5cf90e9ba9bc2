import Mathlib.Data.Fintype.EquivFin
import Nacl.WorkersRuns

/-! The calls of the worker queues are wait-free: a party returns after a number of its own
accesses that the length of its queue bounds, whatever the others do. -/

namespace Nacl

open Guarded Ring

variable {κ T : Type*}

def Worker.len (w : Worker T) : Nat := w.back - w.front

/-- A bound for the accesses of a thief with reserved room that may move `n` tasks. -/
def Raid.cost (k : Raid κ) : Nat := 7 * k.n

def ResizePc.cost (w : Worker T) : ResizePc T → Nat
  | .back => 2 * w.len + 7
  | .front b => 2 * (b - w.front) + 6
  | .buffer b f => 2 * (b - f) + 5
  | .alloc b f _ => 2 * (b - f) + 4
  | .read b _ _ i => 2 * (b - i) + 3
  | .write b _ _ i _ => 2 * (b - i) + 2
  | .replace _ => 2
  | .swap _ => 1

def ResizeFor.cost : ResizeFor T (Raid κ) → Nat
  | .push _ _ => 3
  | .pop _ => 1
  | .reserve _ k => k.cost + 9

def WorkerPc.cost (w : Worker T) : WorkerPc T (Raid κ) → Nat
  | .idle => 0
  | .pushBack _ => 2 * w.len + 13
  | .pushFront _ _ => 2 * w.len + 12
  | .pushBuffer _ _ _ => 2 * w.len + 11
  | .pushGrown _ _ => 3
  | .pushWrite _ _ _ => 2
  | .pushStore _ _ => 1
  | .popBack => 2 * w.len + 14
  | .popFront _ => 2 * w.len + 13
  | .popAdd _ _ => 2 * w.len + 11
  | .popUndo _ => 1
  | .popBuffer _ _ => 2 * w.len + 10
  | .popRead _ _ _ => 2 * w.len + 9
  | .popped _ => 1
  | .reserveBack _ k => 2 * w.len + k.cost + 19
  | .reserveFront _ k _ => 2 * w.len + k.cost + 18
  | .reserveBuffer _ k _ => 2 * w.len + k.cost + 17
  | .reserved _ k => k.cost + 9
  | .resize _ k r => r.cost w + k.cost

/-- How many accesses the party has left at most. -/
def WorkPc.cost (w : Worker T) : WorkPc κ T → Nat
  | .own q => q.cost w
  | .lifoStore _ => 2 * w.len + 12
  | .lifoFront _ => 2 * w.len + 11
  | .lifoCell _ _ => 2 * w.len + 10
  | .lifoRead _ _ _ => 2 * w.len + 9
  | .lifoExchange _ _ => 3
  | .lifoUndo _ | .lifoRestore _ _ => 2
  | .queryBack _ => 3
  | .queryFront _ _ => 2
  | .raidFront _ _ => 2 * w.len + 245
  | .raidBack _ _ _ => 2 * w.len + 244
  | .raidDest k _ => k.cost + 8
  | .raidBuffer k _ _ => k.cost + 7
  | .raidTask h => h.cost + 6
  | .raidRead h i => 2 * (h.n - i) + 5
  | .raidWrite h i _ => 2 * (h.n - i) + 4
  | .raidCheck _ => 4
  | .raidExchange _ => 3
  | .lootFirst h => h.cost + 5
  | .lootBack h => 5 * (h.n - h.m) + 2 * h.n + 4
  | .lootRead h => 5 * (h.n - h.m) + 2 * h.n + 3
  | .lootCheck h _ => 5 * (h.n - h.m) + 2 * h.n + 2
  | .lootExchange h _ => 5 * (h.n - h.m) + 2 * h.n + 1
  | .lootWrite h _ => 5 * (h.n - h.m) + 2 * h.n
  | .swapFirst h i => 4 * (h.m / 2 - i) + 3
  | .swapLast h i _ => 4 * (h.m / 2 - i) + 2
  | .swapStore h i _ _ => 4 * (h.m / 2 - i) + 1
  | .swapStored h i _ => 4 * (h.m / 2 - i)
  | .lootStore _ => 2
  | .answer _ => 1

section own

variable {w : Worker T} {a : Nat} {newCap : Capacity}

/-- A thief that takes tasks off a queue leaves less for its owner to copy. -/
theorem WorkPc.cost_withFront (p : WorkPc κ T) {g : Nat} (hg : w.front ≤ g) :
    p.cost { w with front := g } ≤ p.cost w := by
  have hlen : ({ w with front := g } : Worker T).len ≤ w.len := Nat.sub_le_sub_left hg _
  cases p with
  | own q =>
    cases q with
    | resize newCap k r =>
      cases r with
      | back =>
        simp only [WorkPc.cost, WorkerPc.cost, ResizePc.cost]
        omega
      | front b =>
        simp only [WorkPc.cost, WorkerPc.cost, ResizePc.cost]
        omega
      | _ => exact le_rfl
    | _ =>
      simp only [WorkPc.cost, WorkerPc.cost]
      omega
  | _ =>
    simp only [WorkPc.cost]
    omega

theorem WorkerPc.cost_resize {k : ResizeFor T (Raid κ)} {r : ResizePc T}
    (hok : w.Ok (.resize newCap k r)) :
    (w.step a (.resize newCap k r)).2.cost (w.step a (.resize newCap k r)).1 <
      (WorkerPc.resize newCap k r).cost w := by
  obtain ⟨-, hr⟩ := hok.known
  cases r with
  | read b p new i =>
    obtain ⟨f, hc⟩ := hr
    have hstop := hc.stop
    simp only [Worker.step, Worker.resizeStep]
    split <;> simp only [Option.map_some, Option.getD_some, WorkerPc.cost, ResizePc.cost] <;> omega
  | write b p new i x =>
    have hi : i < b := hr.1
    simp only [Worker.step, Worker.resizeStep, Option.map_some, Option.getD_some, WorkerPc.cost,
      ResizePc.cost]
    omega
  | swap new =>
    simp only [Worker.step, Worker.resizeStep, Option.map_none, Option.getD_none, WorkerPc.cost,
      ResizePc.cost]
    cases k <;> simp only [ResizeFor.resume, ResizeFor.cost] <;> omega
  | back | front | buffer | alloc | replace =>
    simp only [Worker.step, Worker.resizeStep, Option.map_some, Option.getD_some, WorkerPc.cost,
      ResizePc.cost, Worker.len]
    omega

theorem WorkerPc.cost_step {q : WorkerPc T (Raid κ)} (hok : w.Ok q) (hidle : q ≠ .idle)
    (hres : ∀ n k, q ≠ .reserved n k) : (w.step a q).2.cost (w.step a q).1 < q.cost w := by
  cases q with
  | idle => exact absurd rfl hidle
  | reserved n k => exact absurd rfl (hres n k)
  | resize newCap k r => exact WorkerPc.cost_resize hok
  | pushBuffer t b f =>
    simp only [Worker.step]
    split <;> simp only [WorkerPc.cost, ResizePc.cost, ResizeFor.cost] <;> omega
  | popFront b =>
    simp only [Worker.step]
    split <;> simp only [WorkerPc.cost] <;> omega
  | popAdd b len =>
    simp only [Worker.step]
    split <;> simp only [WorkerPc.cost, Worker.len] <;> omega
  | popRead f len p =>
    simp only [Worker.step]
    split <;> simp only [WorkerPc.cost, ResizePc.cost, ResizeFor.cost] <;> omega
  | reserveBuffer n k len =>
    simp only [Worker.step]
    split <;> simp only [WorkerPc.cost, ResizePc.cost, ResizeFor.cost] <;> omega
  | _ =>
    simp only [Worker.step, WorkerPc.cost]
    omega

theorem Loot.cost_finish (h : Loot κ T) (fl : Flavor) (hm : h.m ≤ h.n) (w : Worker T) :
    (h.finish fl).cost w ≤ 2 * h.n + 3 := by
  rw [Loot.finish.eq_def]
  split
  · simp only [WorkPc.cost]
    omega
  · cases fl with
    | fifo =>
      simp only [WorkPc.cost]
      omega
    | lifo =>
      simp only [WorkPc.cost]
      omega

theorem Worker.cost_lifoPopped (w : Worker T) (b f p : Nat) :
    (w.lifoPopped b f p : WorkPc κ T).cost w < 2 * w.len + 9 := by
  rw [Worker.lifoPopped]
  split
  · simp only [WorkPc.cost]
    omega
  · split
    · simp only [WorkPc.cost, WorkerPc.cost, ResizePc.cost, ResizeFor.cost]
      omega
    · simp only [WorkPc.cost, WorkerPc.cost]
      omega

theorem Loot.cost_again (h : Loot κ T) (fl : Flavor) (hm : h.m ≤ h.n) (w : Worker T) :
    (h.again fl).cost w ≤ 5 * (h.n - h.m) + 2 * h.n + 4 := by
  rw [Loot.again]
  split
  · have hfinish := h.cost_finish fl hm w
    omega
  · exact le_rfl

theorem Theft.size_le (op : Theft) (len : Nat) : op.size len ≤ 32 := by
  cases op with
  | steal => exact Nat.zero_le _
  | batch => exact Nat.min_le_right _ _
  | batchAndPop => exact (Nat.min_le_right _ _).trans (Nat.sub_le _ _)

end own

section run

variable {s : Workers κ T} {c d v : κ} {a : Nat} {p : WorkPc κ T}

def Workers.cost (s : Workers κ T) (c : κ) : Nat := (s.pc c).cost (s.worker c)

/-- The others leave a party where it is, and at most take tasks off its queue. -/
def Workers.Leaves (s s' : Workers κ T) (d : κ) : Prop :=
  s'.pc d = s.pc d ∧
    ∃ g, (s.worker d).front ≤ g ∧ s'.worker d = { s.worker d with front := g }

theorem Workers.Leaves.cost_le {s' : Workers κ T} (h : s.Leaves s' d) : s'.cost d ≤ s.cost d := by
  obtain ⟨hpc, g, hg, hw⟩ := h
  rw [Workers.cost, hpc, hw]
  exact WorkPc.cost_withFront _ hg

theorem Workers.exists_free [Fintype κ] (s : Workers κ T) (c : κ) : ∃ a, s.Free c a := by
  obtain ⟨a, ha⟩ := Infinite.exists_notMem_finset ((s.worker c).live ∪
    Finset.univ.image fun d => ((s.pc d).loot.map Loot.buffer).getD 0)
  rw [Finset.mem_union, not_or] at ha
  refine ⟨a, ha.1, fun d hd => ha.2 ?_⟩
  rw [Finset.mem_image]
  refine ⟨d, Finset.mem_univ d, ?_⟩
  cases hl : (s.pc d).loot with
  | none =>
    rw [hl] at hd
    cases hd
  | some l =>
    rw [hl] at hd
    exact congrArg Prod.snd (Option.some.inj hd)

variable [DecidableEq κ]

theorem Workers.cost_goto : (s.goto c p).cost c = p.cost (s.worker c) := by
  rw [Workers.cost, Workers.pc_goto_self, Workers.worker_goto]

theorem Workers.cost_put {w : Worker T} : ((s.put c w).goto c p).cost c = p.cost w := by
  rw [Workers.cost, Workers.pc_goto_self, Workers.worker_goto, Workers.worker_put_self]

theorem Workers.cost_of_const {w : Worker T} {n : Nat} (h : ∀ u : Worker T, p.cost u ≤ n) :
    ((s.put v w).goto c p).cost c ≤ n := by
  rw [Workers.cost, Workers.pc_goto_self]
  exact h _

theorem Workers.cost_own {q : WorkerPc T (Raid κ)} (hs : ∀ d, s.CpuOk d) (hp : s.pc c = .own q)
    (hidle : q ≠ .idle) : (s.advance c a (.own q)).cost c < q.cost (s.worker c) := by
  by_cases hr : ∃ n k, q = .reserved n k
  · obtain ⟨n, k, rfl⟩ := hr
    rw [Workers.advance.eq_def, Workers.cost_goto]
    simp only [WorkPc.cost, WorkerPc.cost]
    omega
  · by_cases hl : s.flavor c = .lifo ∧ ∃ b, q = .popFront b
    · obtain ⟨hfl, b, rfl⟩ := hl
      rw [Workers.advance_popFront hfl, Workers.cost_goto]
      split <;> simp only [WorkPc.cost, WorkerPc.cost] <;> omega
    · rw [Workers.advance_own (fun n k he => hr ⟨n, k, he⟩) (fun hfl b he => hl ⟨hfl, b, he⟩),
        Workers.cost_put]
      exact WorkerPc.cost_step ((hs c).ownerAt hp).ok hidle fun n k he => hr ⟨n, k, he⟩

theorem Workers.cost_advance (hs : ∀ d, s.CpuOk d) (hidle : (s.pc c).isIdle = false) :
    (s.advance c a (s.pc c)).cost c < s.cost c := by
  have ht := (hs c).thief
  rw [Workers.cost.eq_def s]
  cases hp : s.pc c with
  | own q =>
    refine Workers.cost_own hs hp fun hq => ?_
    rw [hp, hq] at hidle
    cases hidle
  | lifoStore b =>
    rw [Workers.advance, Workers.cost_put]
    have hb : (s.worker c).back = b + 1 := ((hs c).ownerAt hp).lifo
    simp only [WorkPc.cost, Worker.len]
    omega
  | lifoFront b =>
    rw [Workers.advance, Workers.cost_goto]
    split <;> simp only [WorkPc.cost] <;> omega
  | lifoRead b f q =>
    rw [Workers.advance, Workers.cost_goto]
    exact Worker.cost_lifoPopped _ b f q
  | lifoExchange b y =>
    rw [Workers.advance]
    split
    · rw [Workers.cost_put]
      exact Nat.lt_succ_self _
    · rw [Workers.cost_goto]
      exact Nat.lt_succ_self _
  | raidBack op v f =>
    rw [Workers.advance, Workers.cost_goto, WorkerPc.reserve]
    have hsize := op.size_le ((s.worker v).back - f)
    split_ifs <;> simp only [WorkPc.cost, WorkerPc.cost, Raid.cost] <;> omega
  | raidBuffer k dest destB =>
    rw [Workers.advance, Workers.cost_goto]
    split
    · cases s.flavor k.victim <;> simp only [WorkPc.cost, Raid.cost] <;> omega
    · simp only [WorkPc.cost, Raid.cost]
      omega
  | raidTask l =>
    rw [Workers.advance, Workers.cost_goto]
    split <;> simp only [WorkPc.cost, Raid.cost] <;> omega
  | raidRead l i =>
    rw [hp] at ht
    have hi : i ≤ l.n := ht.2.2.1
    rw [Workers.advance, Workers.cost_goto]
    split <;> simp only [WorkPc.cost] <;> omega
  | raidWrite l i y =>
    rw [hp] at ht
    have hi : i < l.n := ht.2.2.1
    rw [Workers.advance, Workers.cost_put]
    simp only [WorkPc.cost]
    omega
  | raidCheck l =>
    rw [Workers.advance, Workers.cost_goto]
    split <;> simp only [WorkPc.cost] <;> omega
  | raidExchange l =>
    rw [Workers.advance]
    split
    · refine Nat.lt_of_le_of_lt (Workers.cost_of_const (n := 2) fun u => ?_) (Nat.lt_succ_self 2)
      split <;> simp only [WorkPc.cost] <;> omega
    · rw [Workers.cost_goto]
      simp only [WorkPc.cost]
      omega
  | lootFirst l =>
    rw [hp] at ht
    have hm : l.m ≤ l.n := ht.1.le
    have hnone : l.m = 0 := ht.1.none
    rw [Workers.advance]
    split
    · refine Nat.lt_of_le_of_lt
        (Workers.cost_of_const fun u => Loot.cost_again { l with f := l.f + 1 } _ hm u) ?_
      show 5 * (l.n - l.m) + 2 * l.n + 4 < 7 * l.n + 5
      omega
    · rw [Workers.cost_goto]
      simp only [WorkPc.cost]
      omega
  | lootBack l =>
    rw [hp] at ht
    have hm : l.m < l.n := ht.more
    have hfinish := l.cost_finish (s.flavor c) hm.le (s.worker c)
    rw [Workers.advance, Workers.cost_goto]
    split
    · refine hfinish.trans_lt ?_
      show 2 * l.n + 3 < 5 * (l.n - l.m) + 2 * l.n + 4
      omega
    · exact Nat.lt_succ_self _
  | lootCheck l y =>
    rw [hp] at ht
    have hm : l.m < l.n := ht.1.more
    have hfinish := l.cost_finish (s.flavor c) hm.le (s.worker c)
    rw [Workers.advance, Workers.cost_goto]
    split
    · refine hfinish.trans_lt ?_
      show 2 * l.n + 3 < 5 * (l.n - l.m) + 2 * l.n + 2
      omega
    · exact Nat.lt_succ_self _
  | lootExchange l y =>
    rw [hp] at ht
    have hm : l.m < l.n := ht.1.more
    have hfinish := l.cost_finish (s.flavor c) hm.le (s.worker c)
    rw [Workers.advance]
    split
    · refine Nat.lt_of_le_of_lt (Workers.cost_of_const fun u => le_rfl) ?_
      exact Nat.lt_succ_self _
    · rw [Workers.cost_goto]
      refine hfinish.trans_lt ?_
      show 2 * l.n + 3 < 5 * (l.n - l.m) + 2 * l.n + 1
      omega
  | lootWrite l y =>
    rw [hp] at ht
    have hm : l.m < l.n := ht.more
    have hagain := (l.moved y).cost_again (s.flavor c) hm
      ((s.worker c).write l.dest (l.destB + l.m) (l.write y))
    have hm' : (l.moved y).m = l.m + 1 := rfl
    have hn' : (l.moved y).n = l.n := rfl
    rw [Workers.advance, Workers.cost_put]
    refine hagain.trans_lt ?_
    show 5 * ((l.moved y).n - (l.moved y).m) + 2 * (l.moved y).n + 4 < 5 * (l.n - l.m) + 2 * l.n
    omega
  | swapFirst l i =>
    rw [Workers.advance, Workers.cost_goto]
    split <;> simp only [WorkPc.cost] <;> omega
  | swapStored l i y =>
    rw [hp] at ht
    have hi : i < l.m / 2 := ht.2
    rw [Workers.advance, Workers.cost_put]
    simp only [WorkPc.cost]
    omega
  | lifoUndo | lifoRestore | swapStore | lootStore =>
    rw [Workers.advance, Workers.cost_put]
    exact Nat.lt_succ_self _
  | lifoCell | queryBack | queryFront | raidFront | raidDest | lootRead | swapLast | answer =>
    rw [Workers.advance, Workers.cost_goto]
    exact Nat.lt_succ_self _

theorem Workers.leaves_advance (hd : d ≠ c) : s.Leaves (s.advance c a (s.pc c)) d := by
  have hgoto : ∀ p, s.Leaves (s.goto c p) d := fun p =>
    ⟨Workers.pc_goto_of_ne p hd, _, le_rfl, rfl⟩
  have hput : ∀ p w, s.Leaves ((s.put c w).goto c p) d := fun p w =>
    ⟨Workers.pc_goto_of_ne p hd, _, le_rfl, Workers.worker_put_of_ne w hd⟩
  have hmove : ∀ p v f n, (s.worker v).front = f →
      s.Leaves ((s.put v { s.worker v with front := f + n }).goto c p) d := by
    intro p v f n hf
    refine ⟨Workers.pc_goto_of_ne p hd, ?_⟩
    by_cases hv : d = v
    · subst hv
      exact ⟨f + n, hf.le.trans (Nat.le_add_right f n), Workers.worker_put_self _⟩
    · exact ⟨_, le_rfl, Workers.worker_put_of_ne _ hv⟩
  cases hp : s.pc c with
  | own q =>
    by_cases hr : ∃ n k, q = .reserved n k
    · obtain ⟨n, k, rfl⟩ := hr
      exact hgoto _
    · by_cases hl : s.flavor c = .lifo ∧ ∃ b, q = .popFront b
      · obtain ⟨hfl, b, rfl⟩ := hl
        rw [Workers.advance_popFront hfl]
        exact hgoto _
      · rw [Workers.advance_own (fun n k he => hr ⟨n, k, he⟩) (fun hfl b he => hl ⟨hfl, b, he⟩)]
        exact hput _ _
  | lifoExchange b y =>
    rw [Workers.advance]
    split
    · exact hput _ _
    · exact hgoto _
  | raidExchange l =>
    rw [Workers.advance]
    split
    · rename_i hf
      exact hmove _ _ _ _ hf
    · exact hgoto _
  | lootFirst l | lootExchange l y =>
    rw [Workers.advance]
    split
    · rename_i hf
      exact hmove _ _ _ _ hf
    · exact hgoto _
  | lifoStore | lifoUndo | lifoRestore | raidWrite | lootWrite | swapStore | swapStored | lootStore =>
    exact hput _ _
  | _ => exact hgoto _

def WorkAct.moves (c : κ) : WorkAct κ T → Bool
  | .step d _ => d = c
  | .call _ _ => false

/-- A call that was in progress and is not any more has returned. -/
theorem AtomicDeques.Step.returned {x y : AtomicDeques κ T} {e : WorkEvent κ T}
    (h : AtomicDeques.Step x e y) (hx : x.status c ≠ .idle) (hy : y.status c = .idle) :
    ∃ r, e = .returned c r := by
  have hset : ∀ (z : AtomicDeques κ T) (d : κ) (st : WorkStatus κ T), z.status = x.status →
      st ≠ .idle → (z.setStatus d st).status c ≠ .idle := by
    intro z d st hz hst he
    by_cases hd : c = d
    · rw [hd, AtomicDeques.status_setStatus] at he
      exact hst he
    · rw [(AtomicDeques.Moves.setStatus z d st).status c hd, hz] at he
      exact hx he
  have hleave : ∀ d, (x.setStatus d .idle).status c = .idle → d = c := by
    intro d he
    by_contra hd
    rw [(AtomicDeques.Moves.setStatus x d .idle).status c (Ne.symm hd)] at he
    exact hx he
  cases h with
  | leave d r h => exact ⟨r, by rw [hleave d hy]⟩
  | leaveWith d t h => exact ⟨_, by rw [hleave d hy]⟩
  | _ => exact absurd hy (hset _ _ _ rfl (by simp))

theorem AtomicDeques.returned {x y : AtomicDeques κ T} {log : List (WorkEvent κ T)}
    (h : Trace AtomicDeques.Step x log y) (hx : x.status c ≠ .idle) (hy : y.status c = .idle) :
    ∃ r, .returned c r ∈ log := by
  induction h with
  | nil x => exact absurd hy hx
  | @cons x y z e log hstep _ ih =>
    by_cases hidle : y.status c = .idle
    · obtain ⟨r, rfl⟩ := hstep.returned hx hidle
      exact ⟨r, List.mem_cons_self⟩
    · obtain ⟨r, hr⟩ := ih hidle hy
      exact ⟨r, List.mem_cons_of_mem _ hr⟩

theorem WorkCall.cost_start (k : WorkCall κ T) (w : Worker T) :
    (k.start c).cost w ≤ 2 * w.len + 245 := by
  cases k with
  | push t =>
    simp only [WorkCall.start, WorkPc.cost, WorkerPc.cost]
    omega
  | pop =>
    simp only [WorkCall.start, WorkPc.cost, WorkerPc.cost]
    omega
  | query q =>
    simp only [WorkCall.start, WorkPc.cost]
    omega
  | steal op v =>
    cases op with
    | steal => exact le_rfl
    | batch =>
      rw [WorkCall.start]
      split <;> simp only [WorkPc.cost] <;> omega
    | batchAndPop =>
      rw [WorkCall.start]
      split <;> simp only [WorkPc.cost, WorkerPc.cost] <;> omega

theorem WorkCall.status_ne_idle {x : AtomicDeques κ T} (k : WorkCall κ T)
    (h : s.StatusAt x c (k.start c)) : x.status c ≠ .idle := by
  have hcalls : ∀ j, (x.status c).Calls j → x.status c ≠ .idle := by
    rintro j ⟨b, hb⟩ he
    rw [hb] at he
    cases he
  cases k with
  | steal op v =>
    cases op with
    | steal => exact hcalls _ h
    | batch | batchAndPop =>
      rw [WorkCall.start] at h
      split at h <;> exact hcalls _ h
  | _ => exact hcalls _ h

variable [Fintype κ]

/-- A party that takes as many steps as its call can cost is idle on the way. -/
theorem workers_idle {as : List (WorkAct κ T)} (hs : ∀ d, s.CpuOk d)
    (hlegal : (workers κ T).Legal s as) (hmany : s.cost c ≤ as.countP (WorkAct.moves c)) :
    ∃ bs cs, as = bs ++ cs ∧ (((workers κ T).after s bs).pc c).isIdle = true := by
  induction as generalizing s with
  | nil =>
    refine ⟨[], [], rfl, ?_⟩
    by_contra hidle
    have hlt := Workers.cost_advance (a := 0) hs (Bool.eq_false_of_not_eq_true hidle)
    rw [List.countP_nil] at hmany
    omega
  | cons act as ih =>
    cases hidle : (s.pc c).isIdle with
    | true => exact ⟨[], act :: as, rfl, hidle⟩
    | false =>
      have hnext : ((workers κ T).next s act).cost c ≤ as.countP (WorkAct.moves c) := by
        cases act with
        | call d k =>
          have hd : c ≠ d := by
            intro he
            rw [he, hlegal.1] at hidle
            cases hidle
          rw [List.countP_cons_of_neg (by simp [WorkAct.moves])] at hmany
          exact (Workers.Leaves.cost_le ⟨Workers.pc_goto_of_ne _ hd, _, le_rfl, rfl⟩).trans hmany
        | step d a =>
          by_cases hd : d = c
          · subst hd
            rw [List.countP_cons_of_pos (by simp [WorkAct.moves])] at hmany
            have hlt := Workers.cost_advance (a := a) hs hidle
            exact Nat.le_of_lt_succ (hlt.trans_le hmany)
          · rw [List.countP_cons_of_neg (by simp [WorkAct.moves, hd])] at hmany
            exact (Workers.leaves_advance (Ne.symm hd)).cost_le.trans hmany
      obtain ⟨bs, cs, has, hbs⟩ := ih (Workers.ok_next hs hlegal.1).ok hlegal.2 hnext
      exact ⟨act :: bs, cs, by rw [has]; rfl, hbs⟩

/-- The calls of the worker queues are wait-free. A party that has made a call in any state that
a run reaches and that has not returned from it can go on, and has taken fewer than 245 steps
and two for every task that was in its own queue, in every order of its steps with those of the
others. -/
theorem workers_wait_free {flavor : κ → Flavor} {log : List (WorkEvent κ T)} {k : WorkCall κ T}
    {as : List (WorkAct κ T)}
    (h : ((workers κ T).logged Workers.events).Reaches anyStep (.new flavor, []) (s, log))
    (hlegal : (workers κ T).Legal s (.call c k :: as))
    (hpending : ∀ r, .returned c r ∉
      (((workers κ T).logged Workers.events).after (s, []) (.call c k :: as)).2) :
    (∃ a, ((workers κ T).after s (.call c k :: as)).Enabled (.step c a)) ∧
      as.countP (WorkAct.moves c) < 2 * ((s.worker c).back - (s.worker c).front) + 245 := by
  obtain ⟨x, -, hR, hgate⟩ := workers_refine h
  obtain ⟨y, -, hR', hgate'⟩ := hR.call (k := k) hgate hlegal.1
  have hstart : y.status c ≠ .idle :=
    k.status_ne_idle (hR'.statusAt (Workers.pc_goto_self (k.start c)))
  -- no part of the run after the call ends with the party idle
  have hbusy : ∀ bs cs, as = bs ++ cs →
      (((workers κ T).after (s.goto c (k.start c)) bs).pc c).isIdle = false := by
    rintro bs cs rfl
    by_contra hidle
    have hrun : ((workers κ T).logged Workers.events).Reaches (fun x a => anyStep x.1 a)
        (s.goto c (k.start c), []) (((workers κ T).logged Workers.events).after
          (s.goto c (k.start c), []) bs) :=
      System.reaches_after (System.legal_logged (System.legal_append_iff.mp hlegal.2).1)
        (System.meets_anyStep bs)
    obtain ⟨z, hz, hR'', -⟩ := System.Reaches.trace (R := fun s x => Workers.Refines s x ∧ s.Gated x)
      hrun ⟨y, .nil y, hR', hgate'⟩ fun _ _ _ hR he _ => hR.1.next hR.2 he
    rw [System.logged_after] at hR''
    have hend : z.status c = .idle :=
      hR''.statusAt (WorkPc.eq_idle (Bool.eq_true_of_not_eq_false hidle))
    obtain ⟨r, hr⟩ := AtomicDeques.returned hz hstart hend
    exact hpending r (System.mem_logged_after _ hr)
  constructor
  · obtain ⟨a, ha⟩ := ((workers κ T).after s (.call c k :: as)).exists_free c
    exact ⟨a, hbusy as [] (List.append_nil as).symm, fun _ => ha⟩
  · by_contra hmany
    have hcost : (s.goto c (k.start c)).cost c ≤ as.countP (WorkAct.moves c) := by
      rw [Workers.cost_goto]
      exact (k.cost_start _).trans (Nat.le_of_not_lt hmany)
    obtain ⟨bs, cs, has, hidle⟩ := workers_idle hR'.ok hlegal.2 hcost
    rw [hbusy bs cs has] at hidle
    cases hidle

/-- A thief that has loaded the front index of an empty queue while its owner pushes. -/
def lookRun : List (WorkAct Bool Nat) :=
  [.call false (.push 3), .step false 0, .step true 0, .step false 0]

theorem workers_wait_free_look :
    (∃ a, ((workers Bool Nat).after (.new raidFlavor)
        (.call true (.steal .batchAndPop false) :: lookRun)).Enabled (.step true a)) ∧
      lookRun.countP (WorkAct.moves true) < 2 * (0 - 0) + 245 := by
  refine workers_wait_free (s := .new raidFlavor) (k := .steal .batchAndPop false) .refl
    (by decide +kernel) (fun r hr => ?_)
  have hlog : (((workers Bool Nat).logged Workers.events).after (.new raidFlavor, [])
      (.call true (.steal .batchAndPop false) :: lookRun)).2 =
      [.called true (.steal .batchAndPop false), .called false (.push 3), .looked true] := rfl
  rw [hlog] at hr
  simp at hr

end run

end Nacl
