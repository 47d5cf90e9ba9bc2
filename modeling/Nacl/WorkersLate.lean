import Nacl.WorkersLoot

/-! A thief that answers `Empty` while the owner pops the last task of a LIFO queue leaves this
task to the calls in progress: a call that begins later does not find it. -/

namespace Nacl

open Guarded Ring

variable {κ T : Type*}

def WorkerPc.raid : WorkerPc T (Raid κ) → Option (Raid κ)
  | .reserveBack _ k | .reserveFront _ k _ | .reserveBuffer _ k _ | .reserved _ k
  | .resize _ (.reserve _ k) _ => some k
  | _ => none

/-- The victim of a thief that is to compare `back` with the index that it loaded, or that has
found tasks. -/
def WorkPc.aim : WorkPc κ T → Option (κ × Option Nat)
  | .raidBack _ v f => some (v, some f)
  | p => p.owner.raid.map fun k => (k.victim, none)

/-- The call of party `c` does not find tasks in the queue of `v` as it is now. -/
def Workers.Misses (s : Workers κ T) (v c : κ) : Prop :=
  ∀ o, (s.pc c).aim = some (v, o) → ∃ f, o = some f ∧ (s.worker v).back ≤ f

/-- The owner of `v` is about to pop the last task, and the calls of the parties in `l` do not
find it. -/
structure Workers.Left (s : Workers κ T) (v : κ) (l : κ → Bool) : Prop where
  back : (s.worker v).back ≤ s.base v
  task : s.base v < s.limit v
  late : ∀ c, l c = true → s.Misses v c

def Workers.Gated (s : Workers κ T) (x : AtomicDeques κ T) : Prop :=
  ∀ v l, x.late v = some l → s.Left v l

section aim

variable {v : κ} {o : Option Nat}

theorem WorkerPc.Next.raid {q q' : WorkerPc T (Raid κ)} (h : q.Next q') : q'.raid = q.raid := by
  cases h with
  | resume newCap k r => cases k <;> rfl
  | resize newCap k r r' => cases k <;> rfl
  | _ => rfl

theorem WorkerPc.raid_reserve (n : Nat) (k : Raid κ) :
    (WorkerPc.reserve n k : WorkerPc T (Raid κ)).raid = some k := by
  rw [WorkerPc.reserve]
  split <;> rfl

theorem Worker.aim_step (w : Worker T) (a : Nat) (q : WorkerPc T (Raid κ)) :
    (WorkPc.own (w.step a q).2).aim = (WorkPc.own q).aim :=
  congrArg (Option.map fun k : Raid κ => (k.victim, none)) (w.step_next a q).raid

theorem WorkPc.aim_reserve (n : Nat) (k : Raid κ) :
    (WorkPc.own (.reserve n k) : WorkPc κ T).aim = some (k.victim, none) :=
  congrArg (Option.map fun k : Raid κ => (k.victim, none)) (WorkerPc.raid_reserve n k)

theorem Worker.aim_lifoPopped (w : Worker T) (b f p : Nat) :
    (w.lifoPopped b f p : WorkPc κ T).aim = none := by
  rw [Worker.lifoPopped]
  split
  · rfl
  · split <;> rfl

theorem Loot.aim_finish (l : Loot κ T) (fl : Flavor) (h : (l.finish fl).aim = some (v, o)) :
    (l.victim, none) = (v, o) := by
  rw [Loot.finish.eq_def] at h
  split at h
  · cases h
  · cases fl <;> exact Option.some.inj h

theorem Loot.aim_again (l : Loot κ T) (fl : Flavor) (h : (l.again fl).aim = some (v, o)) :
    (l.victim, none) = (v, o) := by
  rw [Loot.again] at h
  split at h
  · exact l.aim_finish fl h
  · exact Option.some.inj h

end aim

variable {s : Workers κ T} {x y : AtomicDeques κ T} {c d v : κ} {p : WorkPc κ T} {a : Nat}
  {l : κ → Bool} {o : Option Nat}

theorem Workers.Gated.inTime (h : s.Gated x) (haim : (s.pc c).aim = some (v, none)) :
    x.InTime c v := by
  intro l hl
  by_contra hc
  obtain ⟨f, hf, -⟩ := (h v l hl).late c (Bool.eq_true_of_not_eq_false hc) none haim
  cases hf

/-- The events after which a call may be too late that was not before. -/
def WorkEvent.delays : WorkEvent κ T → Bool
  | .called _ _ | .sawEmpty _ => true
  | _ => false

theorem Workers.delays_occur {e : WorkEvent κ T} (he : e ∈ s.occur c p) (hd : e.delays = true) :
    ∃ op v f, p = .raidBack op v f ∧ (s.worker v).back ≤ f := by
  cases p with
  | raidBack op v f =>
    simp only [Workers.occur] at he
    split at he
    · exact ⟨op, v, f, rfl, ‹_›⟩
    · cases he
  | own q =>
    exfalso
    cases q <;> simp only [Workers.occur] at he <;>
      grind [WorkEvent.delays]
  | _ =>
    exfalso
    simp only [Workers.occur] at he
    grind [WorkEvent.delays]

theorem Workers.Refines.base_of_last (h : s.Refines x) (hleft : s.Left v l) :
    (s.pc v).popsLast = true ∧ s.base v = (s.worker v).front := by
  have hlast := (h.last hleft.back hleft.task).1
  refine ⟨hlast, ?_⟩
  cases hp : s.pc v with
  | lifoFront | lifoCell | lifoRead | lifoExchange => exact Workers.base_idle hp rfl
  | _ =>
    rw [hp] at hlast
    cases hlast

/-- A thief that answers `Empty` with a task there leaves it to the calls in progress. -/
theorem Workers.Gated.left {op op' : Theft} {u : κ} {f : Nat} (hg : s.Gated x) (h : s.Refines x)
    (hp : s.pc c = .raidBack op u f) (hle : (s.worker u).back ≤ f)
    (hst : x.status c = .called (.steal op' v) false) (hlast : x.Last v) :
    s.Left v ((x.late v).getD fun _ => false) := by
  obtain ⟨seen, hseen, hf⟩ : ∃ b, x.status c = .called (.steal op u) b ∧
    (b = true ∨ f ≤ s.base u) := h.statusAt hp
  rw [hst] at hseen
  obtain ⟨hcall, rfl⟩ := WorkStatus.called.inj hseen
  obtain ⟨-, rfl⟩ := WorkCall.steal.inj hcall
  obtain ⟨⟨t, ht⟩, -, -⟩ := hlast
  have hlen := h.length (v := v)
  rw [ht, List.length_singleton] at hlen
  refine ⟨hle.trans (hf.resolve_left Bool.false_ne_true), by omega, fun d hd => ?_⟩
  cases hx : x.late v with
  | none =>
    rw [hx] at hd
    cases hd
  | some l =>
    rw [hx] at hd
    exact (hg v l hx).late d hd

variable [DecidableEq κ]

theorem Workers.advance_frame (s : Workers κ T) (c : κ) (a : Nat) (p : WorkPc κ T) :
    ∃ u w p', s.advance c a p = (s.put u w).goto c p' ∧ (u ≠ c → w.back = (s.worker u).back) := by
  have hgoto : ∀ p', ∃ u w p'', s.goto c p' = (s.put u w).goto c p'' ∧
      (u ≠ c → w.back = (s.worker u).back) := by
    intro p'
    refine ⟨c, s.worker c, p', ?_, fun _ => rfl⟩
    rw [Workers.put_self]
  have hown : ∀ w p', ∃ u w' p'', (s.put c w).goto c p' = (s.put u w').goto c p'' ∧
      (u ≠ c → w'.back = (s.worker u).back) := fun w p' => ⟨c, w, p', rfl, fun hu => absurd rfl hu⟩
  have hfront : ∀ u f p', ∃ u' w' p'', (s.put u { s.worker u with front := f }).goto c p' =
      (s.put u' w').goto c p'' ∧ (u' ≠ c → w'.back = (s.worker u').back) :=
    fun u f p' => ⟨u, _, p', rfl, fun _ => rfl⟩
  cases p with
  | own q =>
    cases q with
    | reserved n k => exact hgoto _
    | popFront b =>
      simp only [Workers.advance]
      split
      · exact hgoto _
      · exact hown _ _
    | _ =>
      rw [Workers.advance_own (fun n k hk => by cases hk) (fun _ b hb => by cases hb)]
      exact hown _ _
  | lifoExchange b x =>
    simp only [Workers.advance]
    split
    · exact hown _ _
    · exact hgoto _
  | raidExchange h | lootFirst h | lootExchange h x =>
    simp only [Workers.advance]
    split
    · exact hfront _ _ _
    · exact hgoto _
  | _ => first | exact hgoto _ | exact hown _ _

theorem Workers.pc_advance_of_ne (hd : d ≠ c) : (s.advance c a p).pc d = s.pc d := by
  obtain ⟨u, w, p', he, -⟩ := s.advance_frame c a p
  rw [he, Workers.pc_goto_of_ne p' hd]
  rfl

theorem Workers.back_advance_of_ne (hv : v ≠ c) :
    ((s.advance c a p).worker v).back = (s.worker v).back := by
  obtain ⟨u, w, p', he, hw⟩ := s.advance_frame c a p
  rw [he, Workers.worker_goto]
  by_cases hu : v = u
  · subst hu
    rw [Workers.worker_put_self, hw hv]
  · rw [Workers.worker_put_of_ne w hu]

/-- The owner leaves `back` alone until it has popped the last task. -/
theorem Workers.back_advance_popsLast (hp : p.popsLast = true) :
    ((s.advance c a p).worker c).back = (s.worker c).back := by
  cases p with
  | lifoFront | lifoCell | lifoRead => rfl
  | lifoExchange b y =>
    simp only [Workers.advance]
    split
    · rw [Workers.worker_goto, Workers.worker_put_self]
    · rfl
  | _ => cases hp

/-- A thief comes to tasks of `v` only by a load of `back` that finds some. -/
theorem Workers.aim_advance (h : ((s.advance c a p).pc c).aim = some (v, o)) :
    p.aim = some (v, o) ∨ o = some (s.worker v).front ∨
      ∃ f, p.aim = some (v, some f) ∧ f < (s.worker v).back := by
  cases p with
  | own q =>
    left
    cases q with
    | reserved n k =>
      simp only [Workers.advance, Workers.pc_goto_self] at h
      exact h
    | popFront b =>
      simp only [Workers.advance] at h
      split at h
      · rw [Workers.pc_goto_self] at h
        split at h <;> cases h
      · rw [Workers.pc_goto_self, Worker.aim_step] at h
        cases h
    | _ =>
      rw [Workers.advance_own (fun n k hk => by cases hk) (fun _ b hb => by cases hb),
        Workers.pc_goto_self, Worker.aim_step] at h
      exact h
  | raidFront op u =>
    simp only [Workers.advance, Workers.pc_goto_self, WorkPc.aim, Option.some.injEq,
      Prod.mk.injEq] at h
    obtain ⟨rfl, rfl⟩ := h
    exact .inr (.inl rfl)
  | raidBack op u f =>
    simp only [Workers.advance, Workers.pc_goto_self] at h
    split at h
    · cases h
    · rename_i hlt
      have hu : u = v := by
        split at h
        · exact congrArg Prod.fst (Option.some.inj h)
        · rw [WorkPc.aim_reserve] at h
          exact congrArg Prod.fst (Option.some.inj h)
      subst hu
      exact .inr (.inr ⟨f, rfl, Nat.lt_of_not_le hlt⟩)
  | lifoRead b f r =>
    simp only [Workers.advance, Workers.pc_goto_self] at h
    rw [Worker.aim_lifoPopped] at h
    cases h
  | lifoStore | lifoUndo | lifoCell | lifoRestore | queryBack | queryFront | lootStore | answer =>
    simp only [Workers.advance, Workers.pc_goto_self] at h
    cases h
  | lifoFront | lifoExchange =>
    simp only [Workers.advance] at h
    split at h <;> simp only [Workers.pc_goto_self] at h <;> cases h
  | raidDest | raidWrite | lootRead | swapLast | swapStore | swapStored =>
    simp only [Workers.advance, Workers.pc_goto_self] at h
    exact .inl h
  | raidBuffer k dest destB =>
    left
    simp only [Workers.advance, Workers.pc_goto_self] at h
    split at h
    · cases hfl : s.flavor k.victim <;> rw [hfl] at h <;> exact h
    · exact h
  | raidTask m | raidRead m i | swapFirst m i =>
    left
    simp only [Workers.advance, Workers.pc_goto_self] at h
    split at h <;> exact h
  | raidCheck m =>
    left
    simp only [Workers.advance, Workers.pc_goto_self] at h
    split at h
    · cases h
    · exact h
  | raidExchange m =>
    left
    simp only [Workers.advance] at h
    split at h <;> simp only [Workers.pc_goto_self] at h
    · split at h
      · cases h
      · exact h
    · cases h
  | lootFirst m =>
    left
    simp only [Workers.advance] at h
    split at h <;> simp only [Workers.pc_goto_self] at h
    · exact congrArg some (Loot.aim_again { m with f := m.f + 1 } _ h)
    · cases h
  | lootBack m | lootCheck m y =>
    left
    simp only [Workers.advance, Workers.pc_goto_self] at h
    split at h
    · exact congrArg some (m.aim_finish _ h)
    · exact h
  | lootExchange m y =>
    left
    simp only [Workers.advance] at h
    split at h <;> simp only [Workers.pc_goto_self] at h
    · exact h
    · exact congrArg some (m.aim_finish _ h)
  | lootWrite m y =>
    left
    simp only [Workers.advance, Workers.pc_goto_self] at h
    exact congrArg some ((m.moved y).aim_again _ h)

/-- Otherwise the last task of a queue is still there, or nobody is too late for it. -/
theorem AtomicDeques.Step.late_of {e : WorkEvent κ T} (h : AtomicDeques.Step x e y)
    (he : e.delays = false) (hl : y.late v = some l) :
    x.late v = some l ∧ x.queue v <+: y.queue v := by
  have hset : ∀ (z : AtomicDeques κ T) d ts, z.queue = (x.setQueue d ts).queue →
      (d = v → x.queue d <+: ts) → x.queue v <+: z.queue v := by
    intro z d ts hz hts
    rw [hz]
    by_cases hd : d = v
    · subst hd
      rw [AtomicDeques.queue_setQueue]
      exact hts rfl
    · rw [AtomicDeques.queue_setQueue_of_ne x ts (Ne.symm hd)]
  have hsettle : ∀ d, Function.update x.late d none v = some l → d ≠ v ∧ x.late v = some l := by
    intro d hd
    by_cases hv : v = d
    · subst hv
      rw [Function.update_self] at hd
      cases hd
    · rw [Function.update_of_ne hv] at hd
      exact ⟨Ne.symm hv, hd⟩
  cases h with
  | call | sawEmpty | sawLast => cases he
  | push c t b h => exact ⟨hl, hset _ c _ rfl fun _ => List.prefix_append _ _⟩
  | arrive c op u hand h => exact ⟨hl, hset _ c _ rfl fun _ => List.prefix_append _ _⟩
  | takeFirst c t rest b h hf hq =>
    obtain ⟨hne, hx⟩ := hsettle c hl
    exact ⟨hx, hset _ c _ rfl fun hv => absurd hv hne⟩
  | takeLast c t rest b h hf hq =>
    obtain ⟨hne, hx⟩ := hsettle c hl
    exact ⟨hx, hset _ c _ rfl fun hv => absurd hv hne⟩
  | steal c op u hand ts rest h hq hpos hhalf hmax hlate =>
    obtain ⟨hne, hx⟩ := hsettle u hl
    exact ⟨hx, hset _ u _ rfl fun hv => absurd hv hne⟩
  | _ => exact ⟨hl, List.prefix_rfl⟩

theorem AtomicDeques.late_of {es : List (WorkEvent κ T)} (h : Trace AtomicDeques.Step x es y)
    (hes : ∀ e ∈ es, e.delays = false) (hl : y.late v = some l) :
    x.late v = some l ∧ x.queue v <+: y.queue v := by
  induction h with
  | nil x => exact ⟨hl, List.prefix_rfl⟩
  | cons hstep _ ih =>
    obtain ⟨hz, hpre⟩ := ih (fun e he => hes e (List.mem_cons_of_mem _ he)) hl
    obtain ⟨hx, hpre'⟩ := hstep.late_of (hes _ List.mem_cons_self) hz
    exact ⟨hx, hpre'.trans hpre⟩

/-- A last task that was left to the calls in progress is still left to these when no access has
taken it. -/
theorem Workers.Left.advance (hleft : s.Left v l) (h : s.Refines x) (he : s.Enabled (.step c a))
    (h' : (s.advance c a (s.pc c)).Refines y) (hpre : x.queue v <+: y.queue v) :
    (s.advance c a (s.pc c)).Left v l := by
  obtain ⟨hlast, hfront⟩ := h.base_of_last hleft
  have hback : ((s.advance c a (s.pc c)).worker v).back = (s.worker v).back := by
    by_cases hv : v = c
    · subst hv
      exact Workers.back_advance_popsLast hlast
    · exact Workers.back_advance_of_ne hv
  have hbase := ((Workers.ok_advance h.ok he.2).rely v).base
  refine ⟨?_, ?_, fun d hd => ?_⟩
  · rw [hback]
    exact hleft.back.trans hbase
  · have htask := hleft.task
    have hlen := h.length (v := v)
    have hlen' := h'.length (v := v)
    have hle := hpre.length_le
    omega
  · by_cases hdc : d = c
    · subst hdc
      intro o ho
      rw [hback]
      obtain hold | rfl | ⟨f, hf, hlt⟩ := Workers.aim_advance ho
      · exact hleft.late d hd o hold
      · exact ⟨_, rfl, hleft.back.trans hfront.le⟩
      · obtain ⟨f', hf', hle⟩ := hleft.late d hd _ hf
        obtain rfl := Option.some.inj hf'
        omega
    · intro o ho
      rw [Workers.pc_advance_of_ne hdc] at ho
      rw [hback]
      exact hleft.late d hd o ho

theorem Workers.Gated.advance (hg : s.Gated x) (h : s.Refines x) (he : s.Enabled (.step c a))
    (htrace : Trace AtomicDeques.Step x (s.occur c (s.pc c)) y)
    (h' : (s.advance c a (s.pc c)).Refines y) : (s.advance c a (s.pc c)).Gated y := by
  intro v l hl
  by_cases hd : ∃ e ∈ s.occur c (s.pc c), e.delays = true
  · obtain ⟨e, hmem, hde⟩ := hd
    obtain ⟨op, u, f, hp, hle⟩ := Workers.delays_occur hmem hde
    rw [hp, Workers.occur, if_pos hle] at htrace
    cases htrace.of_single with
    | sawEmpty c op' u' b hst hv => exact (hg v l hl).advance h he h' List.prefix_rfl
    | sawLast c op' u' hst hlast =>
      by_cases hv : v = u'
      · subst hv
        have hleft := hg.left h hp hle hst hlast
        have hget : some ((x.late v).getD fun _ => false) = some l := by
          rw [← hl]
          exact (Function.update_self v _ x.late).symm
        rw [Option.some.inj hget] at hleft
        exact hleft.advance h he h' List.prefix_rfl
      · have hx : x.late v = some l := by
          rw [← hl]
          exact (Function.update_of_ne hv _ _).symm
        exact (hg v l hx).advance h he h' List.prefix_rfl
  · obtain ⟨hx, hpre⟩ := AtomicDeques.late_of htrace
      (fun e hmem => Bool.eq_false_of_not_eq_true fun hde => hd ⟨e, hmem, hde⟩) hl
    exact (hg v l hx).advance h he h' hpre

theorem WorkCall.aim_start (k : WorkCall κ T) (c : κ) : (k.start c).aim = none := by
  cases k with
  | steal op v =>
    cases op with
    | steal => rfl
    | batch | batchAndPop =>
      rw [WorkCall.start]
      split <;> rfl
  | _ => rfl

/-- A call that begins now does not find the last task. -/
theorem Workers.Gated.call {k : WorkCall κ T} (hg : s.Gated x) (h : s.Refines x)
    (he : (s.pc c).isIdle = true) (hy : y.late = (x.enter c).late) :
    (s.goto c (k.start c)).Gated y := by
  intro v l hl
  rw [hy] at hl
  obtain ⟨l', hl', rfl⟩ := Option.map_eq_some_iff.mp hl
  have hleft := hg v l' hl'
  have hv : v ≠ c := by
    intro hv
    have hlast := (h.base_of_last hleft).1
    rw [hv, WorkPc.eq_idle he] at hlast
    cases hlast
  have hpc : (s.goto c (k.start c)).pc v = s.pc v := Workers.pc_goto_of_ne _ hv
  refine ⟨?_, ?_, fun d hd => ?_⟩
  · rw [Workers.base, hpc]
    exact hleft.back
  · rw [Workers.base, Workers.limit, hpc]
    exact hleft.task
  · intro o ho
    by_cases hdc : d = c
    · subst hdc
      rw [Workers.pc_goto_self, WorkCall.aim_start] at ho
      cases ho
    · rw [Workers.pc_goto_of_ne _ hdc] at ho
      rw [Function.update_of_ne hdc] at hd
      exact hleft.late d hd o ho

end Nacl
