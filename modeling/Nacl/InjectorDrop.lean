import Nacl.InjectorFifo

/-! What is left of an injector when no call is in progress: a chain of blocks from the head to
the tail and nothing else, which `drop` takes apart. -/

namespace Nacl

open Guarded

variable {κ T : Type*} {s : Injecting κ T} {g : Owners κ T}

/-- Nobody owns anything when no call is in progress. -/
structure Owners.Quiet (g : Owners κ T) : Prop where
  writer : ∀ p, g.writer p = none
  reader : ∀ p, g.reader p = none
  destroyer : ∀ k c f, g.destroyer k ≠ .party c f
  spare : ∀ a c, g.home a ≠ some (.inr c)

theorem Injecting.Sound.quiet (h : s.Sound g) (hidle : ∀ c, (s.pc c).isIdle = true) : g.Quiet := by
  have hpc : ∀ c, s.pc c = .idle := by
    intro c
    have hc := hidle c
    cases hp : s.pc c <;> simp_all [InjectorPc.isIdle]
  have hof : ∀ c, g.Of c .idle := fun c => by
    have hc := h.of c
    rwa [hpc c] at hc
  refine ⟨fun p => ?_, fun p => ?_, fun k c f hd => ?_, fun a c ha => ?_⟩
  · by_contra hw
    obtain ⟨c, hc⟩ := Option.ne_none_iff_exists'.mp hw
    have hx := ((hof c).writer p).mp hc
    simp [InjectorPc.writing] at hx
  · by_contra hr
    obtain ⟨c, hc⟩ := Option.ne_none_iff_exists'.mp hr
    have hx := ((hof c).reader p).mp hc
    simp [InjectorPc.Reads, InjectorPc.claim] at hx
  · have hx := ((hof c).destroyer k f).mp hd
    simp [InjectorPc.Destroys, InjectorPc.claim] at hx
  · have hx := ((hof c).spare a).mp ha
    simp [InjectorPc.spare] at hx

variable {q : Injector T}

theorem Injector.Owned.offset_of_quiet (h : q.Owned g) (hq : g.Quiet) :
    q.head.index / 2 % 64 < 63 ∧ q.tail.index / 2 % 64 < 63 := by
  have hhead : q.head.index / 2 % 64 ≠ 63 := fun he => h.headMoves he (hq.reader _)
  have htail : q.tail.index / 2 % 64 ≠ 63 := fun he => h.tailMoves he (hq.writer _)
  omega

/-- The blocks in use are those from the lap of the head to the lap of the tail. -/
theorem Injector.Owned.alive_of_quiet (h : q.Owned g) (hq : g.Quiet) (k : Nat) :
    g.Alive k ↔ q.head.index / 2 / 64 ≤ k ∧ k ≤ q.tail.index / 2 / 64 := by
  have ho := (h.offset_of_quiet hq).1
  have hk := (h.lap k).unclaimed
  constructor
  · intro ha
    refine ⟨?_, (h.home _ k ha).2⟩
    by_contra hlt
    cases hd : g.destroyer k with
    | none =>
      have hle := hk.mp hd
      omega
    | party c f => exact hq.destroyer k c f hd
    | slot i =>
      have hf := (h.lap k).frontier
      rw [hd, Destroyer.frontier] at hf
      have hr := (h.position (64 * k + i)).asked (by
        rw [show (64 * k + i) / 64 = k by omega, hd, show (64 * k + i) % 64 = i by omega])
      exact hr (hq.reader _)
    | freed => exact h.freed k hd ha
  · rintro ⟨hlo, hhi⟩
    have hd := hk.mpr (by omega)
    exact h.alive k hhi (by rw [hd]; simp)

theorem Injector.Owned.mem_live_of_quiet (h : q.Owned g) (hq : g.Quiet) (a : Nat) :
    a ∈ q.live ↔ ∃ k, q.head.index / 2 / 64 ≤ k ∧ k ≤ q.tail.index / 2 / 64 ∧ g.addr k = a := by
  rw [h.live]
  constructor
  · intro ha
    obtain ⟨v, hv⟩ := Option.ne_none_iff_exists'.mp ha
    cases v with
    | inl k =>
      obtain ⟨rfl, -⟩ := h.home a k hv
      obtain ⟨hlo, hhi⟩ := (h.alive_of_quiet hq k).mp hv
      exact ⟨k, hlo, hhi, rfl⟩
    | inr c => exact absurd hv (hq.spare a c)
  · rintro ⟨k, hlo, hhi, rfl⟩
    rw [(h.alive_of_quiet hq k).mpr ⟨hlo, hhi⟩]
    simp

/-- The loop of `drop` from a position between head and tail on. -/
theorem Injector.Owned.dropFrom_eq (h : q.Owned g) (hq : g.Quiet) {p fuel : Nat}
    (hlo : q.head.index / 2 ≤ p) (hhi : p ≤ q.tail.index / 2)
    (hfuel : q.tail.index / 2 - p < fuel) :
    q.dropFrom (2 * (q.tail.index / 2)) fuel (some (g.addr (p / 64))) (2 * p) =
      some ((g.tasks.drop (ticket p)).map some,
        (List.range' (p / 64) (q.tail.index / 2 / 64 - p / 64 + 1)).map g.addr) := by
  induction fuel generalizing p with
  | zero => omega
  | succ fuel ih =>
    have hoff : offsetOf (2 * p) = p % 64 := by
      rw [offsetOf_eq]
      omega
    have hnext : 2 * p + 1 <<< shift = 2 * (p + 1) := by
      simp only [shift]
      omega
    rw [Injector.dropFrom, hoff, blockCap_eq, hnext]
    by_cases hend : p = q.tail.index / 2
    · rw [if_pos (by omega), hend, Nat.sub_self, ← h.length, List.drop_length]
      rfl
    · rw [if_neg (by omega)]
      have ha := (h.alive_of_quiet hq (p / 64)).mpr (by omega)
      by_cases ho : p % 64 < 63
      · have hx := h.slot p ho ha
        have hlen := ticket_lt ho (show p < q.tail.index / 2 by omega)
        rw [← h.length] at hlen
        have htask : (q.slot (g.addr (p / 64)) (p % 64)).task = some (g.tasks[ticket p]) := by
          rw [← List.getElem?_eq_getElem hlen]
          exact hx.task (by omega) (hq.writer p)
        have hlap : (p + 1) / 64 = p / 64 := by omega
        have hrec := ih (p := p + 1) (by omega) (by omega) (by omega)
        rw [hlap, ticket_add (p := p) (j := 1) (by omega)] at hrec
        rw [if_pos ho, hrec, htask, Option.map_some, ← List.getElem_cons_drop (h := hlen)]
        rfl
      · have hlap : (p + 1) / 64 = p / 64 + 1 := by omega
        have hlink := h.linked (p / 64) ha (by omega) (hq.writer _)
        have hrec := ih (p := p + 1) (by omega) (by omega) (by omega)
        have htick : ticket (p + 1) = ticket p := by
          simp only [ticket]
          omega
        rw [hlap, htick] at hrec
        have hblocks : (List.range' (p / 64) (q.tail.index / 2 / 64 - p / 64 + 1)).map g.addr =
            g.addr (p / 64) :: (List.range' (p / 64 + 1)
              (q.tail.index / 2 / 64 - (p / 64 + 1) + 1)).map g.addr := by
          rw [List.range'_succ, List.map_cons,
            show q.tail.index / 2 / 64 - p / 64 = q.tail.index / 2 / 64 - (p / 64 + 1) + 1 by omega]
        rw [if_neg ho, hlink, hrec, hblocks]
        rfl

theorem Injector.Owned.drop_eq (h : q.Owned g) (hq : g.Quiet) {fuel : Nat}
    (hfuel : q.tail.index / 2 - q.head.index / 2 < fuel) :
    q.drop fuel = some ((g.tasks.drop (ticket (q.head.index / 2))).map some,
      (List.range' (q.head.index / 2 / 64)
        (q.tail.index / 2 / 64 - q.head.index / 2 / 64 + 1)).map g.addr) := by
  have hcut : ∀ i : Nat, i >>> shift <<< shift = 2 * (i / 2) := by
    intro i
    simp only [shift]
    omega
  rw [Injector.drop, hcut, hcut, h.headBlock (h.offset_of_quiet hq).1]
  exact h.dropFrom_eq hq (Nat.le_refl _) h.head_le hfuel

variable [DecidableEq κ]

/-- When no call is in progress, `drop` ends, drops the tasks that are left in the queue in
their order and each of them once, and frees every block that is allocated, once: nothing
leaks and nothing is freed twice. -/
theorem injector_drop {log : List (InjectorEvent κ T)} {fuel : Nat}
    (h : ((injector κ T).logged Injecting.events).Reaches anyStep (.new, []) (s, log))
    (hidle : ∀ c, (s.pc c).isIdle = true)
    (hfuel : s.queue.tail.index / 2 - s.queue.head.index / 2 < fuel) :
    ∃ x blocks, Trace AtomicQueue.Step .new log x ∧
      s.queue.drop fuel = some (x.queue.map some, blocks) ∧ blocks.Nodup ∧
      ∀ b, b ∈ blocks ↔ b ∈ s.queue.live := by
  obtain ⟨x, hx, g, hg⟩ := injecting_refines h
  have hq := hg.toSound.quiet hidle
  have hle := Nat.div_le_div_right (c := 64) hg.owned.head_le
  refine ⟨x, (List.range' (s.queue.head.index / 2 / 64)
    (s.queue.tail.index / 2 / 64 - s.queue.head.index / 2 / 64 + 1)).map g.addr,
    hx, ?_, ?_, fun b => ?_⟩
  · rw [hg.abstracts.queue]
    exact hg.owned.drop_eq hq hfuel
  · rw [List.nodup_map_iff_inj_on List.nodup_range']
    intro k hk l hl he
    by_contra hne
    rw [List.mem_range'_1] at hk hl
    have hak := (hg.owned.alive_of_quiet hq k).mpr (by omega)
    have hal := (hg.owned.alive_of_quiet hq l).mpr (by omega)
    exact hak.addr_ne hal hne he
  · rw [hg.owned.mem_live_of_quiet hq, List.mem_map]
    constructor
    · rintro ⟨k, hk, rfl⟩
      rw [List.mem_range'_1] at hk
      exact ⟨k, by omega, by omega, rfl⟩
    · rintro ⟨k, hlo, hhi, rfl⟩
      exact ⟨k, by rw [List.mem_range'_1]; omega, rfl⟩

/-- Two pushes and a steal that runs to its end. -/
def drainedRun : List (InjectorAct (Fin 2) Nat) :=
  stolenRun .steal ++ List.replicate 3 (.step (Fin.last 1) 0)

theorem injector_drop_drained :
    ∃ x blocks, Trace AtomicQueue.Step .new
        (((injector (Fin 2) Nat).logged Injecting.events).after (.new, []) drainedRun).2 x ∧
      (((injector (Fin 2) Nat).logged Injecting.events).after (.new, []) drainedRun).1.queue.drop 2 =
        some (x.queue.map some, blocks) ∧ blocks.Nodup ∧
      ∀ b, b ∈ blocks ↔ b ∈
        (((injector (Fin 2) Nat).logged Injecting.events).after (.new, []) drainedRun).1.queue.live :=
  injector_drop (System.reaches_after (by decide +kernel) (System.meets_anyStep _))
    (by decide +kernel) (by decide +kernel)

end Nacl
