import Nacl.InjectorSteps

/-! The owners along every run of any number of parties, and what follows for the memory: no
access to a block that is not allocated, no slot read before it is written. -/

namespace Nacl

open Guarded

variable {κ T : Type*}

structure Injecting.Sound (s : Injecting κ T) (g : Owners κ T) : Prop where
  owned : s.queue.Owned g
  of : ∀ c, g.Of c (s.pc c)
  knows : ∀ c, s.queue.Knows g (s.pc c)

theorem Injector.owned_new : (Injector.new : Injector T).Owned (Owners.new : Owners κ T) := by
  have hhome : ∀ a, (Owners.new : Owners κ T).home a = if a = 0 then some (.inl 0) else none :=
    fun a => rfl
  refine ⟨⟨Nat.le_refl _, ?_, rfl, ?_, fun _ => rfl, fun _ => rfl⟩,
    ⟨?_, ?_, ?_, ?_, ?_, ?_, ?_⟩, ?_, ?_, ?_, ?_, ?_⟩
  · simp [Owners.new, Injector.new, ticket]
  · simp [Injector.new]
  · intro a
    rw [hhome]
    simp [Injector.new]
  · intro a c ha
    rfl
  · intro a k ha
    rw [hhome] at ha
    split at ha
    · rename_i h0
      have hk : 0 = k := by simpa using ha
      exact ⟨by rw [h0]; rfl, by omega⟩
    · cases ha
  · intro k hk _
    have h0 : k = 0 := by simpa [Injector.new] using hk
    rw [h0]
    rfl
  · intro k hf
    cases hf
  · intro k _ hk
    simp [Injector.new] at hk
  · intro k a _ ha
    cases ha
  · intro k
    exact ⟨by simp [Owners.new, Injector.new], Nat.le_refl _⟩
  · intro p
    exact ⟨by simp [Owners.new], by simp [Owners.new], fun _ => ⟨rfl, rfl⟩, by simp [Owners.new],
      by simp [Owners.new]⟩
  · intro p _ _
    refine ⟨?_, ?_, ?_, ?_, ?_⟩ <;> simp [Injector.at, Injector.slot, Injector.new, Block.new, Owners.new]
  · simp [Injector.new]
  · simp [Injector.new]

theorem Injecting.sound_new [DecidableEq κ] :
    (Injecting.new : Injecting κ T).Sound (Owners.new : Owners κ T) where
  owned := Injector.owned_new
  of c := by
    refine ⟨fun p => ?_, fun p => ?_, fun l f => ?_, fun a => ?_⟩
    · simp [Owners.new, Injecting.new, InjectorPc.writing]
    · simp [Owners.new, Injecting.new, InjectorPc.Reads, InjectorPc.claim]
    · simp [Owners.new, Injecting.new, InjectorPc.Destroys, InjectorPc.claim]
    · simp [Owners.new, Injecting.new, InjectorPc.spare]
  knows c := trivial

variable {s : Injecting κ T} {g : Owners κ T} {d : κ}

theorem Injecting.Sound.land_call (h : s.Sound g) {k : InjectorCall T}
    (he : s.Enabled (.call d k)) : s.queue.Lands g d [] s.queue k.start := by
  have hidle : s.pc d = .idle := by
    simp only [Injecting.Enabled] at he
    cases hp : s.pc d <;> simp_all [InjectorPc.isIdle]
  have hof := h.of d
  rw [hidle] at hof
  cases k <;>
    exact .stay h.owned (hof.same rfl (fun _ => Iff.rfl) (fun _ _ => Iff.rfl) rfl) trivial

theorem Injecting.Sound.land_fail (h : s.Sound g) :
    s.queue.Lands g d [] s.queue (s.queue.fail (s.pc d)) := by
  have hof := h.of d
  have hk := h.knows d
  cases hp : s.pc d with
  | pushExchange t tail block new =>
    rw [hp] at hof
    exact h.owned.land_pushExchange_fail hof
  | stealExchange k =>
    rw [hp] at hof
    exact .stay h.owned (hof.same rfl (fun _ => Iff.rfl) (fun _ _ => Iff.rfl) rfl) trivial
  | _ =>
    rw [hp] at hof hk
    exact .stay h.owned hof hk

/-- The block that the next access of a party follows a pointer to, or frees. -/
def InjectorPc.follows : InjectorPc T → Option Nat
  | .pushNext _ _ block _ | .pushWrite _ _ block _ | .pushState _ _ block _ => some block
  | .pushDrop new => some new
  | .stealNextNext _ next => some next
  | .stealNext k | .stealWait k _ | .stealRead k _ | .stealMark k _ | .destroyLoad k _
  | .destroyMark k _ | .destroyFree k => some k.block
  | _ => none

/-- The slot of that block. -/
def InjectorPc.index : InjectorPc T → Option Nat
  | .pushWrite _ tail _ _ | .pushState _ tail _ _ => some (offsetOf tail)
  | .stealWait k got | .stealRead k got => some (k.offset + got.length)
  | .stealMark _ i | .destroyLoad _ i | .destroyMark _ i => some i
  | _ => none

/-- What the unchecked accesses rely on at the place of a party. -/
structure Injector.Safe (q : Injector T) (pc : InjectorPc T) : Prop where
  unwrap : pc ≠ .panicked
  live : ∀ b, pc.follows = some b → b ∈ q.live
  bound : ∀ i, pc.index = some i → i < blockCap
  written : ∀ k got, pc = .stealRead k got →
    (q.slot k.block (k.offset + got.length)).write = true ∧
      (q.slot k.block (k.offset + got.length)).task ≠ none

theorem Injector.Owned.live_addr {q : Injector T} {l : Nat} (h : q.Owned g) (ha : g.Alive l) :
    g.addr l ∈ q.live := by
  rw [h.live, ha]
  simp

/-- What the owners say about a slot that its writer or reader is about to access. -/
theorem Injector.Owned.safe {q : Injector T} {pc : InjectorPc T} (h : q.Owned g) (hof : g.Of d pc)
    (hk : q.Knows g pc) : q.Safe pc := by
  have hwriter : ∀ p, g.writer p = some d → g.addr (p / 64) ∈ q.live ∧ p % 64 < 63 := by
    intro p hw
    exact ⟨h.live_addr (h.alive_of_writer hw), ((h.position p).writer (by rw [hw]; simp)).2⟩
  have hreader : ∀ p, g.reader p = some d → g.addr (p / 64) ∈ q.live ∧ p % 64 < 63 := by
    intro p hr
    exact ⟨h.live_addr (h.alive_of_reader hr), (h.unread_of_reader hr).1⟩
  have hdestroy : ∀ l f, g.destroyer l = .party d f → g.addr l ∈ q.live ∧ f ≤ 63 := by
    intro l f hd
    have hl := h.lap l
    rw [hd] at hl
    have hle := h.head_le
    have hlt : ¬ q.head.index / 2 ≤ 64 * l + 62 := mt hl.unclaimed.mpr (by simp)
    exact ⟨h.live_addr (h.alive l (by omega) (by rw [hd]; simp)), hl.frontier⟩
  refine ⟨fun he => by rw [he] at hk; exact hk, fun b hb => ?_, fun i hi => ?_, ?_⟩
  · cases pc <;> simp only [InjectorPc.follows, Option.some.injEq, reduceCtorEq] at hb
    case pushNext t tail block new =>
      rw [← hb, hk.1.block]
      exact (hwriter _ ((hof.writer _).mpr rfl)).1
    case pushWrite t tail block new =>
      rw [← hb, hk.1.block]
      exact (hwriter _ ((hof.writer _).mpr rfl)).1
    case pushState t tail block new =>
      rw [← hb, hk.1.block]
      exact (hwriter _ ((hof.writer _).mpr rfl)).1
    case pushDrop new =>
      rw [h.live, ← hb, (hof.spare new).mpr rfl]
      simp
    case stealNext k =>
      obtain ⟨hr, -, hl, -⟩ := hk.reader (hof.reads rfl nofun)
      rw [← hb, hk.claimed.block, ← hl]
      exact (hreader _ hr).1
    case stealNextNext k next =>
      obtain ⟨hm, hn, hl⟩ := hk
      have hlast := hm.last
      rw [k.newOffset_eq] at hlast
      have hhead := hm.head
      have hd := (h.lap (k.start / 64 + 1)).unclaimed.mpr (by omega)
      rw [← hb, hn]
      exact h.live_addr (h.alive _ hl (by rw [hd]; simp))
    case stealWait k got =>
      have hpos := hk.1.claimed.fits.pos
      rw [← hb, hk.1.claimed.block]
      exact (hreader k.start ((hof.reads rfl nofun _).mpr (by omega))).1
    case stealRead k got =>
      have hpos := hk.1.claimed.fits.pos
      rw [← hb, hk.1.claimed.block]
      exact (hreader k.start ((hof.reads rfl nofun _).mpr (by omega))).1
    case stealMark k i =>
      obtain ⟨hfits, hblock, -, -, hhi, -, -⟩ := hk
      rw [k.newOffset_eq] at hhi
      have hnew := hfits.newOffset
      have hr := hreader _ ((hof.reader (k.start / 64 * 64 + i)).mpr ⟨Nat.le_refl _, by omega⟩)
      rw [show (k.start / 64 * 64 + i) / 64 = k.start / 64 by omega] at hr
      rw [← hb, hblock]
      exact hr.1
    case destroyLoad k i =>
      rw [← hb, show k.block = _ from hk]
      exact (hdestroy _ _ ((hof.destroyer _ _).mpr ⟨rfl, rfl⟩)).1
    case destroyMark k i =>
      rw [← hb, show k.block = _ from hk]
      exact (hdestroy _ _ ((hof.destroyer _ _).mpr ⟨rfl, rfl⟩)).1
    case destroyFree k =>
      rw [← hb, show k.block = _ from hk]
      exact (hdestroy _ _ ((hof.destroyer _ _).mpr ⟨rfl, rfl⟩)).1
  · rw [blockCap_eq]
    cases pc <;> simp only [InjectorPc.index, Option.some.injEq, reduceCtorEq] at hi
    case pushWrite t tail block new =>
      rw [← hi, offsetOf_eq]
      exact (hwriter _ ((hof.writer _).mpr rfl)).2
    case pushState t tail block new =>
      rw [← hi, offsetOf_eq]
      exact (hwriter _ ((hof.writer _).mpr rfl)).2
    case stealWait k got =>
      have hnew := hk.1.claimed.fits.newOffset
      have hlt := hk.2
      rw [← hi, k.offset_eq]
      omega
    case stealRead k got =>
      have hnew := hk.1.claimed.fits.newOffset
      have hlt := hk.2.1
      rw [← hi, k.offset_eq]
      omega
    case stealMark k j =>
      obtain ⟨-, -, hlast, -, hhi, -, -⟩ := hk
      omega
    case destroyLoad k j =>
      have hf := (hdestroy _ _ ((hof.destroyer _ _).mpr ⟨rfl, rfl⟩)).2
      omega
    case destroyMark k j =>
      have hf := (hdestroy _ _ ((hof.destroyer _ _).mpr ⟨rfl, rfl⟩)).2
      omega
  · rintro k got rfl
    obtain ⟨hm, hlt, hw⟩ := hk
    have hr := (hof.reads rfl nofun (k.start + got.length)).mpr (by omega)
    have ht := hm.claimed.fits.tail
    have ho := (h.unread_of_reader hr).1
    have hx := h.slot _ ho (h.alive_of_reader hr)
    rw [hm.claimed.at q hlt]
    refine ⟨hx.write.mpr ⟨by omega, hw⟩, ?_⟩
    rw [hx.task (by omega) hw]
    have hlen := ticket_lt ho (show k.start + got.length < q.tail.index / 2 by omega)
    rw [← h.length] at hlen
    simp [List.getElem?_eq_getElem hlen]

variable [DecidableEq κ]

theorem Injecting.Sound.land (h : s.Sound g) {ts : List T} {q' : Injector T} {pc' : InjectorPc T}
    (hl : s.queue.Lands g d ts q' pc') :
    ∃ g', Injecting.Sound ⟨q', Function.update s.pc d pc'⟩ g' ∧ g'.tasks = g.tasks ++ ts ∧
      s.queue.Change g q' g' d := by
  obtain ⟨g', hchange, hof, hk, ht⟩ := hl
  refine ⟨g', ⟨hchange.owned, fun c => ?_, fun c => ?_⟩, ht, hchange⟩
  · by_cases hc : c = d
    · subst hc
      simp only [Function.update_self]
      exact hof
    · simp only [Function.update_of_ne hc]
      exact (hchange.rely c hc).of (h.of c)
  · by_cases hc : c = d
    · subst hc
      simp only [Function.update_self]
      exact hk
    · simp only [Function.update_of_ne hc]
      exact (hchange.rely c hc).knows h.owned (h.of c) (h.knows c)

theorem Injecting.Sound.next (h : s.Sound g) {a : InjectorAct κ T} (he : s.Enabled a) :
    ∃ g', (s.next a).Sound g' := by
  cases a with
  | call d k =>
    obtain ⟨g', hs, -⟩ := h.land (h.land_call he)
    exact ⟨g', hs⟩
  | step d a =>
    obtain ⟨g', hs, -⟩ := h.land (h.owned.land_step (h.of d) (h.knows d) he.2)
    exact ⟨g', hs⟩
  | fail d =>
    obtain ⟨g', hs, -⟩ := h.land h.land_fail
    exact ⟨g', hs⟩

theorem injector_sound (h : (injector κ T).Reaches anyStep .new s) : ∃ g, s.Sound g := by
  refine h.invariant (I := fun s => ∃ g : Owners κ T, s.Sound g) ⟨_, Injecting.sound_new⟩ ?_
  intro s a hs he _
  obtain ⟨g, hg⟩ := hs
  exact hg.next he

/-- In every run of any number of pushes and steals no access goes to a block that is not
allocated, no block is freed twice, no slot index is out of bounds, no task is read before it
is written, and `next_block.unwrap()` does not panic. The indices of the code are these as long
as there are fewer than `2 ^ 62` pushes (`injector_indices`). -/
theorem injector_safe (h : (injector κ T).Reaches anyStep .new s) (c : κ) :
    s.queue.Safe (s.pc c) := by
  obtain ⟨g, hg⟩ := injector_sound h
  exact hg.owned.safe (hg.of c) (hg.knows c)

/-- Two pushes by party 0, then a steal by party 1 up to the read of its first task. -/
def stolenRun (op : StealOp) : List (InjectorAct (Fin 2) Nat) :=
  .call 0 (.push 7) :: List.replicate 5 (.step 0 0) ++ .call 0 (.push 8) ::
    List.replicate 5 (.step 0 0) ++ .call 1 (.take op) :: List.replicate 5 (.step 1 0)

theorem injector_safe_stolen :
    ((injector (Fin 2) Nat).after .new (stolenRun .steal)).queue.Safe
      (((injector (Fin 2) Nat).after .new (stolenRun .steal)).pc 1) :=
  injector_safe (System.reaches_after (by decide +kernel) (System.meets_anyStep _)) 1

end Nacl
