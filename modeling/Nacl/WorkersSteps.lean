import Nacl.WorkersThief

/-! Every access keeps what the parties know of the worker queues, one lemma for each place. -/

namespace Nacl

open Guarded Ring

variable {κ T : Type*}

section owner

variable {w w' : Worker T} {fl : Flavor} {e : Nat → Prop} {p p' q : WorkPc κ T} {n m : Nat}
  {k k' : Raid κ}

/-- A place outside of every pop where the owner has nothing in its hands. -/
structure WorkPc.Resting (p : WorkPc κ T) : Prop where
  owner : p.owner = .idle
  limit : ∀ w : Worker T, w.limit p = w.back
  lifo : ∀ w : Worker T, w.LifoAt p
  flavor : p.flavor = none

theorem WorkPc.resting_idle : (WorkPc.own .idle : WorkPc κ T).Resting :=
  ⟨rfl, fun _ => rfl, fun _ => trivial, rfl⟩

theorem WorkPc.resting_answer (r : Answer T) : (WorkPc.answer r : WorkPc κ T).Resting :=
  ⟨rfl, fun _ => rfl, fun _ => trivial, rfl⟩

theorem WorkPc.resting_raidFront (op : Theft) (v : κ) : (WorkPc.raidFront op v : WorkPc κ T).Resting :=
  ⟨rfl, fun _ => rfl, fun _ => trivial, rfl⟩

theorem WorkPc.resting_raidBack (op : Theft) (v : κ) (f : Nat) :
    (WorkPc.raidBack op v f : WorkPc κ T).Resting := ⟨rfl, fun _ => rfl, fun _ => trivial, rfl⟩

theorem WorkPc.resting_queryBack (q : Query) : (WorkPc.queryBack q : WorkPc κ T).Resting :=
  ⟨rfl, fun _ => rfl, fun _ => trivial, rfl⟩

theorem WorkPc.resting_queryFront (q : Query) (b : Nat) :
    (WorkPc.queryFront q b : WorkPc κ T).Resting := ⟨rfl, fun _ => rfl, fun _ => trivial, rfl⟩

theorem Worker.Rely.then_goto (h : Worker.Rely fl e w p w' p')
    (hbase : w'.base q.owner = w'.base p'.owner) (hlimit : w'.limit q = w'.limit p')
    (hbuild : q.owner.building = none) : Worker.Rely fl e w p w' q where
  base := hbase ▸ h.base
  sees := h.sees
  reach f n hr := by
    have hr' := h.reach f n hr
    cases fl with
    | fifo => exact hr'
    | lifo =>
      obtain ⟨hn, hle, hlt⟩ := hr'
      exact ⟨hn, hle, fun he => (hlt he).trans_eq hlimit.symm⟩
  shared := h.shared
  heap := h.heap
  building r _ _ := by
    rw [hbuild]
    exact (Option.some_ne_none r).symm

theorem Worker.OwnerOk.resting (h : w.OwnerOk fl p) (hp : p.Resting) :
    w.Ok (.idle : WorkerPc T (Raid κ)) := by
  have hok := h.ok
  rwa [hp.owner, Worker.deque, hp.limit] at hok

theorem Worker.OwnerOk.of_resting (h : w.Ok (.idle : WorkerPc T (Raid κ))) (hp : p.Resting) :
    w.OwnerOk fl p where
  ok := by
    rw [hp.owner, Worker.deque, hp.limit]
    exact h
  lifo := hp.lifo w
  flavor v hv := by
    rw [hp.flavor] at hv
    cases hv

theorem Worker.Ok.rest (h : w.Ok (.reserved n k)) : w.Ok (.idle : WorkerPc T (Raid κ)) :=
  ⟨h.sound, trivial⟩

theorem Worker.Ok.reserve_none (h : w.Ok (.idle : WorkerPc T (Raid κ))) :
    w.Ok (.reserved 0 k) := ⟨h.sound, h.sound.fits⟩

theorem Worker.Ok.reserve_again (h : w.Ok (.reserved n k)) : w.Ok (.reserved n k') :=
  ⟨h.sound, h.known⟩

theorem Worker.Rely.rest (hp : p.owner = .reserved n k) (hp' : p'.Resting) :
    Worker.Rely fl e w p w p' := by
  refine Worker.Rely.goto ?_ ?_ ?_
  · rw [hp, hp'.owner]
    rfl
  · rw [hp'.limit, WorkPc.limit_of_reserved hp]
  · rw [hp'.owner]
    rfl

end owner

variable {s : Workers κ T} {c v : κ} {f n i a : Nat} {p : WorkPc κ T} {h : Loot κ T}
  {x y : Option T}

theorem WorkerPc.Next.flavor {q q' : WorkerPc T (Raid κ)} {u : Flavor} (hn : q.Next q')
    (h : (WorkPc.own q' : WorkPc κ T).flavor = some u) :
    u = .fifo ∧ ((∃ b, q = .popFront b) ∨ (WorkPc.own q : WorkPc κ T).flavor = some .fifo) := by
  cases hn with
  | popSome b len => exact ⟨(Option.some.inj h).symm, .inl ⟨b, rfl⟩⟩
  | popLost | popTook | popBuffer => exact ⟨(Option.some.inj h).symm, .inr rfl⟩
  | resume newCap k r => cases k <;> cases h
  | _ => cases h

theorem Workers.Free.ne_held {r : Nat} (h : s.Free c a) (hr : s.Held c r) : r ≠ a := by
  intro he
  obtain ⟨d, l, hl, hv, hb⟩ := hr
  refine h.2 d ?_
  rw [hl, Option.map_some, hv, hb, he]

theorem Workers.found_goto {k : Raid κ} {s' : Workers κ T} (h : s.Found k) (hfl : s'.flavor = s.flavor)
    (hr : s.Rely s' k.victim) : s'.Found k := by
  rw [Workers.Found, Workers.Reach, hfl]
  exact hr.reach _ _ h

theorem Theft.size_pos {op : Theft} {len : Nat} (hlen : 0 < len) (hop : op ≠ .steal) :
    0 < op.skip + op.size len ∧ 2 * (op.skip + op.size len) ≤ len + 1 ∧
      op.skip + op.size len ≤ maxBatch ∧ (op = .batch → 0 < op.size len) := by
  cases op with
  | steal => exact absurd rfl hop
  | batch =>
    simp only [Theft.skip, Theft.size, maxBatch]
    exact ⟨by omega, by omega, by omega, fun _ => by omega⟩
  | batchAndPop =>
    simp only [Theft.skip, Theft.size, maxBatch]
    exact ⟨by omega, by omega, by omega, fun hb => by cases hb⟩

/-- A thief that loads `back` behind the front index that it loaded before finds tasks. -/
theorem Workers.reach_of_lt (hs : ∀ d, s.CpuOk d) (hsees : s.Sees v f)
    (hlt : f < (s.worker v).back) (hn : 0 < n) (hle : f + 2 * n ≤ (s.worker v).back + 1)
    (hone : s.flavor v = .lifo → n = 1) : s.Reach v f n := by
  have hback : (s.worker v).back ≤ s.limit v := (hs v).owner.back_le_limit
  rw [Workers.Reach]
  cases hfl : s.flavor v with
  | fifo => exact ⟨hn, hle⟩
  | lifo => exact ⟨hone hfl, hsees hfl, fun _ => hlt.trans_le hback⟩

theorem Loot.Fresh.withTask (hk : h.Fresh s c) (x : Option T) :
    Loot.Fresh { h with task := x } s c :=
  ⟨⟨hk.raid, hk.dest, hk.published, hk.le⟩, hk.found, hk.none, hk.source⟩

/-- Where a thief writes in its own queue. -/
theorem Loot.place_eq (fl : Flavor) (hi : i < h.n) :
    ∃ j, j < h.n ∧ h.place fl i = h.destB + j ∧
      ∀ l, l < i → ∃ r, r < h.n ∧ r ≠ j ∧ h.place fl l = h.destB + r := by
  cases fl with
  | fifo => exact ⟨i, hi, rfl, fun l hl => ⟨l, hl.trans hi, hl.ne, rfl⟩⟩
  | lifo => exact ⟨h.n - 1 - i, by omega, rfl, fun l hl => ⟨h.n - 1 - l, by omega, by omega, rfl⟩⟩

/-- A write into the reserved room does not touch the rest of it. -/
theorem Worker.read_reserved {w : Worker T} {k : Raid κ} {j r : Nat} (hw : w.Ok (.reserved n k))
    (hj : j < n) (hr : r < n) (hne : r ≠ j) :
    ((w.write w.cell (w.back + j) x).heap w.cell).read (w.back + r) =
      (w.heap w.cell).read (w.back + r) := by
  have hroom : w.back + n ≤ w.front + w.buffer.cap.val := hw.known
  have hle : w.front ≤ w.back := hw.sound.le
  change w.back + n ≤ w.front + (w.heap w.cell).cap.val at hroom
  rw [Worker.heap_write_self]
  exact Buffer.read_write_of_ne (by omega) (by omega) (by omega)

/-- Where a thief goes on that leaves the loop. -/
theorem Workers.thiefAt_finish (hk : h.Ok s c) (hop : h.op ≠ .steal)
    (hv : s.flavor h.victim = .lifo) : s.ThiefAt c (h.finish (s.flavor c)) := by
  rw [Loot.finish.eq_def]
  split
  · trivial
  · cases hfl : s.flavor c with
    | fifo => exact ⟨hk, hop, hv, hfl⟩
    | lifo => exact ⟨hk, hop⟩

theorem Loot.owner_finish (h : Loot κ T) (fl : Flavor) :
    (h.finish fl).owner = .reserved h.n h.toRaid ∨ h.GivesUp ∧ h.finish fl = .answer .retry := by
  rw [Loot.finish.eq_def]
  split
  · rename_i hg
    exact .inr ⟨hg, rfl⟩
  · cases fl <;> exact .inl rfl

theorem Loot.owner_again (h : Loot κ T) (fl : Flavor) (hg : ¬h.GivesUp) :
    (h.again fl).owner = .reserved h.n h.toRaid := by
  rw [Loot.again]
  split
  · obtain ho | ho := h.owner_finish fl
    · exact ho
    · exact absurd ho.1 hg
  · rfl

theorem Workers.thiefAt_again (hk : h.Ok s c) (hop : h.op ≠ .steal)
    (hv : s.flavor h.victim = .lifo) (hsees : s.Sees h.victim h.f) :
    s.ThiefAt c (h.again (s.flavor c)) := by
  rw [Loot.again]
  split
  · exact Workers.thiefAt_finish hk hop hv
  · rename_i hne
    exact ⟨hk, hv, hop, Nat.lt_of_le_of_ne hk.le hne, hsees⟩

theorem WorkPc.eq_idle (h : p.isIdle = true) : p = .own .idle := by
  cases p with
  | own q =>
    cases q with
    | idle => rfl
    | _ => cases h
  | _ => cases h

variable [DecidableEq κ]

/-- A party with reserved room goes on with it, having changed nothing. -/
theorem Workers.ok_reserved {k k' : Raid κ} (hs : ∀ d, s.CpuOk d)
    (hp : (s.pc c).owner = .reserved n k) (hp' : p.owner = .reserved n k')
    (ht : (∀ v, s.Rely (s.goto c p) v) → (s.goto c p).ThiefAt c p) :
    (s.goto c p).After s :=
  Workers.ok_goto hs (.of_reserved ((hs c).owner.reserved hp).reserve_again hp')
    (.goto_reserved hp hp') ht

/-- A party leaves `steal_batch` and gives up the room that it reserved. -/
theorem Workers.ok_answer {k : Raid κ} (hs : ∀ d, s.CpuOk d) (hp : (s.pc c).owner = .reserved n k)
    (r : Answer T) : (s.goto c (.answer r)).After s :=
  Workers.ok_goto hs (.of_resting ((hs c).owner.reserved hp).rest (WorkPc.resting_answer r))
    (.rest hp (WorkPc.resting_answer r)) (fun _ => trivial)

/-- A party goes on with nothing in its hands. -/
theorem Workers.ok_rest (hs : ∀ d, s.CpuOk d) (hp : (s.pc c).Resting) (hp' : p.Resting)
    (ht : (∀ v, s.Rely (s.goto c p) v) → (s.goto c p).ThiefAt c p) :
    (s.goto c p).After s := by
  refine Workers.ok_goto hs (.of_resting ((hs c).owner.resting hp) hp') (.goto ?_ ?_ ?_) ht
  · rw [hp.owner, hp'.owner]
  · rw [hp.limit, hp'.limit]
  · rw [hp'.owner]
    rfl

/-- A party with nothing in its hands starts an operation on its queue. -/
theorem Workers.ok_begin {q : WorkerPc T (Raid κ)} (hs : ∀ d, s.CpuOk d) (hp : (s.pc c).Resting)
    (hq : (WorkPc.own q : WorkPc κ T).flavor = none) (hbuild : q.building = none)
    (hok : ∀ w : Worker T, w.Ok (.idle : WorkerPc T (Raid κ)) → w.Ok q)
    (hbase : ∀ w : Worker T, w.base q = w.front)
    (ht : s.ThiefAt c (.own q)) : (s.goto c (.own q)).After s := by
  refine Workers.ok_goto hs (.of_ok (hok _ ((hs c).owner.resting hp)) hq) (.goto ?_ ?_ hbuild) ?_
  · rw [hp.owner]
    exact (hbase _).symm
  · rw [hp.limit]
    rfl
  · intro hall n k hk
    obtain ⟨hn, hop, hk', hf⟩ := ht n k hk
    exact ⟨hn, hop, hk', (hall k.victim).reach _ _ hf⟩

/-- A thief that found `n` tasks moves `front` past them and goes on at `p`. -/
theorem Workers.ok_exchange {k : Raid κ} (hs : ∀ d, s.CpuOk d)
    (hp : (s.pc c).owner = .reserved i k) (hr : s.Reach v f n) (hf : (s.worker v).front = f)
    (hp' : (∃ k', p.owner = .reserved i k') ∨ p.Resting)
    (ht : (∀ u, s.Rely ((s.put v { s.worker v with front := f + n }).goto c p) u) →
      ((s.put v { s.worker v with front := f + n }).goto c p).ThiefAt c p) :
    ((s.put v { s.worker v with front := f + n }).goto c p).After s := by
  have hown : ∀ w : Worker T, w.OwnerOk (s.flavor c) (s.pc c) → w.OwnerOk (s.flavor c) p := by
    intro w hw
    obtain ⟨k', hk'⟩ | hrest := hp'
    · exact .of_reserved (hw.reserved hp).reserve_again hk'
    · exact .of_resting (hw.reserved hp).rest hrest
  have hsame : ∀ w : Worker T, w.base p.owner = w.base (s.pc c).owner ∧
      w.limit p = w.limit (s.pc c) ∧ p.owner.building = none := by
    intro w
    rw [hp, WorkPc.limit_of_reserved hp]
    obtain ⟨k', hk'⟩ | hrest := hp'
    · rw [hk', WorkPc.limit_of_reserved hk']
      exact ⟨rfl, rfl, rfl⟩
    · rw [hrest.owner, hrest.limit]
      exact ⟨rfl, rfl, rfl⟩
  have hfront := (hs v).owner.withFront hr hf
  have hrely := (hs v).owner.rely_withFront (e := s.Held v) hr hf
  have hworker : ∀ u, ((s.put v { s.worker v with front := f + n }).goto c p).worker u =
      if u = v then { s.worker v with front := f + n } else s.worker u := by
    intro u
    by_cases hu : u = v
    · subst hu
      rw [if_pos rfl]
      exact Workers.worker_put_self _
    · rw [if_neg hu]
      exact Workers.worker_put_of_ne _ hu
  have hall : ∀ u, s.Rely ((s.put v { s.worker v with front := f + n }).goto c p) u := by
    intro u
    rw [Workers.Rely, hworker]
    by_cases hc : u = c
    · subst hc
      rw [Workers.pc_goto_self]
      by_cases hv : u = v
      · subst hv
        rw [if_pos rfl]
        obtain ⟨hb, hl, hbuild⟩ := hsame { s.worker u with front := f + n }
        exact hrely.then_goto hb hl hbuild
      · rw [if_neg hv]
        obtain ⟨hb, hl, hbuild⟩ := hsame (s.worker u)
        exact .goto hb.symm hl hbuild
    · rw [Workers.pc_goto_of_ne p hc]
      by_cases hv : u = v
      · subst hv
        rw [if_pos rfl]
        exact hrely
      · rw [if_neg hv]
        have hrefl : s.Rely s u := Workers.Rely.of_eq rfl rfl
        exact hrefl
  refine ⟨fun d => ?_, hall⟩
  by_cases hc : d = c
  · subst hc
    refine ⟨?_, ?_⟩
    · rw [Workers.pc_goto_self, hworker]
      apply hown
      split
      · rename_i hv
        subst hv
        exact hfront
      · exact (hs d).owner
    · rw [Workers.pc_goto_self]
      exact ht hall
  · obtain ⟨g, hg⟩ : ∃ g, ((s.put v { s.worker v with front := f + n }).goto c p).worker d =
        { s.worker d with front := g } := by
      rw [hworker]
      split
      · rename_i hv
        rw [hv]
        exact ⟨f + n, rfl⟩
      · exact ⟨(s.worker d).front, rfl⟩
    refine (hs d).frame (fun v => (hs v).owner) (Workers.pc_goto_of_ne p hc) rfl ?_ hall
      ⟨by rw [hg], by rw [hg]⟩ (by rw [hg])
    rw [hworker]
    split
    · rename_i hv
      subst hv
      exact hfront
    · exact (hs d).owner

section own

variable {q : WorkerPc T (Raid κ)}

theorem Workers.ok_own (hs : ∀ d, s.CpuOk d) (hp : s.pc c = .own q)
    (ha : q.allocates = true → s.Free c a) (hlifo : s.flavor c = .lifo → ∀ b, q ≠ .popFront b) :
    ((s.put c ((s.worker c).step a q).1).goto c (.own ((s.worker c).step a q).2)).After s := by
  have hown := (hs c).ownerAt hp
  have hok : (s.worker c).Ok q := hown.ok
  have hown' : ((s.worker c).step a q).1.OwnerOk (s.flavor c)
      (.own ((s.worker c).step a q).2 : WorkPc κ T) := by
    refine ⟨hok.step fun hal => (ha hal).1, trivial, fun v hv => ?_⟩
    obtain ⟨rfl, hq⟩ := ((s.worker c).step_next a q).flavor hv
    cases hfl : s.flavor c with
    | fifo => rfl
    | lifo =>
      obtain ⟨b, hb⟩ | hq := hq
      · exact absurd hb (hlifo hfl b)
      · exact (hown.flavor .fifo hq).trans hfl
  refine Workers.ok_put hs hown' ?_ ?_
  · rw [hp]
    exact hown.rely_own fun hal => ⟨(ha hal).1, fun r hr => (ha hal).ne_held hr⟩
  · intro hall n k hk
    have ht : ∀ n k, _ := (hs c).thiefAt hp
    obtain ⟨hn, hop, hok, hf⟩ := ht n k (((s.worker c).step_next a q).reserving hk)
    exact ⟨hn, hop, hok, Workers.found_goto hf rfl (hall _)⟩

theorem Workers.ok_reservedOwn {k : Raid κ} (hs : ∀ d, s.CpuOk d)
    (hp : s.pc c = .own (.reserved n k)) :
    (s.goto c (.raidDest k (s.worker c).cell)).After s := by
  have ht : ∀ n k, _ := (hs c).thiefAt hp
  obtain ⟨rfl, hop, hok, hf⟩ := ht n k rfl
  refine Workers.ok_reserved (k := k) hs (by rw [hp]; rfl) rfl (fun hall => ?_)
  exact ⟨hop, hok, Workers.found_goto hf rfl (hall _), rfl⟩

theorem Workers.ok_lifoPopFront {b : Nat} (hs : ∀ d, s.CpuOk d) (hp : s.pc c = .own (.popFront b))
    (hfl : s.flavor c = .lifo) :
    (s.goto c (if b ≤ (s.worker c).front then .own .idle else .lifoStore (b - 1))).After s := by
  have hown := (hs c).ownerAt hp
  have hok : (s.worker c).Ok (.popFront b : WorkerPc T (Raid κ)) := hown.ok
  have hb : b = (s.worker c).back := hok.known
  have hidle : (s.worker c).Ok (.idle : WorkerPc T (Raid κ)) := ⟨hok.sound, trivial⟩
  split
  · refine Workers.ok_goto hs (.of_ok hidle rfl) ?_ (fun _ n k hk => by cases hk)
    rw [hp]
    exact Worker.Rely.goto rfl rfl rfl
  · have hstore : (s.worker c).OwnerOk (s.flavor c) (.lifoStore (b - 1) : WorkPc κ T) := by
      refine ⟨hidle, ?_, fun v hv => ?_⟩
      · show (s.worker c).back = b - 1 + 1
        omega
      · rw [hfl]
        exact (Option.some.inj hv).symm
    refine Workers.ok_goto hs hstore ?_ (fun _ => trivial)
    rw [hp]
    exact Worker.Rely.goto rfl rfl rfl

end own

section lifo

variable {b : Nat}

theorem Workers.ok_lifoStore (hs : ∀ d, s.CpuOk d) (hp : s.pc c = .lifoStore b) :
    ((s.put c { s.worker c with back := b }).goto c (.lifoFront b)).After s := by
  obtain ⟨hown, hr⟩ := ((hs c).ownerAt hp).lifoStore (e := s.Held c)
  exact Workers.ok_put hs hown (by rw [hp]; exact hr) (fun _ => trivial)

theorem Workers.ok_lifoFront (hs : ∀ d, s.CpuOk d) (hp : s.pc c = .lifoFront b) :
    (s.goto c (if b < (s.worker c).front then .lifoUndo b
      else .lifoCell b (s.worker c).front)).After s := by
  obtain ⟨hown, hr⟩ := ((hs c).ownerAt hp).lifoFront (e := s.Held c)
  refine Workers.ok_goto hs hown (by rw [hp]; exact hr) (fun _ => ?_)
  split <;> exact trivial

theorem Workers.ok_lifoUndo (hs : ∀ d, s.CpuOk d) (hp : s.pc c = .lifoUndo b) :
    ((s.put c { s.worker c with back := b + 1 }).goto c (.answer (.popped none))).After s := by
  obtain ⟨hown, hr⟩ := ((hs c).ownerAt hp).lifoBack (e := s.Held c) (b := b)
    (r := .popped none) rfl rfl rfl
  exact Workers.ok_put hs hown (by rw [hp]; exact hr) (fun _ => trivial)

theorem Workers.ok_lifoRestore {r : Option (Option T)} (hs : ∀ d, s.CpuOk d)
    (hp : s.pc c = .lifoRestore b r) :
    ((s.put c { s.worker c with back := b + 1 }).goto c (.answer (.popped r))).After s := by
  obtain ⟨hown, hr⟩ := ((hs c).ownerAt hp).lifoBack (e := s.Held c) (b := b)
    (r := .popped r) rfl rfl rfl
  exact Workers.ok_put hs hown (by rw [hp]; exact hr) (fun _ => trivial)

theorem Workers.ok_lifoCell (hs : ∀ d, s.CpuOk d) (hp : s.pc c = .lifoCell b f) :
    (s.goto c (.lifoRead b f (s.worker c).cell)).After s := by
  refine Workers.ok_goto hs ((hs c).ownerAt hp).lifoCell ?_ (fun _ => trivial)
  rw [hp]
  exact Worker.Rely.goto rfl rfl rfl

theorem Workers.ok_lifoRead {q : Nat} (hs : ∀ d, s.CpuOk d) (hp : s.pc c = .lifoRead b f q) :
    (s.goto c ((s.worker c).lifoPopped b f q)).After s := by
  obtain ⟨hown, hr⟩ := ((hs c).ownerAt hp).lifoRead (e := s.Held c)
  refine Workers.ok_goto hs hown (by rw [hp]; exact hr) (fun _ => ?_)
  rw [Worker.lifoPopped]
  split
  · trivial
  · split
    · intro n k hk
      cases hk
    · intro n k hk
      cases hk

theorem Workers.ok_lifoExchange (hs : ∀ d, s.CpuOk d) (hp : s.pc c = .lifoExchange b x) :
    (if (s.worker c).front = b
      then (s.put c { s.worker c with front := b + 1 }).goto c (.lifoRestore b (some x))
      else s.goto c (.lifoRestore b none)).After s := by
  obtain ⟨htook, hlost⟩ := ((hs c).ownerAt hp).lifoExchange (e := s.Held c)
  split
  · rename_i hf
    obtain ⟨hown, hr⟩ := htook hf
    exact Workers.ok_put hs hown (by rw [hp]; exact hr) (fun _ => trivial)
  · rename_i hf
    obtain ⟨hown, hr⟩ := hlost hf
    exact Workers.ok_goto hs hown (by rw [hp]; exact hr) (fun _ => trivial)

end lifo

section raid

theorem Workers.ok_raidFront {op : Theft} (hs : ∀ d, s.CpuOk d) (hp : s.pc c = .raidFront op v) :
    (s.goto c (.raidBack op v (s.worker v).front)).After s := by
  have hv := (hs c).thiefAt hp
  refine Workers.ok_rest hs ?_ (WorkPc.resting_raidBack op v _) (fun _ => ?_)
  · rw [hp]
    exact WorkPc.resting_raidFront op v
  · exact ⟨hv, fun _ => le_rfl⟩

theorem Workers.ok_raidBack {op : Theft} (hs : ∀ d, s.CpuOk d) (hp : s.pc c = .raidBack op v f) :
    (s.goto c (if (s.worker v).back ≤ f then .answer .empty
      else if op = .steal then .raidBuffer ⟨op, v, f, 0⟩ 0 0
      else .own (.reserve (op.size ((s.worker v).back - f))
        ⟨op, v, f, op.size ((s.worker v).back - f)⟩))).After s := by
  obtain ⟨hv, hsees⟩ : (op ≠ .steal → v ≠ c) ∧ s.Sees v f := (hs c).thiefAt hp
  have hrest : (s.pc c).Resting := by
    rw [hp]
    exact WorkPc.resting_raidBack op v f
  split
  · exact Workers.ok_rest hs hrest (WorkPc.resting_answer _) (fun _ => trivial)
  · rename_i hlt
    rw [Nat.not_le] at hlt
    split
    · rename_i hop
      subst hop
      have hok : (s.worker c).OwnerOk (s.flavor c)
          (.raidBuffer ⟨.steal, v, f, 0⟩ 0 0 : WorkPc κ T) :=
        .of_reserved ((hs c).owner.resting hrest).reserve_none rfl
      refine Workers.ok_goto hs hok (.goto ?_ ?_ rfl) (fun hall => ?_)
      · rw [hrest.owner]
        rfl
      · rw [hrest.limit]
        rfl
      · have hreach := Workers.reach_of_lt (n := 1) hs hsees hlt Nat.one_pos (by omega) fun _ => rfl
        refine ⟨⟨fun hne => absurd rfl hne, ?_, fun _ => rfl, nofun⟩, ?_, fun hne => absurd rfl hne⟩
        · simp only [Theft.skip, maxBatch]
          omega
        · have hspan : Raid.span ⟨.steal, v, f, 0⟩ (s.flavor v) = 1 := by
            cases s.flavor v <;> rfl
          have hr := (hall v).reach f 1 hreach
          rw [← hspan] at hr
          exact hr
    · rename_i hop
      have hlen : 0 < (s.worker v).back - f := by omega
      obtain ⟨hpos, htwo, hfew, hbatch⟩ := Theft.size_pos hlen hop
      refine Workers.ok_begin hs hrest ?_ ?_ ?_ ?_ ?_
      · rw [WorkerPc.reserve]
        split <;> rfl
      · rw [WorkerPc.reserve]
        split <;> rfl
      · intro w hw
        rw [WorkerPc.reserve]
        split
        · exact ⟨hw.sound, trivial⟩
        · rename_i hz
          rw [Nat.pos_iff_ne_zero, not_not] at hz
          rw [hz]
          exact hw.reserve_none
      · intro w
        rw [WorkerPc.reserve]
        split <;> rfl
      · intro n k hk
        have hnk : (op.size ((s.worker v).back - f),
            (⟨op, v, f, op.size ((s.worker v).back - f)⟩ : Raid κ)) = (n, k) := by
          rw [WorkerPc.reserve] at hk
          split at hk <;> exact Option.some.inj hk
        cases hnk
        refine ⟨rfl, hop, ⟨hv, hfew, fun he => absurd he hop, hbatch⟩, ?_⟩
        refine Workers.reach_of_lt hs hsees hlt ?_ ?_ ?_
        · cases s.flavor v with
          | fifo => exact hpos
          | lifo => exact Nat.one_pos
        · cases s.flavor v with
          | fifo =>
            show f + 2 * (op.skip + op.size ((s.worker v).back - f)) ≤ (s.worker v).back + 1
            omega
          | lifo =>
            show f + 2 * 1 ≤ (s.worker v).back + 1
            omega
        · intro hfl
          show Raid.span _ (s.flavor v) = 1
          rw [hfl]
          rfl

theorem Workers.ok_raidDest {k : Raid κ} {dest : Nat} (hs : ∀ d, s.CpuOk d)
    (hp : s.pc c = .raidDest k dest) :
    (s.goto c (.raidBuffer k dest (s.worker c).back)).After s := by
  obtain ⟨-, hok, hf, hdest⟩ := (hs c).thiefAt hp
  refine Workers.ok_reserved (k := k) hs (by rw [hp]; rfl) rfl (fun hall => ?_)
  exact ⟨hok, Workers.found_goto hf rfl (hall _), fun _ => ⟨hdest, rfl⟩⟩

/-- What a thief knows when it has loaded the victim's buffer. -/
theorem Workers.fresh_raidBuffer {k : Raid κ} {dest destB : Nat} (hs : ∀ d, s.CpuOk d)
    (hp : s.pc c = .raidBuffer k dest destB) (hp' : p.owner = .reserved k.n k)
    (hall : ∀ v, s.Rely (s.goto c p) v) :
    Loot.Fresh (T := T) ⟨k, dest, destB, (s.worker k.victim).inner, none, 0⟩ (s.goto c p) c := by
  obtain ⟨hok, hf, hdest⟩ := (hs c).thiefAt hp
  refine ⟨⟨hok, hdest, ?_, Nat.zero_le _⟩, Workers.found_goto hf rfl (hall _), rfl,
    fun _ => Agree.refl⟩
  show ((s.goto c p).pc k.victim).owner.building ≠ some (s.worker k.victim).inner
  by_cases hv : k.victim = c
  · rw [hv, Workers.pc_goto_self, hp']
    exact (Option.some_ne_none _).symm
  · rw [Workers.pc_goto_of_ne p hv]
    exact (hs k.victim).owner.ok.building_ne_inner

theorem Workers.ok_raidBuffer {k : Raid κ} {dest destB : Nat} (hs : ∀ d, s.CpuOk d)
    (hp : s.pc c = .raidBuffer k dest destB) :
    (s.goto c (if k.op = .batch then match s.flavor k.victim with
        | .fifo => .raidRead ⟨k, dest, destB, (s.worker k.victim).inner, none, 0⟩ 0
        | .lifo => .lootRead ⟨k, dest, destB, (s.worker k.victim).inner, none, 0⟩
      else .raidTask ⟨k, dest, destB, (s.worker k.victim).inner, none, 0⟩)).After s := by
  obtain ⟨hok, hf, hdest⟩ := (hs c).thiefAt hp
  have howner : (s.pc c).owner = .reserved k.n k := by rw [hp]; rfl
  split
  · rename_i hop
    cases hfl : s.flavor k.victim with
    | fifo =>
      refine Workers.ok_reserved (k := k) hs howner rfl (fun hall => ?_)
      exact ⟨Workers.fresh_raidBuffer hs hp rfl hall, .inl hfl, Nat.zero_le _,
        fun _ => ⟨fun hne => absurd hop hne, fun j hj => absurd hj (Nat.not_lt_zero j)⟩⟩
    | lifo =>
      refine Workers.ok_reserved (k := k) hs howner rfl (fun hall => ?_)
      have hfresh := Workers.fresh_raidBuffer hs hp
        (p := .lootRead ⟨k, dest, destB, (s.worker k.victim).inner, none, 0⟩) rfl hall
      have hreach := hfresh.found
      rw [Workers.Found, Workers.flavor_goto, hfl] at hreach
      refine ⟨⟨hfresh.toOk, hfl, ?_, hok.pos hop, fun _ => ?_⟩, hreach⟩
      · show k.op ≠ .steal
        rw [hop]
        decide
      · rw [Workers.Reach, Workers.flavor_goto, hfl] at hreach
        exact hreach.2.1
  · rename_i hop
    refine Workers.ok_reserved (k := k) hs howner rfl (fun hall => ?_)
    exact ⟨Workers.fresh_raidBuffer hs hp rfl hall, hop⟩

theorem Workers.keeps_goto : s.Keeps (s.goto c p) c := ⟨rfl, rfl⟩

theorem Workers.ok_raidTask (hs : ∀ d, s.CpuOk d) (hp : s.pc c = .raidTask h) :
    (s.goto c (if h.op = .batchAndPop ∧ s.flavor h.victim = .lifo
      then .lootFirst { h with task := ((s.worker h.victim).heap h.buffer).read h.f }
      else .raidRead { h with task := ((s.worker h.victim).heap h.buffer).read h.f } 0)).After s := by
  obtain ⟨hk, hop⟩ := (hs c).thiefAt hp
  have howner : (s.pc c).owner = .reserved h.n h.toRaid := by rw [hp]; rfl
  have hcopy : Loot.Copied { h with task := ((s.worker h.victim).heap h.buffer).read h.f } s c 0 := by
    intro hbase
    refine ⟨fun _ => ?_, fun j hj => absurd hj (Nat.not_lt_zero j)⟩
    have hpos := h.toRaid.span_pos c hk.raid (s.flavor h.victim)
    exact hk.source hbase h.f le_rfl (by omega)
  have hfresh := hk.withTask (((s.worker h.victim).heap h.buffer).read h.f)
  have hframe : ∀ p, (∀ v, s.Rely (s.goto c p) v) →
      Loot.Fresh { h with task := ((s.worker h.victim).heap h.buffer).read h.f } (s.goto c p) c ∧
      Loot.Copied { h with task := ((s.worker h.victim).heap h.buffer).read h.f } (s.goto c p) c 0 := by
    intro p hall
    refine ⟨(hk.frame (by rw [hp]; rfl) Workers.keeps_goto (hall _) rfl (hs _).owner).withTask _, ?_⟩
    exact hcopy.frame hfresh rfl (hall _) rfl (hs _).owner (.inl rfl)
  split
  · rename_i hl
    refine Workers.ok_reserved (k := h.toRaid) hs howner rfl (fun hall => ?_)
    obtain ⟨hf, hc⟩ := hframe _ hall
    exact ⟨hf, hl.1, hl.2, hc⟩
  · rename_i hl
    refine Workers.ok_reserved (k := h.toRaid) hs howner rfl (fun hall => ?_)
    obtain ⟨hf, hc⟩ := hframe _ hall
    refine ⟨hf, ?_, Nat.zero_le _, hc⟩
    show s.flavor h.victim = .fifo ∨ h.op = .steal
    cases hfl : s.flavor h.victim with
    | fifo => exact .inl rfl
    | lifo =>
      cases ho : h.op with
      | steal => exact .inr rfl
      | batch => exact absurd ho hop
      | batchAndPop => exact absurd ⟨ho, hfl⟩ hl

theorem Workers.ok_raidRead (hs : ∀ d, s.CpuOk d) (hp : s.pc c = .raidRead h i) :
    (s.goto c (if i = h.n then .raidCheck h
      else .raidWrite h i
        (((s.worker h.victim).heap h.buffer).read (h.f + h.op.skip + i)))).After s := by
  obtain ⟨hk, ha, hi, hcopy⟩ := (hs c).thiefAt hp
  have howner : (s.pc c).owner = .reserved h.n h.toRaid := by rw [hp]; rfl
  have hfresh : ∀ p, (∀ v, s.Rely (s.goto c p) v) → h.Fresh (s.goto c p) c := fun p hall =>
    hk.frame (by rw [hp]; rfl) Workers.keeps_goto (hall _) rfl (hs _).owner
  have hcopy' : ∀ p, (∀ v, s.Rely (s.goto c p) v) → h.Copied (s.goto c p) c i := fun p hall =>
    hcopy.frame hk rfl (hall _) rfl (hs _).owner (.inr (hk.skip_le ha hi))
  split
  · rename_i he
    refine Workers.ok_reserved (k := h.toRaid) hs howner rfl (fun hall => ?_)
    exact ⟨hfresh _ hall, ha, he ▸ hcopy' _ hall⟩
  · rename_i hne
    refine Workers.ok_reserved (k := h.toRaid) hs howner rfl (fun hall => ?_)
    refine ⟨hfresh _ hall, ha, Nat.lt_of_le_of_ne hi hne, hcopy' _ hall, fun hbase => ?_⟩
    have hle := hk.skip_le (i := i + 1) ha (by omega)
    exact hk.source ((hall _).base.trans hbase) _ (by omega) (by omega)

theorem Workers.keeps_write {j : Nat} : s.Keeps ((s.put c ((s.worker c).write n j x)).goto c p) c := by
  constructor
  · rw [Workers.worker_goto, Workers.worker_put_self]
    rfl
  · rw [Workers.worker_goto, Workers.worker_put_self]
    rfl

theorem Workers.ok_raidWrite (hs : ∀ d, s.CpuOk d) (hp : s.pc c = .raidWrite h i x) :
    ((s.put c ((s.worker c).write h.dest (h.place (s.flavor c) i) x)).goto c
      (.raidRead h (i + 1))).After s := by
  obtain ⟨hk, ha, hi, hcopy, hx⟩ := (hs c).thiefAt hp
  have howner : (s.pc c).owner = .reserved h.n h.toRaid := by rw [hp]; rfl
  have hop : h.op ≠ .steal := fun ho => by
    have hn := hk.raid.single ho
    omega
  have hv : h.victim ≠ c := hk.raid.foreign hop
  obtain ⟨hdest, hdestB⟩ := hk.dest hop
  obtain ⟨j, hj, hplace, hothers⟩ := h.place_eq (s.flavor c) hi
  have hok := (hs c).owner.reserved howner
  rw [hplace, hdest, hdestB]
  obtain ⟨hown, hrely⟩ := (hs c).owner.rely_write (e := s.Held c) (x := x)
    (q := .raidRead h (i + 1)) howner hj rfl
  refine Workers.ok_put hs hown hrely (fun hall => ?_)
  refine ⟨hk.frame (by rw [hp]; rfl) Workers.keeps_write (hall _) rfl (hs _).owner, ha, hi,
    fun hbase => ?_⟩
  have hvictim : ((s.put c ((s.worker c).write (s.worker c).cell ((s.worker c).back + j) x)).goto c
      (.raidRead h (i + 1))).worker h.victim = s.worker h.victim := Workers.worker_put_of_ne _ hv
  have hbase' := (hall h.victim).base.trans hbase
  obtain ⟨htask, hcopied⟩ := hcopy hbase'
  rw [hvictim, Workers.worker_goto, Workers.worker_put_self, Workers.flavor_goto,
    Workers.flavor_put]
  refine ⟨htask, fun l hl => ?_⟩
  obtain hl | rfl := Nat.lt_succ_iff_lt_or_eq.mp hl
  · obtain ⟨r, hr, hne, hrplace⟩ := hothers l hl
    have hcl := hcopied l hl
    rw [hrplace, hdest, hdestB] at hcl ⊢
    rw [Worker.read_reserved hok hj hr hne]
    exact hcl
  · rw [hplace, hdest, hdestB, Worker.heap_write_self, Buffer.read_write_self]
    exact hx hbase'

theorem Workers.ok_raidCheck (hs : ∀ d, s.CpuOk d) (hp : s.pc c = .raidCheck h) :
    (s.goto c (if (s.worker h.victim).inner ≠ h.buffer then .answer .retry
      else .raidExchange h)).After s := by
  obtain ⟨hk, ha, hcopy⟩ := (hs c).thiefAt hp
  have howner : (s.pc c).owner = .reserved h.n h.toRaid := by rw [hp]; rfl
  split
  · exact Workers.ok_answer hs howner _
  · refine Workers.ok_reserved (k := h.toRaid) hs howner rfl (fun hall => ?_)
    exact ⟨hk.frame (by rw [hp]; rfl) Workers.keeps_goto (hall _) rfl (hs _).owner, ha,
      hcopy.frame hk rfl (hall _) rfl (hs _).owner (.inr (hk.skip_le ha le_rfl))⟩

theorem Workers.keeps_exchange {j : Nat} (hv : v ≠ c) :
    s.Keeps ((s.put v { s.worker v with front := j }).goto c p) c := by
  have hw : ((s.put v { s.worker v with front := j }).goto c p).worker c = s.worker c :=
    Workers.worker_put_of_ne _ hv.symm
  exact ⟨by rw [hw], by rw [hw]⟩

theorem Workers.ok_raidExchange (hs : ∀ d, s.CpuOk d) (hp : s.pc c = .raidExchange h) :
    (if (s.worker h.victim).front = h.f
      then (s.put h.victim { s.worker h.victim with front := h.f + (h.op.skip + h.n) }).goto c
        (if h.op = .steal then .answer h.answer else .lootStore { h with m := h.n })
      else s.goto c (.answer .retry)).After s := by
  obtain ⟨hk, ha, hcopy⟩ := (hs c).thiefAt hp
  have howner : (s.pc c).owner = .reserved h.n h.toRaid := by rw [hp]; rfl
  have hreach : s.Reach h.victim h.f (h.op.skip + h.n) := by
    rw [← Raid.span_atOnce hk.raid ha]
    exact hk.found
  split
  · rename_i hf
    split
    · exact Workers.ok_exchange hs howner hreach hf (.inr (WorkPc.resting_answer _))
        (fun _ => trivial)
    · rename_i hop
      refine Workers.ok_exchange hs howner hreach hf (.inl ⟨_, rfl⟩) (fun hall => ?_)
      have hok := hk.toOk.frame (by rw [hp]; rfl)
        (Workers.keeps_exchange (hk.raid.foreign hop)) (hall h.victim)
      exact ⟨⟨hok.raid, hok.dest, hok.published, le_rfl⟩, hop⟩
  · exact Workers.ok_answer hs howner _

end raid

section loop

theorem Workers.ok_finish (hs : ∀ d, s.CpuOk d) (hk : h.Loop s c) (hp : (s.pc c).loot = some h)
    (howner : (s.pc c).owner = .reserved h.n h.toRaid) :
    (s.goto c (h.finish (s.flavor c))).After s := by
  obtain ho | ⟨-, ho⟩ := h.owner_finish (s.flavor c)
  · refine Workers.ok_reserved hs howner ho (fun hall => ?_)
    exact Workers.thiefAt_finish (hk.toOk.frame hp Workers.keeps_goto (hall _)) hk.op hk.flavor
  · rw [ho]
    exact Workers.ok_answer hs howner _

theorem Workers.ok_lootFirst (hs : ∀ d, s.CpuOk d) (hp : s.pc c = .lootFirst h) :
    (if (s.worker h.victim).front = h.f
      then (s.put h.victim { s.worker h.victim with front := h.f + 1 }).goto c
        (Loot.again (s.flavor c) { h with f := h.f + 1 })
      else s.goto c (.answer .retry)).After s := by
  obtain ⟨hk, hop, hlifo, -⟩ := (hs c).thiefAt hp
  have howner : (s.pc c).owner = .reserved h.n h.toRaid := by rw [hp]; rfl
  have hne : h.op ≠ .steal := by rw [hop]; decide
  have hreach : s.Reach h.victim h.f 1 := by
    have hf := hk.found
    rw [Workers.Found, hlifo] at hf
    exact hf
  split
  · rename_i hf
    have hgoes : ¬Loot.GivesUp { h with f := h.f + 1 } := fun hg => by
      have hb : h.op = .batch := hg.1
      rw [hop] at hb
      cases hb
    refine Workers.ok_exchange hs howner hreach hf
      (.inl ⟨_, Loot.owner_again { h with f := h.f + 1 } (s.flavor c) hgoes⟩) (fun hall => ?_)
    have hok := hk.toOk.frame (by rw [hp]; rfl)
      (Workers.keeps_exchange (hk.raid.foreign hne)) (hall h.victim)
    refine Workers.thiefAt_again (h := { h with f := h.f + 1 })
      ⟨⟨hok.raid.foreign, hok.raid.few, hok.raid.single, hok.raid.pos⟩, hok.dest, hok.published,
        hok.le⟩ hne hlifo fun _ => ?_
    rw [Workers.worker_goto, Workers.worker_put_self]
  · exact Workers.ok_answer hs howner _

theorem Workers.ok_lootBack (hs : ∀ d, s.CpuOk d) (hp : s.pc c = .lootBack h) :
    (s.goto c (if (s.worker h.victim).back ≤ h.f then h.finish (s.flavor c)
      else .lootRead h)).After s := by
  have hk : h.Loop s c := (hs c).thiefAt hp
  have howner : (s.pc c).owner = .reserved h.n h.toRaid := by rw [hp]; rfl
  split
  · exact Workers.ok_finish hs hk (by rw [hp]; rfl) howner
  · rename_i hlt
    have hreach := Workers.reach_of_lt (n := 1) hs hk.sees (Nat.not_le.mp hlt) Nat.one_pos
      (by omega) fun _ => rfl
    refine Workers.ok_reserved (k := h.toRaid) hs howner rfl (fun hall => ?_)
    exact ⟨hk.frame (by rw [hp]; rfl) Workers.keeps_goto (hall _) rfl, (hall _).reach _ _ hreach⟩

theorem Workers.ok_lootRead (hs : ∀ d, s.CpuOk d) (hp : s.pc c = .lootRead h) :
    (s.goto c (.lootCheck h (((s.worker h.victim).heap h.buffer).read h.f))).After s := by
  have hk : h.Next s c := (hs c).thiefAt hp
  refine Workers.ok_reserved (k := h.toRaid) hs (by rw [hp]; rfl) rfl (fun hall => ?_)
  exact ⟨hk.frame (by rw [hp]; rfl) Workers.keeps_goto (hall _) rfl, fun _ => rfl⟩

theorem Workers.ok_lootCheck (hs : ∀ d, s.CpuOk d) (hp : s.pc c = .lootCheck h x) :
    (s.goto c (if (s.worker h.victim).inner ≠ h.buffer then h.finish (s.flavor c)
      else .lootExchange h x)).After s := by
  obtain ⟨hk, hx⟩ := (hs c).thiefAt hp
  have howner : (s.pc c).owner = .reserved h.n h.toRaid := by rw [hp]; rfl
  split
  · exact Workers.ok_finish hs hk.toLoop (by rw [hp]; rfl) howner
  · rename_i hin
    rw [not_not] at hin
    refine Workers.ok_reserved (k := h.toRaid) hs howner rfl (fun hall => ?_)
    refine ⟨hk.frame (by rw [hp]; rfl) Workers.keeps_goto (hall _) rfl, fun hbase => ?_⟩
    rw [hx ((hall _).base.trans hbase), Workers.worker_goto, Worker.shared, hin]

theorem Workers.ok_lootExchange (hs : ∀ d, s.CpuOk d) (hp : s.pc c = .lootExchange h x) :
    (if (s.worker h.victim).front = h.f
      then (s.put h.victim { s.worker h.victim with front := h.f + 1 }).goto c
        (.lootWrite { h with f := h.f + 1 } x)
      else s.goto c (h.finish (s.flavor c))).After s := by
  obtain ⟨hk, -⟩ := (hs c).thiefAt hp
  have howner : (s.pc c).owner = .reserved h.n h.toRaid := by rw [hp]; rfl
  split
  · rename_i hf
    refine Workers.ok_exchange hs howner hk.reach hf (.inl ⟨_, rfl⟩) (fun hall => ?_)
    have hok := hk.toOk.frame (by rw [hp]; rfl)
      (Workers.keeps_exchange (hk.raid.foreign hk.op)) (hall h.victim)
    refine ⟨⟨⟨hok.raid.foreign, hok.raid.few, hok.raid.single, hok.raid.pos⟩, hok.dest,
      hok.published, hok.le⟩, hk.flavor, hk.op, hk.more, fun _ => ?_⟩
    rw [Workers.worker_goto, Workers.worker_put_self]
  · exact Workers.ok_finish hs hk.toLoop (by rw [hp]; rfl) howner

theorem Workers.ok_lootWrite (hs : ∀ d, s.CpuOk d) (hp : s.pc c = .lootWrite h x) :
    ((s.put c ((s.worker c).write h.dest (h.destB + h.m) (h.write x))).goto c
      ((h.moved x).again (s.flavor c))).After s := by
  have hk : h.Loop s c := (hs c).thiefAt hp
  have howner : (s.pc c).owner = .reserved h.n h.toRaid := by rw [hp]; rfl
  obtain ⟨hdest, hdestB⟩ := hk.dest hk.op
  have hgoes : ¬(h.moved x).GivesUp := fun hg => absurd hg.2 (Nat.succ_ne_zero h.m)
  rw [hdest, hdestB]
  obtain ⟨hown, hrely⟩ := (hs c).owner.rely_write (e := s.Held c) (x := h.write x) howner hk.more
    ((h.moved x).owner_again (s.flavor c) hgoes)
  refine Workers.ok_put hs hown hrely (fun hall => ?_)
  have hloop := hk.frame (by rw [hp]; rfl) Workers.keeps_write (hall _) rfl
  exact Workers.thiefAt_again (h := h.moved x) ⟨hloop.raid, hloop.dest, hloop.published, hloop.more⟩
    hloop.op hloop.flavor hloop.sees

end loop

section turn

theorem Workers.ok_swapFirst (hs : ∀ d, s.CpuOk d) (hp : s.pc c = .swapFirst h i) :
    (s.goto c (if i < h.m / 2
      then .swapLast h i (((s.worker c).heap h.dest).read (h.destB + i)) else .lootStore h)).After s := by
  have hk : h.Turns s c := (hs c).thiefAt hp
  have howner : (s.pc c).owner = .reserved h.n h.toRaid := by rw [hp]; rfl
  split
  · rename_i hi
    refine Workers.ok_reserved (k := h.toRaid) hs howner rfl (fun hall => ?_)
    exact ⟨hk.frame (by rw [hp]; rfl) Workers.keeps_goto (hall _) rfl, hi⟩
  · refine Workers.ok_reserved (k := h.toRaid) hs howner rfl (fun hall => ?_)
    exact ⟨hk.toOk.frame (by rw [hp]; rfl) Workers.keeps_goto (hall _), hk.op⟩

theorem Workers.ok_swapLast (hs : ∀ d, s.CpuOk d) (hp : s.pc c = .swapLast h i x) :
    (s.goto c (.swapStore h i x
      (((s.worker c).heap h.dest).read (h.destB + (h.m - 1 - i))))).After s := by
  obtain ⟨hk, hi⟩ := (hs c).thiefAt hp
  refine Workers.ok_reserved (k := h.toRaid) hs (by rw [hp]; rfl) rfl (fun hall => ?_)
  exact ⟨hk.frame (by rw [hp]; rfl) Workers.keeps_goto (hall _) rfl, hi⟩

theorem Workers.ok_swapStore (hs : ∀ d, s.CpuOk d) (hp : s.pc c = .swapStore h i x y) :
    ((s.put c ((s.worker c).write h.dest (h.destB + i) y)).goto c (.swapStored h i x)).After s := by
  obtain ⟨hk, hi⟩ := (hs c).thiefAt hp
  obtain ⟨hdest, hdestB⟩ := hk.dest hk.op
  have hle := hk.le
  rw [hdest, hdestB]
  obtain ⟨hown, hrely⟩ := (hs c).owner.rely_write (e := s.Held c) (x := y) (i := i)
    (q := .swapStored h i x) (n := h.n) (k := h.toRaid) (by rw [hp]; rfl) (by omega) rfl
  refine Workers.ok_put hs hown hrely (fun hall => ?_)
  exact ⟨hk.frame (by rw [hp]; rfl) Workers.keeps_write (hall _) rfl, hi⟩

theorem Workers.ok_swapStored (hs : ∀ d, s.CpuOk d) (hp : s.pc c = .swapStored h i x) :
    ((s.put c ((s.worker c).write h.dest (h.destB + (h.m - 1 - i)) x)).goto c
      (.swapFirst h (i + 1))).After s := by
  obtain ⟨hk, hi⟩ := (hs c).thiefAt hp
  obtain ⟨hdest, hdestB⟩ := hk.dest hk.op
  have hle := hk.le
  rw [hdest, hdestB]
  obtain ⟨hown, hrely⟩ := (hs c).owner.rely_write (e := s.Held c) (x := x) (i := h.m - 1 - i)
    (q := .swapFirst h (i + 1)) (n := h.n) (k := h.toRaid) (by rw [hp]; rfl) (by omega) rfl
  refine Workers.ok_put hs hown hrely (fun hall => ?_)
  exact hk.frame (by rw [hp]; rfl) Workers.keeps_write (hall _) rfl

theorem Workers.ok_lootStore (hs : ∀ d, s.CpuOk d) (hp : s.pc c = .lootStore h) :
    ((s.put c { s.worker c with back := h.destB + h.m }).goto c (.answer h.answer)).After s := by
  obtain ⟨hk, hop⟩ := (hs c).thiefAt hp
  obtain ⟨-, hdestB⟩ := hk.dest hop
  rw [hdestB]
  obtain ⟨hown, hrely⟩ := (hs c).owner.rely_store (e := s.Held c) (r := h.answer) (n := h.n)
    (k := h.toRaid) (by rw [hp]; rfl) hk.le
  exact Workers.ok_put hs hown hrely (fun _ => trivial)

end turn

section step

theorem Workers.advance_own {q : WorkerPc T (Raid κ)} (hq : ∀ n k, q ≠ .reserved n k)
    (hlifo : s.flavor c = .lifo → ∀ b, q ≠ .popFront b) :
    s.advance c a (.own q) =
      (s.put c ((s.worker c).step a q).1).goto c (.own ((s.worker c).step a q).2) := by
  cases q with
  | reserved n k => exact absurd rfl (hq n k)
  | popFront b =>
    rw [Workers.advance.eq_def]
    cases hfl : s.flavor c with
    | fifo => rfl
    | lifo => exact absurd rfl (hlifo hfl b)
  | _ =>
    rw [Workers.advance.eq_def]
    cases s.flavor c <;> rfl

theorem Workers.advance_popFront {b : Nat} (hfl : s.flavor c = .lifo) :
    s.advance c a (.own (.popFront b)) =
      s.goto c (if b ≤ (s.worker c).front then .own .idle else .lifoStore (b - 1)) := by
  rw [Workers.advance.eq_def]
  simp only [hfl]

theorem Workers.ok_ownPlace {q : WorkerPc T (Raid κ)} (hs : ∀ d, s.CpuOk d) (hp : s.pc c = .own q)
    (ha : q.allocates = true → s.Free c a) : (s.advance c a (.own q)).After s := by
  by_cases hr : ∃ n k, q = .reserved n k
  · obtain ⟨n, k, rfl⟩ := hr
    exact Workers.ok_reservedOwn hs hp
  · have hne : ∀ n k, q ≠ .reserved n k := fun n k he => hr ⟨n, k, he⟩
    by_cases hl : s.flavor c = .lifo ∧ ∃ b, q = .popFront b
    · obtain ⟨hfl, b, rfl⟩ := hl
      rw [Workers.advance_popFront hfl]
      exact Workers.ok_lifoPopFront hs hp hfl
    · have hlifo : s.flavor c = .lifo → ∀ b, q ≠ .popFront b := fun hfl b he => hl ⟨hfl, b, he⟩
      rw [Workers.advance_own hne hlifo]
      exact Workers.ok_own hs hp ha hlifo

theorem Workers.ok_advance (hs : ∀ d, s.CpuOk d) (ha : (s.pc c).allocates = true → s.Free c a) :
    (s.advance c a (s.pc c)).After s := by
  cases hp : s.pc c with
  | own q => exact Workers.ok_ownPlace hs hp (by rw [hp] at ha; exact ha)
  | lifoStore b => exact Workers.ok_lifoStore hs hp
  | lifoFront b => exact Workers.ok_lifoFront hs hp
  | lifoUndo b => exact Workers.ok_lifoUndo hs hp
  | lifoCell b f => exact Workers.ok_lifoCell hs hp
  | lifoRead b f q => exact Workers.ok_lifoRead hs hp
  | lifoExchange b x => exact Workers.ok_lifoExchange hs hp
  | lifoRestore b r => exact Workers.ok_lifoRestore hs hp
  | queryBack q =>
    refine Workers.ok_rest (p := .queryFront q (s.worker c).back) hs ?_
      (WorkPc.resting_queryFront q _) (fun _ => rfl)
    rw [hp]
    exact WorkPc.resting_queryBack q
  | queryFront q b =>
    refine Workers.ok_rest hs ?_ (WorkPc.resting_answer _) (fun _ => trivial)
    rw [hp]
    exact WorkPc.resting_queryFront q b
  | raidFront op v => exact Workers.ok_raidFront hs hp
  | raidBack op v f => exact Workers.ok_raidBack hs hp
  | raidDest k dest => exact Workers.ok_raidDest hs hp
  | raidBuffer k dest destB => exact Workers.ok_raidBuffer hs hp
  | raidTask h => exact Workers.ok_raidTask hs hp
  | raidRead h i => exact Workers.ok_raidRead hs hp
  | raidWrite h i x => exact Workers.ok_raidWrite hs hp
  | raidCheck h => exact Workers.ok_raidCheck hs hp
  | raidExchange h => exact Workers.ok_raidExchange hs hp
  | lootFirst h => exact Workers.ok_lootFirst hs hp
  | lootBack h => exact Workers.ok_lootBack hs hp
  | lootRead h => exact Workers.ok_lootRead hs hp
  | lootCheck h x => exact Workers.ok_lootCheck hs hp
  | lootExchange h x => exact Workers.ok_lootExchange hs hp
  | lootWrite h x => exact Workers.ok_lootWrite hs hp
  | swapFirst h i => exact Workers.ok_swapFirst hs hp
  | swapLast h i x => exact Workers.ok_swapLast hs hp
  | swapStore h i x y => exact Workers.ok_swapStore hs hp
  | swapStored h i x => exact Workers.ok_swapStored hs hp
  | lootStore h => exact Workers.ok_lootStore hs hp
  | answer r =>
    refine Workers.ok_rest hs ?_ WorkPc.resting_idle (fun _ n k hk => by cases hk)
    rw [hp]
    exact WorkPc.resting_answer r

theorem Workers.ok_call (hs : ∀ d, s.CpuOk d) (he : (s.pc c).isIdle = true) (k : WorkCall κ T) :
    (s.goto c (k.start c)).After s := by
  have hrest : (s.pc c).Resting := by
    rw [WorkPc.eq_idle he]
    exact WorkPc.resting_idle
  have hpop : (s.goto c (.own .popBack)).After s :=
    Workers.ok_begin (q := .popBack) hs hrest rfl rfl (fun w hw => ⟨hw.sound, trivial⟩)
      (fun _ => rfl) (fun n k hk => by cases hk)
  have hquery : ∀ q, (s.goto c (.queryBack q)).After s := fun q =>
    Workers.ok_rest hs hrest (WorkPc.resting_queryBack q) (fun _ => trivial)
  have hraid : ∀ op v, (op ≠ .steal → v ≠ c) → (s.goto c (.raidFront op v)).After s := fun op v hv =>
    Workers.ok_rest hs hrest (WorkPc.resting_raidFront op v) (fun _ => hv)
  cases k with
  | push t =>
    exact Workers.ok_begin (q := .pushBack t) hs hrest rfl rfl (fun w hw => ⟨hw.sound, trivial⟩)
      (fun _ => rfl) (fun n k hk => by cases hk)
  | pop => exact hpop
  | query q => exact hquery q
  | steal op v =>
    cases op with
    | steal => exact hraid .steal v fun hne => absurd rfl hne
    | batch =>
      rw [WorkCall.start]
      split
      · exact hquery .batch
      · rename_i hv
        exact hraid .batch v fun _ => hv
    | batchAndPop =>
      rw [WorkCall.start]
      split
      · exact hpop
      · rename_i hv
        exact hraid .batchAndPop v fun _ => hv

theorem Workers.ok_next {act : WorkAct κ T} (hs : ∀ d, s.CpuOk d) (he : s.Enabled act) :
    (s.next act).After s := by
  cases act with
  | call c k => exact Workers.ok_call hs he k
  | step c a => exact Workers.ok_advance hs he.2

end step

end Nacl
