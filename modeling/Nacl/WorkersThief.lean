import Nacl.WorkersOwner

/-! What every party knows while owners and thieves of worker queues of both flavors interleave.
What a thief read counts only if the tasks are still there when it moves `front`, so that all it
knows about them is on the condition that `base` has not passed them. -/

namespace Nacl

open Guarded Ring

variable {κ T : Type*} {s s' : Workers κ T} {c d v : κ} {f n i : Nat}

def Workers.base (s : Workers κ T) (v : κ) : Nat := (s.worker v).base (s.pc v).owner

def Workers.limit (s : Workers κ T) (v : κ) : Nat := (s.worker v).limit (s.pc v)

def Workers.Sees (s : Workers κ T) (v : κ) (f : Nat) : Prop := (s.worker v).Sees (s.flavor v) f

def Workers.Reach (s : Workers κ T) (v : κ) (f n : Nat) : Prop :=
  (s.worker v).Reach (s.flavor v) (s.pc v) f n

/-- A thief that is pinned holds this buffer of the queue of `v`. -/
def Workers.Held (s : Workers κ T) (v : κ) (q : Nat) : Prop :=
  ∃ d h, (s.pc d).loot = some h ∧ h.victim = v ∧ h.buffer = q

def Workers.Rely (s s' : Workers κ T) (v : κ) : Prop :=
  Worker.Rely (s.flavor v) (s.Held v) (s.worker v) (s.pc v) (s'.worker v) (s'.pc v)

/-- The number of tasks that one exchange of the front index takes. -/
def Raid.span (k : Raid κ) : Flavor → Nat
  | .fifo => k.op.skip + k.n
  | .lifo => 1

structure Raid.Ok (k : Raid κ) (d : κ) : Prop where
  foreign : k.op ≠ .steal → k.victim ≠ d
  few : k.op.skip + k.n ≤ maxBatch
  single : k.op = .steal → k.n = 0
  pos : k.op = .batch → 0 < k.n

def Workers.Found (s : Workers κ T) (k : Raid κ) : Prop :=
  s.Reach k.victim k.f (k.span (s.flavor k.victim))

structure Loot.Ok (h : Loot κ T) (s : Workers κ T) (d : κ) : Prop where
  raid : h.toRaid.Ok d
  dest : h.op ≠ .steal → h.dest = (s.worker d).cell ∧ h.destB = (s.worker d).back
  published : (s.pc h.victim).owner.building ≠ some h.buffer
  le : h.m ≤ h.n

/-- A thief before its first exchange of the front index. -/
structure Loot.Fresh (h : Loot κ T) (s : Workers κ T) (d : κ) : Prop extends h.Ok s d where
  found : s.Found h.toRaid
  none : h.m = 0
  source : s.base h.victim ≤ h.f →
    Agree ((s.worker h.victim).heap h.buffer) (s.worker h.victim).shared h.f
      (h.f + h.span (s.flavor h.victim))

/-- A thief in the loop that steals from a LIFO queue one by one. -/
structure Loot.Loop (h : Loot κ T) (s : Workers κ T) (d : κ) : Prop extends h.Ok s d where
  flavor : s.flavor h.victim = .lifo
  op : h.op ≠ .steal
  more : h.m < h.n
  sees : s.Sees h.victim h.f

/-- A thief in the loop that has found a task at the front. -/
structure Loot.Next (h : Loot κ T) (s : Workers κ T) (d : κ) : Prop extends h.Loop s d where
  reach : s.Reach h.victim h.f 1

/-- What the thief has read is what the victim's queue holds, up to the `i`-th task that it is
to move. -/
def Loot.Copied (h : Loot κ T) (s : Workers κ T) (d : κ) (i : Nat) : Prop :=
  s.base h.victim ≤ h.f →
    (h.op ≠ .batch → h.task = (s.worker h.victim).shared.read h.f) ∧
    ∀ j, j < i → ((s.worker d).heap h.dest).read (h.place (s.flavor d) j) =
      (s.worker h.victim).shared.read (h.f + h.op.skip + j)

/-- The batch of the call is taken by one exchange. -/
def Workers.AtOnce (s : Workers κ T) (k : Raid κ) : Prop :=
  s.flavor k.victim = .fifo ∨ k.op = .steal

/-- A thief that turns around the tasks in the room that it reserved. -/
structure Loot.Turns (h : Loot κ T) (s : Workers κ T) (d : κ) : Prop extends h.Ok s d where
  op : h.op ≠ .steal
  victim : s.flavor h.victim = .lifo
  flavor : s.flavor d = .fifo

def Workers.ThiefAt (s : Workers κ T) (d : κ) : WorkPc κ T → Prop
  | .own p => ∀ n k, p.reserving = some (n, k) → n = k.n ∧ k.op ≠ .steal ∧ k.Ok d ∧ s.Found k
  | .queryFront _ b => b = (s.worker d).back
  | .raidFront op v => op ≠ .steal → v ≠ d
  | .raidBack op v f => (op ≠ .steal → v ≠ d) ∧ s.Sees v f
  | .raidDest k dest => k.op ≠ .steal ∧ k.Ok d ∧ s.Found k ∧ dest = (s.worker d).cell
  | .raidBuffer k dest destB => k.Ok d ∧ s.Found k ∧
      (k.op ≠ .steal → dest = (s.worker d).cell ∧ destB = (s.worker d).back)
  | .raidTask h => h.Fresh s d ∧ h.op ≠ .batch
  | .raidRead h i => h.Fresh s d ∧ s.AtOnce h.toRaid ∧ i ≤ h.n ∧ h.Copied s d i
  | .raidWrite h i x => h.Fresh s d ∧ s.AtOnce h.toRaid ∧ i < h.n ∧ h.Copied s d i ∧
      (s.base h.victim ≤ h.f → x = (s.worker h.victim).shared.read (h.f + h.op.skip + i))
  | .raidCheck h | .raidExchange h => h.Fresh s d ∧ s.AtOnce h.toRaid ∧ h.Copied s d h.n
  | .lootFirst h =>
    h.Fresh s d ∧ h.op = .batchAndPop ∧ s.flavor h.victim = .lifo ∧ h.Copied s d 0
  | .lootBack h | .lootWrite h _ => h.Loop s d
  | .lootRead h => h.Next s d
  | .lootCheck h x => h.Next s d ∧
      (s.base h.victim ≤ h.f → x = ((s.worker h.victim).heap h.buffer).read h.f)
  | .lootExchange h x => h.Next s d ∧
      (s.base h.victim ≤ h.f → x = (s.worker h.victim).shared.read h.f)
  | .swapFirst h _ => h.Turns s d
  | .swapLast h i _ | .swapStore h i _ _ | .swapStored h i _ => h.Turns s d ∧ i < h.m / 2
  | .lootStore h => h.Ok s d ∧ h.op ≠ .steal
  | _ => True

structure Workers.CpuOk (s : Workers κ T) (d : κ) : Prop where
  owner : (s.worker d).OwnerOk (s.flavor d) (s.pc d)
  thief : s.ThiefAt d (s.pc d)

theorem Workers.CpuOk.thiefAt {p : WorkPc κ T} (h : s.CpuOk d) (hp : s.pc d = p) : s.ThiefAt d p :=
  hp ▸ h.thief

theorem Workers.CpuOk.ownerAt {p : WorkPc κ T} (h : s.CpuOk d) (hp : s.pc d = p) :
    (s.worker d).OwnerOk (s.flavor d) p := hp ▸ h.owner

theorem Raid.span_pos (k : Raid κ) (d : κ) (hk : k.Ok d) (fl : Flavor) : 0 < k.span fl := by
  cases fl with
  | fifo =>
    cases hop : k.op with
    | batch =>
      have hpos := hk.pos hop
      rw [Raid.span]
      omega
    | steal | batchAndPop =>
      rw [Raid.span, hop]
      exact Nat.add_pos_left Nat.one_pos _
  | lifo => exact Nat.one_pos

theorem Raid.span_atOnce {k : Raid κ} (hk : k.Ok d) (h : s.AtOnce k) :
    k.span (s.flavor k.victim) = k.op.skip + k.n := by
  obtain h | h := h
  · rw [h]
    rfl
  · rw [hk.single h, h]
    cases s.flavor k.victim with
    | fifo =>
      rw [Raid.span, h, hk.single h]
    | lifo => rfl

/-- The tasks that a thief found stay where they are. -/
theorem Workers.Rely.read_shared (hr : s.Rely s' v) (hv : (s.worker v).OwnerOk (s.flavor v) (s.pc v))
    (hf : s.Reach v f n) (hbase : s'.base v ≤ f) (hi : i < n) :
    (s'.worker v).shared.read (f + i) = (s.worker v).shared.read (f + i) := by
  have hbase' : s.base v ≤ f := hr.base.trans hbase
  have hle := (hf.le_limit hv hbase').2
  change s.base v ≤ f at hbase'
  exact hr.shared (f + i) (Nat.le_add_right_of_le hbase') (by omega)

theorem Workers.Rely.read_heap (hr : s.Rely s' v) (hv : (s.worker v).OwnerOk (s.flavor v) (s.pc v))
    (hf : s.Reach v f n) (hbase : s'.base v ≤ f) (hi : i < n) {q : Nat} (hq : s.Held v q)
    (hb : (s.pc v).owner.building ≠ some q) :
    ((s'.worker v).heap q).read (f + i) = ((s.worker v).heap q).read (f + i) := by
  have hbase' : s.base v ≤ f := hr.base.trans hbase
  have hle := (hf.le_limit hv hbase').2
  exact hr.heap q hq hb (f + i) (Nat.le_add_right_of_le hbase') (by omega)

/-- The own queue has the same buffer and the same back index. -/
structure Workers.Keeps (s s' : Workers κ T) (d : κ) : Prop where
  cell : (s'.worker d).cell = (s.worker d).cell
  back : (s'.worker d).back = (s.worker d).back

section frame

variable {h : Loot κ T}

theorem Loot.Ok.frame (hk : h.Ok s d) (hh : (s.pc d).loot = some h) (hw : s.Keeps s' d)
    (hr : s.Rely s' h.victim) : h.Ok s' d where
  raid := hk.raid
  dest ho := by
    rw [hw.cell, hw.back]
    exact hk.dest ho
  published := hr.building h.buffer ⟨d, h, hh, rfl, rfl⟩ hk.published
  le := hk.le

theorem Loot.Fresh.frame (hk : h.Fresh s d) (hh : (s.pc d).loot = some h) (hw : s.Keeps s' d)
    (hr : s.Rely s' h.victim) (hfl : s'.flavor = s.flavor)
    (hv : (s.worker h.victim).OwnerOk (s.flavor h.victim) (s.pc h.victim)) : h.Fresh s' d where
  toOk := hk.toOk.frame hh hw hr
  found := by
    have hreach := hr.reach _ _ hk.found
    rw [Workers.Found, Workers.Reach, hfl]
    exact hreach
  none := hk.none
  source hbase j hlo hhi := by
    have hj : j = h.f + (j - h.f) := by omega
    rw [hfl] at hhi
    rw [hj, hr.read_heap hv hk.found hbase (by omega) ⟨d, h, hh, rfl, rfl⟩ hk.published,
      hr.read_shared hv hk.found hbase (by omega)]
    exact hk.source (hr.base.trans hbase) _ (by omega) (by omega)

theorem Loot.Loop.frame (hk : h.Loop s d) (hh : (s.pc d).loot = some h) (hw : s.Keeps s' d)
    (hr : s.Rely s' h.victim) (hfl : s'.flavor = s.flavor) : h.Loop s' d where
  toOk := hk.toOk.frame hh hw hr
  flavor := by
    rw [hfl]
    exact hk.flavor
  op := hk.op
  more := hk.more
  sees := by
    rw [Workers.Sees, hfl]
    exact hk.sees.mono hr.sees

theorem Loot.Next.frame (hk : h.Next s d) (hh : (s.pc d).loot = some h) (hw : s.Keeps s' d)
    (hr : s.Rely s' h.victim) (hfl : s'.flavor = s.flavor) : h.Next s' d where
  toLoop := hk.toLoop.frame hh hw hr hfl
  reach := by
    rw [Workers.Reach, hfl]
    exact hr.reach _ _ hk.reach

theorem Loot.Turns.frame (hk : h.Turns s d) (hh : (s.pc d).loot = some h) (hw : s.Keeps s' d)
    (hr : s.Rely s' h.victim) (hfl : s'.flavor = s.flavor) : h.Turns s' d where
  toOk := hk.toOk.frame hh hw hr
  op := hk.op
  victim := by
    rw [hfl]
    exact hk.victim
  flavor := by
    rw [hfl]
    exact hk.flavor

theorem Loot.Copied.frame (hk : h.Copied s d i) (hfresh : h.Fresh s d)
    (hheap : (s'.worker d).heap = (s.worker d).heap) (hr : s.Rely s' h.victim)
    (hfl : s'.flavor = s.flavor)
    (hv : (s.worker h.victim).OwnerOk (s.flavor h.victim) (s.pc h.victim))
    (hi : i = 0 ∨ h.op.skip + i ≤ h.span (s.flavor h.victim)) : h.Copied s' d i := by
  intro hbase
  obtain ⟨htask, hcopy⟩ := hk (hr.base.trans hbase)
  have hpos := h.toRaid.span_pos d hfresh.raid (s.flavor h.victim)
  constructor
  · intro hop
    have hread := hr.read_shared hv hfresh.found hbase (i := 0) hpos
    rw [Nat.add_zero] at hread
    rw [hread]
    exact htask hop
  · intro j hj
    rw [hheap, hfl, hcopy j hj, Nat.add_assoc]
    exact (hr.read_shared hv hfresh.found hbase (by omega)).symm

end frame

theorem Loot.Fresh.skip_le {h : Loot κ T} (hk : h.Fresh s d) (ha : s.AtOnce h.toRaid) (hi : i ≤ h.n) :
    h.op.skip + i ≤ h.span (s.flavor h.victim) := by
  rw [Raid.span_atOnce hk.raid ha]
  exact Nat.add_le_add_left hi _

/-- A party that does not move keeps what it knows when the others keep to `Rely`. -/
theorem Workers.CpuOk.frame (hd : s.CpuOk d) (hs : ∀ v, (s.worker v).OwnerOk (s.flavor v) (s.pc v))
    (hpc : s'.pc d = s.pc d) (hfl : s'.flavor = s.flavor)
    (hown : (s'.worker d).OwnerOk (s.flavor d) (s.pc d)) (hr : ∀ v, s.Rely s' v)
    (hw : s.Keeps s' d) (hheap : (s'.worker d).heap = (s.worker d).heap) : s'.CpuOk d := by
  have hatOnce : ∀ k, s.AtOnce k → s'.AtOnce k := by
    intro k hk
    rw [Workers.AtOnce, hfl]
    exact hk
  have hfound : ∀ k, s.Found k → s'.Found k := by
    intro k hk
    rw [Workers.Found, Workers.Reach, hfl]
    exact (hr k.victim).reach _ _ hk
  refine ⟨by rw [hpc, hfl]; exact hown, ?_⟩
  rw [hpc]
  cases hp : s.pc d with
  | own p =>
    have ht : ∀ n k, _ := hd.thiefAt hp
    intro n k hk
    obtain ⟨hn, hop, hok, hf⟩ := ht n k hk
    exact ⟨hn, hop, hok, hfound k hf⟩
  | queryFront q b =>
    have ht := hd.thiefAt hp
    exact ht.trans hw.back.symm
  | raidFront op v => exact hd.thiefAt hp
  | raidBack op v f =>
    obtain ⟨hv, hf⟩ := hd.thiefAt hp
    refine ⟨hv, ?_⟩
    rw [Workers.Sees, hfl]
    exact hf.mono (hr v).sees
  | raidDest k dest =>
    obtain ⟨hop, hok, hf, hdest⟩ := hd.thiefAt hp
    exact ⟨hop, hok, hfound k hf, hdest.trans hw.cell.symm⟩
  | raidBuffer k dest destB =>
    obtain ⟨hok, hf, hdest⟩ := hd.thiefAt hp
    refine ⟨hok, hfound k hf, fun hop => ?_⟩
    rw [hw.cell, hw.back]
    exact hdest hop
  | raidTask h =>
    obtain ⟨hk, hop⟩ := hd.thiefAt hp
    exact ⟨hk.frame (by rw [hp]; rfl) hw (hr _) hfl (hs _), hop⟩
  | raidRead h i =>
    obtain ⟨hk, ha, hi, hcopy⟩ := hd.thiefAt hp
    exact ⟨hk.frame (by rw [hp]; rfl) hw (hr _) hfl (hs _), hatOnce _ ha, hi,
      hcopy.frame hk hheap (hr _) hfl (hs _) (.inr (hk.skip_le ha hi))⟩
  | raidWrite h i x =>
    obtain ⟨hk, ha, hi, hcopy, hx⟩ := hd.thiefAt hp
    refine ⟨hk.frame (by rw [hp]; rfl) hw (hr _) hfl (hs _), hatOnce _ ha, hi,
      hcopy.frame hk hheap (hr _) hfl (hs _) (.inr (hk.skip_le ha hi.le)), fun hbase => ?_⟩
    have hle := hk.skip_le ha (Nat.succ_le_of_lt hi)
    rw [hx ((hr _).base.trans hbase), Nat.add_assoc]
    exact ((hr _).read_shared (hs _) hk.found hbase (by omega)).symm
  | raidCheck h =>
    obtain ⟨hk, ha, hcopy⟩ := hd.thiefAt hp
    exact ⟨hk.frame (by rw [hp]; rfl) hw (hr _) hfl (hs _), hatOnce _ ha,
      hcopy.frame hk hheap (hr _) hfl (hs _) (.inr (hk.skip_le ha le_rfl))⟩
  | raidExchange h =>
    obtain ⟨hk, ha, hcopy⟩ := hd.thiefAt hp
    exact ⟨hk.frame (by rw [hp]; rfl) hw (hr _) hfl (hs _), hatOnce _ ha,
      hcopy.frame hk hheap (hr _) hfl (hs _) (.inr (hk.skip_le ha le_rfl))⟩
  | lootFirst h =>
    obtain ⟨hk, hop, hlifo, hcopy⟩ := hd.thiefAt hp
    refine ⟨hk.frame (by rw [hp]; rfl) hw (hr _) hfl (hs _), hop, ?_,
      hcopy.frame hk hheap (hr _) hfl (hs _) (.inl rfl)⟩
    rw [hfl]
    exact hlifo
  | lootBack h =>
    have ht : h.Loop s d := hd.thiefAt hp
    exact ht.frame (by rw [hp]; rfl) hw (hr _) hfl
  | lootWrite h x =>
    have ht : h.Loop s d := hd.thiefAt hp
    exact ht.frame (by rw [hp]; rfl) hw (hr _) hfl
  | lootRead h =>
    have ht : h.Next s d := hd.thiefAt hp
    exact ht.frame (by rw [hp]; rfl) hw (hr _) hfl
  | lootCheck h x =>
    obtain ⟨hk, hx⟩ := hd.thiefAt hp
    refine ⟨hk.frame (by rw [hp]; rfl) hw (hr _) hfl, fun hbase => ?_⟩
    have hread := (hr _).read_heap (hs _) hk.reach hbase Nat.one_pos
      ⟨d, h, by rw [hp]; rfl, rfl, rfl⟩ hk.published
    rw [Nat.add_zero] at hread
    rw [hread]
    exact hx ((hr _).base.trans hbase)
  | lootExchange h x =>
    obtain ⟨hk, hx⟩ := hd.thiefAt hp
    refine ⟨hk.frame (by rw [hp]; rfl) hw (hr _) hfl, fun hbase => ?_⟩
    have hread := (hr _).read_shared (hs _) hk.reach hbase Nat.one_pos
    rw [Nat.add_zero] at hread
    rw [hread]
    exact hx ((hr _).base.trans hbase)
  | swapFirst h i =>
    have ht : h.Turns s d := hd.thiefAt hp
    exact ht.frame (by rw [hp]; rfl) hw (hr _) hfl
  | swapLast h i x =>
    obtain ⟨hk, hi⟩ := hd.thiefAt hp
    exact ⟨hk.frame (by rw [hp]; rfl) hw (hr _) hfl, hi⟩
  | swapStore h i x y =>
    obtain ⟨hk, hi⟩ := hd.thiefAt hp
    exact ⟨hk.frame (by rw [hp]; rfl) hw (hr _) hfl, hi⟩
  | swapStored h i x =>
    obtain ⟨hk, hi⟩ := hd.thiefAt hp
    exact ⟨hk.frame (by rw [hp]; rfl) hw (hr _) hfl, hi⟩
  | lootStore h =>
    obtain ⟨hk, hop⟩ := hd.thiefAt hp
    exact ⟨hk.frame (by rw [hp]; rfl) hw (hr _), hop⟩
  | _ => trivial

theorem Workers.Rely.of_eq (hw : s'.worker v = s.worker v) (hpc : s'.pc v = s.pc v) :
    s.Rely s' v := by
  refine ⟨?_, fun _ => ?_, ?_, ?_, fun _ _ _ => ?_, fun _ _ hb => ?_⟩
  · rw [hw, hpc]
  · rw [hw]
  · rw [hw, hpc]
    exact fun _ _ h => h
  · rw [hw]
    exact Agree.refl
  · rw [hw]
    exact Agree.refl
  · rw [hpc]
    exact hb

/-- The state after a step: everybody still knows what it should, and no thief lost what it
relies on. -/
structure Workers.After (s' s : Workers κ T) : Prop where
  ok : ∀ d, s'.CpuOk d
  rely : ∀ v, s.Rely s' v

theorem Workers.ok_new (flavor : κ → Flavor) (d : κ) :
    (Workers.new flavor : Workers κ T).CpuOk d := by
  have hlive : (0 : Nat) ∈ ({0} : Finset Nat) := Finset.mem_singleton_self 0
  refine ⟨.of_ok ⟨⟨le_rfl, Nat.zero_le _, hlive, hlive, fun _ => rfl⟩, trivial⟩ rfl, ?_⟩
  intro n k hk
  cases hk

variable [DecidableEq κ]

@[simp] theorem Workers.worker_goto (p : WorkPc κ T) : (s.goto c p).worker = s.worker := rfl

@[simp] theorem Workers.flavor_goto (p : WorkPc κ T) : (s.goto c p).flavor = s.flavor := rfl

@[simp] theorem Workers.flavor_put (w : Worker T) : (s.put c w).flavor = s.flavor := rfl

@[simp] theorem Workers.pc_put (w : Worker T) : (s.put c w).pc = s.pc := rfl

@[simp] theorem Workers.pc_goto_self (p : WorkPc κ T) : (s.goto c p).pc c = p :=
  Function.update_self _ _ _

theorem Workers.pc_goto_of_ne (p : WorkPc κ T) (h : d ≠ c) : (s.goto c p).pc d = s.pc d :=
  Function.update_of_ne h _ _

@[simp] theorem Workers.worker_put_self (w : Worker T) : (s.put c w).worker c = w :=
  Function.update_self _ _ _

theorem Workers.worker_put_of_ne (w : Worker T) (h : d ≠ c) : (s.put c w).worker d = s.worker d :=
  Function.update_of_ne h _ _

/-- A step of `c` that changes no queue but its own. -/
theorem Workers.ok_put {w : Worker T} {p : WorkPc κ T} (hs : ∀ d, s.CpuOk d)
    (hown : w.OwnerOk (s.flavor c) p)
    (hr : Worker.Rely (s.flavor c) (s.Held c) (s.worker c) (s.pc c) w p)
    (ht : (∀ v, s.Rely ((s.put c w).goto c p) v) → ((s.put c w).goto c p).ThiefAt c p) :
    ((s.put c w).goto c p).After s := by
  have hall : ∀ v, s.Rely ((s.put c w).goto c p) v := by
    intro v
    by_cases hv : v = c
    · subst hv
      rw [Workers.Rely, Workers.pc_goto_self, Workers.worker_goto, Workers.worker_put_self]
      exact hr
    · exact .of_eq (Workers.worker_put_of_ne w hv) (Workers.pc_goto_of_ne p hv)
  refine ⟨fun d => ?_, hall⟩
  by_cases hd : d = c
  · subst hd
    refine ⟨?_, ?_⟩
    · rw [Workers.pc_goto_self, Workers.worker_goto, Workers.worker_put_self]
      exact hown
    · rw [Workers.pc_goto_self]
      exact ht hall
  · have hwd : ((s.put c w).goto c p).worker d = s.worker d := Workers.worker_put_of_ne w hd
    refine (hs d).frame (fun v => (hs v).owner) (Workers.pc_goto_of_ne p hd) rfl ?_ hall ?_ ?_
    · rw [hwd]
      exact (hs d).owner
    · exact ⟨by rw [hwd], by rw [hwd]⟩
    · rw [hwd]

theorem Workers.put_self : s.put c (s.worker c) = s := by
  rw [Workers.put, Function.update_eq_self]

/-- A step of `c` that changes nothing but its place. -/
theorem Workers.ok_goto {p : WorkPc κ T} (hs : ∀ d, s.CpuOk d)
    (hown : (s.worker c).OwnerOk (s.flavor c) p)
    (hr : Worker.Rely (s.flavor c) (s.Held c) (s.worker c) (s.pc c) (s.worker c) p)
    (ht : (∀ v, s.Rely (s.goto c p) v) → (s.goto c p).ThiefAt c p) :
    (s.goto c p).After s := by
  have hok := Workers.ok_put (w := s.worker c) hs hown hr
  rw [Workers.put_self] at hok
  exact hok ht

end Nacl
