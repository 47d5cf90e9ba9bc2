import Nacl.DequeOwner
import Nacl.DequeSteal

/-! What every CPU knows while owners and thieves interleave. A thief relies on its
victim to keep the tasks from `base` on where they are, in the buffer that the thief
loaded too; what it copied counts only if `base` has not passed its batch. -/

namespace Nacl

open Guarded Ring

variable {κ T β : Type*}

def WorkerPc.reserving : WorkerPc T β → Option (Nat × β)
  | .reserveBack n k | .reserveFront n k _ | .reserveBuffer n k _ | .reserved n k
  | .resize _ (.reserve n k) _ => some (n, k)
  | _ => none

section
variable {w : Worker T} {a : Nat}

theorem WorkerPc.Next.reserving {p p' : WorkerPc T β} {n : Nat} {k : β} (h : p.Next p')
    (hr : p'.reserving = some (n, k)) : p.reserving = some (n, k) := by
  cases h with
  | resume newCap j r =>
    cases j with
    | reserve m j => exact hr
    | _ => cases hr
  | resize newCap j r r' =>
    cases j with
    | reserve m j => exact hr
    | _ => cases hr
  | reserveBack | reserveFront | reserveGrow | reserveRoom | reserved => exact hr
  | _ => cases hr

theorem Worker.resizeStep_building {newCap : Ring.Capacity} {r r' : ResizePc T} {q : Nat}
    (hr : (w.resizeStep newCap a r).2 = some r') (h : r'.building = some q) :
    r.building = some q ∨ r.allocates = true ∧ q = a := by
  cases r with
  | alloc b f p =>
    cases hr
    cases h
    exact .inr ⟨rfl, rfl⟩
  | read b p new i =>
    cases hr
    split at h <;> exact .inl h
  | write b p new i x =>
    cases hr
    exact .inl h
  | _ =>
    cases hr
    try cases h

theorem WorkerPc.Next.building {p p' : WorkerPc T β} (h : p.Next p')
    (hp : ∀ newCap k r, p ≠ .resize newCap k r) : p'.building = none := by
  cases h with
  | resize newCap k r r' => exact absurd rfl (hp newCap k r)
  | resume newCap k r => exact absurd rfl (hp newCap k r)
  | _ => rfl

theorem Worker.building_step {p : WorkerPc T β} {q : Nat}
    (h : (w.step a p).2.building = some q) :
    p.building = some q ∨ p.allocates = true ∧ q = a := by
  by_cases hres : ∃ newCap j r, p = .resize newCap j r
  · obtain ⟨newCap, j, r, rfl⟩ := hres
    simp only [Worker.step] at h
    cases hr : (w.resizeStep newCap a r).2 with
    | none =>
      rw [hr] at h
      cases j <;> cases h
    | some r' =>
      rw [hr] at h
      exact Worker.resizeStep_building hr h
  · rw [(w.step_next a p).building fun newCap j r hp => hres ⟨newCap, j, r, hp⟩] at h
    cases h

theorem Worker.Ok.building_ne_inner {p : WorkerPc T β} (h : w.Ok p) :
    p.building ≠ some w.inner := by
  intro hb
  obtain ⟨hs, hk⟩ := h
  cases p with
  | resize newCap k r =>
    cases r with
    | read b p new i =>
      cases hb
      obtain ⟨-, f, hc⟩ := hk
      exact hc.built.ne (hs.same rfl).symm
    | write b p new i x =>
      cases hb
      obtain ⟨-, -, -, f, hc⟩ := hk
      exact hc.built.ne (hs.same rfl).symm
    | replace new =>
      cases hb
      exact hk.2.1.ne (hs.same rfl).symm
    | _ => cases hb
  | _ => cases hb

theorem Worker.Ok.base_eq_front {p : WorkerPc T β} (h : w.Ok p) (hle : w.front ≤ w.back) :
    w.base p = w.front := by
  cases p with
  | popUndo g =>
    obtain ⟨hg, hg'⟩ := h.known
    omega
  | _ => rfl

/-- A thief moves `front` past tasks that it took. -/
theorem Worker.Ok.withFront {p : WorkerPc T β} (h : w.Ok p) {f : Nat} (hf : w.base p = w.front)
    (hle : w.front ≤ f) (hle' : f ≤ w.back) : ({ w with front := f } : Worker T).Ok p := by
  obtain ⟨hs, hk⟩ := h
  have hs' := (hs.mono (hf.le.trans hle) hle').withFront f
  have hk' := hk.mono (hf.le.trans hle)
  cases p with
  | popUndo g =>
    obtain ⟨hg, hg'⟩ := hk
    change g = w.front at hf
    omega
  | resize newCap k r =>
    refine ⟨hs', ?_, hk'.2.withFront f⟩
    cases k with
    | push t b => exact hk.1
    | _ => trivial
  | _ => exact ⟨hs', hk'⟩

theorem Worker.Ok.writeReserved {n i : Nat} {k : β} {x : Option T}
    (h : w.Ok (.reserved n k)) : (w.write w.cell (w.back + i) x).Ok (.reserved n k) := by
  obtain ⟨hs, hk⟩ := h
  constructor
  · refine ⟨hs.le, ?_, hs.innerLive, hs.cellLive, hs.same⟩
    rw [show (w.write w.cell (w.back + i) x).buffer.cap = w.buffer.cap from Worker.cap_write]
    exact hs.fits
  · show w.back + n ≤ w.front + (w.write w.cell (w.back + i) x).buffer.cap.val
    rw [show (w.write w.cell (w.back + i) x).buffer.cap = w.buffer.cap from Worker.cap_write]
    exact hk

theorem Worker.Ok.storeReserved {n : Nat} {k : β} (h : w.Ok (.reserved n k)) :
    ({ w with back := w.back + n } : Worker T).Ok (.idle : WorkerPc T β) := by
  obtain ⟨hs, hk⟩ := h
  have hle : w.front ≤ w.back := hs.le
  exact ⟨⟨Nat.le_add_right_of_le hle, hk, hs.innerLive, hs.cellLive, hs.same⟩, trivial⟩

end

variable {s s' : Deques κ T} {c d v : κ} {i : Nat}

structure Batch.Ok (k : Batch κ) (s : Deques κ T) (d : κ) : Prop where
  pos : 0 < k.n
  foreign : k.victim ≠ d
  le : k.f + k.n ≤ (s.worker k.victim).back

/-- What thief `d` knows when it has copied the first `i` tasks of the batch. -/
structure Haul.Ok (h : Haul κ) (s : Deques κ T) (d : κ) (i : Nat) : Prop where
  le : i ≤ h.n
  dest : h.dest = (s.worker d).cell
  destB : h.destB = (s.worker d).back
  published : (s.pc h.victim).owner.building ≠ some h.buffer
  source : s.base h.victim ≤ h.f →
    Agree ((s.worker h.victim).heap h.buffer) (s.worker h.victim).shared h.f (h.f + h.n)
  copied : s.base h.victim ≤ h.f → ∀ j, j < i →
    ((s.worker d).heap h.dest).read (h.destB + j) = (s.worker h.victim).shared.read (h.f + j)

def Deques.ThiefAt (s : Deques κ T) (d : κ) : DequePc κ T → Prop
  | .stealFront v | .stealBack v _ => v ≠ d
  | .stealDest _ dest => dest = (s.worker d).cell
  | .stealBuffer _ dest b => dest = (s.worker d).cell ∧ b = (s.worker d).back
  | .stealRead h i => h.Ok s d i
  | .stealWrite h i x => h.Ok s d i ∧ i < h.n ∧
      (s.base h.victim ≤ h.f → x = (s.worker h.victim).shared.read (h.f + i))
  | .stealCheck h | .stealExchange h => h.Ok s d h.n
  | .stealStore h => h.dest = (s.worker d).cell ∧ h.destB = (s.worker d).back
  | _ => True

structure Deques.CpuOk (s : Deques κ T) (d : κ) : Prop where
  owner : (s.worker d).Ok (s.pc d).owner
  batch : ∀ n k, (s.pc d).owner.reserving = some (n, k) → n = k.n ∧ k.Ok s d
  thief : s.ThiefAt d (s.pc d)

theorem Deques.CpuOk.thiefAt (h : s.CpuOk c) {p : DequePc κ T} (hp : s.pc c = p) :
    s.ThiefAt c p := hp ▸ h.thief

theorem Deques.CpuOk.ownerAt (h : s.CpuOk c) {p : DequePc κ T} (hp : s.pc c = p) :
    (s.worker c).Ok p.owner := hp ▸ h.owner

theorem Deques.base_eq_front {p : DequePc κ T} (hp : s.pc c = p)
    (hf : (s.worker c).base p.owner = (s.worker c).front) : s.base c = (s.worker c).front := by
  rw [Deques.base, hp, hf]

/-- What a step does at most to the queue of `v`, as far as its thieves are concerned. -/
structure Deques.Rely (s s' : Deques κ T) (v : κ) : Prop where
  base : s.base v ≤ s'.base v
  back : (s.worker v).back ≤ (s'.worker v).back
  shared : Agree (s'.worker v).shared (s.worker v).shared (s.base v) (s.worker v).back
  heap : ∀ d h, (s.pc d).haul = some h → h.victim = v →
    (s.pc v).owner.building ≠ some h.buffer →
    Agree ((s'.worker v).heap h.buffer) ((s.worker v).heap h.buffer) (s.base v) (s.worker v).back
  building : ∀ d h, (s.pc d).haul = some h → h.victim = v →
    (s.pc v).owner.building ≠ some h.buffer → (s'.pc v).owner.building ≠ some h.buffer

theorem Batch.Ok.frame {k : Batch κ} (h : k.Ok s d) (hr : s.Rely s' k.victim) : k.Ok s' d :=
  ⟨h.pos, h.foreign, h.le.trans hr.back⟩

theorem Haul.Ok.frame {h : Haul κ} (hk : h.Ok s d i) (hb : h.toBatch.Ok s d)
    (hh : (s.pc d).haul = some h) (hr : s.Rely s' h.victim)
    (hcell : (s'.worker d).cell = (s.worker d).cell) (hback : (s'.worker d).back = (s.worker d).back)
    (hheap : (s'.worker d).heap = (s.worker d).heap) : h.Ok s' d i := by
  have hle := hb.le
  refine ⟨hk.le, hk.dest.trans hcell.symm, hk.destB.trans hback.symm,
    hr.building d h hh rfl hk.published, ?_, ?_⟩
  · intro hbase
    have hbase' := hr.base.trans hbase
    have hheld := hr.heap d h hh rfl hk.published
    exact ((hheld.mono hbase' hle).trans (hk.source hbase')).trans (hr.shared.mono hbase' hle).symm
  · intro hbase j hj
    have hbase' := hr.base.trans hbase
    have hi := hk.le
    rw [hheap, hk.copied hbase' j hj]
    exact (hr.shared (h.f + j) (by omega) (by omega)).symm

/-- A CPU that does not move keeps what it knows when other CPUs keep to `Rely`. -/
theorem Deques.CpuOk.frame (h : s.CpuOk d) (hpc : s'.pc d = s.pc d)
    (hown : (s'.worker d).Ok (s.pc d).owner) (hr : ∀ v, s.Rely s' v)
    (hcell : (s'.worker d).cell = (s.worker d).cell) (hback : (s'.worker d).back = (s.worker d).back)
    (hheap : (s'.worker d).heap = (s.worker d).heap) : s'.CpuOk d := by
  refine ⟨?_, ?_, ?_⟩
  · rw [hpc]
    exact hown
  · rw [hpc]
    intro n k hk
    obtain ⟨hn, hb⟩ := h.batch n k hk
    exact ⟨hn, hb.frame (hr k.victim)⟩
  · rw [hpc]
    cases hp : s.pc d with
    | stealFront v => exact h.thiefAt hp
    | stealBack v f => exact h.thiefAt hp
    | stealDest k dest =>
      have ht := h.thiefAt hp
      exact ht.trans hcell.symm
    | stealBuffer k dest b =>
      have ht := h.thiefAt hp
      exact ⟨ht.1.trans hcell.symm, ht.2.trans hback.symm⟩
    | stealRead g i =>
      have ht := h.thiefAt hp
      have hb := (h.batch g.n g.toBatch (by rw [hp]; rfl)).2
      exact ht.frame hb (by rw [hp]; rfl) (hr g.victim) hcell hback hheap
    | stealWrite g i x =>
      have ht := h.thiefAt hp
      obtain ⟨hg, hi, hx⟩ := ht
      have hb := (h.batch g.n g.toBatch (by rw [hp]; rfl)).2
      have hle := hb.le
      refine ⟨hg.frame hb (by rw [hp]; rfl) (hr g.victim) hcell hback hheap, hi, ?_⟩
      intro hbase
      have hbase' := (hr g.victim).base.trans hbase
      rw [hx hbase']
      exact ((hr g.victim).shared (g.f + i) (by omega) (by omega)).symm
    | stealCheck g =>
      have ht := h.thiefAt hp
      have hb := (h.batch g.n g.toBatch (by rw [hp]; rfl)).2
      exact ht.frame hb (by rw [hp]; rfl) (hr g.victim) hcell hback hheap
    | stealExchange g =>
      have ht := h.thiefAt hp
      have hb := (h.batch g.n g.toBatch (by rw [hp]; rfl)).2
      exact ht.frame hb (by rw [hp]; rfl) (hr g.victim) hcell hback hheap
    | stealStore g =>
      have ht := h.thiefAt hp
      exact ⟨ht.1.trans hcell.symm, ht.2.trans hback.symm⟩
    | _ => trivial

theorem Deques.Rely.of_eq (hw : s'.worker v = s.worker v) (hpc : s'.pc v = s.pc v) :
    s.Rely s' v := by
  have hbase : s'.base v = s.base v := by rw [Deques.base, hw, hpc, Deques.base]
  constructor
  · exact hbase.ge
  · rw [hw]
  · rw [hw]
    exact Agree.refl
  · intro d h _ _ _
    rw [hw]
    exact Agree.refl
  · intro d h _ _ hb
    rw [hpc]
    exact hb

/-- A step of `c` that changes no other queue. -/
theorem Deques.ok_of_rely (hs : ∀ d, s.CpuOk d) (hw : ∀ d, d ≠ c → s'.worker d = s.worker d)
    (hpc : ∀ d, d ≠ c → s'.pc d = s.pc d) (hr : s.Rely s' c)
    (hc : (∀ v, s.Rely s' v) → s'.CpuOk c) (d : κ) : s'.CpuOk d := by
  have hall : ∀ v, s.Rely s' v := by
    intro v
    by_cases hv : v = c
    · exact hv ▸ hr
    · exact .of_eq (hw v hv) (hpc v hv)
  by_cases hd : d = c
  · exact hd ▸ hc hall
  · have hwd := hw d hd
    refine (hs d).frame (hpc d hd) ?_ hall ?_ ?_ ?_
    · rw [hwd]
      exact (hs d).owner
    · rw [hwd]
    · rw [hwd]
    · rw [hwd]

/-- What `c` has to show at its new place, given what its step does to the others. -/
theorem Deques.CpuOk.at {p : DequePc κ T} (hpc : s'.pc c = p)
    (hown : (s'.worker c).Ok p.owner)
    (hbatch : ∀ n k, p.owner.reserving = some (n, k) → n = k.n ∧ k.Ok s c)
    (hall : ∀ v, s.Rely s' v) (ht : s'.ThiefAt c p) : s'.CpuOk c := by
  subst hpc
  refine ⟨hown, ?_, ht⟩
  intro n k hk
  obtain ⟨hn, hkb⟩ := hbatch n k hk
  exact ⟨hn, hkb.frame (hall k.victim)⟩

theorem Worker.Ok.place {w : Worker T} {p q : WorkerPc T β} (h : w.Ok p) (hp : p.swapping = false)
    (hq : q.swapping = false) (hbase : w.base q = w.base p) (hk : w.At (w.base q) q) : w.Ok q := by
  refine ⟨?_, hk⟩
  rw [hbase, hq, ← hp]
  exact h.sound

theorem Deques.Free.ne_held {a : Nat} {h : Haul κ} (hf : s.Free c a) (hh : (s.pc d).haul = some h)
    (hv : h.victim = c) : h.buffer ≠ a := by
  intro he
  refine hf.2 d ?_
  rw [hh, Option.map_some, hv, he]

theorem Deques.CpuOk.haul {h : Haul κ} (hs : s.CpuOk c)
    (hp : (s.pc c).owner = .reserved h.n h.toBatch) :
    (s.worker c).Ok (.reserved h.n h.toBatch) ∧ h.toBatch.Ok s c := by
  have hb := hs.batch h.n h.toBatch (by rw [hp]; rfl)
  have ho := hs.owner
  rw [hp] at ho
  exact ⟨ho, hb.2⟩

theorem DequePc.eq_idle {p : DequePc κ T} (h : p.isIdle = true) : p = .own .idle := by
  cases p with
  | own p =>
    cases p with
    | idle => rfl
    | _ => cases h
  | _ => cases h

theorem Deques.ok_new (d : κ) : (Deques.new : Deques κ T).CpuOk d := by
  have hlive : (0 : Nat) ∈ ({0} : Finset Nat) := Finset.mem_singleton_self 0
  exact ⟨⟨⟨le_rfl, Nat.zero_le _, hlive, hlive, fun _ => rfl⟩, trivial⟩,
    (fun n k hk => by cases hk), trivial⟩

variable [DecidableEq κ]

@[simp] theorem Deques.worker_goto (p : DequePc κ T) : (s.goto c p).worker = s.worker := rfl

@[simp] theorem Deques.pc_goto_self (p : DequePc κ T) : (s.goto c p).pc c = p := by
  simp [Deques.goto]

theorem Deques.pc_goto_of_ne (p : DequePc κ T) (h : d ≠ c) : (s.goto c p).pc d = s.pc d := by
  simp [Deques.goto, h]

@[simp] theorem Deques.worker_put_self (w : Worker T) : (s.put c w).worker c = w := by
  simp [Deques.put]

theorem Deques.worker_put_of_ne (w : Worker T) (h : d ≠ c) : (s.put c w).worker d = s.worker d := by
  simp [Deques.put, h]

/-- A step of `c` that changes nothing but its place. -/
theorem Deques.ok_goto (hs : ∀ d, s.CpuOk d) {p : DequePc κ T}
    (hbase : (s.worker c).base p.owner = s.base c) (hbuild : p.owner.building = none)
    (hown : (s.worker c).Ok p.owner)
    (hbatch : ∀ n k, p.owner.reserving = some (n, k) → n = k.n ∧ k.Ok s c)
    (ht : (∀ v, s.Rely (s.goto c p) v) → (s.goto c p).ThiefAt c p) (d : κ) :
    (s.goto c p).CpuOk d := by
  have hb : (s.goto c p).base c = s.base c := by
    rw [Deques.base, Deques.pc_goto_self, Deques.worker_goto, hbase]
  have hw : ∀ d, d ≠ c → (s.goto c p).worker d = s.worker d := fun _ _ => rfl
  refine Deques.ok_of_rely hs hw (fun d hd => Deques.pc_goto_of_ne p hd) ?_ ?_ d
  · refine ⟨hb.ge, le_rfl, Agree.refl, fun _ _ _ _ _ => Agree.refl, ?_⟩
    intro d h _ _ _
    rw [Deques.pc_goto_self, hbuild]
    exact (Option.some_ne_none h.buffer).symm
  · intro hall
    exact .at (Deques.pc_goto_self p) hown hbatch hall (ht hall)

theorem Deques.Rely.of_put {w : Worker T} {p : DequePc κ T}
    (hbase : s.base c ≤ w.base p.owner) (hback : (s.worker c).back ≤ w.back)
    (hshared : Agree w.shared (s.worker c).shared (s.base c) (s.worker c).back)
    (hheap : ∀ d h, (s.pc d).haul = some h → h.victim = c →
      (s.pc c).owner.building ≠ some h.buffer →
      Agree (w.heap h.buffer) ((s.worker c).heap h.buffer) (s.base c) (s.worker c).back)
    (hbuild : ∀ d h, (s.pc d).haul = some h → h.victim = c →
      (s.pc c).owner.building ≠ some h.buffer → p.owner.building ≠ some h.buffer) :
    s.Rely ((s.put c w).goto c p) c := by
  constructor
  · refine hbase.trans_eq ?_
    rw [Deques.base, Deques.pc_goto_self, Deques.worker_goto, Deques.worker_put_self]
  · rw [Deques.worker_goto, Deques.worker_put_self]
    exact hback
  · rw [Deques.worker_goto, Deques.worker_put_self]
    exact hshared
  · rw [Deques.worker_goto, Deques.worker_put_self]
    exact hheap
  · rw [Deques.pc_goto_self]
    exact hbuild

theorem Deques.ok_put {w : Worker T} {p : DequePc κ T} (hs : ∀ d, s.CpuOk d)
    (hr : s.Rely ((s.put c w).goto c p) c) (hown : w.Ok p.owner)
    (hbatch : ∀ n k, p.owner.reserving = some (n, k) → n = k.n ∧ k.Ok s c)
    (ht : (∀ v, s.Rely ((s.put c w).goto c p) v) → ((s.put c w).goto c p).ThiefAt c p) (d : κ) :
    ((s.put c w).goto c p).CpuOk d := by
  have hw : ∀ d, d ≠ c → ((s.put c w).goto c p).worker d = s.worker d :=
    fun d hd => Deques.worker_put_of_ne w hd
  have hpc : ∀ d, d ≠ c → ((s.put c w).goto c p).pc d = s.pc d :=
    fun d hd => Deques.pc_goto_of_ne p hd
  refine Deques.ok_of_rely hs hw hpc hr ?_ d
  intro hall
  refine .at (Deques.pc_goto_self p) ?_ hbatch hall (ht hall)
  rw [Deques.worker_goto, Deques.worker_put_self]
  exact hown

theorem Deques.ok_own {a : Nat} {p : WorkerPc T (Batch κ)} (hs : ∀ d, s.CpuOk d)
    (hp : s.pc c = .own p) (ha : p.allocates = true → s.Free c a) (d : κ) :
    ((s.put c ((s.worker c).step a p).1).goto c (.own ((s.worker c).step a p).2)).CpuOk d := by
  have hok : (s.worker c).Ok p := (hs c).ownerAt hp
  have hbase : s.base c = (s.worker c).base p := by rw [Deques.base, hp]; rfl
  have halive : p.allocates = true → a ∉ (s.worker c).live := fun h => (ha h).1
  apply Deques.ok_put hs ?_ (hok.step halive) ?_ ?_
  · apply Deques.Rely.of_put
    · rw [hbase]
      exact hok.base_le
    · exact hok.back_le
    · rw [hbase]
      exact hok.shared halive
    · intro d h hh hv hb
      rw [hp] at hb
      rw [hbase]
      exact hok.held hb fun hal => (ha hal).ne_held hh hv
    · intro d h hh hv hb hb'
      rw [hp] at hb
      obtain hb' | ⟨hal, hq⟩ := Worker.building_step hb'
      · exact hb hb'
      · exact (ha hal).ne_held hh hv hq
  · intro n k hk
    refine (hs c).batch n k ?_
    rw [hp]
    exact ((s.worker c).step_next a p).reserving hk
  · exact fun _ => trivial

/-- A thief goes on with its batch, having changed nothing. -/
theorem Deques.ok_haul {h : Haul κ} {p : DequePc κ T} (hs : ∀ d, s.CpuOk d)
    (hp : (s.pc c).owner = .reserved h.n h.toBatch) (hp' : p.owner = .reserved h.n h.toBatch)
    (ht : (∀ v, s.Rely (s.goto c p) v) → (s.goto c p).ThiefAt c p) (d : κ) :
    (s.goto c p).CpuOk d := by
  apply Deques.ok_goto hs ?_ ?_ ?_ ?_ ht
  · rw [hp', Deques.base, hp]
  · rw [hp']
    rfl
  · rw [hp', ← hp]
    exact (hs c).owner
  · rw [hp', ← hp]
    exact (hs c).batch

/-- A CPU leaves `steal_batch`, or goes on in it with nothing reserved. -/
theorem Deques.ok_leave {p : DequePc κ T} (hs : ∀ d, s.CpuOk d)
    (hp : (s.pc c).owner.swapping = false) (hbase : s.base c = (s.worker c).front)
    (hp' : p.owner = .idle) (ht : ∀ t : Deques κ T, t.ThiefAt c p) (d : κ) :
    (s.goto c p).CpuOk d := by
  apply Deques.ok_goto hs ?_ ?_ ?_ ?_ (fun _ => ht _)
  · rw [hp', hbase]
    rfl
  · rw [hp']
    rfl
  · rw [hp']
    exact (hs c).owner.place hp rfl hbase.symm trivial
  · rw [hp']
    intro n k hk
    cases hk

theorem batchBound_pos {len : Nat} (h : 0 < len) : 0 < batchBound len := by
  simp only [batchBound, maxBatch]
  omega

theorem batchBound_le (len : Nat) : batchBound len ≤ len := by
  simp only [batchBound, maxBatch]
  omega

theorem Deques.ok_stealBack {f : Nat} (hs : ∀ d, s.CpuOk d) (hp : s.pc c = .stealBack v f) (d : κ) :
    (s.advance c i (.stealBack v f)).CpuOk d := by
  have hbase := Deques.base_eq_front hp rfl
  have hv : v ≠ c := (hs c).thiefAt hp
  by_cases hf : (s.worker v).back ≤ f
  · rw [Deques.advance, if_pos hf]
    exact Deques.ok_leave hs (by rw [hp]; rfl) hbase rfl (fun _ => by exact trivial) d
  · rw [Deques.advance, if_neg hf, WorkerPc.reserve, if_pos (batchBound_pos (by omega))]
    apply Deques.ok_goto hs ?_ rfl ?_ ?_ (fun _ => by exact trivial)
    · rw [hbase]
      rfl
    · exact (hs c).owner.place (by rw [hp]; rfl) rfl hbase.symm trivial
    · intro n k hk
      cases hk
      have hle := batchBound_le ((s.worker v).back - f)
      refine ⟨rfl, batchBound_pos (by omega), hv, ?_⟩
      show f + batchBound ((s.worker v).back - f) ≤ (s.worker v).back
      omega

theorem Deques.ok_stealBuffer {k : Batch κ} {dest destB : Nat} (hs : ∀ d, s.CpuOk d)
    (hp : s.pc c = .stealBuffer k dest destB) (d : κ) :
    (s.advance c i (.stealBuffer k dest destB)).CpuOk d := by
  have ht := (hs c).thiefAt hp
  have hv : k.victim ≠ c := ((hs c).batch k.n k (by rw [hp]; rfl)).2.foreign
  rw [Deques.advance]
  apply Deques.ok_haul hs (by rw [hp]; rfl) rfl
  intro _
  refine ⟨Nat.zero_le _, ht.1, ht.2, ?_, fun _ => Agree.refl, fun _ j hj => absurd hj (Nat.not_lt_zero j)⟩
  rw [Deques.pc_goto_of_ne _ hv]
  exact (hs k.victim).owner.building_ne_inner

theorem Deques.ok_stealRead {h : Haul κ} {j : Nat} (hs : ∀ d, s.CpuOk d)
    (hp : s.pc c = .stealRead h j) (d : κ) : (s.advance c i (.stealRead h j)).CpuOk d := by
  have ht : h.Ok s c j := (hs c).thiefAt hp
  have hb := ((hs c).haul (h := h) (by rw [hp]; rfl)).2
  have hh : (s.pc c).haul = some h := by rw [hp]; rfl
  by_cases hj : j = h.n
  · rw [Deques.advance, if_pos hj]
    apply Deques.ok_haul hs (by rw [hp]; rfl) rfl
    intro hall
    subst hj
    exact ht.frame hb hh (hall h.victim) rfl rfl rfl
  · rw [Deques.advance, if_neg hj]
    apply Deques.ok_haul hs (by rw [hp]; rfl) rfl
    intro hall
    have hjn := Nat.lt_of_le_of_ne ht.le hj
    refine ⟨ht.frame hb hh (hall h.victim) rfl rfl rfl, hjn, ?_⟩
    intro hbase
    exact ht.source ((hall h.victim).base.trans hbase) (h.f + j) (by omega) (by omega)

theorem Deques.ok_stealCheck {h : Haul κ} (hs : ∀ d, s.CpuOk d) (hp : s.pc c = .stealCheck h)
    (d : κ) : (s.advance c i (.stealCheck h)).CpuOk d := by
  have ht : h.Ok s c h.n := (hs c).thiefAt hp
  have hb := ((hs c).haul (h := h) (by rw [hp]; rfl)).2
  by_cases hsame : (s.worker h.victim).inner ≠ h.buffer
  · rw [Deques.advance, if_pos hsame]
    have hbase := Deques.base_eq_front hp rfl
    exact Deques.ok_leave hs (by rw [hp]; rfl) hbase rfl (fun _ => by exact trivial) d
  · rw [Deques.advance, if_neg hsame]
    apply Deques.ok_haul hs (by rw [hp]; rfl) rfl
    intro hall
    exact ht.frame hb (by rw [hp]; rfl) (hall h.victim) rfl rfl rfl

theorem Deques.ok_stealWrite {h : Haul κ} {j : Nat} {x : Option T} (hs : ∀ d, s.CpuOk d)
    (hp : s.pc c = .stealWrite h j x) (d : κ) : (s.advance c i (.stealWrite h j x)).CpuOk d := by
  obtain ⟨hok, hj, hx⟩ : h.Ok s c j ∧ j < h.n ∧
      (s.base h.victim ≤ h.f → x = (s.worker h.victim).shared.read (h.f + j)) := (hs c).thiefAt hp
  obtain ⟨hown, hb⟩ := (hs c).haul (h := h) (by rw [hp]; rfl)
  have hbase := Deques.base_eq_front hp rfl
  have hroom : (s.worker c).back + h.n ≤ (s.worker c).front + (s.worker c).buffer.cap.val := hown.known
  have hle : (s.worker c).front ≤ (s.worker c).back := hown.sound.le
  have hag : ∀ q, Agree (((s.worker c).write h.dest (h.destB + j) x).heap q) ((s.worker c).heap q)
      (s.base c) (s.worker c).back := by
    intro q
    rw [hbase, hok.dest, hok.destB]
    refine Worker.agree_write (Nat.le_add_right _ _) ?_
    change _ < _ + (s.worker c).buffer.cap.val
    omega
  rw [Deques.advance]
  apply Deques.ok_put hs ?_ ?_ ?_ ?_
  · exact .of_put hbase.le le_rfl (hag _) (fun _ g _ _ _ => hag g.buffer)
      (fun _ g _ _ _ => (Option.some_ne_none g.buffer).symm)
  · rw [hok.dest, hok.destB]
    exact hown.writeReserved
  · intro n k hk
    refine (hs c).batch n k ?_
    rw [hp]
    exact hk
  · intro hall
    have hv := hall h.victim
    have hvw : ((s.put c ((s.worker c).write h.dest (h.destB + j) x)).goto c
        (.stealRead h (j + 1))).worker h.victim = s.worker h.victim :=
      Deques.worker_put_of_ne _ hb.foreign
    refine ⟨hj, ?_, ?_, hv.building c h (by rw [hp]; rfl) rfl hok.published, ?_, ?_⟩
    · rw [Deques.worker_goto, Deques.worker_put_self]
      exact hok.dest
    · rw [Deques.worker_goto, Deques.worker_put_self]
      exact hok.destB
    · intro hf
      rw [hvw]
      exact hok.source (hv.base.trans hf)
    · intro hf k hk
      rw [hvw, Deques.worker_goto, Deques.worker_put_self, Worker.heap_write_self]
      obtain hk | rfl := Nat.lt_succ_iff_lt_or_eq.mp hk
      · rw [Buffer.read_write_of_lt, hok.copied (hv.base.trans hf) k hk]
        · omega
        · rw [hok.dest]
          change _ < _ + (s.worker c).buffer.cap.val
          omega
      · rw [Buffer.read_write_self]
        exact hx (hv.base.trans hf)

theorem Deques.ok_stealStore {h : Haul κ} (hs : ∀ d, s.CpuOk d) (hp : s.pc c = .stealStore h)
    (d : κ) : (s.advance c i (.stealStore h)).CpuOk d := by
  have ht : h.dest = (s.worker c).cell ∧ h.destB = (s.worker c).back := (hs c).thiefAt hp
  have hown := ((hs c).haul (h := h) (by rw [hp]; rfl)).1
  have hbase := Deques.base_eq_front hp rfl
  rw [Deques.advance, ht.2]
  apply Deques.ok_put hs ?_ hown.storeReserved ?_ (fun _ => by exact trivial)
  · exact .of_put hbase.le (Nat.le_add_right _ _) Agree.refl (fun _ _ _ _ _ => Agree.refl)
      (fun _ g _ _ _ => (Option.some_ne_none g.buffer).symm)
  · intro n k hk
    cases hk

/-- The front exchange of `c` on the queue that it copied from. -/
def Deques.exchange (s : Deques κ T) (c : κ) (h : Haul κ) : Deques κ T :=
  (s.put h.victim { s.worker h.victim with front := h.f + h.n }).goto c (.stealStore h)

theorem Deques.exchange_pc {h : Haul κ} (hd : d ≠ c) : (s.exchange c h).pc d = s.pc d :=
  Deques.pc_goto_of_ne _ hd

theorem Deques.exchange_worker {h : Haul κ} (hd : d ≠ h.victim) :
    (s.exchange c h).worker d = s.worker d := Deques.worker_put_of_ne _ hd

theorem Deques.exchange_victim {h : Haul κ} :
    (s.exchange c h).worker h.victim = { s.worker h.victim with front := h.f + h.n } :=
  Deques.worker_put_self _

theorem Deques.base_exchanged {h : Haul κ} (hs : ∀ d, s.CpuOk d) (hb : h.toBatch.Ok s c)
    (hf : (s.worker h.victim).front = h.f) :
    s.base h.victim = h.f ∧ (s.exchange c h).base h.victim = h.f + h.n ∧
      ((s.exchange c h).worker h.victim).Ok (s.pc h.victim).owner := by
  have hle := hb.le
  have hown := (hs h.victim).owner
  have hbase := hown.base_eq_front (by omega)
  have hown' := hown.withFront hbase (f := h.f + h.n) (by omega) hle
  refine ⟨hbase.trans hf, ?_, ?_⟩
  · rw [Deques.base, Deques.exchange_pc hb.foreign, Deques.exchange_victim]
    exact hown'.base_eq_front hle
  · rw [Deques.exchange_victim]
    exact hown'

theorem Deques.rely_exchange {h : Haul κ} (hs : ∀ d, s.CpuOk d) (hp : s.pc c = .stealExchange h)
    (hf : (s.worker h.victim).front = h.f) (v : κ) : s.Rely (s.exchange c h) v := by
  have hb := ((hs c).haul (h := h) (by rw [hp]; rfl)).2
  obtain ⟨hbase, hbase', hown⟩ := Deques.base_exchanged hs hb hf
  by_cases hv : v = h.victim
  · subst v
    constructor
    · omega
    · rw [Deques.exchange_victim]
    · rw [Deques.exchange_victim]
      exact Agree.refl
    · intro d g _ _ _
      rw [Deques.exchange_victim]
      exact Agree.refl
    · intro d g _ _ hg
      rw [Deques.exchange_pc hb.foreign]
      exact hg
  · by_cases hc : v = c
    · subst v
      constructor
      · rw [Deques.base, Deques.base, Deques.exchange_worker hv, hp, Deques.exchange,
          Deques.pc_goto_self]
        exact le_rfl
      · rw [Deques.exchange_worker hv]
      · rw [Deques.exchange_worker hv]
        exact Agree.refl
      · intro d g _ _ _
        rw [Deques.exchange_worker hv]
        exact Agree.refl
      · intro d g _ _ _
        rw [Deques.exchange, Deques.pc_goto_self]
        exact (Option.some_ne_none g.buffer).symm
    · exact .of_eq (Deques.exchange_worker hv) (Deques.exchange_pc hc)

theorem Deques.ok_stealExchange {h : Haul κ} (hs : ∀ d, s.CpuOk d)
    (hp : s.pc c = .stealExchange h) (d : κ) : (s.advance c i (.stealExchange h)).CpuOk d := by
  have hbase := Deques.base_eq_front hp rfl
  by_cases hf : (s.worker h.victim).front = h.f
  · rw [Deques.advance, if_pos hf]
    change (s.exchange c h).CpuOk d
    have hall := Deques.rely_exchange hs hp hf
    obtain ⟨hown, hb⟩ := (hs c).haul (h := h) (by rw [hp]; rfl)
    have ht : h.Ok s c h.n := (hs c).thiefAt hp
    by_cases hd : d = c
    · subst d
      refine ⟨?_, ?_, ?_⟩
      · rw [Deques.exchange_worker hb.foreign.symm, Deques.exchange, Deques.pc_goto_self]
        exact hown
      · rw [Deques.exchange, Deques.pc_goto_self]
        intro n k hk
        cases hk
        exact ⟨rfl, hb.frame (hall h.victim)⟩
      · rw [Deques.exchange, Deques.pc_goto_self]
        change h.dest = ((s.exchange c h).worker c).cell ∧ h.destB = ((s.exchange c h).worker c).back
        rw [Deques.exchange_worker hb.foreign.symm]
        exact ⟨ht.dest, ht.destB⟩
    · by_cases hv : d = h.victim
      · subst d
        have hown' := (Deques.base_exchanged hs hb hf).2.2
        refine (hs h.victim).frame (Deques.exchange_pc hd) hown' hall ?_ ?_ ?_
        · rw [Deques.exchange_victim]
        · rw [Deques.exchange_victim]
        · rw [Deques.exchange_victim]
      · have hw : (s.exchange c h).worker d = s.worker d := Deques.exchange_worker hv
        refine (hs d).frame (Deques.exchange_pc hd) ?_ hall ?_ ?_ ?_
        · rw [hw]
          exact (hs d).owner
        · rw [hw]
        · rw [hw]
        · rw [hw]
  · rw [Deques.advance, if_neg hf]
    exact Deques.ok_leave hs (by rw [hp]; rfl) hbase rfl (fun _ => by exact trivial) d

theorem Deques.advance_own {a : Nat} {p : WorkerPc T (Batch κ)} (hp : ∀ n k, p ≠ .reserved n k) :
    s.advance c a (.own p) =
      (s.put c ((s.worker c).step a p).1).goto c (.own ((s.worker c).step a p).2) := by
  cases p with
  | reserved n k => exact absurd rfl (hp n k)
  | _ => rfl

/-- An idle CPU starts an operation that so far knows nothing. -/
theorem Deques.ok_start (p : WorkerPc T (Batch κ)) (hs : ∀ d, s.CpuOk d)
    (hp : (s.pc c).isIdle = true) (hswap : p.swapping = false) (hbuild : p.building = none)
    (hres : p.reserving = none) (hfront : ∀ w : Worker T, w.base p = w.front)
    (hat : ∀ w : Worker T, w.At w.front p) (d : κ) : (s.goto c (.own p)).CpuOk d := by
  have hpc := DequePc.eq_idle hp
  have ho := (hs c).ownerAt hpc
  have hbase := Deques.base_eq_front hpc rfl
  apply Deques.ok_goto (p := .own p) hs ?_ hbuild ?_ ?_ (fun _ => trivial)
  · rw [hbase]
    exact hfront _
  · refine ho.place rfl hswap (hfront _) ?_
    rw [DequePc.owner, hfront]
    exact hat _
  · intro n k hk
    rw [DequePc.owner, hres] at hk
    cases hk

theorem Deques.ok_steal (hs : ∀ d, s.CpuOk d) (hp : (s.pc c).owner.swapping = false)
    (hbase : s.base c = (s.worker c).front) (v d : κ) :
    (s.goto c (DequePc.steal c v)).CpuOk d := by
  by_cases hv : v = c
  · rw [DequePc.steal, if_pos hv]
    exact Deques.ok_leave hs hp hbase rfl (fun _ => by exact trivial) d
  · rw [DequePc.steal, if_neg hv]
    exact Deques.ok_leave hs hp hbase rfl (fun _ => by exact hv) d

theorem Deques.ok_advance {a : Nat} (hs : ∀ d, s.CpuOk d)
    (ha : (s.pc c).allocates = true → s.Free c a) (d : κ) :
    (s.advance c a (s.pc c)).CpuOk d := by
  cases hp : s.pc c with
  | own p =>
    rw [hp] at ha
    cases p with
    | reserved n k =>
      have hk := (hs c).batch n k (by rw [hp]; rfl)
      obtain ⟨rfl, hb⟩ := hk
      rw [Deques.advance]
      apply Deques.ok_goto hs ?_ rfl ?_ ?_ (fun _ => by exact rfl)
      · rw [Deques.base, hp]
        rfl
      · have ho := (hs c).ownerAt hp
        exact ho
      · intro m j hj
        cases hj
        exact ⟨rfl, hb⟩
    | _ =>
      rw [Deques.advance_own (fun n k => by simp)]
      exact Deques.ok_own hs hp ha d
  | emptyBack =>
    have hbase := Deques.base_eq_front hp rfl
    exact Deques.ok_leave hs (by rw [hp]; rfl) hbase rfl (fun _ => by exact trivial) d
  | emptyFront b =>
    have hbase := Deques.base_eq_front hp rfl
    exact Deques.ok_leave hs (by rw [hp]; rfl) hbase rfl (fun _ => by exact trivial) d
  | stealFront v =>
    have hbase := Deques.base_eq_front hp rfl
    have ht := (hs c).thiefAt hp
    exact Deques.ok_leave hs (by rw [hp]; rfl) hbase rfl (fun _ => by exact ht) d
  | stealBack v f => exact Deques.ok_stealBack hs hp d
  | stealDest k dest =>
    have ht := (hs c).thiefAt hp
    have hk := (hs c).batch k.n k (by rw [hp]; rfl)
    rw [Deques.advance]
    apply Deques.ok_goto hs ?_ rfl ?_ ?_ (fun _ => by exact ⟨ht, rfl⟩)
    · rw [Deques.base, hp]
      rfl
    · have ho := (hs c).ownerAt hp
      exact ho
    · intro m j hj
      cases hj
      exact hk
  | stealBuffer k dest destB => exact Deques.ok_stealBuffer hs hp d
  | stealRead h i => exact Deques.ok_stealRead hs hp d
  | stealWrite h i x => exact Deques.ok_stealWrite hs hp d
  | stealCheck h => exact Deques.ok_stealCheck hs hp d
  | stealExchange h => exact Deques.ok_stealExchange hs hp d
  | stealStore h => exact Deques.ok_stealStore hs hp d
  | stolen v r =>
    have hbase := Deques.base_eq_front hp rfl
    by_cases hr : r = .retry
    · rw [Deques.advance, if_pos hr]
      exact Deques.ok_steal hs (by rw [hp]; rfl) hbase v d
    · rw [Deques.advance, if_neg hr]
      exact Deques.ok_leave hs (by rw [hp]; rfl) hbase rfl (fun _ => by exact trivial) d

theorem Deques.ok_step {act : DequeAct κ T} (hs : ∀ d, s.CpuOk d) (he : s.Enabled act) (d : κ) :
    (s.next act).CpuOk d := by
  cases act with
  | push c t =>
    exact Deques.ok_start (.pushBack t) hs he rfl rfl rfl (fun _ => rfl) (fun _ => trivial) d
  | pop c =>
    exact Deques.ok_start .popBack hs he rfl rfl rfl (fun _ => rfl) (fun _ => trivial) d
  | steal c v =>
    have hp := DequePc.eq_idle he
    exact Deques.ok_steal hs (by rw [hp]; rfl) (by rw [Deques.base, hp]; rfl) v d
  | step c a => exact Deques.ok_advance hs he.2 d

end Nacl
