import Nacl.Frames

/-! The boot allocator hands out the list of all usable frames, in the order of the
memory map and each once. -/

namespace Nacl

open Supply

def StepRange.addrs (r : StepRange) : List Nat :=
  (List.range ((r.stop + (frameSize - 1) - r.start) / frameSize)).map fun i => r.start + i * frameSize

def Entry.addrs (e : Entry) : List Nat := if e.entryType = .usable then e.range.addrs else []

def BootInfoFrameAllocator.addrs (a : BootInfoFrameAllocator) : List Nat :=
  (a.front.map StepRange.addrs).getD [] ++ a.regions.flatMap Entry.addrs

theorem StepRange.addrs_next {r : StepRange} (h : r.start < r.stop) :
    r.addrs = r.start :: ({ r with start := r.start + frameSize } : StepRange).addrs := by
  have hcount : (r.stop + (frameSize - 1) - r.start) / frameSize =
      (r.stop + (frameSize - 1) - (r.start + frameSize)) / frameSize + 1 := by
    unfold frameSize
    omega
  simp only [StepRange.addrs, hcount, List.range_succ_eq_map, List.map_cons, List.map_map,
    Nat.zero_mul, Nat.add_zero, List.cons.injEq, true_and]
  apply List.map_congr_left
  intro i _
  simp only [Function.comp_apply, Nat.succ_mul]
  omega

theorem StepRange.addrs_end {r : StepRange} (h : ¬ r.start < r.stop) : r.addrs = [] := by
  have hcount : (r.stop + (frameSize - 1) - r.start) / frameSize = 0 := by
    unfold frameSize
    omega
  simp [StepRange.addrs, hcount]

theorem StepRange.mem_addrs {r : StepRange} {x : Nat} :
    x ∈ r.addrs ↔ ∃ i, x = r.start + i * frameSize ∧ x < r.stop := by
  simp only [StepRange.addrs, List.mem_map, List.mem_range]
  constructor
  · rintro ⟨i, hi, rfl⟩
    refine ⟨i, rfl, ?_⟩
    unfold frameSize at hi ⊢
    omega
  · rintro ⟨i, rfl, hlt⟩
    refine ⟨i, ?_, rfl⟩
    unfold frameSize at hlt ⊢
    omega

theorem StepRange.addrs_nodup (r : StepRange) : r.addrs.Nodup := by
  refine List.Nodup.map ?_ List.nodup_range
  intro i j hij
  have hmul : i * frameSize = j * frameSize := Nat.add_left_cancel hij
  exact Nat.eq_of_mul_eq_mul_right (by decide) hmul

theorem StepRange.addrs_of_next {r r' : StepRange} {x : Nat} (h : r.next = some (x, r')) :
    r.addrs = x :: r'.addrs := by
  unfold StepRange.next at h
  split at h
  · rename_i hlt
    obtain ⟨rfl, rfl⟩ := Prod.mk.inj (Option.some.inj h)
    exact StepRange.addrs_next hlt
  · cases h

theorem StepRange.addrs_of_next_none {r : StepRange} (h : r.next = none) : r.addrs = [] := by
  unfold StepRange.next at h
  split at h
  · cases h
  · rename_i hlt
    exact StepRange.addrs_end hlt

theorem BootInfoFrameAllocator.pull_spec (regions : List Entry) :
    (BootInfoFrameAllocator.pull regions).1 = (regions.flatMap Entry.addrs).head? ∧
      (BootInfoFrameAllocator.pull regions).2.addrs = (regions.flatMap Entry.addrs).tail := by
  induction regions with
  | nil => exact ⟨rfl, rfl⟩
  | cons e regions ih =>
    by_cases hu : e.entryType = .usable
    · cases hn : e.range.next with
      | none =>
        simpa [BootInfoFrameAllocator.pull, hu, hn, Entry.addrs,
          StepRange.addrs_of_next_none hn] using ih
      | some x =>
        simp [BootInfoFrameAllocator.pull, hu, hn, Entry.addrs,
          StepRange.addrs_of_next hn, BootInfoFrameAllocator.addrs]
    · simpa [BootInfoFrameAllocator.pull, hu, Entry.addrs] using ih

/-- A call takes the first of the addresses that are left. -/
theorem BootInfoFrameAllocator.nextAddr_spec (a : BootInfoFrameAllocator) :
    a.nextAddr.1 = a.addrs.head? ∧ a.nextAddr.2.addrs = a.addrs.tail := by
  have hpull := BootInfoFrameAllocator.pull_spec a.regions
  cases hf : a.front with
  | none => simpa [BootInfoFrameAllocator.nextAddr, BootInfoFrameAllocator.addrs, hf] using hpull
  | some r =>
    cases hn : r.next with
    | none =>
      simpa [BootInfoFrameAllocator.nextAddr, BootInfoFrameAllocator.addrs, hf, hn,
        StepRange.addrs_of_next_none hn] using hpull
    | some x =>
      simp [BootInfoFrameAllocator.nextAddr, BootInfoFrameAllocator.addrs, hf, hn,
        StepRange.addrs_of_next hn]

def BootInfoFrameAllocator.Left (a : BootInfoFrameAllocator) (l : List PhysFrame) : Prop :=
  l = a.addrs.map .containingAddress ∧ ∀ x ∈ a.addrs, x < 2 ^ 52

theorem BootInfoFrameAllocator.supplies :
    Supplies BootInfoFrameAllocator.allocateFrame BootInfoFrameAllocator.Left := by
  rintro a l ⟨rfl, hlt⟩
  obtain ⟨hhead, htail⟩ := a.nextAddr_spec
  refine ⟨a.nextAddr.2, ?_, ?_, ?_⟩
  · unfold BootInfoFrameAllocator.allocateFrame
    cases hn : a.nextAddr with
    | mk o a' =>
      rw [hn] at hhead
      cases o with
      | none => simp [List.head?_map, ← hhead]
      | some x =>
        have hx : x < 2 ^ 52 := hlt x (List.mem_of_head? hhead.symm)
        rw [List.head?_map, ← hhead]
        exact if_pos hx
  · rw [htail, List.map_tail]
  · rw [htail]
    exact fun x hx => hlt x (List.mem_of_mem_tail hx)

theorem PhysFrame.containingAddress_start {x : Nat} (h : frameSize ∣ x) :
    (PhysFrame.containingAddress x).start = x :=
  Nat.div_mul_cancel h

theorem PhysFrame.containingAddress_self (f : PhysFrame) : .containingAddress f.start = f := by
  have h := PhysFrame.containingAddress_start f.aligned
  cases f
  simpa [PhysFrame.containingAddress] using h

namespace MemoryMap

variable {M : MemoryMap} {e : Entry} {x : Nat}

theorem range_stop (he : e ∈ M.entries) (hu : e.entryType = .usable) :
    e.range.stop = e.base.toNat + e.length.toNat := by
  have hle := M.bounded e he hu
  show (e.base + e.length).toNat = _
  rw [UInt64.toNat_add]
  exact Nat.mod_eq_of_lt (by omega)

theorem usable_of_mem_addrs (hx : x ∈ e.addrs) : e.entryType = .usable := by
  by_contra hu
  simp [Entry.addrs, hu] at hx

/-- The addresses of a usable entry are those of the frames that lie inside it. -/
theorem mem_addrs_iff (he : e ∈ M.entries) (hu : e.entryType = .usable) :
    x ∈ e.addrs ↔ ∃ f : PhysFrame, f.start = x ∧ e.Covers f := by
  obtain ⟨⟨b, hb⟩, ⟨n, hn⟩⟩ := M.aligned e he hu
  simp only [Entry.addrs, hu, if_true, StepRange.mem_addrs, range_stop he hu]
  constructor
  · rintro ⟨i, rfl, hlt⟩
    refine ⟨⟨_, Nat.dvd_add (M.aligned e he hu).1 (Nat.dvd_mul_left _ i)⟩, rfl, ?_, ?_⟩
    · exact Nat.le_add_right _ _
    · have hstart : e.range.start = e.base.toNat := rfl
      simp only [hstart, hb, hn] at hlt ⊢
      unfold frameSize at hlt ⊢
      omega
  · rintro ⟨f, rfl, hle, hend⟩
    obtain ⟨k, hk⟩ := f.aligned
    refine ⟨k - b, ?_, ?_⟩
    · show f.start = e.base.toNat + (k - b) * frameSize
      rw [hk, hb] at hle ⊢
      unfold frameSize at hle ⊢
      omega
    · unfold frameSize at hend
      omega

theorem contains_of_mem_addrs (he : e ∈ M.entries) (hx : x ∈ e.addrs) :
    e.Contains x ∧ frameSize ∣ x ∧ x < 2 ^ 52 := by
  have hu := usable_of_mem_addrs hx
  obtain ⟨f, rfl, hle, hend⟩ := (mem_addrs_iff he hu).mp hx
  have hb := M.bounded e he hu
  unfold frameSize at hend
  exact ⟨⟨hle, by omega⟩, f.aligned, by omega⟩

def addrs (M : MemoryMap) : List Nat := M.entries.flatMap Entry.addrs

def frames (M : MemoryMap) : List PhysFrame := M.addrs.map .containingAddress

theorem addrs_nodup (M : MemoryMap) : M.addrs.Nodup := by
  rw [MemoryMap.addrs, List.nodup_flatMap]
  constructor
  · intro e _
    unfold Entry.addrs
    split
    · exact e.range.addrs_nodup
    · exact List.nodup_nil
  · refine M.disjoint.imp_of_mem ?_
    intro e e' he he' hdis x hx hx'
    exact hdis x ⟨(contains_of_mem_addrs he hx).1, (contains_of_mem_addrs he' hx').1⟩

theorem mem_addrs (hx : x ∈ M.addrs) : ∃ e ∈ M.entries, x ∈ e.addrs :=
  List.mem_flatMap.mp hx

theorem frames_nodup (M : MemoryMap) : M.frames.Nodup := by
  refine List.Nodup.map_on ?_ M.addrs_nodup
  intro x hx y hy hxy
  obtain ⟨e, he, hxe⟩ := mem_addrs hx
  obtain ⟨e', he', hye⟩ := mem_addrs hy
  have hstart := congrArg PhysFrame.start hxy
  rwa [PhysFrame.containingAddress_start (contains_of_mem_addrs he hxe).2.1,
    PhysFrame.containingAddress_start (contains_of_mem_addrs he' hye).2.1] at hstart

theorem mem_frames_of_covers (he : e ∈ M.entries) (hu : e.entryType = .usable) {f : PhysFrame}
    (hc : e.Covers f) : f ∈ M.frames := by
  have hx : f.start ∈ e.addrs := (mem_addrs_iff he hu).mpr ⟨f, rfl, hc⟩
  exact List.mem_map.mpr ⟨f.start, List.mem_flatMap.mpr ⟨e, he, hx⟩, f.containingAddress_self⟩

theorem covers_of_mem_frames {f : PhysFrame} (hf : f ∈ M.frames) :
    ∃ e ∈ M.entries, e.entryType = .usable ∧ e.Covers f := by
  obtain ⟨x, hx, rfl⟩ := List.mem_map.mp hf
  obtain ⟨e, he, hxe⟩ := mem_addrs hx
  have hu := usable_of_mem_addrs hxe
  obtain ⟨f, rfl, hc⟩ := (mem_addrs_iff he hu).mp hxe
  exact ⟨e, he, hu, by rw [f.containingAddress_self]; exact hc⟩

theorem not_overlaps {e' : Entry} (hdis : ∀ addr, ¬ (e.Contains addr ∧ e'.Contains addr))
    {f : PhysFrame} (hc : e.Covers f) : ¬ e'.Overlaps f := by
  rintro ⟨addr, hle, hlt, hin⟩
  obtain ⟨hbase, hend⟩ := hc
  exact hdis addr ⟨⟨by omega, by omega⟩, hin⟩

theorem handedOut {ω : Type*} {log : List (ω × Option PhysFrame)}
    (h : Answers M.frames (log.map Prod.snd)) : M.HandedOut log := by
  have hlog : ∀ l : List (ω × Option PhysFrame),
      l.filterMap Prod.snd = (l.map Prod.snd).filterMap id := by
    intro l
    rw [List.filterMap_map]
    rfl
  have htake : log.filterMap Prod.snd = M.frames.take (log.map Prod.snd).length := by
    rw [hlog, h.filterMap]
  constructor
  · rw [htake]
    exact M.frames_nodup.sublist (List.take_sublist _ _)
  · intro f hf
    rw [htake] at hf
    obtain ⟨e, he, hu, hc⟩ := covers_of_mem_frames (List.mem_of_mem_take hf)
    obtain ⟨l, r, hsplit⟩ := List.append_of_mem he
    refine ⟨l, e, r, hsplit, hu, hc, ?_⟩
    have hpair := M.disjoint
    rw [hsplit, List.pairwise_append, List.pairwise_cons] at hpair
    obtain ⟨-, ⟨hright, -⟩, hleft⟩ := hpair
    intro e' he'
    rcases List.mem_append.mp he' with hl | hr
    · have hdis := hleft e' hl e (List.mem_cons_self ..)
      exact not_overlaps (fun addr ⟨h1, h2⟩ => hdis addr ⟨h2, h1⟩) hc
    · exact not_overlaps (hright e' hr) hc
  · rintro l o r rfl
    rw [List.map_append, List.map_cons] at h
    obtain ⟨hall, hnone⟩ := h.none_split
    refine ⟨?_, fun x hx => hnone x.2 (List.mem_map_of_mem hx)⟩
    intro e he hu f hc
    rw [hlog, hall]
    exact mem_frames_of_covers he hu hc

theorem init_left (M : MemoryMap) : (BootInfoFrameAllocator.init M.entries).Left M.frames := by
  refine ⟨rfl, ?_⟩
  intro x hx
  obtain ⟨e, he, hxe⟩ := mem_addrs (M := M) hx
  exact (contains_of_mem_addrs he hxe).2.2

end MemoryMap

/-- The frames that were given out for one use. -/
def framesFor (u : FrameUse) (log : List (FrameUse × Option PhysFrame)) : List PhysFrame :=
  (log.filter (·.1 = u)).filterMap Prod.snd

theorem framesFor_append (u : FrameUse) (log log' : List (FrameUse × Option PhysFrame)) :
    framesFor u (log ++ log') = framesFor u log ++ framesFor u log' := by
  simp [framesFor]

theorem framesFor_heapPage_cons (frame : PhysFrame) (log : List (FrameUse × Option PhysFrame)) :
    framesFor .heapPage ((.heapPage, some frame) :: log) = frame :: framesFor .heapPage log := by
  simp [framesFor]

theorem framesFor_of_label {u v : FrameUse} {log : List (FrameUse × Option PhysFrame)}
    (h : ∀ x ∈ log, x.1 = v) (hne : v ≠ u) : framesFor u log = [] := by
  have hnil : log.filter (·.1 = u) = [] := by
    rw [List.filter_eq_nil_iff]
    intro x hx
    simp [h x hx, hne]
  simp [framesFor, hnil]

section InitHeap

variable {σ : Type*}
  {mapTo : σ → Page → PhysFrame → UInt64 → Requests Unit PhysFrame (Except MapToError σ)}

/-- A round of the loop that succeeds with the rest: it asked for the page's frame, `map_to`
asked for page-table frames and succeeded, and the loop went on. -/
theorem initHeapLoop_cons {page : Page} {pages : List Page} {mapper : σ}
    {a : BootInfoFrameAllocator}
    {out : Outcome BootInfoFrameAllocator FrameUse PhysFrame
      (Except MapToError (List (Page × PhysFrame)))}
    (h : (initHeapLoop mapTo (page :: pages) mapper).run BootInfoFrameAllocator.allocateFrame a =
      .ok out)
    {backing : List (Page × PhysFrame)} (hres : out.result = .ok backing) :
    ∃ frame mapper' a' outLoop rest,
      (initHeapLoop mapTo pages mapper').run BootInfoFrameAllocator.allocateFrame a' =
        .ok outLoop ∧ outLoop.result = .ok rest ∧ backing = (page, frame) :: rest ∧
      framesFor .heapPage out.log = frame :: framesFor .heapPage outLoop.log := by
  obtain ⟨g, a', out', -, hrun, rfl⟩ := Requests.run_ask h
  cases g with
  | none =>
    rw [← Except.ok.inj hrun] at hres
    cases hres
  | some frame =>
    obtain ⟨outMap, outRest, hmap, hrest, hres', hlog⟩ := Requests.run_bind hrun
    have htables := framesFor_of_label (u := .heapPage) (Requests.run_label hmap) (by decide)
    change out'.result = .ok backing at hres
    rw [hres'] at hres
    cases hmapped : outMap.result with
    | error e =>
      simp only [hmapped] at hrest
      rw [← Except.ok.inj hrest] at hres
      cases hres
    | ok mapper' =>
      simp only [hmapped] at hrest
      obtain ⟨outLoop, outLast, hloop, hlast, hres'', hlog'⟩ := Requests.run_bind hrest
      have hdone := Except.ok.inj hlast
      rw [hres'', ← hdone] at hres
      cases hend : outLoop.result with
      | error e =>
        simp only [hend] at hres
        cases hres
      | ok rest =>
        simp only [hend] at hres
        refine ⟨frame, mapper', outMap.supplier, outLoop, rest, hloop, hend,
          (Except.ok.inj hres).symm, ?_⟩
        rw [hlog, hlog', ← hdone, framesFor_heapPage_cons, framesFor_append, htables,
          List.append_nil, List.nil_append]

/-- When `init_heap` succeeds, the frames behind its pages are those it asked for itself. -/
theorem initHeapLoop_backing {pages : List Page} {mapper : σ} {a : BootInfoFrameAllocator}
    {out : Outcome BootInfoFrameAllocator FrameUse PhysFrame
      (Except MapToError (List (Page × PhysFrame)))}
    (h : (initHeapLoop mapTo pages mapper).run BootInfoFrameAllocator.allocateFrame a = .ok out)
    {backing : List (Page × PhysFrame)} (hres : out.result = .ok backing) :
    backing.map Prod.fst = pages ∧ framesFor .heapPage out.log = backing.map Prod.snd := by
  induction pages generalizing mapper a out backing with
  | nil =>
    have hout : out = ⟨.ok [], [], a⟩ := by simpa [initHeapLoop, Requests.run] using h.symm
    have hb : backing = [] := by simpa [hout] using hres.symm
    simp [hb, hout, framesFor]
  | cons page pages ih =>
    obtain ⟨frame, mapper', a', outLoop, rest, hloop, hend, rfl, hlogs⟩ :=
      initHeapLoop_cons h hres
    obtain ⟨hpages, hframes⟩ := ih hloop hend
    rw [hlogs, hframes, List.map_cons, List.map_cons, hpages]
    exact ⟨rfl, rfl⟩

theorem framesFor_perm (log : List (FrameUse × Option PhysFrame)) :
    (framesFor .heapPage log ++ framesFor .pageTable log).Perm (log.filterMap Prod.snd) := by
  have hsplit := List.filter_append_perm (fun x : FrameUse × Option PhysFrame => x.1 = .heapPage) log
  have htables : log.filter (fun x => !decide (x.1 = .heapPage)) = log.filter (·.1 = .pageTable) := by
    apply List.filter_congr
    rintro ⟨u, g⟩ _
    cases u <;> rfl
  rw [htables] at hsplit
  have hperm := hsplit.filterMap Prod.snd
  rwa [List.filterMap_append] at hperm

theorem boot_frames_handed_out_once (M : MemoryMap) :
    (∀ (ω α : Type) (c : Requests ω PhysFrame α), ∃ out,
      c.run BootInfoFrameAllocator.allocateFrame (.init M.entries) = .ok out ∧ M.HandedOut out.log) ∧
    ∀ (σ : Type)
      (mapTo : σ → Page → PhysFrame → UInt64 → Requests Unit PhysFrame (Except MapToError σ))
      (mapper : σ), ∃ out,
      (initHeap mapTo mapper).run BootInfoFrameAllocator.allocateFrame (.init M.entries) = .ok out ∧
      M.HandedOut out.log ∧ ∀ backing, out.result = .ok backing →
        backing.map Prod.fst = heapPages ∧ (backing.map Prod.snd).Nodup ∧
          ∀ f ∈ backing.map Prod.snd, (.pageTable, some f) ∉ out.log := by
  constructor
  · intro ω α c
    obtain ⟨out, hrun, hans⟩ := c.run_supplied BootInfoFrameAllocator.supplies M.init_left
    exact ⟨out, hrun, M.handedOut hans⟩
  · intro σ mapTo mapper
    obtain ⟨out, hrun, hans⟩ :=
      (initHeap mapTo mapper).run_supplied BootInfoFrameAllocator.supplies M.init_left
    have hout := M.handedOut hans
    refine ⟨out, hrun, hout, ?_⟩
    intro backing hres
    obtain ⟨hpages, hframes⟩ := initHeapLoop_backing hrun hres
    have hnodup := (framesFor_perm out.log).nodup_iff.mpr hout.distinct
    obtain ⟨hheap, -, hdis⟩ := List.nodup_append.mp hnodup
    rw [hframes] at hheap hdis
    refine ⟨hpages, hheap, ?_⟩
    intro f hf hmem
    have htable : f ∈ framesFor .pageTable out.log :=
      List.mem_filterMap.mpr ⟨_, List.mem_filter.mpr ⟨hmem, by simp⟩, rfl⟩
    exact hdis f hf f htable rfl

end InitHeap

/-- A reserved page and 26 usable frames behind it. -/
def smallEntries : List Entry := [⟨0, 4096, ⟨1⟩⟩, ⟨4096, 106496, .usable⟩]

theorem smallEntries_disjoint :
    smallEntries.Pairwise fun e e' => ∀ addr, ¬ (e.Contains addr ∧ e'.Contains addr) := by
  simp only [smallEntries, List.pairwise_cons, List.mem_singleton, forall_eq, List.not_mem_nil,
    false_implies, implies_true, List.Pairwise.nil, and_true]
  rintro addr ⟨⟨-, hlt⟩, ⟨hle, -⟩⟩
  simp at hlt hle
  omega

theorem smallEntries_aligned : ∀ e ∈ smallEntries, e.entryType = .usable →
    frameSize ∣ e.base.toNat ∧ frameSize ∣ e.length.toNat := by
  decide

theorem smallEntries_bounded : ∀ e ∈ smallEntries, e.entryType = .usable →
    e.base.toNat + e.length.toNat ≤ 2 ^ 52 := by
  decide

def smallMap : MemoryMap :=
  ⟨smallEntries, smallEntries_disjoint, smallEntries_aligned, smallEntries_bounded⟩

/-- A page table that needs one frame of its own, at the first page. -/
def oneTable (mapped : Bool) (_ : Page) (_ : PhysFrame) (_ : UInt64) :
    Requests Unit PhysFrame (Except MapToError Bool) :=
  if mapped then .done (.ok true)
  else .ask () fun
    | none => .done (.error .frameAllocationFailed)
    | some _ => .done (.ok true)

theorem boot_frames_handed_out_once_smallMap :
    ∃ out, (initHeap oneTable false).run BootInfoFrameAllocator.allocateFrame
        (.init smallMap.entries) = .ok out ∧ smallMap.HandedOut out.log ∧
      ∀ backing, out.result = .ok backing → (backing.map Prod.snd).Nodup := by
  obtain ⟨out, hrun, hout, hback⟩ := (boot_frames_handed_out_once smallMap).2 Bool oneTable false
  exact ⟨out, hrun, hout, fun backing hres => (hback backing hres).2.1⟩

example : ((initHeap oneTable false).run BootInfoFrameAllocator.allocateFrame
    (.init smallMap.entries)).toOption.map
      (fun out => (out.log.length, out.result.toOption.map List.length)) = some (26, some 25) := by
  decide +kernel

end Nacl
