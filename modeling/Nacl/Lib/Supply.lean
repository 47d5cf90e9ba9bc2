import Mathlib.Data.List.Basic

/-! Programs that ask a supplier for items, one request at a time, and what they are
answered by a supplier that hands out a list of items in order and then nothing. -/

namespace Supply

variable {ω ω' γ α β σ ε : Type*}

/-- Each request carries a label that says what it is for. -/
inductive Requests (ω γ α : Type*)
  | done (a : α)
  | ask (o : ω) (k : Option γ → Requests ω γ α)

def Requests.bind : Requests ω γ α → (α → Requests ω γ β) → Requests ω γ β
  | .done a, f => f a
  | .ask o k, f => .ask o fun g => (k g).bind f

def Requests.label (o : ω') : Requests ω γ α → Requests ω' γ α
  | .done a => .done a
  | .ask _ k => .ask o fun g => (k g).label o

structure Outcome (σ ω γ α : Type*) where
  result : α
  log : List (ω × Option γ)
  supplier : σ

def Requests.run (next : σ → Except ε (Option γ × σ)) :
    Requests ω γ α → σ → Except ε (Outcome σ ω γ α)
  | .done a, s => .ok ⟨a, [], s⟩
  | .ask o k, s => match next s with
    | .error e => .error e
    | .ok (g, s) => match (k g).run next s with
      | .error e => .error e
      | .ok out => .ok { out with log := (o, g) :: out.log }

/-- The supplier hands out the items of the list related to its state. -/
def Supplies (next : σ → Except ε (Option γ × σ)) (R : σ → List γ → Prop) : Prop :=
  ∀ s l, R s l → ∃ s', next s = .ok (l.head?, s') ∧ R s' l.tail

/-- The answers to requests in a row, the items of the list being handed out in order. -/
def Answers : List γ → List (Option γ) → Prop
  | _, [] => True
  | l, g :: gs => g = l.head? ∧ Answers l.tail gs

variable {next : σ → Except ε (Option γ × σ)} {R : σ → List γ → Prop}

theorem Requests.run_supplied (h : Supplies next R) (c : Requests ω γ α) {s : σ} {l : List γ}
    (hs : R s l) : ∃ out, c.run next s = .ok out ∧ Answers l (out.log.map Prod.snd) := by
  induction c generalizing s l with
  | done a => exact ⟨_, rfl, trivial⟩
  | ask o k ih =>
    obtain ⟨s', hnext, hs'⟩ := h s l hs
    obtain ⟨out, hrun, hans⟩ := ih l.head? hs'
    exact ⟨{ out with log := (o, l.head?) :: out.log }, by simp [Requests.run, hnext, hrun], rfl, hans⟩

theorem Answers.filterMap {l : List γ} {gs : List (Option γ)} (h : Answers l gs) :
    gs.filterMap id = l.take gs.length := by
  induction gs generalizing l with
  | nil => simp
  | cons g gs ih =>
    obtain ⟨hg, hgs⟩ := h
    have hh := ih hgs
    rw [hg, List.length_cons]
    cases l with
    | nil => simpa using hh
    | cons x l => simpa using hh

theorem Answers.drop {l : List γ} {gs gs' : List (Option γ)} (h : Answers l (gs ++ gs')) :
    Answers l gs ∧ Answers (l.drop gs.length) gs' := by
  induction gs generalizing l with
  | nil => exact ⟨trivial, h⟩
  | cons g gs ih =>
    obtain ⟨hg, hgs⟩ := h
    obtain ⟨hl, hr⟩ := ih hgs
    refine ⟨⟨hg, hl⟩, ?_⟩
    rwa [List.length_cons, ← List.drop_tail]

theorem Answers.of_nil {gs : List (Option γ)} (h : Answers [] gs) : ∀ g ∈ gs, g = none := by
  induction gs with
  | nil => simp
  | cons g gs ih =>
    intro x hx
    rcases List.mem_cons.mp hx with rfl | hx
    · exact h.1
    · exact ih h.2 x hx

/-- Nothing is answered only when every item has been handed out, and from then on. -/
theorem Answers.none_split {l : List γ} {gs gs' : List (Option γ)}
    (h : Answers l (gs ++ none :: gs')) : gs.filterMap id = l ∧ ∀ g ∈ gs', g = none := by
  obtain ⟨hl, hnone, hrest⟩ := h.drop
  have hdrop : l.drop gs.length = [] := List.head?_eq_none_iff.mp hnone.symm
  rw [hdrop] at hrest
  refine ⟨?_, hrest.of_nil⟩
  rw [hl.filterMap]
  exact List.take_of_length_le (List.drop_eq_nil_iff.mp hdrop)

theorem Requests.run_ask {o : ω} {k : Option γ → Requests ω γ α} {s : σ}
    {out : Outcome σ ω γ α} (h : (Requests.ask o k).run next s = .ok out) :
    ∃ g s' out', next s = .ok (g, s') ∧ (k g).run next s' = .ok out' ∧
      out = { out' with log := (o, g) :: out'.log } := by
  cases hnext : next s with
  | error e => simp [Requests.run, hnext] at h
  | ok x =>
    cases hrun : (k x.1).run next x.2 with
    | error e => simp [Requests.run, hnext, hrun] at h
    | ok out' => exact ⟨x.1, x.2, out', rfl, hrun, by simpa [Requests.run, hnext, hrun] using h.symm⟩

theorem Requests.run_bind {c : Requests ω γ α} {f : α → Requests ω γ β} {s : σ}
    {out : Outcome σ ω γ β} (h : (c.bind f).run next s = .ok out) :
    ∃ out₁ out₂, c.run next s = .ok out₁ ∧ (f out₁.result).run next out₁.supplier = .ok out₂ ∧
      out.result = out₂.result ∧ out.log = out₁.log ++ out₂.log := by
  induction c generalizing s out with
  | done a => exact ⟨⟨a, [], s⟩, out, rfl, h, rfl, rfl⟩
  | ask o k ih =>
    obtain ⟨g, s', out', hnext, hrun, rfl⟩ := Requests.run_ask h
    obtain ⟨out₁, out₂, h₁, h₂, hres, hlog⟩ := ih g hrun
    refine ⟨{ out₁ with log := (o, g) :: out₁.log }, out₂, ?_, h₂, hres, ?_⟩
    · simp [Requests.run, hnext, h₁]
    · rw [hlog]
      rfl

theorem Requests.run_label {c : Requests ω γ α} {o : ω'} {s : σ} {out : Outcome σ ω' γ α}
    (h : (c.label o).run next s = .ok out) : ∀ x ∈ out.log, x.1 = o := by
  induction c generalizing s out with
  | done a =>
    have hout : out = ⟨a, [], s⟩ := by simpa [Requests.label, Requests.run] using h.symm
    simp [hout]
  | ask o' k ih =>
    obtain ⟨g, s', out', hnext, hrun, rfl⟩ := Requests.run_ask h
    intro y hy
    rcases List.mem_cons.mp hy with rfl | hy
    · rfl
    · exact ih g hrun y hy

end Supply
