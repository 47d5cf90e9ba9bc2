import Mathlib.Logic.Relation

/-! Guarded transition systems, reachability along steps that all meet a side
condition, and the induction rule for invariants. -/

namespace Guarded

structure System (σ α : Type*) where
  enabled : σ → α → Prop
  next : σ → α → σ
  dec : ∀ s a, Decidable (enabled s a)

variable {σ α : Type*} {M : System σ α} {ok ok' : σ → α → Prop} {s t : σ}

def System.Step (M : System σ α) (ok : σ → α → Prop) (s t : σ) : Prop :=
  ∃ a, M.enabled s a ∧ ok s a ∧ t = M.next s a

/-- Some run from the first state to the second takes only steps that meet `ok`. -/
abbrev System.Reaches (M : System σ α) (ok : σ → α → Prop) :=
  Relation.ReflTransGen (M.Step ok)

def anyStep (_ : σ) (_ : α) : Prop := True

def System.after (M : System σ α) (s : σ) (as : List α) : σ := as.foldl M.next s

def System.Legal (M : System σ α) (s : σ) : List α → Prop
  | [] => True
  | a :: as => M.enabled s a ∧ M.Legal (M.next s a) as

def System.Meets (M : System σ α) (ok : σ → α → Prop) (s : σ) : List α → Prop
  | [] => True
  | a :: as => ok s a ∧ M.Meets ok (M.next s a) as

def System.decLegal (M : System σ α) (s : σ) : (as : List α) → Decidable (M.Legal s as)
  | [] => isTrue trivial
  | a :: as => @instDecidableAnd _ _ (M.dec s a) (M.decLegal (M.next s a) as)

instance (M : System σ α) (s : σ) (as : List α) : Decidable (M.Legal s as) := M.decLegal s as

def System.decMeets (M : System σ α) [∀ s a, Decidable (ok s a)] (s : σ) :
    (as : List α) → Decidable (M.Meets ok s as)
  | [] => isTrue trivial
  | a :: as => @instDecidableAnd _ _ inferInstance (M.decMeets (M.next s a) as)

instance (M : System σ α) [∀ s a, Decidable (ok s a)] (s : σ) (as : List α) :
    Decidable (M.Meets ok s as) := M.decMeets s as

theorem System.Reaches.invariant {I : σ → Prop} (h : M.Reaches ok s t) (hs : I s)
    (hstep : ∀ s a, I s → M.enabled s a → ok s a → I (M.next s a)) : I t := by
  induction h with
  | refl => exact hs
  | tail _ hst ih =>
    obtain ⟨a, he, hok, rfl⟩ := hst
    exact hstep _ a ih he hok

theorem System.Reaches.mono (h : M.Reaches ok s t) (hok : ∀ s a, ok s a → ok' s a) :
    M.Reaches ok' s t := by
  refine Relation.ReflTransGen.mono ?_ _ _ h
  rintro s t ⟨a, he, ha, ht⟩
  exact ⟨a, he, hok s a ha, ht⟩

theorem System.reaches_after {as : List α} (h : M.Legal s as) (hok : M.Meets ok s as) :
    M.Reaches ok s (M.after s as) := by
  induction as generalizing s with
  | nil => exact .refl
  | cons a as ih => exact .head ⟨a, h.1, hok.1, rfl⟩ (ih h.2 hok.2)

theorem System.meets_anyStep (as : List α) : M.Meets anyStep s as := by
  induction as generalizing s with
  | nil => trivial
  | cons a as ih => exact ⟨trivial, ih⟩

/-- Progress: where a step leads on from every state but the goal, some run comes to the goal. -/
theorem System.exists_reaches {ι : Type*} {r : ι → ι → Prop} {m : σ → ι} {I G : σ → Prop}
    (hwf : WellFounded r) (hs : I s)
    (hstep : ∀ s, I s → ¬G s → ∃ a, M.enabled s a ∧ ok s a ∧ I (M.next s a) ∧ r (m (M.next s a)) (m s)) :
    ∃ t, M.Reaches ok s t ∧ G t := by
  induction hi : m s using hwf.induction generalizing s with
  | _ i ih =>
    by_cases hg : G s
    · exact ⟨s, .refl, hg⟩
    · obtain ⟨a, he, hok, hI, hr⟩ := hstep s hs hg
      rw [hi] at hr
      obtain ⟨t, ht, hgt⟩ := ih _ hr hI rfl
      exact ⟨t, .head ⟨a, he, hok, rfl⟩ ht, hgt⟩

/-- The system with a log of the events of its steps. -/
def System.logged {β : Type*} (M : System σ α) (events : σ → α → List β) :
    System (σ × List β) α where
  enabled x a := M.enabled x.1 a
  next x a := (M.next x.1 a, x.2 ++ events x.1 a)
  dec x a := M.dec x.1 a

theorem System.Reaches.unlogged {β : Type*} {events : σ → α → List β} {x y : σ × List β}
    (ok : σ → α → Prop) (h : (M.logged events).Reaches (fun x a => ok x.1 a) x y) :
    M.Reaches ok x.1 y.1 := by
  induction h with
  | refl => exact .refl
  | tail _ hst ih =>
    obtain ⟨a, he, hok, rfl⟩ := hst
    exact ih.tail ⟨a, he, hok, rfl⟩

theorem System.Reaches.log_append {β : Type*} {events : σ → α → List β} {x y : σ × List β}
    {ok : σ × List β → α → Prop} (h : (M.logged events).Reaches ok x y) :
    ∃ evs, y.2 = x.2 ++ evs := by
  induction h with
  | refl => exact ⟨[], (List.append_nil _).symm⟩
  | @tail y _ _ hst ih =>
    obtain ⟨a, -, -, rfl⟩ := hst
    obtain ⟨evs, hevs⟩ := ih
    exact ⟨evs ++ events y.1 a, by simp [System.logged, hevs]⟩

theorem System.after_append (s : σ) (as bs : List α) :
    M.after s (as ++ bs) = M.after (M.after s as) bs := List.foldl_append

theorem System.legal_append_iff {as bs : List α} :
    M.Legal s (as ++ bs) ↔ M.Legal s as ∧ M.Legal (M.after s as) bs := by
  induction as generalizing s with
  | nil => exact ⟨fun h => ⟨trivial, h⟩, fun h => h.2⟩
  | cons a as ih =>
    show M.enabled s a ∧ M.Legal (M.next s a) (as ++ bs) ↔ _
    rw [ih, ← and_assoc]
    rfl

theorem System.legal_logged {β : Type*} {events : σ → α → List β} {as : List α} {l : List β}
    (h : M.Legal s as) : (M.logged events).Legal (s, l) as := by
  induction as generalizing s l with
  | nil => trivial
  | cons a as ih => exact ⟨h.1, ih h.2⟩

theorem System.logged_after {β : Type*} {events : σ → α → List β} (s : σ) (l : List β)
    (as : List α) : (M.logged events).after (s, l) as =
      (M.after s as, l ++ ((M.logged events).after (s, []) as).2) := by
  induction as generalizing s l with
  | nil => exact Prod.ext rfl (List.append_nil l).symm
  | cons a as ih =>
    show (M.logged events).after (M.next s a, l ++ events s a) as =
      (M.after (M.next s a) as, l ++ ((M.logged events).after (M.next s a, [] ++ events s a) as).2)
    rw [ih, ih (M.next s a) ([] ++ events s a)]
    simp

/-- An event of a part of a run is one of the run. -/
theorem System.mem_logged_after {β : Type*} {events : σ → α → List β} {e : β} {as bs : List α}
    (l : List β) (h : e ∈ ((M.logged events).after (s, []) as).2) :
    e ∈ ((M.logged events).after (s, l) (as ++ bs)).2 := by
  rw [System.after_append, System.logged_after s l as, System.logged_after]
  exact List.mem_append_left _ (List.mem_append_right _ h)

/-- The events take the first state of a specification to the second. -/
inductive Trace {τ β : Type*} (step : τ → β → τ → Prop) : τ → List β → τ → Prop
  | nil (x : τ) : Trace step x [] x
  | cons {x y z : τ} {e : β} {es : List β} (h : step x e y) (hs : Trace step y es z) :
    Trace step x (e :: es) z

theorem Trace.append {τ β : Type*} {step : τ → β → τ → Prop} {x y z : τ} {es fs : List β}
    (h : Trace step x es y) (h' : Trace step y fs z) : Trace step x (es ++ fs) z := by
  induction h with
  | nil x => exact h'
  | cons h _ ih => exact .cons h (ih h')

theorem Trace.single {τ β : Type*} {step : τ → β → τ → Prop} {x y : τ} {e : β} (h : step x e y) :
    Trace step x [e] y := .cons h (.nil y)

theorem Trace.of_single {τ β : Type*} {step : τ → β → τ → Prop} {x y : τ} {e : β}
    (h : Trace step x [e] y) : step x e y := by
  cases h with
  | cons h hs =>
    cases hs
    exact h

/-- A simulation: when every step has events that a specification allows, so has every run. -/
theorem System.Reaches.trace {τ β : Type*} {events : σ → α → List β} {x y : σ × List β}
    {step : τ → β → τ → Prop} {R : σ → τ → Prop} {u : τ}
    (h : (M.logged events).Reaches (fun x a => ok x.1 a) x y) (hx : ∃ v, Trace step u x.2 v ∧ R x.1 v)
    (hstep : ∀ s v a, R s v → M.enabled s a → ok s a →
      ∃ w, Trace step v (events s a) w ∧ R (M.next s a) w) :
    ∃ v, Trace step u y.2 v ∧ R y.1 v := by
  induction h with
  | refl => exact hx
  | tail _ hst ih =>
    obtain ⟨a, he, hok, rfl⟩ := hst
    obtain ⟨v, hv, hR⟩ := ih
    obtain ⟨w, hw, hR'⟩ := hstep _ v a hR he hok
    exact ⟨w, hv.append hw, hR'⟩

end Guarded
