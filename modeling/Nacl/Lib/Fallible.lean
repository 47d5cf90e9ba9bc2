import Mathlib.Data.List.Induction

/-! Runs of operations that may fail: a failed operation ends the run. -/

namespace Fallible

universe u

variable {ε α : Type*} {σ τ : Type u} {f : σ → α → Except ε σ}

@[simp] theorem ok_bind (s : σ) (g : σ → Except ε τ) : (Except.ok s >>= g) = g s := rfl

theorem bind_eq_ok_iff {x : Except ε σ} {g : σ → Except ε τ} {t : τ} :
    (x >>= g) = .ok t ↔ ∃ s, x = .ok s ∧ g s = .ok t := by
  cases x with
  | error e => exact ⟨fun h => (nomatch h), fun ⟨_, h, _⟩ => (nomatch h)⟩
  | ok s => exact ⟨fun h => ⟨s, rfl, h⟩, fun ⟨_, h, hg⟩ => by cases h; exact hg⟩

theorem foldlM_invariant {I : List α → σ → Prop}
    (hstep : ∀ as a s t, I as s → f s a = .ok t → I (as ++ [a]) t)
    {s t : σ} {as : List α} (hs : I [] s) (h : as.foldlM f s = .ok t) : I as t := by
  induction as using List.reverseRecOn generalizing t with
  | nil =>
    cases h
    exact hs
  | append_singleton as a ih =>
    rw [List.foldlM_append] at h
    obtain ⟨u, hu, ha⟩ := bind_eq_ok_iff.mp h
    rw [List.foldlM_cons] at ha
    obtain ⟨v, hv, hnil⟩ := bind_eq_ok_iff.mp ha
    cases hnil
    exact hstep as a u _ (ih hu) hv

theorem foldlM_total {I : σ → Prop} (hstep : ∀ s a, I s → ∃ t, f s a = .ok t ∧ I t)
    {s : σ} (hs : I s) (as : List α) : ∃ t, as.foldlM f s = .ok t ∧ I t := by
  induction as generalizing s with
  | nil => exact ⟨s, rfl, hs⟩
  | cons a as ih =>
    obtain ⟨u, hu, hI⟩ := hstep s a hs
    obtain ⟨t, ht, hIt⟩ := ih hI
    exact ⟨t, by rw [List.foldlM_cons, hu, ok_bind, ht], hIt⟩

end Fallible
