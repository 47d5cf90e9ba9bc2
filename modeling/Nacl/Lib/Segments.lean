import Mathlib.Order.Bounds.Defs
import Mathlib.Data.List.Basic

/-! Lists cut into the pieces that end in a terminator, and tables that give each key
the number of the last piece it occurs in. -/

namespace Segments

variable {α κ ν : Type*}

section Terminated

variable [DecidableEq α] {t : α} {l : List α}

/-- The pieces before each occurrence of `t`; what follows the last one is left out. -/
def terminated (t : α) (l : List α) : List (List α) := (l.splitOn t).dropLast

theorem terminated_of_not_mem (h : t ∉ l) : terminated t l = [] := by
  rw [terminated, List.splitOn_eq_singleton h, List.dropLast_singleton]

theorem terminated_append_cons {xs : List α} (h : t ∉ xs) (l : List α) :
    terminated t (xs ++ t :: l) = xs :: terminated t l := by
  rw [terminated, List.splitOn_append_cons_self_of_not_mem h,
    List.dropLast_cons_of_ne_nil (List.splitOn_ne_nil t l), terminated]

theorem terminated_flatMap {ls : List (List α)} (h : ∀ xs ∈ ls, t ∉ xs) :
    terminated t (ls.flatMap (· ++ [t])) = ls := by
  induction ls with
  | nil => exact terminated_of_not_mem List.not_mem_nil
  | cons xs ls ih =>
    have htail := ih fun ys hys => h ys (List.mem_cons_of_mem xs hys)
    rw [List.flatMap_cons, List.append_assoc, List.singleton_append,
      terminated_append_cons (h xs List.mem_cons_self), htail]

theorem length_splitOn_le (t : α) (l : List α) : (l.splitOn t).length ≤ l.length + 1 := by
  induction l with
  | nil => simp
  | cons x l ih =>
    rw [List.splitOn_cons_eq_if_modifyHead]
    split
    · rw [List.length_cons, List.length_cons]
      omega
    · rw [List.length_modifyHead, List.length_cons]
      omega

theorem length_terminated_le (t : α) (l : List α) : (terminated t l).length ≤ l.length := by
  have h := length_splitOn_le t l
  rw [terminated, List.length_dropLast]
  omega

end Terminated

section Last

variable {occurs : κ → α → Prop} {num : ν → Nat} {m m' : κ → Option ν} {l : List α}

/-- The numbers of the pieces that a key occurs in. -/
def placesOf (occurs : κ → α → Prop) (l : List α) (k : κ) : Set Nat :=
  { n | ∃ a, l[n]? = some a ∧ occurs k a }

/-- The table has the keys that occur in some piece, each with the number of the last
piece it occurs in. -/
structure Last (occurs : κ → α → Prop) (num : ν → Nat) (m : κ → Option ν) (l : List α) : Prop where
  keys : ∀ k, (m k).isSome = true ↔ ∃ a ∈ l, occurs k a
  last : ∀ k v, m k = some v → IsGreatest (placesOf occurs l k) (num v)

theorem Last.nil : Last occurs num (fun _ => none) [] :=
  ⟨by simp, by simp⟩

theorem placesOf_lt_length {k : κ} {n : Nat} (h : n ∈ placesOf occurs l k) : n < l.length := by
  obtain ⟨a, ha, -⟩ := h
  exact (List.getElem?_eq_some_iff.mp ha).1

theorem placesOf_snoc_of_not_occurs {a : α} {k : κ} (h : ¬ occurs k a) :
    placesOf occurs (l ++ [a]) k = placesOf occurs l k := by
  ext n
  constructor
  · rintro ⟨b, hb, hk⟩
    by_cases hn : n < l.length
    · exact ⟨b, by rwa [List.getElem?_append_left hn] at hb, hk⟩
    · rw [List.getElem?_append_right (Nat.not_lt.mp hn), List.getElem?_singleton] at hb
      split at hb
      · cases hb
        exact absurd hk h
      · cases hb
  · rintro ⟨b, hb, hk⟩
    have hn : n < l.length := (List.getElem?_eq_some_iff.mp hb).1
    exact ⟨b, by rwa [List.getElem?_append_left hn], hk⟩

/-- Overwriting the entries of the keys of one more piece. -/
theorem Last.snoc (h : Last occurs num m l) {a : α} {v : ν} (hv : num v = l.length)
    (hin : ∀ k, occurs k a → m' k = some v) (hout : ∀ k, ¬ occurs k a → m' k = m k) :
    Last occurs num m' (l ++ [a]) := by
  constructor
  · intro k
    by_cases hk : occurs k a
    · simp [hin k hk, hk]
    · rw [hout k hk, h.keys]
      simp [hk]
  · intro k w hw
    by_cases hk : occurs k a
    · obtain rfl : v = w := Option.some.inj ((hin k hk).symm.trans hw)
      rw [hv]
      refine ⟨⟨a, by simp, hk⟩, ?_⟩
      intro n hn
      have hlt := placesOf_lt_length hn
      rw [List.length_append, List.length_singleton] at hlt
      omega
    · rw [hout k hk] at hw
      rw [placesOf_snoc_of_not_occurs hk]
      exact h.last k w hw

theorem Last.of_map {β : Type*} {f : β → α} {occurs' : κ → β → Prop} {l : List β}
    (h : Last occurs num m (l.map f)) (hf : ∀ k b, occurs k (f b) ↔ occurs' k b) :
    Last occurs' num m l := by
  have hplaces : ∀ k, placesOf occurs (l.map f) k = placesOf occurs' l k := by
    intro k
    ext n
    simp [placesOf, hf]
  constructor
  · intro k
    rw [h.keys]
    simp [hf]
  · intro k v hv
    rw [← hplaces]
    exact h.last k v hv

end Last

end Segments
