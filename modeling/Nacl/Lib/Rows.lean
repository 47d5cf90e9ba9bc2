import Mathlib.Data.List.Basic

/-! A text laid out in rows of `n` items: the text is split at its separators and
every line is cut into rows. An item more feeds the last row of the layout or opens
a new one, and a window keeps the last `v` rows. -/

namespace Rows

variable {α : Type*}

/-- Rows of `n` items, of which only the last may be shorter; one row at least. -/
def cut (n : Nat) (l : List α) : List (List α) :=
  if n = 0 ∨ l.length ≤ n then [l] else l.take n :: cut n (l.drop n)
termination_by l.length
decreasing_by simp; omega

def layout [BEq α] (n : Nat) (sep : α) (s : List α) : List (List α) :=
  (s.splitOn sep).flatMap (cut n)

/-- A full row is left only when the next item comes. -/
def feed [DecidableEq α] (n : Nat) (sep : α) (R : List (List α)) (c : α) : List (List α) :=
  if c = sep then R ++ [[]]
  else if (R.getLastD []).length = n then R ++ [[c]]
  else R.dropLast ++ [R.getLastD [] ++ [c]]

def window (v : Nat) (R : List (List α)) : List (List α) := R.drop (R.length - v)

theorem cut_of_length_le {n : Nat} {l : List α} (h : l.length ≤ n) : cut n l = [l] := by
  rw [cut, if_pos (Or.inr h)]

theorem cut_of_lt_length {n : Nat} {l : List α} (hn : 0 < n) (h : n < l.length) :
    cut n l = l.take n :: cut n (l.drop n) := by
  rw [cut, if_neg (by omega)]

theorem cut_concat {n : Nat} (hn : 0 < n) (l : List α) (c : α) :
    ∃ P r, cut n l = P ++ [r] ∧
      cut n (l ++ [c]) = if r.length = n then P ++ [r, [c]] else P ++ [r ++ [c]] := by
  induction l using cut.induct n with
  | case1 l h =>
    have hle : l.length ≤ n := by omega
    refine ⟨[], l, cut_of_length_le hle, ?_⟩
    by_cases hl : l.length = n
    · have hcut := cut_of_lt_length (l := l ++ [c]) hn (by simp; omega)
      have hlast : cut l.length [c] = [[c]] := cut_of_length_le (by simp; omega)
      rw [← hl, List.take_left, List.drop_left, hlast] at hcut
      rw [← hl, hcut, if_pos rfl, List.nil_append]
    · simpa [hl] using cut_of_length_le (l := l ++ [c]) (n := n) (by simp; omega)
  | case2 l h ih =>
    obtain ⟨P, r, hP, hc⟩ := ih
    have hlt : n < l.length := by omega
    refine ⟨l.take n :: P, r, by rw [cut_of_lt_length hn hlt, hP, List.cons_append], ?_⟩
    rw [cut_of_lt_length hn (by simp; omega), List.take_append_of_le_length (by omega),
      List.drop_append_of_le_length (by omega), hc]
    split <;> rfl

theorem splitOn_concat_of_ne [DecidableEq α] {sep c : α} (h : c ≠ sep) (s : List α) :
    ∃ P l, s.splitOn sep = P ++ [l] ∧ (s ++ [c]).splitOn sep = P ++ [l ++ [c]] := by
  induction s with
  | nil => exact ⟨[], [], by simp, by simp [List.splitOn_cons_eq_if_modifyHead, h]⟩
  | cons x s ih =>
    obtain ⟨P, l, hP, hc⟩ := ih
    rw [List.cons_append, List.splitOn_cons_eq_if_modifyHead, List.splitOn_cons_eq_if_modifyHead,
      hP, hc]
    by_cases hx : x = sep
    · exact ⟨[] :: P, l, by simp [hx], by simp [hx]⟩
    · cases P with
      | nil => exact ⟨[], x :: l, by simp [hx], by simp [hx]⟩
      | cons p P => exact ⟨(x :: p) :: P, l, by simp [hx], by simp [hx]⟩

theorem feed_concat [DecidableEq α] (n : Nat) (sep c : α) (R : List (List α)) (r : List α) :
    feed n sep (R ++ [r]) c = if c = sep then R ++ [r, []]
      else if r.length = n then R ++ [r, [c]] else R ++ [r ++ [c]] := by
  simp [feed]

theorem layout_nil [DecidableEq α] (n : Nat) (sep : α) : layout n sep [] = [[]] := by
  simp [layout, cut_of_length_le]

theorem layout_concat [DecidableEq α] {n : Nat} (hn : 0 < n) (sep : α) (s : List α) (c : α)
    (Q : List (List α)) :
    Q ++ layout n sep (s ++ [c]) = feed n sep (Q ++ layout n sep s) c := by
  by_cases hc : c = sep
  · subst hc
    simp [layout, feed, List.splitOn_append_cons_self, cut_of_length_le]
  · obtain ⟨P, l, hP, hPc⟩ := splitOn_concat_of_ne hc s
    obtain ⟨T, r, hT, hTc⟩ := cut_concat hn l c
    have hs : Q ++ layout n sep s = (Q ++ P.flatMap (cut n) ++ T) ++ [r] := by
      simp [layout, hP, hT]
    rw [hs, feed_concat, if_neg hc, layout, hPc]
    split <;> simp_all

variable {v : Nat} {R : List (List α)}

theorem length_window (h : v ≤ R.length) : (window v R).length = v := by
  simp [window]
  omega

theorem window_concat (hv : 0 < v) (R : List (List α)) (r : List α) :
    window v (R ++ [r]) = window (v - 1) R ++ [r] := by
  have hlen : (R ++ [r]).length - v = R.length - (v - 1) := by
    simp only [List.length_append, List.length_singleton]
    omega
  rw [window, hlen, List.drop_append_of_le_length (Nat.sub_le _ _), window]

theorem tail_window (hv : 0 < v) (h : v ≤ R.length) : (window v R).tail = window (v - 1) R := by
  rw [window, List.tail_drop, window, show R.length - v + 1 = R.length - (v - 1) by omega]

theorem set_rightpad {n : Nat} {r : List α} (h : r.length < n) (x c : α) :
    (r.rightpad n x).set r.length c = (r ++ [c]).rightpad n x := by
  obtain ⟨k, hk⟩ := Nat.exists_eq_add_of_lt h
  have hlen : n - r.length = k + 1 := by omega
  have hlen' : n - (r ++ [c]).length = k := by
    rw [List.length_append, List.length_singleton]
    omega
  rw [List.rightpad, List.rightpad, hlen, hlen', List.set_append_right _ _ (Nat.le_refl _),
    Nat.sub_self, List.replicate_succ, List.set_cons_zero, List.append_assoc, List.singleton_append]

end Rows
