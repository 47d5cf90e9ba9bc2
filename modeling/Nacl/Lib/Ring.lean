import Mathlib.Algebra.Ring.Nat
import Mathlib.Data.List.Basic
import Mathlib.Logic.Function.Basic

/-! Ring buffers whose capacity is a power of two. A buffer is addressed by indices
that only grow; `none` is a slot that was never written. -/

namespace Ring

structure Capacity where
  val : Nat
  two_pow : ∃ k, val = 2 ^ k

theorem two_pow_double {n : Nat} (h : ∃ k, n = 2 ^ k) : ∃ k, n * 2 = 2 ^ k := by
  obtain ⟨k, rfl⟩ := h
  exact ⟨k + 1, (Nat.pow_succ 2 k).symm⟩

theorem two_pow_half {n : Nat} (hn : 1 < n) (h : ∃ k, n = 2 ^ k) : ∃ k, n / 2 = 2 ^ k := by
  obtain ⟨k, rfl⟩ := h
  cases k with
  | zero => exact absurd hn (Nat.lt_irrefl 1)
  | succ k => exact ⟨k, by rw [Nat.pow_succ, Nat.mul_div_cancel _ (Nat.zero_lt_two)]⟩

def Capacity.double (c : Capacity) : Capacity := ⟨c.val * 2, two_pow_double c.two_pow⟩

def Capacity.half (c : Capacity) (h : 1 < c.val) : Capacity := ⟨c.val / 2, two_pow_half h c.two_pow⟩

theorem Capacity.pos (c : Capacity) : 0 < c.val := by
  obtain ⟨n, k, rfl⟩ := c
  exact Nat.two_pow_pos k

@[simp] theorem Capacity.val_double (c : Capacity) : c.double.val = c.val * 2 := rfl

structure Buffer (α : Type*) where
  cap : Capacity
  slots : Nat → Option α

variable {α : Type*} {r r' r'' : Buffer α} {i j lo mid hi : Nat} {x : Option α}

def Buffer.alloc (cap : Capacity) : Buffer α := ⟨cap, fun _ => none⟩

def Buffer.at (r : Buffer α) (i : Nat) : Nat := i &&& (r.cap.val - 1)

def Buffer.read (r : Buffer α) (i : Nat) : Option α := r.slots (r.at i)

def Buffer.write (r : Buffer α) (i : Nat) (x : Option α) : Buffer α :=
  { r with slots := Function.update r.slots (r.at i) x }

/-- What a buffer holds from index `lo` up to `hi`. -/
def Buffer.window (r : Buffer α) (lo hi : Nat) : List (Option α) :=
  (List.range' lo (hi - lo)).map r.read

/-- Two buffers hold the same from index `lo` up to `hi`. -/
def Agree (r r' : Buffer α) (lo hi : Nat) : Prop :=
  ∀ j, lo ≤ j → j < hi → r.read j = r'.read j

@[simp] theorem Buffer.cap_alloc (c : Capacity) : (Buffer.alloc c : Buffer α).cap = c := rfl

@[simp] theorem Buffer.cap_write : (r.write i x).cap = r.cap := rfl

theorem Buffer.at_eq_mod (r : Buffer α) (i : Nat) : r.at i = i % r.cap.val := by
  obtain ⟨k, hk⟩ := r.cap.two_pow
  rw [Buffer.at, hk, Nat.and_two_pow_sub_one_eq_mod]

theorem Buffer.at_ne (hij : i < j) (hj : j < i + r.cap.val) : r.at i ≠ r.at j := by
  rw [r.at_eq_mod, r.at_eq_mod]
  intro h
  have hd : r.cap.val ∣ j - i := Nat.dvd_of_mod_eq_zero (Nat.sub_mod_eq_zero_of_mod_eq h.symm)
  have hle := Nat.le_of_dvd (by omega) hd
  omega

@[simp] theorem Buffer.read_write_self : (r.write i x).read i = x := by
  simp [Buffer.read, Buffer.write, Buffer.at]

theorem Buffer.read_write_of_lt (hji : j < i) (hi : i < j + r.cap.val) :
    (r.write i x).read j = r.read j := by
  have hne : r.at j ≠ r.at i := Buffer.at_ne hji hi
  exact Function.update_of_ne hne x r.slots

theorem Buffer.read_write_of_ne (hne : i ≠ j) (hij : i < j + r.cap.val) (hji : j < i + r.cap.val) :
    (r.write i x).read j = r.read j := by
  obtain h | h := Nat.lt_or_gt_of_ne hne
  · have hat : r.at i ≠ r.at j := Buffer.at_ne h hji
    exact Function.update_of_ne hat.symm x r.slots
  · exact Buffer.read_write_of_lt h hij

theorem Agree.refl : Agree r r lo hi := fun _ _ _ => rfl

theorem Agree.symm (h : Agree r r' lo hi) : Agree r' r lo hi := fun j hl hh => (h j hl hh).symm

theorem Agree.trans (h : Agree r r' lo hi) (h' : Agree r' r'' lo hi) : Agree r r'' lo hi :=
  fun j hl hh => (h j hl hh).trans (h' j hl hh)

theorem Agree.mono (h : Agree r r' lo hi) {lo' hi' : Nat} (hl : lo ≤ lo') (hh : hi' ≤ hi) :
    Agree r r' lo' hi' := fun j hj hj' => h j (Nat.le_trans hl hj) (Nat.lt_of_lt_of_le hj' hh)

/-- Writing past a window that leaves room in the buffer keeps the window. -/
theorem Agree.write_of_room (hi' : hi ≤ i) (hroom : i < lo + r.cap.val) :
    Agree (r.write i x) r lo hi := by
  intro j hl hh
  exact Buffer.read_write_of_lt (by omega) (by omega)

theorem Agree.snoc (h : Agree r r' lo hi) (hx : r.read hi = r'.read hi) :
    Agree r r' lo (hi + 1) := by
  intro j hl hh
  obtain hj | rfl := Nat.lt_succ_iff_lt_or_eq.mp hh
  · exact h j hl hj
  · exact hx

theorem Buffer.window_of_le (h : hi ≤ lo) : r.window lo hi = [] := by
  simp [Buffer.window, Nat.sub_eq_zero_of_le h]

theorem Buffer.window_append (h : lo ≤ mid) (h' : mid ≤ hi) :
    r.window lo hi = r.window lo mid ++ r.window mid hi := by
  rw [Buffer.window, Buffer.window, Buffer.window, ← List.map_append]
  have hsplit : hi - lo = (mid - lo) + (hi - mid) := by omega
  have hmid : lo + 1 * (mid - lo) = mid := by omega
  rw [hsplit, ← List.range'_append, hmid]

theorem Buffer.window_snoc (h : lo ≤ hi) : r.window lo (hi + 1) = r.window lo hi ++ [r.read hi] := by
  rw [Buffer.window_append h (Nat.le_succ hi)]
  simp [Buffer.window, List.range'_one]

theorem Buffer.window_cons (h : lo < hi) : r.window lo hi = r.read lo :: r.window (lo + 1) hi := by
  rw [Buffer.window_append (Nat.le_succ lo) h]
  simp [Buffer.window, List.range'_one]

/-- Windows of two buffers at different indices that hold the same. -/
theorem Buffer.window_shift {n : Nat} (h : ∀ k, k < n → r.read (i + k) = r'.read (j + k)) :
    r.window i (i + n) = r'.window j (j + n) := by
  rw [Buffer.window, Buffer.window, Nat.add_sub_cancel_left, Nat.add_sub_cancel_left,
    List.range'_eq_map_range, List.range'_eq_map_range, List.map_map, List.map_map]
  refine List.map_congr_left ?_
  intro k hk
  exact h k (List.mem_range.mp hk)

theorem Buffer.length_window : (r.window lo hi).length = hi - lo := by
  rw [Buffer.window, List.length_map, List.length_range']

theorem Buffer.getElem?_window (h : lo + j < hi) : (r.window lo hi)[j]? = some (r.read (lo + j)) := by
  rw [Buffer.window, List.getElem?_map, List.getElem?_range' (by omega), Nat.one_mul]
  rfl

/-- A window that holds the elements of a list. -/
theorem Buffer.window_eq_map {l : List α} :
    r.window lo hi = l.map some ↔ l.length = hi - lo ∧ ∀ j, lo + j < hi → r.read (lo + j) = l[j]? := by
  constructor
  · intro h
    have hlen : l.length = hi - lo := by
      rw [← Buffer.length_window (r := r), h, List.length_map]
    refine ⟨hlen, fun j hj => ?_⟩
    have hget := Buffer.getElem?_window (r := r) hj
    rw [h, List.getElem?_map, List.getElem?_eq_getElem (by omega)] at hget
    rw [List.getElem?_eq_getElem (by omega)]
    exact (Option.some.inj hget).symm
  · rintro ⟨hlen, hget⟩
    refine List.ext_getElem? fun j => ?_
    by_cases hj : lo + j < hi
    · rw [Buffer.getElem?_window hj, hget j hj, List.getElem?_map,
        List.getElem?_eq_getElem (by omega)]
      rfl
    · rw [List.getElem?_eq_none (by rw [Buffer.length_window]; omega),
        List.getElem?_eq_none (by rw [List.length_map]; omega)]

theorem Agree.window (h : Agree r r' lo hi) : r.window lo hi = r'.window lo hi := by
  refine List.map_congr_left ?_
  intro j hj
  rw [List.mem_range'_1] at hj
  exact h j hj.1 (by omega)

end Ring
