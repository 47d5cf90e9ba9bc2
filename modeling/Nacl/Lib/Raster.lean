import Mathlib.Data.List.Basic
import Mathlib.Tactic.Linarith

/-! Byte memories that hold little-endian words, and the addresses of 32-bit
pixels in a raster whose lines are `stride` bytes apart. -/

namespace Raster

abbrev Bytes := List UInt8

def load8 (m : Bytes) (a : Nat) : BitVec 8 := (m.getD a 0).toBitVec

def load16 (m : Bytes) (a : Nat) : BitVec 16 := load8 m (a + 1) ++ load8 m a

def load32 (m : Bytes) (a : Nat) : BitVec 32 := load16 m (a + 2) ++ load16 m a

def store8 (m : Bytes) (a : Nat) (v : BitVec 8) : Bytes := m.set a (.ofBitVec v)

def store32 (m : Bytes) (a : Nat) (v : BitVec 32) : Bytes :=
  store8 (store8 (store8 (store8 m a (v.extractLsb' 0 8)) (a + 1) (v.extractLsb' 8 8))
    (a + 2) (v.extractLsb' 16 8)) (a + 3) (v.extractLsb' 24 8)

variable {m : Bytes} {a b : Nat}

@[simp] theorem length_store8 (m : Bytes) (a : Nat) (v : BitVec 8) :
    (store8 m a v).length = m.length := by
  simp [store8]

@[simp] theorem length_store32 (m : Bytes) (a : Nat) (v : BitVec 32) :
    (store32 m a v).length = m.length := by
  simp [store32]

theorem load8_store8 (h : a < m.length) (v : BitVec 8) (b : Nat) :
    load8 (store8 m a v) b = if b = a then v else load8 m b := by
  by_cases hb : b = a
  · subst hb
    simp [load8, store8, List.getD_eq_getElem?_getD, h]
  · simp [load8, store8, List.getD_eq_getElem?_getD, Ne.symm hb, hb]

theorem load8_store32 (h : a + 4 ≤ m.length) (v : BitVec 32) (b : Nat) :
    load8 (store32 m a v) b =
      if a ≤ b ∧ b < a + 4 then v.extractLsb' (8 * (b - a)) 8 else load8 m b := by
  have h₁ : a + 1 < m.length := by omega
  have h₂ : a + 2 < m.length := by omega
  have h₃ : a + 3 < m.length := by omega
  simp only [store32]
  rw [load8_store8 (by simpa using h₃), load8_store8 (by simpa using h₂),
    load8_store8 (by simpa using h₁), load8_store8 (by omega)]
  by_cases hb : a ≤ b ∧ b < a + 4
  · obtain rfl | rfl | rfl | rfl : b = a ∨ b = a + 1 ∨ b = a + 2 ∨ b = a + 3 := by omega
    all_goals simp
  · rw [if_neg (by omega), if_neg (by omega), if_neg (by omega), if_neg (by omega), if_neg hb]

theorem load8_store32_add (h : a + 4 ≤ m.length) (v : BitVec 32) {k : Nat} (hk : k < 4) :
    load8 (store32 m a v) (a + k) = v.extractLsb' (8 * k) 8 := by
  rw [load8_store32 h, if_pos (by omega), Nat.add_sub_cancel_left]

theorem load32_store32 (h : a + 4 ≤ m.length) (v : BitVec 32) :
    load32 (store32 m a v) a = v := by
  have hbytes : load32 (store32 m a v) a = (v.extractLsb' 24 8 ++ v.extractLsb' 16 8) ++
      (v.extractLsb' 8 8 ++ v.extractLsb' 0 8) := by
    have h₀ := load8_store32_add h v (k := 0) (by decide)
    have h₁ := load8_store32_add h v (k := 1) (by decide)
    have h₂ := load8_store32_add h v (k := 2) (by decide)
    have h₃ := load8_store32_add h v (k := 3) (by decide)
    rw [load32, load16, load16, h₂, h₁]
    exact congrArg₂ _ (congrArg (· ++ _) h₃) (congrArg (_ ++ ·) h₀)
  rw [hbytes]
  apply BitVec.eq_of_getLsbD_eq
  intro i hi
  simp only [BitVec.getLsbD_append, BitVec.getLsbD_extractLsb']
  grind

/-- Bit `k` of a 16-bit word is in its first byte below 8 and in its second from there on. -/
theorem load16_getLsbD (m : Bytes) (a : Nat) {k : Nat} (hk : k < 16) :
    (load16 m a).getLsbD k = (load8 m (a + k / 8)).getLsbD (k % 8) := by
  rw [load16, BitVec.getLsbD_append]
  by_cases h : k < 8
  · rw [if_pos h, Nat.div_eq_of_lt h, Nat.mod_eq_of_lt h, Nat.add_zero]
  · have hdiv : k / 8 = 1 := by omega
    have hmod : k % 8 = k - 8 := by omega
    rw [if_neg h, hdiv, hmod]

theorem load32_store32_of_disjoint (h : a + 4 ≤ m.length) (hab : b + 4 ≤ a ∨ a + 4 ≤ b)
    (v : BitVec 32) : load32 (store32 m a v) b = load32 m b := by
  simp only [load32, load16, load8_store32 h]
  rw [if_neg (by omega), if_neg (by omega), if_neg (by omega), if_neg (by omega)]

def pixelAt (stride y x : Nat) : Nat := y * stride + 4 * x

variable {stride width height x y x' y' : Nat}

theorem pixelAt_lt_line (hx : x < width) (hw : 4 * width ≤ stride) :
    pixelAt stride y x + 4 ≤ (y + 1) * stride := by
  have hline : (y + 1) * stride = y * stride + stride := Nat.succ_mul y stride
  rw [pixelAt]
  omega

theorem pixelAt_in_bounds (hx : x < width) (hy : y < height) (hw : 4 * width ≤ stride) :
    pixelAt stride y x + 4 ≤ height * stride :=
  (pixelAt_lt_line hx hw).trans (Nat.mul_le_mul_right stride hy)

/-- Distinct pixels of a raster do not share a byte. -/
theorem pixelAt_disjoint (hx : x < width) (hx' : x' < width) (hw : 4 * width ≤ stride)
    (h : y ≠ y' ∨ x ≠ x') :
    pixelAt stride y x + 4 ≤ pixelAt stride y' x' ∨
      pixelAt stride y' x' + 4 ≤ pixelAt stride y x := by
  rcases Nat.lt_trichotomy y y' with hy | rfl | hy
  · have hline := pixelAt_lt_line (y := y) hx hw
    have hmono := Nat.mul_le_mul_right stride (show y + 1 ≤ y' from hy)
    exact .inl (hline.trans (hmono.trans (Nat.le_add_right _ _)))
  · simp only [pixelAt]
    omega
  · have hline := pixelAt_lt_line (y := y') hx' hw
    have hmono := Nat.mul_le_mul_right stride (show y' + 1 ≤ y from hy)
    exact .inr (hline.trans (hmono.trans (Nat.le_add_right _ _)))

theorem block_lt {k j n d : Nat} (hk : k < n / d) (hj : j < d) : k * d + j < n := by
  have hle : (k + 1) * d ≤ n := (Nat.mul_le_mul_right d hk).trans (Nat.div_mul_le_self n d)
  rw [Nat.succ_mul] at hle
  omega

theorem block_inj {k k' j j' d : Nat} (hj : j < d) (hj' : j' < d) (h : k * d + j = k' * d + j') :
    k = k' ∧ j = j' := by
  have hd : 0 < d := by omega
  have hk : k = k' := by
    have hdiv := congrArg (· / d) h
    simpa [Nat.mul_comm _ d, Nat.mul_add_div hd, Nat.div_eq_of_lt hj, Nat.div_eq_of_lt hj'] using hdiv
  subst hk
  exact ⟨rfl, by omega⟩

def cellPixel (stride w h cx cy i j : Nat) : Nat := pixelAt stride (cy * h + i) (cx * w + j)

variable {w h cx cy cx' cy' i j i' j' : Nat}

theorem cellPixel_in_bounds (hx : cx < width / w) (hy : cy < height / h) (hi : i < h) (hj : j < w)
    (hw : 4 * width ≤ stride) : cellPixel stride w h cx cy i j + 4 ≤ height * stride :=
  pixelAt_in_bounds (block_lt hx hj) (block_lt hy hi) hw

theorem cellPixel_disjoint (hx : cx < width / w) (hx' : cx' < width / w) (hj : j < w) (hj' : j' < w)
    (hi : i < h) (hi' : i' < h) (hw : 4 * width ≤ stride) (hne : cx ≠ cx' ∨ cy ≠ cy') :
    cellPixel stride w h cx cy i j + 4 ≤ cellPixel stride w h cx' cy' i' j' ∨
      cellPixel stride w h cx' cy' i' j' + 4 ≤ cellPixel stride w h cx cy i j := by
  refine pixelAt_disjoint (block_lt hx hj) (block_lt hx' hj') hw ?_
  by_contra hsame
  have hy := block_inj hi hi' (by omega : cy * h + i = cy' * h + i')
  have hx := block_inj hj hj' (by omega : cx * w + j = cx' * w + j')
  omega

end Raster
