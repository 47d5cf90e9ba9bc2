import Nacl.Console
import Nacl.Lib.Fallible
import Nacl.Lib.Rows

/-! The text that the console shows: the characters of the grid are the last rows
of the layout of everything that was put. -/

namespace Nacl

open Raster Fallible Rows

variable {FT : Bytes} {m m' : FrameBufferManager} {c : Char} {V : Nat}

/-- The rows of a text on a screen of `H` columns, after `V` blank rows. -/
def textRows (H V : Nat) (s : List Char) : List (List Char) :=
  List.replicate V [] ++ layout H '\n' s

def gridOf (H V : Nat) (R : List (List Char)) : List Char :=
  (window V R).flatMap (List.rightpad H ' ')

def Write.text : Write → List Char
  | .writeChar c => [c]
  | .writeStr s => s.toList

def FrameBufferManager.Scrolls (m : FrameBufferManager) (c : Char) : Prop :=
  c = '\n' ∨ m.idx = m.horizChars

instance (m : FrameBufferManager) (c : Char) : Decidable (m.Scrolls c) :=
  inferInstanceAs (Decidable (_ ∨ _))

def FrameBufferManager.scrolled (m : FrameBufferManager) : List Char :=
  m.chars.drop m.horizChars ++ List.replicate m.horizChars ' '

/-- What `put` does to the grid and to the cursor. -/
def FrameBufferManager.typed (m : FrameBufferManager) (c : Char) : FrameBufferManager :=
  if c = '\n' then { m with chars := m.scrolled, idx := 0 }
  else if m.idx = m.horizChars then
    { m with chars := m.scrolled.set (m.chars.length - m.horizChars) c, idx := 1 }
  else { m with
    chars := m.chars.set (m.chars.length - m.horizChars + m.idx) c
    idx := m.idx + 1 }

theorem FrameBufferManager.length_scrolled (h : m.horizChars ≤ m.chars.length) :
    m.scrolled.length = m.chars.length := by
  simp only [scrolled, List.length_append, List.length_drop, List.length_replicate]
  omega

theorem FrameBufferManager.newline_ok (h : m.horizChars ≤ m.chars.length) :
    m.newline = .ok { m with chars := m.scrolled } := by
  have hrot : m.chars.rotate m.horizChars =
      m.chars.drop m.horizChars ++ m.chars.take m.horizChars := List.rotate_eq_drop_append_take h
  have hlen : (m.chars.drop m.horizChars ++ m.chars.take m.horizChars).length = m.chars.length := by
    simp only [List.length_append, List.length_drop, List.length_take]
    omega
  have htake : (m.chars.drop m.horizChars ++ m.chars.take m.horizChars).take
      (m.chars.length - m.horizChars) = m.chars.drop m.horizChars :=
    List.take_left' List.length_drop
  have hsub : checkedSub m.chars.length m.horizChars = .ok (m.chars.length - m.horizChars) :=
    if_pos h
  simp only [newline, if_neg (Nat.not_lt.mpr h), hrot, hlen, hsub, ok_bind, htake,
    Nat.sub_sub_self h]
  rfl

theorem FrameBufferManager.put_newline (h : m.horizChars ≤ m.chars.length) :
    m.put FT '\n' = (m.typed '\n').redraw FT := by
  have hnl := newline_ok (m := { m with idx := 0 }) h
  simp only [put, if_true, hnl, ok_bind, typed]
  rfl

theorem FrameBufferManager.put_wrap (hpos : 0 < m.horizChars) (h : m.horizChars ≤ m.chars.length)
    (hc : c ≠ '\n') (hi : m.idx = m.horizChars) : m.put FT c = (m.typed c).redraw FT := by
  have hnl := newline_ok (m := { m with idx := 0 }) h
  have hsub : checkedSub m.chars.length m.horizChars = .ok (m.chars.length - m.horizChars) :=
    if_pos h
  have hlt : m.chars.length - m.horizChars < m.scrolled.length := by
    rw [length_scrolled h]
    omega
  have hset : ({ m with chars := m.scrolled, idx := 0 } : FrameBufferManager).setChar
      (m.chars.length - m.horizChars) c = .ok { m with
        chars := m.scrolled.set (m.chars.length - m.horizChars) c
        idx := 0 } := if_pos hlt
  simp only [put, if_neg hc, hsub, ok_bind, if_pos hi]
  rw [hnl, ok_bind]
  refine (congrArg (· >>= _) hset).trans ?_
  rw [ok_bind, redraw, redraw, typed, if_neg hc, if_pos hi]
  cases redrawLoop FT m.bytesPerPixel m.stride m.mapping m.horizChars m.fb 0 0
    (m.scrolled.set (m.chars.length - m.horizChars) c) <;> rfl

theorem FrameBufferManager.put_within (hpos : 0 < m.horizChars) (h : m.horizChars ≤ m.chars.length)
    (hc : c ≠ '\n') (hi : m.idx < m.horizChars) :
    m.put FT c =
      (m.typed c).putchar FT c m.idx (m.chars.length / m.horizChars - 1) 0xFFFFFF 0 := by
  have hsub : checkedSub m.chars.length m.horizChars = .ok (m.chars.length - m.horizChars) :=
    if_pos h
  have hset : m.setChar (m.chars.length - m.horizChars + m.idx) c = .ok { m with
      chars := m.chars.set (m.chars.length - m.horizChars + m.idx) c } := if_pos (by omega)
  have hdiv : checkedDiv (m.chars.set (m.chars.length - m.horizChars + m.idx) c).length
      m.horizChars = .ok (m.chars.length / m.horizChars) := by
    rw [checkedDiv, if_neg (by omega), List.length_set]
  have hrows : checkedSub (m.chars.length / m.horizChars) 1 =
      .ok (m.chars.length / m.horizChars - 1) := if_pos ((Nat.le_div_iff_mul_le hpos).mpr (by omega))
  simp only [put, if_neg hc, hsub, ok_bind, if_neg (Nat.ne_of_lt hi), hset, hdiv, hrows]
  rw [putchar, putchar, typed, if_neg hc, if_neg (Nat.ne_of_lt hi)]
  cases putc FT m.bytesPerPixel m.stride m.mapping c m.idx (m.chars.length / m.horizChars - 1)
    0xFFFFFF 0 m.fb <;> rfl

theorem FrameBufferManager.put_eq (hpos : 0 < m.horizChars) (h : m.horizChars ≤ m.chars.length)
    (hidx : m.idx ≤ m.horizChars) (c : Char) :
    m.put FT c = if m.Scrolls c then (m.typed c).redraw FT
      else (m.typed c).putchar FT c m.idx (m.chars.length / m.horizChars - 1) 0xFFFFFF 0 := by
  by_cases hc : c = '\n'
  · rw [if_pos (show m.Scrolls c from .inl hc), hc, put_newline h]
  · by_cases hi : m.idx = m.horizChars
    · rw [if_pos (show m.Scrolls c from .inr hi), put_wrap hpos h hc hi]
    · rw [if_neg (by simp [Scrolls, hc, hi]), put_within hpos h hc (by omega)]

theorem FrameBufferManager.put_text (hpos : 0 < m.horizChars) (h : m.horizChars ≤ m.chars.length)
    (hidx : m.idx ≤ m.horizChars) (hput : m.put FT c = .ok m') :
    ∃ fb, m' = { m.typed c with fb := fb } := by
  rw [put_eq hpos h hidx] at hput
  split at hput
  · obtain ⟨fb, _, hfb⟩ := bind_eq_ok_iff.mp hput
    cases hfb
    exact ⟨fb, rfl⟩
  · obtain ⟨fb, _, hfb⟩ := bind_eq_ok_iff.mp hput
    cases hfb
    exact ⟨fb, rfl⟩

theorem length_flatMap_rightpad {H : Nat} {W : List (List Char)} (h : ∀ r ∈ W, r.length ≤ H) :
    (W.flatMap (List.rightpad H ' ')).length = W.length * H := by
  induction W with
  | nil => simp
  | cons r W ih =>
    have hr : r.length ≤ H := h r List.mem_cons_self
    rw [List.flatMap_cons, List.length_append, ih (fun r hr => h r (List.mem_cons_of_mem _ hr)),
      List.length_rightpad, List.length_cons, Nat.succ_mul]
    omega

/-- The grid holds the last `V` of the rows `R`, with the cursor after the last one. -/
structure FrameBufferManager.Shows (m : FrameBufferManager) (V : Nat) (R : List (List Char)) :
    Prop where
  rows : V ≤ R.length
  fits : ∀ r ∈ R, r.length ≤ m.horizChars
  chars : m.chars = gridOf m.horizChars V R
  idx : m.idx = (R.getLastD []).length

variable {R : List (List Char)}

theorem gridOf_concat (hV : 0 < V) (H : Nat) (R : List (List Char)) (r : List Char) :
    gridOf H V (R ++ [r]) = (window (V - 1) R).flatMap (List.rightpad H ' ') ++ r.rightpad H ' ' := by
  simp [gridOf, window_concat hV]

theorem textRows_nil (H V : Nat) : textRows H V [] = List.replicate (V + 1) [] := by
  rw [textRows, layout_nil, List.replicate_succ']

theorem gridOf_blank (H V : Nat) :
    gridOf H V (List.replicate (V + 1) []) = List.replicate (V * H) ' ' := by
  have hblank : List.rightpad H ' ' [] = List.replicate H ' ' := by simp [List.rightpad]
  rw [gridOf, window, List.length_replicate, Nat.add_sub_cancel_left, List.drop_replicate,
    Nat.add_sub_cancel, List.flatMap_replicate, hblank, List.flatten_replicate_replicate]

theorem FrameBufferManager.Shows.length_chars (h : m.Shows V R) :
    m.chars.length = V * m.horizChars := by
  rw [h.chars, gridOf, length_flatMap_rightpad, length_window h.rows]
  exact fun r hr => h.fits r (List.mem_of_mem_drop hr)

theorem FrameBufferManager.Shows.scrolled (h : m.Shows V R) (hV : 0 < V) :
    m.scrolled = (window (V - 1) R).flatMap (List.rightpad m.horizChars ' ') ++
      List.replicate m.horizChars ' ' := by
  have hlen := length_window h.rows
  have htail := tail_window hV h.rows
  cases hw : window V R with
  | nil =>
    rw [hw] at hlen
    simp at hlen
    omega
  | cons r W =>
    have hr : r.length ≤ m.horizChars :=
      h.fits r (List.mem_of_mem_drop (show r ∈ window V R by rw [hw]; exact List.mem_cons_self))
    rw [hw, List.tail_cons] at htail
    have hpad : (r.rightpad m.horizChars ' ').length = m.horizChars := by
      rw [List.length_rightpad]
      omega
    rw [FrameBufferManager.scrolled, h.chars, gridOf, hw, List.flatMap_cons,
      List.drop_left' hpad, htail]

theorem FrameBufferManager.Shows.length_window_pred (h : m.Shows V R) (hV : 0 < V) :
    ((window (V - 1) R).flatMap (List.rightpad m.horizChars ' ')).length =
      m.chars.length - m.horizChars := by
  have hrows := h.rows
  rw [length_flatMap_rightpad, length_window (by omega), h.length_chars, Nat.sub_mul, Nat.one_mul]
  exact fun r hr => h.fits r (List.mem_of_mem_drop hr)

theorem set_last_row {H n : Nat} {X r : List Char} (hX : X.length = n) (hr : r.length < H)
    (c : Char) : (X ++ r.rightpad H ' ').set (n + r.length) c = X ++ (r ++ [c]).rightpad H ' ' := by
  rw [List.set_append_right _ _ (by omega), hX, Nat.add_sub_cancel_left, set_rightpad hr]

theorem FrameBufferManager.shows_concat_iff (hV : 0 < V) {Q : List (List Char)} {r : List Char} :
    m.Shows V (Q ++ [r]) ↔ V ≤ Q.length + 1 ∧ (∀ q ∈ Q, q.length ≤ m.horizChars) ∧
      r.length ≤ m.horizChars ∧ m.idx = r.length ∧
      m.chars = (window (V - 1) Q).flatMap (List.rightpad m.horizChars ' ') ++
        r.rightpad m.horizChars ' ' := by
  constructor
  · rintro ⟨hrows, hfits, hchars, hidx⟩
    refine ⟨by simpa using hrows, fun q hq => hfits q (List.mem_append_left _ hq),
      hfits r (by simp), by simpa using hidx, ?_⟩
    rw [hchars, gridOf_concat hV]
  · rintro ⟨hrows, hQ, hr, hidx, hchars⟩
    refine ⟨by simpa using hrows, ?_, by rw [hchars, gridOf_concat hV], by simpa using hidx⟩
    intro q hq
    rcases List.mem_append.mp hq with hq | hq
    · exact hQ q hq
    · rw [List.mem_singleton.mp hq]
      exact hr

theorem FrameBufferManager.Shows.typed (h : m.Shows V R) (hV : 0 < V) (hpos : 0 < m.horizChars)
    (c : Char) : (m.typed c).Shows V (feed m.horizChars '\n' R c) := by
  have hscrolled := h.scrolled hV
  have hlen := h.length_window_pred hV
  have hrows := h.rows
  have hfits := h.fits
  have hblank : List.replicate m.horizChars ' ' = List.rightpad m.horizChars ' ' [] := by
    simp [List.rightpad]
  obtain rfl | ⟨Q, r, rfl⟩ := List.eq_nil_or_concat' R
  · simp at hrows
    omega
  · obtain ⟨-, hQ, hr, hidx, hchars⟩ := (shows_concat_iff hV).mp h
    rw [feed_concat, FrameBufferManager.typed]
    by_cases hc : c = '\n'
    · rw [if_pos hc, if_pos hc, List.append_cons Q r [[]]]
      exact (shows_concat_iff hV).mpr
        ⟨by omega, hfits, Nat.zero_le _, rfl, hscrolled.trans (by rw [hblank])⟩
    · rw [if_neg hc, if_neg hc]
      by_cases hi : r.length = m.horizChars
      · rw [if_pos (hidx.trans hi), if_pos hi, List.append_cons Q r [[c]]]
        refine (shows_concat_iff hV).mpr ⟨by omega, hfits, hpos, rfl, ?_⟩
        dsimp only
        rw [hscrolled, hblank]
        exact set_last_row hlen hpos c
      · rw [if_neg (by omega), if_neg hi]
        refine (shows_concat_iff hV).mpr ⟨by simpa using hrows, hQ, ?_, by simp [hidx], ?_⟩
        · rw [List.length_append, List.length_singleton]
          dsimp only
          omega
        · have hX : ((window (V - 1) Q).flatMap (List.rightpad m.horizChars ' ')).length =
              m.chars.length - m.horizChars := by
            rw [hchars, List.length_append, List.length_rightpad]
            omega
          dsimp only
          rw [hidx]
          nth_rewrite 1 [hchars]
          exact set_last_row hX (by omega) c

theorem FrameBufferManager.typed_horizChars (m : FrameBufferManager) (c : Char) :
    (m.typed c).horizChars = m.horizChars := by
  unfold FrameBufferManager.typed
  split
  · rfl
  · split <;> rfl

theorem FrameBufferManager.Shows.horizChars_le (h : m.Shows V R) (hV : 0 < V) :
    m.horizChars ≤ m.chars.length := by
  rw [h.length_chars]
  exact Nat.le_mul_of_pos_left _ hV

theorem FrameBufferManager.Shows.idx_le (h : m.Shows V R) (hV : 0 < V) : m.idx ≤ m.horizChars := by
  have hrows := h.rows
  obtain rfl | ⟨Q, r, rfl⟩ := List.eq_nil_or_concat' R
  · simp at hrows
    omega
  · obtain ⟨-, -, hr, hidx, -⟩ := (shows_concat_iff hV).mp h
    omega

theorem FrameBufferManager.Shows.put (h : m.Shows V R) (hV : 0 < V) (hpos : 0 < m.horizChars)
    (hput : m.put FT c = .ok m') : m'.Shows V (feed m.horizChars '\n' R c) := by
  obtain ⟨fb, rfl⟩ := put_text hpos (h.horizChars_le hV) (h.idx_le hV) hput
  obtain ⟨hrows, hfits, hchars, hidx⟩ := h.typed hV hpos c
  exact ⟨hrows, hfits, hchars, hidx⟩

theorem FrameBufferManager.put_horizChars (hpos : 0 < m.horizChars)
    (h : m.horizChars ≤ m.chars.length) (hidx : m.idx ≤ m.horizChars)
    (hput : m.put FT c = .ok m') : m'.horizChars = m.horizChars := by
  obtain ⟨fb, rfl⟩ := put_text hpos h hidx hput
  exact typed_horizChars m c

theorem FrameBufferManager.Shows.puts {H : Nat} (hV : 0 < V) (hpos : 0 < H) (hH : m.horizChars = H)
    (h : m.Shows V (textRows H V [])) {s : List Char} (hputs : m.puts FT s = .ok m') :
    m'.horizChars = H ∧ m'.Shows V (textRows H V s) := by
  refine foldlM_invariant (I := fun s m => m.horizChars = H ∧ m.Shows V (textRows H V s))
    ?_ ⟨hH, h⟩ hputs
  rintro s c m m' ⟨rfl, hs⟩ hput
  refine ⟨put_horizChars hpos (hs.horizChars_le hV) (hs.idx_le hV) hput, ?_⟩
  rw [textRows, layout_concat hpos]
  exact hs.put hV hpos hput

theorem FrameBufferManager.writes_eq_puts (FT : Bytes) (m : FrameBufferManager) (ws : List Write) :
    m.writes FT ws = m.puts FT (ws.flatMap Write.text) := by
  induction ws generalizing m with
  | nil => rfl
  | cons w ws ih =>
    have hw : m.write FT w = m.puts FT w.text := by
      cases w with
      | writeChar c => exact (List.foldlM_cons.trans (bind_pure _)).symm
      | writeStr s => rfl
    rw [writes, List.foldlM_cons, List.flatMap_cons, puts, List.foldlM_append, hw]
    exact congrArg _ (funext ih)

end Nacl
