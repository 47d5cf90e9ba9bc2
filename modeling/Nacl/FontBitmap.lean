import Nacl.ConsoleDraw
import Nacl.FontTable

/-! What `putc` shows against the bitmap in the font file. A PSF2 glyph of 9 to 16
columns has two bytes for each line, which hold its columns from left to right, the
most significant bit first; the columns after the last one are padding. -/

namespace Nacl

open Raster

/-- The bit of the glyph for line `i` and column `j`, padding columns included. -/
def PsfHeader.bitmap (font : PsfHeader) (FT : Bytes) (index i j : Nat) : Bool :=
  let glyph := font.headersize.toNat + index * font.bytesPerGlyph.toNat
  (load8 FT (glyph + (2 * i + j / 8))).getLsbD (7 - j % 8)

/-- The number that the font's table gives to a character; without a table it is the
character's own. -/
def PsfHeader.mapped : Option Mapping → Char → Option Nat
  | none, c => some c.toNat
  | some m, c => (m c).map BitVec.toNat

def PsfHeader.selected (font : PsfHeader) (mapping : Option Mapping) (c : Char) : Nat :=
  match PsfHeader.mapped mapping c with
  | none => 0
  | some g => if g < font.glyphs.toNat then g else 0

/-- The column whose bit `putc` shows in column `j`: it is `width - 9` columns to the left,
and the left end of the line goes on at the right end of its padding. -/
def PsfHeader.shownColumn (font : PsfHeader) (j : Nat) : Nat := (j + 25 - font.width.toNat) % 16

/-- Every bit of the glyph is the same as the bit `width - 9` columns before it. -/
def PsfHeader.Repeats (font : PsfHeader) (FT : Bytes) (index : Nat) : Prop :=
  ∀ i < font.height.toNat, ∀ j < font.width.toNat,
    font.bitmap FT index i j = font.bitmap FT index i (font.shownColumn j)

/-- `putc` returns and its cell shows the bitmap of the selected glyph. -/
def PsfHeader.ShowsBitmap (font : PsfHeader) (FT : Bytes) (b : Framebuffer)
    (mapping : Option Mapping) (c : Char) (cx cy : Nat) (fg bg : BitVec 32) (fb : FbSlice) : Prop :=
  ∃ fb', putc FT (b.bpp / 8) b.pitch mapping c cx cy fg bg fb = .ok fb' ∧
    ∀ i < font.height.toNat, ∀ j < font.width.toNat,
      load32 fb'.bytes (b.pixel font cx cy i j) =
        if font.bitmap FT (font.selected mapping c) i j then fg else bg

variable {FT : Bytes} {font : PsfHeader} {b : Framebuffer} {index i j cx cy : Nat}

theorem PsfHeader.glyphIndex_eq_selected (font : PsfHeader) (mapping : Option Mapping) (c : Char) :
    font.glyphIndex mapping c = font.selected mapping c := by
  have hindex : ∀ g : BitVec 32, (if font.glyphs ≤ g then 0 else g.toNat) =
      if g.toNat < font.glyphs.toNat then g.toNat else 0 := by
    intro g
    by_cases hg : font.glyphs ≤ g
    · rw [if_pos hg, if_neg (Nat.not_lt.mpr (BitVec.le_def.mp hg))]
    · rw [if_neg hg, if_pos (BitVec.lt_def.mp (BitVec.not_le.mp hg))]
  cases mapping with
  | none => exact hindex _
  | some m =>
    cases hm : m c with
    | none =>
      have hzero := hindex 0
      simp only [PsfHeader.glyphIndex, PsfHeader.selected, PsfHeader.mapped, hm, Option.getD_none]
      rw [hzero]
      simp
    | some g =>
      simp only [PsfHeader.glyphIndex, PsfHeader.selected, PsfHeader.mapped, hm, Option.getD_some]
      exact hindex g

theorem mask_eq_twoPow {w j : Nat} (hj : j < w) (hw : w ≤ 16) :
    (1#16 <<< (w - 1)) >>> j = BitVec.twoPow 16 (w - 1 - j) := by
  apply BitVec.eq_of_getLsbD_eq
  intro k hk
  have hcol : w - 1 < 16 := by omega
  have hcol' : w - 1 - j < 16 := by omega
  have heq : (w - 1 = j + k) = (w - 1 - j = k) := by
    apply propext
    omega
  rw [← BitVec.twoPow_eq, BitVec.getLsbD_ushiftRight, BitVec.getLsbD_twoPow, BitVec.getLsbD_twoPow]
  simp only [hcol, hcol', heq]

/-- The mask of column `j` keeps one bit. -/
theorem and_mask_ne_zero (gly : BitVec 16) {w j : Nat} (hj : j < w) (hw : w ≤ 16) :
    gly &&& ((1#16 <<< (w - 1)) >>> j) ≠ 0 ↔ gly.getLsbD (w - 1 - j) = true := by
  rw [mask_eq_twoPow hj hw, BitVec.and_twoPow]
  cases hbit : gly.getLsbD (w - 1 - j) with
  | true =>
    have hpow : BitVec.twoPow 16 (w - 1 - j) ≠ 0 := by
      intro h
      have hself := BitVec.getLsbD_twoPow (w := 16) (w - 1 - j) (w - 1 - j)
      rw [h] at hself
      simp at hself
      omega
    simpa using hpow
  | false => simp

/-- The bit that the rotated word has at the place of the mask. -/
theorem rotateLeft_getLsbD (x : BitVec 16) {w j : Nat} (h9 : 9 ≤ w) (h16 : w ≤ 16) (hj : j < w) :
    (x.rotateLeft 1).getLsbD (w - 1 - j) = x.getLsbD ((w + 14 - j) % 16) := by
  rw [BitVec.getLsbD_rotateLeft_of_le (by decide)]
  by_cases hlast : w - 1 - j < 1
  · have hk : (w + 14 - j) % 16 = 16 - 1 + (w - 1 - j) := by omega
    simp [hlast, hk]
  · have hk : (w + 14 - j) % 16 = w - 1 - j - 1 := by omega
    have hlt : w - 1 - j < 16 := by omega
    simp [hlast, hk, hlt]

theorem PsfHeader.lit_eq_bitmap (h9 : 9 ≤ font.width.toNat) (h16 : font.width.toNat ≤ 16)
    (hj : j < font.width.toNat) :
    font.lit FT index i j = font.bitmap FT index i (font.shownColumn j) := by
  have hline : (font.width.toNat + 7) / 8 = 2 := by omega
  have hbyte : (font.width.toNat + 14 - j) % 16 / 8 = font.shownColumn j / 8 := by
    rw [PsfHeader.shownColumn]
    omega
  have hbit : (font.width.toNat + 14 - j) % 16 % 8 = 7 - font.shownColumn j % 8 := by
    rw [PsfHeader.shownColumn]
    omega
  have hlit : font.lit FT index i j = (load16 FT (font.headersize.toNat +
      index * font.bytesPerGlyph.toNat + i * 2)).getLsbD ((font.width.toNat + 14 - j) % 16) := by
    rw [PsfHeader.lit, hline, ← rotateLeft_getLsbD _ h9 h16 hj, Bool.eq_iff_iff, decide_eq_true_eq]
    exact and_mask_ne_zero _ hj h16
  rw [hlit, load16_getLsbD _ _ (Nat.mod_lt _ (by decide)), hbyte, hbit, Nat.mul_comm i 2,
    Nat.add_assoc]
  rfl

/-- A glyph of 10 columns is shown as it is only where its lines are of one colour each,
that of the last padding column. -/
theorem PsfHeader.repeats_iff_of_ten (hw : font.width.toNat = 10) :
    font.Repeats FT index ↔
      ∀ i < font.height.toNat, ∀ j < 10, font.bitmap FT index i j = font.bitmap FT index i 15 := by
  have hcol : ∀ j < 9, font.shownColumn (j + 1) = j := by
    intro j hj
    rw [PsfHeader.shownColumn, hw]
    omega
  have hfirst : font.shownColumn 0 = 15 := by rw [PsfHeader.shownColumn, hw]
  constructor
  · intro h i hi j hj
    induction j with
    | zero =>
      have hh := h i hi 0 (by omega)
      rwa [hfirst] at hh
    | succ j ih =>
      have hh := h i hi (j + 1) (by omega)
      rw [hcol j (by omega)] at hh
      exact hh.trans (ih (by omega))
  · intro h i hi j hj
    rw [hw] at hj
    cases j with
    | zero => rw [hfirst, h i hi 0 hj]
    | succ j => rw [hcol j (by omega), h i hi (j + 1) hj, h i hi j (by omega)]

/-- Where two colours differ, a choice between them shows which one was taken. -/
theorem ite_color_eq_iff {fg bg : BitVec 32} (hne : fg ≠ bg) {p q : Bool} :
    (if p then fg else bg) = (if q then fg else bg) ↔ p = q := by
  cases p <;> cases q <;> simp [hne, Ne.symm hne]

theorem putc_shows_bitmap_iff (d : Drawable FT font b) (hx : cx < b.horizChars font)
    (hy : cy < b.vertChars font) (mapping : Option Mapping) (c : Char) (fg bg : BitVec 32)
    {fb : FbSlice} (hfb : fb.bytes.length = b.height * b.pitch) :
    font.ShowsBitmap FT b mapping c cx cy fg bg fb ↔
      font.width.toNat = 9 ∨ fg = bg ∨ font.Repeats FT (font.selected mapping c) := by
  obtain ⟨fb', hok, hd⟩ := putc_ok d hx hy mapping c fg bg hfb
  have hshown : ∀ i < font.height.toNat, ∀ j < font.width.toNat,
      load32 fb'.bytes (b.pixel font cx cy i j) =
        if font.bitmap FT (font.selected mapping c) i (font.shownColumn j) then fg else bg := by
    intro i hi j hj
    rw [hd.color i hi j hj, font.glyphIndex_eq_selected,
      PsfHeader.lit_eq_bitmap d.nine_le d.le_sixteen hj]
  constructor
  · rintro ⟨fb'', hok'', hcolor⟩
    obtain rfl : fb' = fb'' := Except.ok.inj (hok.symm.trans hok'')
    by_cases hne : fg = bg
    · exact .inr (.inl hne)
    · refine .inr (.inr ?_)
      intro i hi j hj
      exact (ite_color_eq_iff hne).mp ((hcolor i hi j hj).symm.trans (hshown i hi j hj))
  · intro hcond
    refine ⟨fb', hok, ?_⟩
    intro i hi j hj
    rw [hshown i hi j hj]
    rcases hcond with hnine | rfl | hrep
    · have hcol : font.shownColumn j = j := by
        rw [PsfHeader.shownColumn, hnine]
        omega
      rw [hcol]
    · rw [ite_self, ite_self]
    · rw [hrep i hi j hj]

def wideFb : Framebuffer where
  width := 10
  height := 1
  pitch := 40
  bpp := 32
  addr := List.replicate 40 0
  length_addr := List.length_replicate

def wideMapping : Mapping := fun c => if c = 'A' then some 1 else if c = ' ' then some 0 else none

theorem wide_drawable : Drawable wideFont wideHeader wideFb where
  ft := rfl
  bpp := rfl
  fits_width := by decide
  fits_height := by decide
  pitch := by decide
  nine_le := by decide
  le_sixteen := by decide
  glyphs := by decide
  bytesPerGlyph := rfl
  data := by decide

theorem putc_shows_bitmap_iff_block :
    wideHeader.ShowsBitmap wideFont wideFb (some wideMapping) ' ' 0 0 0xFFFFFF 0
      ⟨wideFb.addr, []⟩ := by
  refine (putc_shows_bitmap_iff wide_drawable (by decide) (by decide) _ _ _ _
    wideFb.length_addr).mpr (.inr (.inr ?_))
  unfold PsfHeader.Repeats
  decide +kernel

/-- The line of the `A` is lit in columns 2 to 6, and `putc` leaves column 2 dark. -/
theorem putc_moves_bitmap :
    ¬ wideHeader.ShowsBitmap wideFont wideFb (some wideMapping) 'A' 0 0 0xFFFFFF 0
      ⟨wideFb.addr, []⟩ := by
  rintro ⟨fb, hok, hcolor⟩
  have hdark : (putc wideFont 4 40 (some wideMapping) 'A' 0 0 0xFFFFFF 0
      ⟨wideFb.addr, []⟩).toOption.map (fun fb => load32 fb.bytes 8) = some 0 := by
    decide +kernel
  have hlit : load32 fb.bytes 8 = 0xFFFFFF := hcolor 0 (by decide) 2 (by decide)
  rw [show putc wideFont 4 40 (some wideMapping) 'A' 0 0 0xFFFFFF 0 ⟨wideFb.addr, []⟩ = .ok fb
    from hok] at hdark
  simp [Except.toOption, hlit] at hdark

end Nacl
