import Nacl.Console
import Nacl.Lib.Fallible

/-! What `putc` draws: every pixel of its cell once, from the glyph of the
character, and nothing outside of the cell. -/

namespace Nacl

open Raster Fallible

/-- The bit of the glyph that `putc` tests for line `i` and column `j`. -/
def PsfHeader.lit (font : PsfHeader) (FT : Bytes) (index i j : Nat) : Bool :=
  let glyph := font.headersize.toNat + index * font.bytesPerGlyph.toNat
  let gly := (load16 FT (glyph + i * ((font.width.toNat + 7) / 8))).rotateLeft 1
  gly &&& ((1#16 <<< (font.width.toNat - 1)) >>> j) ≠ 0

structure FbSlice.Drawn (fb fb' : FbSlice) (offset stride w n : Nat)
    (color : Nat → Nat → BitVec 32) : Prop where
  length : fb'.bytes.length = fb.bytes.length
  color : ∀ i < n, ∀ j < w, load32 fb'.bytes (offset + i * stride + 4 * j) = color i j
  frame : ∀ a, (∀ i < n, ∀ j < w, a + 4 ≤ offset + i * stride + 4 * j ∨
    offset + i * stride + 4 * j + 4 ≤ a) → load32 fb'.bytes a = load32 fb.bytes a

variable {FT : Bytes} {font : PsfHeader} {stride index cx cy : Nat} {fg bg : BitVec 32}

theorem FbSlice.write_ok (cx cy : Nat) {fb : FbSlice} {line : Nat} (h : line + 4 ≤ fb.bytes.length)
    (v : BitVec 32) : fb.write cx cy line v =
      .ok ⟨store32 fb.bytes line v, fb.log ++ [.pixel cx cy line]⟩ := by
  rw [FbSlice.write, if_pos h]

theorem putcLine_ok (cx cy : Nat) (fg bg : BitVec 32) (gly mask : BitVec 16) {n : Nat} (line : Nat)
    (fb : FbSlice) (h : line + 4 * n ≤ fb.bytes.length) :
    ∃ fb', putcLine 4 cx cy fg bg gly fb line mask n = .ok fb' ∧
      fb'.bytes.length = fb.bytes.length ∧
      (∀ j < n, load32 fb'.bytes (line + 4 * j) = if gly &&& (mask >>> j) ≠ 0 then fg else bg) ∧
      (∀ a, (∀ j < n, a + 4 ≤ line + 4 * j ∨ line + 4 * j + 4 ≤ a) →
        load32 fb'.bytes a = load32 fb.bytes a) ∧
      fb'.log = fb.log ++ (List.range n).map (fun j => .pixel cx cy (line + 4 * j)) := by
  induction n generalizing fb line mask with
  | zero => exact ⟨fb, rfl, rfl, by simp, fun _ _ => rfl, by simp⟩
  | succ n ih =>
    have hfirst : line + 4 ≤ fb.bytes.length := by omega
    have hw := FbSlice.write_ok cx cy hfirst (if gly &&& mask ≠ 0 then fg else bg)
    obtain ⟨fb', hfb, hlen, hcolor, hframe, hlog⟩ := ih (mask >>> 1) (line + 4)
      ⟨store32 fb.bytes line (if gly &&& mask ≠ 0 then fg else bg),
        fb.log ++ [.pixel cx cy line]⟩ (by simp; omega)
    refine ⟨fb', by rw [putcLine, hw, ok_bind, hfb], by simpa using hlen, ?_, ?_, ?_⟩
    · intro j hj
      cases j with
      | zero =>
        rw [hframe _ (fun j _ => .inl (by omega))]
        simpa using load32_store32 (by omega) _
      | succ j =>
        have hj' := hcolor j (by omega)
        rw [← BitVec.shiftRight_add, Nat.add_comm 1 j] at hj'
        rw [← hj', Nat.mul_succ, Nat.add_comm (4 * j), Nat.add_assoc]
    · intro a ha
      have ha₀ := ha 0 (by omega)
      have hrest : ∀ j < n, a + 4 ≤ line + 4 + 4 * j ∨ line + 4 + 4 * j + 4 ≤ a := by
        intro j hj
        have haj := ha (j + 1) (by omega)
        omega
      rw [hframe a hrest]
      exact load32_store32_of_disjoint (by omega) (by omega) _
    · have hnext : ∀ j, line + 4 * (j + 1) = line + 4 + 4 * j := fun j => by omega
      rw [hlog, List.range_succ_eq_map]
      simp [Function.comp_def, hnext]

theorem firstMask_ok {w : Nat} (h : 1 ≤ w) (h' : w ≤ 16) : firstMask w = .ok (1#16 <<< (w - 1)) := by
  rw [firstMask, checkedSub, if_pos h, ok_bind, if_pos (by omega)]

def cellAccesses (w stride index cx cy glyph offset n : Nat) : List Access :=
  (List.range n).flatMap fun i =>
    .glyph index (glyph + i * ((w + 7) / 8)) ::
      (List.range w).map fun j => .pixel cx cy (offset + i * stride + 4 * j)

theorem cellAccesses_succ (w stride index cx cy glyph offset n : Nat) :
    cellAccesses w stride index cx cy glyph offset (n + 1) =
      (.glyph index glyph :: (List.range w).map fun j => .pixel cx cy (offset + 4 * j)) ++
        cellAccesses w stride index cx cy (glyph + (w + 7) / 8) (offset + stride) n := by
  have hline : ∀ i, offset + (i + 1) * stride = offset + stride + i * stride := by
    intro i
    rw [Nat.succ_mul]
    omega
  have hglyph : ∀ i, glyph + (i + 1) * ((w + 7) / 8) = glyph + (w + 7) / 8 + i * ((w + 7) / 8) := by
    intro i
    rw [Nat.succ_mul]
    omega
  simp [cellAccesses, List.range_succ_eq_map, List.flatMap_map, hline, hglyph]

theorem putcLines_ok (FT : Bytes) (index cx cy : Nat) (fg bg : BitVec 32) {n : Nat}
    (glyph offset : Nat) (fb : FbSlice)
    (hw : 1 ≤ font.width.toNat) (hw' : font.width.toNat ≤ 16) (hs : 4 * font.width.toNat ≤ stride)
    (hglyph : ∀ i < n, glyph + i * ((font.width.toNat + 7) / 8) + 2 ≤ FT.length)
    (hfb : ∀ i < n, offset + i * stride + 4 * font.width.toNat ≤ fb.bytes.length) :
    ∃ fb', putcLines FT font 4 stride index cx cy fg bg fb glyph offset n = .ok fb' ∧
      fb.Drawn fb' offset stride font.width.toNat n (fun i j =>
        if (load16 FT (glyph + i * ((font.width.toNat + 7) / 8))).rotateLeft 1 &&&
          ((1#16 <<< (font.width.toNat - 1)) >>> j) ≠ 0 then fg else bg) ∧
      fb'.log = fb.log ++
        cellAccesses font.width.toNat stride index cx cy glyph offset n := by
  induction n generalizing fb glyph offset with
  | zero => exact ⟨fb, rfl, ⟨rfl, by simp, fun _ _ => rfl⟩, by simp [cellAccesses]⟩
  | succ n ih =>
    have hline : ∀ i, offset + stride + i * stride = offset + (i + 1) * stride := by
      intro i
      rw [Nat.succ_mul]
      omega
    have hnext : ∀ i, glyph + (font.width.toNat + 7) / 8 + i * ((font.width.toNat + 7) / 8) =
        glyph + (i + 1) * ((font.width.toNat + 7) / 8) := by
      intro i
      rw [Nat.succ_mul]
      omega
    have hread : fb.readGlyph FT index glyph =
        .ok (load16 FT glyph, ⟨fb.bytes, fb.log ++ [.glyph index glyph]⟩) := by
      have hg := hglyph 0 (by omega)
      rw [FbSlice.readGlyph, if_pos (by omega)]
    have hfirst := hfb 0 (by omega)
    obtain ⟨fb₁, hl, hlen, hcolor, hframe, hlog⟩ := putcLine_ok cx cy fg bg
      ((load16 FT glyph).rotateLeft 1) (1#16 <<< (font.width.toNat - 1)) (n := font.width.toNat)
      offset ⟨fb.bytes, fb.log ++ [.glyph index glyph]⟩ (by simpa using hfirst)
    obtain ⟨fb₂, hls, hd, hlog₂⟩ := ih (glyph + (font.width.toNat + 7) / 8) (offset + stride) fb₁
      (fun i hi => by rw [hnext]; exact hglyph (i + 1) (by omega))
      (fun i hi => by rw [hline, hlen]; exact hfb (i + 1) (by omega))
    refine ⟨fb₂, ?_, ⟨hd.length.trans hlen, ?_, ?_⟩, ?_⟩
    · rw [putcLines, firstMask_ok hw hw', ok_bind, hread, ok_bind]
      dsimp only
      rw [hl, ok_bind, hls]
    · intro i hi j hj
      cases i with
      | zero =>
        rw [hd.frame _ (fun i _ k _ => .inl (by omega))]
        simpa using hcolor j hj
      | succ i =>
        have hi' := hd.color i (by omega) j hj
        rwa [hline, hnext] at hi'
    · intro a ha
      rw [hd.frame a (fun i hi => by rw [hline]; exact ha (i + 1) (by omega)),
        hframe a (fun j hj => by simpa using ha 0 (by omega) j hj)]
    · rw [hlog₂, hlog, cellAccesses_succ]
      simp

structure Drawable (FT : Bytes) (font : PsfHeader) (b : Framebuffer) : Prop where
  ft : PsfHeader.ft FT = .ok font
  bpp : b.bpp = 32
  fits_width : font.width.toNat ≤ b.width
  fits_height : font.height.toNat ≤ b.height
  pitch : 4 * b.width ≤ b.pitch
  nine_le : 9 ≤ font.width.toNat
  le_sixteen : font.width.toNat ≤ 16
  glyphs : 1 ≤ font.glyphs.toNat
  bytesPerGlyph : font.bytesPerGlyph.toNat = font.height.toNat * 2
  data : font.headersize.toNat + font.glyphs.toNat * font.bytesPerGlyph.toNat ≤ FT.length

def Framebuffer.horizChars (b : Framebuffer) (font : PsfHeader) : Nat := b.width / font.width.toNat

def Framebuffer.vertChars (b : Framebuffer) (font : PsfHeader) : Nat := b.height / font.height.toNat

def Framebuffer.pixel (b : Framebuffer) (font : PsfHeader) (cx cy i j : Nat) : Nat :=
  cellPixel b.pitch font.width.toNat font.height.toNat cx cy i j

/-- A glyph read inside of the glyph's bytes, a pixel write inside of the slice and
of the rectangle of the cell. -/
def Access.Within (FT : Bytes) (font : PsfHeader) (b : Framebuffer) : Access → Prop
  | .glyph index addr =>
    let first := font.headersize.toNat + index * font.bytesPerGlyph.toNat
    index < font.glyphs.toNat ∧ first ≤ addr ∧ addr + 2 ≤ first + font.bytesPerGlyph.toNat ∧
      addr + 2 ≤ FT.length
  | .pixel cx cy addr =>
    addr + 4 ≤ b.height * b.pitch ∧ ∃ y x, addr = y * b.pitch + 4 * x ∧
      (cy * font.height.toNat ≤ y ∧ y < (cy + 1) * font.height.toNat ∧ y < b.height) ∧
      (cx * font.width.toNat ≤ x ∧ x < (cx + 1) * font.width.toNat ∧ x < b.width)

structure CellDrawn (FT : Bytes) (font : PsfHeader) (b : Framebuffer) (index cx cy : Nat)
    (fg bg : BitVec 32) (fb fb' : FbSlice) : Prop where
  length : fb'.bytes.length = fb.bytes.length
  color : ∀ i < font.height.toNat, ∀ j < font.width.toNat,
    load32 fb'.bytes (b.pixel font cx cy i j) = if font.lit FT index i j then fg else bg
  frame : ∀ cx' < b.horizChars font, ∀ cy', cx' ≠ cx ∨ cy' ≠ cy →
    ∀ i < font.height.toNat, ∀ j < font.width.toNat,
    load32 fb'.bytes (b.pixel font cx' cy' i j) = load32 fb.bytes (b.pixel font cx' cy' i j)
  log : ∀ a ∈ fb'.log, a ∈ fb.log ∨ a.Within FT font b

variable {b : Framebuffer}

theorem Framebuffer.pixel_eq (b : Framebuffer) (font : PsfHeader) (cx cy i j : Nat) :
    cy * font.height.toNat * b.pitch + cx * font.width.toNat * 4 + i * b.pitch + 4 * j =
      b.pixel font cx cy i j := by
  simp only [Framebuffer.pixel, cellPixel, pixelAt, Nat.add_mul]
  omega

theorem Drawable.bytesPerLine (d : Drawable FT font b) : (font.width.toNat + 7) / 8 = 2 := by
  have h := d.nine_le
  have h' := d.le_sixteen
  omega

theorem Drawable.glyph_in_bounds (d : Drawable FT font b) (h : index < font.glyphs.toNat) :
    font.headersize.toNat + index * font.bytesPerGlyph.toNat + font.bytesPerGlyph.toNat ≤
      FT.length := by
  have hle := Nat.mul_le_mul_right font.bytesPerGlyph.toNat (show index + 1 ≤ _ from h)
  rw [Nat.succ_mul] at hle
  have hdata := d.data
  omega

theorem Drawable.within_of_mem (d : Drawable FT font b) (hindex : index < font.glyphs.toNat)
    (hx : cx < b.horizChars font) (hy : cy < b.vertChars font) {a : Access}
    (ha : a ∈ cellAccesses font.width.toNat b.pitch index cx cy
      (font.headersize.toNat + index * font.bytesPerGlyph.toNat)
      (cy * font.height.toNat * b.pitch + cx * font.width.toNat * 4) font.height.toNat) :
    a.Within FT font b := by
  simp only [cellAccesses, List.mem_flatMap, List.mem_range, List.mem_cons, List.mem_map,
    d.bytesPerLine] at ha
  obtain ⟨i, hi, rfl | ⟨j, hj, rfl⟩⟩ := ha
  · have hglyph := d.glyph_in_bounds hindex
    have hbytes := d.bytesPerGlyph
    refine ⟨hindex, Nat.le_add_right _ _, ?_, ?_⟩ <;> omega
  · have hbounds := cellPixel_in_bounds hx hy hi hj d.pitch
    have hcol := block_lt hx hj
    have hrow := block_lt hy hi
    rw [Framebuffer.pixel_eq]
    refine ⟨hbounds, cy * font.height.toNat + i, cx * font.width.toNat + j, rfl, ?_, ?_⟩
    · exact ⟨Nat.le_add_right _ _, by rw [Nat.succ_mul]; omega, hrow⟩
    · exact ⟨Nat.le_add_right _ _, by rw [Nat.succ_mul]; omega, hcol⟩

theorem putc_ok (d : Drawable FT font b) (hx : cx < b.horizChars font) (hy : cy < b.vertChars font)
    (mapping : Option Mapping) (c : Char) (fg bg : BitVec 32) {fb : FbSlice}
    (hfb : fb.bytes.length = b.height * b.pitch) :
    ∃ fb', putc FT (b.bpp / 8) b.pitch mapping c cx cy fg bg fb = .ok fb' ∧
      CellDrawn FT font b (font.glyphIndex mapping c) cx cy fg bg fb fb' := by
  have hindex := PsfHeader.glyphIndex_lt d.glyphs mapping c
  have hbytes := d.bytesPerGlyph
  have hglyph := d.glyph_in_bounds hindex
  have hnine := d.nine_le
  have hstride : 4 * font.width.toNat ≤ b.pitch := by
    have hfits := d.fits_width
    have hpitch := d.pitch
    omega
  obtain ⟨fb', hok, hd, hlog⟩ := putcLines_ok FT (font.glyphIndex mapping c) cx cy fg bg
    (n := font.height.toNat)
    (font.headersize.toNat + font.glyphIndex mapping c * font.bytesPerGlyph.toNat)
    (cy * font.height.toNat * b.pitch + cx * font.width.toNat * 4) fb
    (show 1 ≤ font.width.toNat by omega) d.le_sixteen hstride
    (fun i hi => by rw [d.bytesPerLine]; omega)
    (fun i hi => by
      have hlast := cellPixel_in_bounds hx hy hi (show font.width.toNat - 1 < _ by omega) d.pitch
      have heq := b.pixel_eq font cx cy i (font.width.toNat - 1)
      rw [Framebuffer.pixel] at heq
      omega)
  refine ⟨fb', ?_, hd.length, ?_, ?_, ?_⟩
  · rw [d.bpp, putc, d.ft]
    exact hok
  · intro i hi j hj
    rw [← Framebuffer.pixel_eq, hd.color i hi j hj]
    simp only [PsfHeader.lit, decide_eq_true_eq]
  · intro cx' hx' cy' hne i hi j hj
    refine hd.frame _ (fun i' hi' j' hj' => ?_)
    rw [Framebuffer.pixel_eq]
    exact cellPixel_disjoint hx' hx hj hj' hi hi' d.pitch hne
  · intro a ha
    rw [hlog, List.mem_append] at ha
    exact ha.imp_right (d.within_of_mem hindex hx hy)

end Nacl
