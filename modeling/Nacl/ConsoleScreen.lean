import Nacl.ConsoleDraw
import Nacl.ConsoleText

/-! The screen that the console draws. Every access stays inside of the font, of
the framebuffer and of the cell being drawn, and once the text has scrolled the
screen is what a full redraw of the grid would draw, up to the unused top byte of
the pixels. -/

namespace Nacl

open Raster Fallible Rows

variable {FT : Bytes} {font : PsfHeader} {b : Framebuffer} {mapping : Option Mapping}

theorem Drawable.horiz_pos (d : Drawable FT font b) : 0 < b.horizChars font := by
  have hnine := d.nine_le
  exact Nat.div_pos d.fits_width (by omega)

/-- The cells from `(x, y)` on in reading order show the characters `cs`. -/
structure CellsDrawn (FT : Bytes) (font : PsfHeader) (b : Framebuffer) (mapping : Option Mapping)
    (x y : Nat) (cs : List Char) (fb fb' : FbSlice) : Prop where
  length : fb'.bytes.length = fb.bytes.length
  color : ∀ cx < b.horizChars font, ∀ cy c,
    y * b.horizChars font + x ≤ cy * b.horizChars font + cx →
    cs[cy * b.horizChars font + cx - (y * b.horizChars font + x)]? = some c →
    ∀ i < font.height.toNat, ∀ j < font.width.toNat,
    load32 fb'.bytes (b.pixel font cx cy i j) =
      if font.lit FT (font.glyphIndex mapping c) i j then 0xFFFFFFFF else 0
  frame : ∀ cx < b.horizChars font, ∀ cy,
    cy * b.horizChars font + cx < y * b.horizChars font + x →
    ∀ i < font.height.toNat, ∀ j < font.width.toNat,
    load32 fb'.bytes (b.pixel font cx cy i j) = load32 fb.bytes (b.pixel font cx cy i j)
  log : ∀ a ∈ fb'.log, a ∈ fb.log ∨ a.Within FT font b

theorem CellsDrawn.cons {c : Char} {cs : List Char} {x y x' y' : Nat} {fb fb₁ fb₂ : FbSlice}
    (hx : x < b.horizChars font)
    (hpos : y' * b.horizChars font + x' = y * b.horizChars font + x + 1)
    (h : CellDrawn FT font b (font.glyphIndex mapping c) x y 0xFFFFFFFF 0 fb fb₁)
    (hs : CellsDrawn FT font b mapping x' y' cs fb₁ fb₂) :
    CellsDrawn FT font b mapping x y (c :: cs) fb fb₂ where
  length := hs.length.trans h.length
  color := by
    intro cx hcx cy c' hle hc' i hi j hj
    by_cases hat : cy * b.horizChars font + cx = y * b.horizChars font + x
    · obtain ⟨rfl, rfl⟩ := block_inj hcx hx hat
      rw [Nat.sub_self, List.getElem?_cons_zero, Option.some_inj] at hc'
      subst hc'
      rw [hs.frame cx hcx cy (by omega) i hi j hj]
      exact h.color i hi j hj
    · obtain ⟨k, hk⟩ : ∃ k, cy * b.horizChars font + cx - (y * b.horizChars font + x) = k + 1 :=
        ⟨_, (Nat.succ_pred_eq_of_pos (by omega)).symm⟩
      rw [hk, List.getElem?_cons_succ] at hc'
      refine hs.color cx hcx cy c' (by omega) ?_ i hi j hj
      rwa [show cy * b.horizChars font + cx - (y' * b.horizChars font + x') = k by omega]
  frame := by
    intro cx hcx cy hlt i hi j hj
    rw [hs.frame cx hcx cy (by omega) i hi j hj]
    refine h.frame cx hcx cy ?_ i hi j hj
    by_contra hsame
    push Not at hsame
    rw [hsame.1, hsame.2] at hlt
    exact Nat.lt_irrefl _ hlt
  log := by
    intro a ha
    rcases hs.log a ha with ha | ha
    · exact h.log a ha
    · exact .inr ha

theorem redrawLoop_ok (d : Drawable FT font b) (mapping : Option Mapping) {cs : List Char}
    {x y : Nat} {fb : FbSlice} (hfb : fb.bytes.length = b.height * b.pitch)
    (hx : x < b.horizChars font)
    (hlen : y * b.horizChars font + x + cs.length ≤ b.vertChars font * b.horizChars font) :
    ∃ fb', redrawLoop FT (b.bpp / 8) b.pitch mapping (b.horizChars font) fb x y cs = .ok fb' ∧
      CellsDrawn FT font b mapping x y cs fb fb' := by
  induction cs generalizing x y fb with
  | nil =>
    refine ⟨fb, rfl, rfl, ?_, fun _ _ _ _ _ _ _ _ => rfl, fun _ ha => .inl ha⟩
    intro cx hcx cy c hle hc
    simp at hc
  | cons c cs ih =>
    rw [List.length_cons] at hlen
    have hy : y < b.vertChars font :=
      Nat.lt_of_mul_lt_mul_right (a := b.horizChars font) (by omega)
    obtain ⟨fb₁, hputc, hcell⟩ := putc_ok d hx hy mapping c 0xFFFFFFFF 0 hfb
    rw [redrawLoop, hputc, ok_bind]
    by_cases hend : x + 1 = b.horizChars font
    · have hpos : (y + 1) * b.horizChars font + 0 = y * b.horizChars font + x + 1 := by
        rw [Nat.succ_mul]
        omega
      obtain ⟨fb₂, hloop, hcells⟩ := ih (x := 0) (y := y + 1) (hcell.length.trans hfb)
        d.horiz_pos (by omega)
      rw [if_pos hend]
      exact ⟨fb₂, hloop, hcells.cons hx hpos hcell⟩
    · obtain ⟨fb₂, hloop, hcells⟩ := ih (x := x + 1) (y := y) (hcell.length.trans hfb)
        (by omega) (by omega)
      rw [if_neg hend]
      exact ⟨fb₂, hloop, hcells.cons hx (by omega) hcell⟩

variable {m m' : FrameBufferManager} {c : Char}

structure FrameBufferManager.Fits (m : FrameBufferManager) (FT : Bytes) (font : PsfHeader)
    (b : Framebuffer) : Prop where
  vert_pos : 0 < b.vertChars font
  bytesPerPixel : m.bytesPerPixel = b.bpp / 8
  stride : m.stride = b.pitch
  horizChars : m.horizChars = b.horizChars font
  length_chars : m.chars.length = b.vertChars font * b.horizChars font
  idx_le : m.idx ≤ m.horizChars
  length_fb : m.fb.bytes.length = b.height * b.pitch
  log : ∀ a ∈ m.fb.log, a.Within FT font b

/-- The pixels of every cell are those of its character, in their low 24 bits. -/
def FrameBufferManager.Displays (m : FrameBufferManager) (FT : Bytes) (font : PsfHeader)
    (b : Framebuffer) : Prop :=
  ∀ cx < b.horizChars font, ∀ cy c, m.chars[cy * b.horizChars font + cx]? = some c →
    ∀ i < font.height.toNat, ∀ j < font.width.toNat,
    (load32 m.fb.bytes (b.pixel font cx cy i j)).setWidth 24 =
      if font.lit FT (font.glyphIndex m.mapping c) i j then 0xFFFFFF else 0

/-- Whatever the framebuffer held before, `redraw` would write into the pixels of every cell what
they show now, in their low 24 bits. -/
def FrameBufferManager.AgreesWithRedraw (m : FrameBufferManager) (FT : Bytes) (font : PsfHeader)
    (b : Framebuffer) : Prop :=
  ∀ bytes : Bytes, bytes.length = m.fb.bytes.length →
    ∃ r, ({ m with fb := ⟨bytes, m.fb.log⟩ } : FrameBufferManager).redraw FT = .ok r ∧
      ∀ cx < b.horizChars font, ∀ cy < b.vertChars font,
        ∀ i < font.height.toNat, ∀ j < font.width.toNat,
        (load32 m.fb.bytes (b.pixel font cx cy i j)).setWidth 24 =
          (load32 r.fb.bytes (b.pixel font cx cy i j)).setWidth 24

theorem FrameBufferManager.newWith_eq (hnew : newWith font b mapping = .ok m) :
    0 < font.height.toNat ∧ m = {
      fb := ⟨b.addr, []⟩
      mapping := mapping
      chars := List.replicate (b.horizChars font * b.vertChars font) ' '
      horizChars := b.horizChars font
      bytesPerPixel := b.bpp / 8
      stride := b.pitch
      idx := 0 } := by
  obtain ⟨H, hH, hrest⟩ := bind_eq_ok_iff.mp hnew
  obtain ⟨V, hV, hm⟩ := bind_eq_ok_iff.mp hrest
  by_cases hw : font.width.toNat = 0
  · rw [checkedDiv, if_pos hw] at hH
    cases hH
  · by_cases hh : font.height.toNat = 0
    · rw [checkedDiv, if_pos hh] at hV
      cases hV
    · rw [checkedDiv, if_neg hw] at hH
      rw [checkedDiv, if_neg hh] at hV
      cases hH
      cases hV
      cases hm
      exact ⟨Nat.pos_of_ne_zero hh, rfl⟩

theorem FrameBufferManager.newWith_fits (d : Drawable FT font b)
    (hnew : newWith font b mapping = .ok m) : m.Fits FT font b := by
  obtain ⟨hheight, rfl⟩ := newWith_eq hnew
  exact ⟨Nat.div_pos d.fits_height hheight, rfl, rfl, rfl, by simp [Nat.mul_comm],
    Nat.zero_le _, b.length_addr, by simp⟩

theorem FrameBufferManager.Fits.horizChars_le (h : m.Fits FT font b) :
    m.horizChars ≤ m.chars.length := by
  rw [h.length_chars, h.horizChars]
  exact Nat.le_mul_of_pos_left _ h.vert_pos

theorem FrameBufferManager.Fits.typed (h : m.Fits FT font b) (d : Drawable FT font b) (c : Char) :
    (m.typed c).Fits FT font b := by
  obtain ⟨hV, hbpp, hstride, hH, hlen, hidx, hfb, hlog⟩ := h
  have hle := FrameBufferManager.Fits.horizChars_le ⟨hV, hbpp, hstride, hH, hlen, hidx, hfb, hlog⟩
  have hpos := d.horiz_pos
  have hscrolled := length_scrolled hle
  unfold FrameBufferManager.typed
  split
  · exact ⟨hV, hbpp, hstride, hH, hscrolled.trans hlen, Nat.zero_le _, hfb, hlog⟩
  · split
    · refine ⟨hV, hbpp, hstride, hH, ?_, by dsimp only; omega, hfb, hlog⟩
      exact (List.length_set).trans (hscrolled.trans hlen)
    · refine ⟨hV, hbpp, hstride, hH, ?_, by dsimp only; omega, hfb, hlog⟩
      exact (List.length_set).trans hlen

theorem FrameBufferManager.Fits.with_fb (h : m.Fits FT font b) {fb : FbSlice}
    (hlen : fb.bytes.length = m.fb.bytes.length)
    (hlog : ∀ a ∈ fb.log, a ∈ m.fb.log ∨ a.Within FT font b) :
    ({ m with fb := fb } : FrameBufferManager).Fits FT font b := by
  refine ⟨h.vert_pos, h.bytesPerPixel, h.stride, h.horizChars, h.length_chars, h.idx_le,
    hlen.trans h.length_fb, ?_⟩
  intro a ha
  rcases hlog a ha with ha | ha
  · exact h.log a ha
  · exact ha

theorem setWidth_color {fg : BitVec 32} (h : fg.setWidth 24 = 0xFFFFFF) (lit : Bool) :
    (if lit then fg else 0).setWidth 24 = if lit then (0xFFFFFF : BitVec 24) else 0 := by
  cases lit
  · rfl
  · exact h

theorem FrameBufferManager.Fits.redraw (h : m.Fits FT font b) (d : Drawable FT font b) :
    ∃ fb, m.redraw FT = .ok { m with fb := fb } ∧
      ({ m with fb := fb } : FrameBufferManager).Fits FT font b ∧
      ({ m with fb := fb } : FrameBufferManager).Displays FT font b := by
  have hle : 0 * b.horizChars font + 0 + m.chars.length ≤
      b.vertChars font * b.horizChars font := by
    rw [h.length_chars]
    omega
  obtain ⟨fb, hloop, hcells⟩ := redrawLoop_ok d m.mapping (x := 0) (y := 0) h.length_fb
    d.horiz_pos hle
  refine ⟨fb, ?_, h.with_fb hcells.length hcells.log, ?_⟩
  · rw [FrameBufferManager.redraw, h.bytesPerPixel, h.stride, h.horizChars, hloop]
    rfl
  · intro cx hcx cy c hc i hi j hj
    have hcolor := hcells.color cx hcx cy c (by omega) (by simpa using hc) i hi j hj
    dsimp only
    rw [hcolor, setWidth_color (by decide)]

theorem FrameBufferManager.Fits.putchar (h : m.Fits FT font b) (d : Drawable FT font b) {cx cy : Nat}
    (hx : cx < b.horizChars font) (hy : cy < b.vertChars font) (c : Char) (fg bg : BitVec 32) :
    ∃ fb, m.putchar FT c cx cy fg bg = .ok { m with fb := fb } ∧
      ({ m with fb := fb } : FrameBufferManager).Fits FT font b ∧
      CellDrawn FT font b (font.glyphIndex m.mapping c) cx cy fg bg m.fb fb := by
  obtain ⟨fb, hputc, hcell⟩ := putc_ok d hx hy m.mapping c fg bg h.length_fb
  refine ⟨fb, ?_, h.with_fb hcell.length hcell.log, hcell⟩
  rw [FrameBufferManager.putchar, h.bytesPerPixel, h.stride, hputc]
  rfl

theorem FrameBufferManager.Displays.set_cell {fb : FbSlice} {cx cy : Nat} {fg : BitVec 32}
    (h : m.Displays FT font b) (hx : cx < b.horizChars font) (hfg : fg.setWidth 24 = 0xFFFFFF)
    (hcell : CellDrawn FT font b (font.glyphIndex m.mapping c) cx cy fg 0 m.fb fb) (idx : Nat) :
    ({ m with
      fb := fb
      chars := m.chars.set (cy * b.horizChars font + cx) c
      idx := idx } : FrameBufferManager).Displays FT font b := by
  intro cx' hx' cy' c' hc' i hi j hj
  dsimp only at hc' ⊢
  by_cases hat : cy * b.horizChars font + cx = cy' * b.horizChars font + cx'
  · obtain ⟨rfl, rfl⟩ := block_inj hx hx' hat
    rw [List.getElem?_set_self (by simpa using (List.getElem?_eq_some_iff.mp hc').1)] at hc'
    cases hc'
    rw [hcell.color i hi j hj, setWidth_color hfg]
  · rw [List.getElem?_set_ne hat] at hc'
    have hne : cx' ≠ cx ∨ cy' ≠ cy := by
      by_contra hsame
      push Not at hsame
      exact hat (by rw [hsame.1, hsame.2])
    rw [hcell.frame cx' hx' cy' hne i hi j hj]
    exact h cx' hx' cy' c' hc' i hi j hj

theorem FrameBufferManager.Fits.put (h : m.Fits FT font b) (d : Drawable FT font b) (c : Char) :
    ∃ m', m.put FT c = .ok m' ∧ m'.Fits FT font b ∧
      (m.Scrolls c ∨ m.Displays FT font b → m'.Displays FT font b) := by
  have hpos : 0 < m.horizChars := by
    rw [h.horizChars]
    exact d.horiz_pos
  rw [put_eq hpos h.horizChars_le h.idx_le]
  by_cases hs : m.Scrolls c
  · obtain ⟨fb, hredraw, hfits, hdisp⟩ := (h.typed d c).redraw d
    rw [if_pos hs]
    exact ⟨_, hredraw, hfits, fun _ => hdisp⟩
  · have hc : c ≠ '\n' := fun hc => hs (.inl hc)
    have hi : m.idx ≠ m.horizChars := fun hi => hs (.inr hi)
    have hx : m.idx < b.horizChars font := by
      have hidx := h.idx_le
      have hH := h.horizChars
      omega
    have hlast : m.chars.length / m.horizChars - 1 = b.vertChars font - 1 := by
      rw [h.length_chars, h.horizChars, Nat.mul_div_cancel _ d.horiz_pos]
    have hcell : m.chars.length - m.horizChars + m.idx =
        (b.vertChars font - 1) * b.horizChars font + m.idx := by
      rw [h.length_chars, h.horizChars, Nat.sub_mul, Nat.one_mul]
    obtain ⟨fb, hput, hfits, hdrawn⟩ := (h.typed d c).putchar d hx
      (show b.vertChars font - 1 < _ from Nat.sub_lt h.vert_pos Nat.one_pos) c 0xFFFFFF 0
    rw [if_neg hs, hlast]
    refine ⟨_, hput, hfits, fun hdisp => ?_⟩
    have htyped : m.typed c = { m with
        chars := m.chars.set ((b.vertChars font - 1) * b.horizChars font + m.idx) c
        idx := m.idx + 1 } := by
      rw [FrameBufferManager.typed, if_neg hc, if_neg hi, hcell]
    rw [htyped] at hdrawn ⊢
    exact (hdisp.resolve_left hs).set_cell hx (by decide) hdrawn (m.idx + 1)

theorem FrameBufferManager.Fits.agreesWithRedraw_iff (h : m.Fits FT font b)
    (d : Drawable FT font b) : m.AgreesWithRedraw FT font b ↔ m.Displays FT font b := by
  constructor
  · intro hagree
    obtain ⟨r, hr, hpixels⟩ := hagree m.fb.bytes rfl
    obtain ⟨fb, hredraw, -, hdisp⟩ := h.redraw d
    rw [hredraw] at hr
    cases hr
    intro cx hx cy c hc i hi j hj
    have hlt := (List.getElem?_eq_some_iff.mp hc).1
    rw [h.length_chars] at hlt
    have hy : cy < b.vertChars font :=
      Nat.lt_of_mul_lt_mul_right (a := b.horizChars font) (by omega)
    rw [hpixels cx hx cy hy i hi j hj]
    exact hdisp cx hx cy c hc i hi j hj
  · intro hm bytes hlen
    have hfits : ({ m with fb := ⟨bytes, m.fb.log⟩ } : FrameBufferManager).Fits FT font b :=
      h.with_fb hlen fun _ ha => .inl ha
    obtain ⟨fb, hredraw, -, hdisp⟩ := hfits.redraw d
    refine ⟨_, hredraw, fun cx hx cy hy i hi j hj => ?_⟩
    have hlt : cy * b.horizChars font + cx < m.chars.length := by
      rw [h.length_chars]
      exact block_lt (by rwa [Nat.mul_div_cancel _ d.horiz_pos]) hx
    have hc := List.getElem?_eq_getElem hlt
    rw [hm cx hx cy _ hc i hi j hj]
    exact (hdisp cx hx cy _ hc i hi j hj).symm

theorem FrameBufferManager.Fits.puts (h : m.Fits FT font b) (d : Drawable FT font b)
    (cs : List Char) : ∃ m', m.puts FT cs = .ok m' ∧ m'.Fits FT font b := by
  refine foldlM_total (I := fun m : FrameBufferManager => m.Fits FT font b)
    (fun m c hm => ?_) h cs
  obtain ⟨m', hput, hfits, -⟩ := hm.put d c
  exact ⟨m', hput, hfits⟩

theorem FrameBufferManager.newWith_of_new (h : FrameBufferManager.new FT b = .ok m) :
    ∃ font mapping, PsfHeader.ft FT = .ok font ∧ newWith font b mapping = .ok m := by
  obtain ⟨font, hfont, hrest⟩ := bind_eq_ok_iff.mp h
  obtain ⟨mapping, -, hnew⟩ := bind_eq_ok_iff.mp hrest
  exact ⟨font, mapping, hfont, hnew⟩

theorem FrameBufferManager.new_puts (d : Drawable FT font b)
    (h : FrameBufferManager.new FT b = .ok m) (cs : List Char) :
    ∃ m', m.puts FT cs = .ok m' ∧ m'.Fits FT font b := by
  obtain ⟨font', mapping, hfont, hnew⟩ := newWith_of_new h
  obtain rfl : font = font' := Except.ok.inj (d.ft.symm.trans hfont)
  exact (newWith_fits d hnew).puts d cs

theorem FrameBufferManager.Fits.puts_displays (h : m.Fits FT font b) (d : Drawable FT font b)
    (hm : m.Displays FT font b) (cs : List Char) :
    ∃ m', m.puts FT cs = .ok m' ∧ m'.Fits FT font b ∧ m'.Displays FT font b := by
  refine foldlM_total (I := fun m : FrameBufferManager => m.Fits FT font b ∧ m.Displays FT font b)
    (fun m c hm => ?_) ⟨h, hm⟩ cs
  obtain ⟨m', hput, hfits, hdisp⟩ := hm.1.put d c
  exact ⟨m', hput, hfits, hdisp (.inr hm.2)⟩

theorem FrameBufferManager.newWith_shows (hnew : newWith font b mapping = .ok m) :
    m.horizChars = b.horizChars font ∧
      m.Shows (b.vertChars font) (textRows (b.horizChars font) (b.vertChars font) []) := by
  obtain ⟨-, rfl⟩ := newWith_eq hnew
  rw [textRows_nil]
  refine ⟨rfl, by simp, ?_, ?_, by rw [List.replicate_succ', List.getLastD_concat]; rfl⟩
  · intro r hr
    rw [List.eq_of_mem_replicate hr]
    exact Nat.zero_le _
  · dsimp only
    rw [gridOf_blank, Nat.mul_comm]

variable {m₀ : FrameBufferManager}

theorem console_shows_tail
    (hnew : FrameBufferManager.newWith font b mapping = .ok m₀)
    (hH : 1 ≤ b.horizChars font) (hV : 1 ≤ b.vertChars font) (ws : List Write) :
    (∀ m, m₀.writes FT ws = .ok m →
      m.chars = gridOf (b.horizChars font) (b.vertChars font)
        (textRows (b.horizChars font) (b.vertChars font) (ws.flatMap Write.text)) ∧
      m.idx = ((textRows (b.horizChars font) (b.vertChars font)
        (ws.flatMap Write.text)).getLastD []).length) ∧
    (Drawable FT font b → ∃ m, m₀.writes FT ws = .ok m) := by
  rw [FrameBufferManager.writes_eq_puts]
  obtain ⟨hhoriz, hshows⟩ := FrameBufferManager.newWith_shows hnew
  refine ⟨fun m hm => ?_, fun d => ?_⟩
  · obtain ⟨hmh, hrows⟩ := hshows.puts hV hH hhoriz hm
    exact ⟨by rw [hrows.chars, hmh], hrows.idx⟩
  · obtain ⟨m, hm, -⟩ := (FrameBufferManager.newWith_fits d hnew).puts d (ws.flatMap Write.text)
    exact ⟨m, hm⟩

def tinyFont : Bytes :=
  [0x72, 0xb5, 0x4a, 0x86, 0, 0, 0, 0, 32, 0, 0, 0, 0, 0, 0, 0,
    1, 0, 0, 0, 2, 0, 0, 0, 1, 0, 0, 0, 9, 0, 0, 0, 0xff, 0x80]

def tinyHeader : PsfHeader where
  headersize := 32
  flags := 0
  glyphs := 1
  bytesPerGlyph := 2
  height := 1
  width := 9

def tinyFb : Framebuffer where
  width := 18
  height := 2
  pitch := 72
  bpp := 32
  addr := List.replicate 144 0
  length_addr := List.length_replicate

def tinyManager : FrameBufferManager where
  fb := ⟨List.replicate 144 0, []⟩
  mapping := none
  chars := [' ', ' ', ' ', ' ']
  horizChars := 2
  bytesPerPixel := 4
  stride := 72
  idx := 0

theorem tinyManager_new : FrameBufferManager.newWith tinyHeader tinyFb none = .ok tinyManager := rfl

theorem tiny_drawable : Drawable tinyFont tinyHeader tinyFb where
  ft := rfl
  bpp := rfl
  fits_width := by decide
  fits_height := by decide
  pitch := by decide
  nine_le := by decide
  le_sixteen := by decide
  glyphs := by decide
  bytesPerGlyph := rfl
  data := by decide

theorem console_shows_tail_wrapped :
    ∃ m, tinyManager.writes tinyFont [.writeStr "abc", .writeChar '\n'] = .ok m ∧
      m.chars = ['c', ' ', ' ', ' '] ∧ m.idx = 0 := by
  obtain ⟨m, hm⟩ := (console_shows_tail tinyManager_new (by decide) (by decide)
    [.writeStr "abc", .writeChar '\n']).2 tiny_drawable
  obtain ⟨hchars, hidx⟩ := (console_shows_tail tinyManager_new (by decide) (by decide) _).1 m hm
  refine ⟨m, hm, hchars.trans ?_, hidx.trans ?_⟩ <;> decide +kernel

theorem console_accesses_in_bounds (d : Drawable FT font b)
    (hnew : FrameBufferManager.newWith font b mapping = .ok m₀) (cs : List Char) :
    ∃ m, m₀.puts FT cs = .ok m ∧ m.fb.bytes.length = b.height * b.pitch ∧
      (∀ a ∈ m.fb.log, a.Within FT font b) ∧
      ∀ c fg bg, ∀ cx < b.horizChars font, ∀ cy < b.vertChars font,
        ∃ m', m.putchar FT c cx cy fg bg = .ok m' ∧
          ∀ cx' < b.horizChars font, ∀ cy' < b.vertChars font, cx' ≠ cx ∨ cy' ≠ cy →
            ∀ i < font.height.toNat, ∀ j < font.width.toNat,
            load32 m'.fb.bytes (b.pixel font cx' cy' i j) =
              load32 m.fb.bytes (b.pixel font cx' cy' i j) := by
  obtain ⟨m, hm, hfits⟩ := (FrameBufferManager.newWith_fits d hnew).puts d cs
  refine ⟨m, hm, hfits.length_fb, hfits.log, fun c fg bg cx hx cy hy => ?_⟩
  obtain ⟨fb, hput, -, hcell⟩ := hfits.putchar d hx hy c fg bg
  exact ⟨_, hput, fun cx' hx' cy' _ hne => hcell.frame cx' hx' cy' hne⟩

theorem console_accesses_in_bounds_tiny :
    ∃ m, tinyManager.puts tinyFont ['a', 'b', 'c', '\n'] = .ok m ∧
      ∀ a ∈ m.fb.log, a.Within tinyFont tinyHeader tinyFb := by
  obtain ⟨m, hm, -, hlog, -⟩ := console_accesses_in_bounds tiny_drawable tinyManager_new
    ['a', 'b', 'c', '\n']
  exact ⟨m, hm, hlog⟩

theorem console_agrees_with_redraw (d : Drawable FT font b)
    (hnew : FrameBufferManager.newWith font b mapping = .ok m₀) :
    (∀ cs c ds m, m₀.puts FT cs = .ok m → m.Scrolls c →
      ∃ m', m₀.puts FT (cs ++ c :: ds) = .ok m' ∧ m'.AgreesWithRedraw FT font b) ∧
    (∀ cs c m, m₀.puts FT cs = .ok m → m.AgreesWithRedraw FT font b →
      ∃ m', m.put FT c = .ok m' ∧ m'.AgreesWithRedraw FT font b) := by
  have hreach : ∀ cs m, m₀.puts FT cs = .ok m → m.Fits FT font b := by
    intro cs m hm
    obtain ⟨m', hm', hfits⟩ := (FrameBufferManager.newWith_fits d hnew).puts d cs
    rw [hm] at hm'
    cases hm'
    exact hfits
  constructor
  · intro cs c ds m hm hs
    obtain ⟨m₁, hput, hfits, hdisp⟩ := (hreach cs m hm).put d c
    obtain ⟨m₂, hputs, hfits₂, hdisp₂⟩ := hfits.puts_displays d (hdisp (.inl hs)) ds
    refine ⟨m₂, ?_, (hfits₂.agreesWithRedraw_iff d).mpr hdisp₂⟩
    rw [FrameBufferManager.puts] at hm ⊢
    rw [List.foldlM_append, hm, ok_bind, List.foldlM_cons, hput, ok_bind]
    exact hputs
  · intro cs c m hm hagree
    have hfits := hreach cs m hm
    obtain ⟨m₁, hput, hfits₁, hdisp⟩ := hfits.put d c
    have hm' := (hfits.agreesWithRedraw_iff d).mp hagree
    exact ⟨m₁, hput, (hfits₁.agreesWithRedraw_iff d).mpr (hdisp (.inr hm'))⟩

theorem console_agrees_with_redraw_tiny :
    ∃ m, tinyManager.puts tinyFont ['\n', 'a', 'b'] = .ok m ∧
      m.AgreesWithRedraw tinyFont tinyHeader tinyFb :=
  (console_agrees_with_redraw tiny_drawable tinyManager_new).1 [] '\n' ['a', 'b'] tinyManager rfl
    (.inl rfl)

end Nacl
