import Mathlib.Data.List.Rotate
import Nacl.Font

/-! `font::FrameBufferManager`: a grid of characters and the framebuffer that it is
drawn into. Slice indices, subtractions, divisions and assertions that fail stop
the console, and so do reads and writes through raw pointers outside of the font
and of the framebuffer. -/

namespace Nacl

open Raster

structure Framebuffer where
  width : Nat
  height : Nat
  pitch : Nat
  bpp : Nat
  addr : Bytes
  length_addr : addr.length = height * pitch

/-- An access of `putc` through a raw pointer: to the font while it draws the
glyph `index`, or to the framebuffer while it draws the cell `(cx, cy)`. -/
inductive Access
  | glyph (index addr : Nat)
  | pixel (cx cy addr : Nat)
deriving DecidableEq

structure FbSlice where
  bytes : Bytes
  log : List Access
deriving DecidableEq

structure FrameBufferManager where
  fb : FbSlice
  mapping : Option Mapping
  chars : List Char
  horizChars : Nat
  bytesPerPixel : Nat
  stride : Nat
  idx : Nat

/-- The part of `new` that follows `unicode_mapping`. -/
def FrameBufferManager.newWith (font : PsfHeader) (b : Framebuffer) (mapping : Option Mapping) :
    Except Fault FrameBufferManager := do
  let horizChars ← checkedDiv b.width font.width.toNat
  let vertChars ← checkedDiv b.height font.height.toNat
  return {
    fb := ⟨b.addr, []⟩
    mapping := mapping
    chars := List.replicate (horizChars * vertChars) ' '
    horizChars := horizChars
    bytesPerPixel := b.bpp / 8
    stride := b.pitch
    idx := 0 }

def FrameBufferManager.new (FT : Bytes) (b : Framebuffer) : Except Fault FrameBufferManager := do
  let font ← PsfHeader.ft FT
  let mapping ← font.unicodeMapping FT
  FrameBufferManager.newWith font b mapping

def FbSlice.write (fb : FbSlice) (cx cy line : Nat) (v : BitVec 32) : Except Fault FbSlice :=
  if line + 4 ≤ fb.bytes.length then
    .ok ⟨store32 fb.bytes line v, fb.log ++ [.pixel cx cy line]⟩
  else .error .pointer

def FbSlice.readGlyph (fb : FbSlice) (FT : Bytes) (index glyph : Nat) :
    Except Fault (BitVec 16 × FbSlice) :=
  if glyph + 2 ≤ FT.length then .ok (load16 FT glyph, ⟨fb.bytes, fb.log ++ [.glyph index glyph]⟩)
  else .error .pointer

def firstMask (fontWidth : Nat) : Except Fault (BitVec 16) := do
  let k ← checkedSub fontWidth 1
  if k < 16 then .ok (1#16 <<< k) else .error .shift

section Putc

variable (FT : Bytes) (font : PsfHeader) (bytesPerPixel stride : Nat) (mapping : Option Mapping)
  (c : Char) (index cx cy : Nat) (fg bg : BitVec 32)

def putcLine (gly : BitVec 16) (fb : FbSlice) (line : Nat) (mask : BitVec 16) :
    Nat → Except Fault FbSlice
  | 0 => .ok fb
  | n + 1 => do
    let fb ← fb.write cx cy line (if gly &&& mask ≠ 0 then fg else bg)
    putcLine gly fb (line + bytesPerPixel) (mask >>> 1) n

def putcLines (fb : FbSlice) (glyph offset : Nat) : Nat → Except Fault FbSlice
  | 0 => .ok fb
  | n + 1 => do
    let mask ← firstMask font.width.toNat
    let (gly, fb) ← fb.readGlyph FT index glyph
    let fb ← putcLine bytesPerPixel cx cy fg bg (gly.rotateLeft 1) fb offset mask font.width.toNat
    putcLines fb (glyph + (font.width.toNat + 7) / 8) (offset + stride) n

def putc (fb : FbSlice) : Except Fault FbSlice := do
  if 4 ≠ bytesPerPixel then throw .assertion
  let font ← PsfHeader.ft FT
  let fontHeight := font.height.toNat
  let fontWidth := font.width.toNat
  let glyphIndex := font.glyphIndex mapping c
  let glyph := font.headersize.toNat + glyphIndex * font.bytesPerGlyph.toNat
  let offset := (cy * fontHeight * stride) + (cx * fontWidth * bytesPerPixel)
  putcLines FT font bytesPerPixel stride glyphIndex cx cy fg bg fb glyph offset fontHeight

end Putc

def FrameBufferManager.putchar (FT : Bytes) (m : FrameBufferManager) (c : Char) (cx cy : Nat)
    (fg bg : BitVec 32) : Except Fault FrameBufferManager := do
  let fb ← putc FT m.bytesPerPixel m.stride m.mapping c cx cy fg bg m.fb
  return { m with fb := fb }

def redrawLoop (FT : Bytes) (bytesPerPixel stride : Nat) (mapping : Option Mapping)
    (horizChars : Nat) (fb : FbSlice) (x y : Nat) : List Char → Except Fault FbSlice
  | [] => .ok fb
  | c :: cs => do
    let fb ← putc FT bytesPerPixel stride mapping c x y 0xFFFFFFFF 0 fb
    if x + 1 = horizChars then
      redrawLoop FT bytesPerPixel stride mapping horizChars fb 0 (y + 1) cs
    else redrawLoop FT bytesPerPixel stride mapping horizChars fb (x + 1) y cs

def FrameBufferManager.redraw (FT : Bytes) (m : FrameBufferManager) :
    Except Fault FrameBufferManager := do
  let fb ← redrawLoop FT m.bytesPerPixel m.stride m.mapping m.horizChars m.fb 0 0 m.chars
  return { m with fb := fb }

/-- `rotate_left` asserts that the rotation is not above the length. -/
def FrameBufferManager.newline (m : FrameBufferManager) : Except Fault FrameBufferManager := do
  if m.chars.length < m.horizChars then throw .assertion
  let chars := m.chars.rotate m.horizChars
  let last ← checkedSub chars.length m.horizChars
  return { m with chars := chars.take last ++ List.replicate (chars.length - last) ' ' }

def FrameBufferManager.setChar (m : FrameBufferManager) (offset : Nat) (c : Char) :
    Except Fault FrameBufferManager :=
  if offset < m.chars.length then .ok { m with chars := m.chars.set offset c } else .error .index

def FrameBufferManager.put (FT : Bytes) (m : FrameBufferManager) (c : Char) :
    Except Fault FrameBufferManager :=
  if c = '\n' then do
    let m ← { m with idx := 0 }.newline
    m.redraw FT
  else do
    let lastLine ← checkedSub m.chars.length m.horizChars
    let m ←
      if m.idx = m.horizChars then do
        let m ← { m with idx := 0 }.newline
        let m ← m.setChar lastLine c
        m.redraw FT
      else do
        let m ← m.setChar (lastLine + m.idx) c
        let rows ← checkedDiv m.chars.length m.horizChars
        let cy ← checkedSub rows 1
        m.putchar FT c m.idx cy 0xFFFFFF 0
    return { m with idx := m.idx + 1 }

def FrameBufferManager.puts (FT : Bytes) (m : FrameBufferManager) (cs : List Char) :
    Except Fault FrameBufferManager :=
  cs.foldlM (FrameBufferManager.put FT) m

inductive Write
  | writeChar (c : Char)
  | writeStr (s : String)

def FrameBufferManager.write (FT : Bytes) (m : FrameBufferManager) :
    Write → Except Fault FrameBufferManager
  | .writeChar c => m.put FT c
  | .writeStr s => m.puts FT s.toList

def FrameBufferManager.writes (FT : Bytes) (m : FrameBufferManager) (ws : List Write) :
    Except Fault FrameBufferManager :=
  ws.foldlM (FrameBufferManager.write FT) m

end Nacl
