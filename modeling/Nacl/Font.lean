import Mathlib.Logic.Function.Basic
import Nacl.Lib.Raster

/-! The PSF font file that the console is compiled with: `FT` is its bytes, the
header is read off their start and the Unicode table off their end. Arithmetic on
`u32` wraps, as in the release build that `nacl_boot` runs. -/

namespace Nacl

open Raster

/-- What stops the console: a panic, or an access through a raw pointer outside
the memory that it points into. -/
inductive Fault
  | divide
  | subtract
  | shift
  | index
  | assertion
  | pointer
  | utf8
deriving DecidableEq, Repr

def checkedSub (a b : Nat) : Except Fault Nat :=
  if b ≤ a then .ok (a - b) else .error .subtract

def checkedDiv (a b : Nat) : Except Fault Nat :=
  if b = 0 then .error .divide else .ok (a / b)

structure PsfHeader where
  headersize : BitVec 32
  flags : BitVec 32
  glyphs : BitVec 32
  bytesPerGlyph : BitVec 32
  height : BitVec 32
  width : BitVec 32
deriving DecidableEq

def PsfHeader.ft (FT : Bytes) : Except Fault PsfHeader :=
  if FT.length < 32 then .error .pointer
  else .ok {
    headersize := load32 FT 8
    flags := load32 FT 12
    glyphs := load32 FT 16
    bytesPerGlyph := load32 FT 20
    height := load32 FT 24
    width := load32 FT 28 }

abbrev Mapping := Char → Option (BitVec 32)

/-- The `while` loop of `unicode_mapping`, with the number of bytes left. -/
def PsfHeader.mappingLoop (FT : Bytes) (s start : Nat) (glyph : BitVec 32) (map : Mapping) :
    Nat → Except Fault Mapping
  | 0 => .ok map
  | n + 1 =>
    if load8 FT s = 0xFF then
      match ByteArray.utf8Decode? ⟨((FT.drop start).take (s - start)).toArray⟩ with
      | none => .error .utf8
      | some string =>
        let map := string.toList.foldl (fun map ch => Function.update map ch (some glyph)) map
        PsfHeader.mappingLoop FT (s + 1) (s + 1) (glyph + 1) map n
    else PsfHeader.mappingLoop FT (s + 1) start glyph map n

def PsfHeader.unicodeMapping (font : PsfHeader) (FT : Bytes) : Except Fault (Option Mapping) :=
  if font.flags = 0 then .ok none
  else do
    let s := (font.headersize + font.glyphs * font.bytesPerGlyph).toNat
    let map ← PsfHeader.mappingLoop FT s s 0 (fun _ => none) (FT.length - s)
    return some map

def PsfHeader.glyphIndex (font : PsfHeader) (mapping : Option Mapping) (c : Char) : Nat :=
  let c := match mapping with
    | none => c.val.toBitVec
    | some m => (m c).getD 0
  if font.glyphs ≤ c then 0 else c.toNat

theorem PsfHeader.glyphIndex_lt {font : PsfHeader} (h : 0 < font.glyphs.toNat)
    (mapping : Option Mapping) (c : Char) : font.glyphIndex mapping c < font.glyphs.toNat := by
  simp only [glyphIndex]
  generalize (match mapping with
    | none => c.val.toBitVec
    | some m => (m c).getD 0) = g
  by_cases hg : font.glyphs ≤ g
  · rwa [if_pos hg]
  · rw [if_neg hg]
    exact BitVec.lt_def.mp (BitVec.not_le.mp hg)

end Nacl
