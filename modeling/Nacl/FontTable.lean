import Nacl.Font
import Nacl.Lib.Segments

/-! `unicode_mapping` decodes the table after the glyphs: one segment of UTF-8 for each
glyph, each ended by `0xFF`, a byte that UTF-8 does not use. A character that several
glyphs list belongs to the last of them. -/

namespace Nacl

open Raster Segments

def utf8 (string : List Char) : Bytes := string.flatMap String.utf8EncodeChar

def ValidUtf8 (segment : Bytes) : Prop := ByteArray.IsValidUTF8 ⟨segment.toArray⟩

/-- The character is one of those that the segment encodes. -/
def Occurs (c : Char) (segment : Bytes) : Prop := ∃ string, segment = utf8 string ∧ c ∈ string

def PsfHeader.tableStart (font : PsfHeader) : Nat :=
  font.headersize.toNat + font.glyphs.toNat * font.bytesPerGlyph.toNat

def PsfHeader.segments (font : PsfHeader) (FT : Bytes) : List Bytes :=
  terminated 0xFF (FT.drop font.tableStart)

/-- The table that lists the given characters for each glyph. -/
def encodeTable (lists : List (List Char)) : Bytes := lists.flatMap fun string => utf8 string ++ [0xFF]

theorem utf8_toByteArray (string : List Char) :
    (⟨(utf8 string).toArray⟩ : ByteArray) = string.utf8Encode := by
  apply ByteArray.ext
  simp [utf8, List.utf8Encode]

theorem utf8Decode_utf8 (string : List Char) :
    ByteArray.utf8Decode? ⟨(utf8 string).toArray⟩ = some string.toArray := by
  rw [utf8_toByteArray, List.utf8Decode?_utf8Encode]

theorem utf8_injective {string string' : List Char} (h : utf8 string = utf8 string') :
    string = string' := by
  have hdec := utf8Decode_utf8 string
  rw [h, utf8Decode_utf8] at hdec
  simpa using hdec.symm

theorem occurs_utf8_iff {c : Char} {string : List Char} : Occurs c (utf8 string) ↔ c ∈ string := by
  constructor
  · rintro ⟨string', heq, hc⟩
    rwa [utf8_injective heq]
  · intro hc
    exact ⟨string, rfl, hc⟩

theorem validUtf8_iff {segment : Bytes} : ValidUtf8 segment ↔ ∃ string, segment = utf8 string := by
  constructor
  · rintro ⟨string, h⟩
    refine ⟨string, ?_⟩
    rw [← utf8_toByteArray, ByteArray.mk.injEq] at h
    simpa using congrArg Array.toList h
  · rintro ⟨string, rfl⟩
    exact ⟨string, utf8_toByteArray string⟩

theorem mem_utf8EncodeChar {c : Char} {b : UInt8} (h : b ∈ String.utf8EncodeChar c) :
    ∃ n < 0xFF, b = UInt8.ofNat n := by
  revert h
  fun_cases String.utf8EncodeChar c with
  | case1 v hv =>
    intro h
    exact ⟨v, by omega, List.mem_singleton.mp h⟩
  | case2 v hv hv' =>
    simp only [List.mem_cons, List.not_mem_nil, or_false]
    rintro (rfl | rfl) <;> exact ⟨_, by omega, rfl⟩
  | case3 v hv hv' hv'' =>
    simp only [List.mem_cons, List.not_mem_nil, or_false]
    rintro (rfl | rfl | rfl) <;> exact ⟨_, by omega, rfl⟩
  | case4 v hv hv' hv'' =>
    simp only [List.mem_cons, List.not_mem_nil, or_false]
    rintro (rfl | rfl | rfl | rfl) <;> exact ⟨_, by omega, rfl⟩

theorem terminator_not_mem_utf8 (string : List Char) : (0xFF : UInt8) ∉ utf8 string := by
  rw [utf8, List.mem_flatMap]
  rintro ⟨c, -, hc⟩
  obtain ⟨n, hn, heq⟩ := mem_utf8EncodeChar hc
  have hnat := congrArg UInt8.toNat heq
  rw [UInt8.toNat_ofNat', Nat.mod_eq_of_lt (by omega)] at hnat
  change 255 = n at hnat
  omega

/-- The table's entries for the characters of one segment. -/
def Mapping.insertAll (map : Mapping) (glyph : BitVec 32) (string : List Char) : Mapping :=
  string.foldl (fun map ch => Function.update map ch (some glyph)) map

theorem Mapping.insertAll_apply (map : Mapping) (glyph : BitVec 32) (string : List Char) (c : Char) :
    map.insertAll glyph string c = if c ∈ string then some glyph else map c := by
  induction string generalizing map with
  | nil => rfl
  | cons ch string ih =>
    have hh := ih (Function.update map ch (some glyph))
    rw [Mapping.insertAll, List.foldl_cons, ← Mapping.insertAll, hh]
    by_cases hc : c = ch
    · simp [hc]
    · simp [hc]

/-- The segments one after the other, as the loop of `unicode_mapping` comes to them. -/
def PsfHeader.readSegments (glyph : BitVec 32) (map : Mapping) : List Bytes → Except Fault Mapping
  | [] => .ok map
  | segment :: segments => match ByteArray.utf8Decode? ⟨segment.toArray⟩ with
    | none => .error .utf8
    | some string => PsfHeader.readSegments (glyph + 1) (map.insertAll glyph string.toList) segments

theorem getElem?_eq_getD {FT : Bytes} {s : Nat} (h : s < FT.length) : FT[s]? = some (FT.getD s 0) := by
  rw [List.getD_eq_getElem?_getD, List.getElem?_eq_getElem h, Option.getD_some]

theorem drop_eq_take_append_cons {FT : Bytes} {s start : Nat} (hs : start ≤ s) (h : s < FT.length) :
    FT.drop start = (FT.drop start).take (s - start) ++ FT.getD s 0 :: FT.drop (s + 1) := by
  have hrest : FT.getD s 0 :: FT.drop (s + 1) = (FT.drop start).drop (s - start) := by
    have hget := getElem?_eq_getD h
    rw [List.getElem?_eq_getElem h, Option.some.injEq] at hget
    rw [List.drop_drop, Nat.add_sub_of_le hs, List.drop_eq_getElem_cons h, hget]
  rw [hrest, List.take_append_drop]

theorem take_succ_sub {FT : Bytes} {s start : Nat} (hs : start ≤ s) (h : s < FT.length) :
    (FT.drop start).take (s + 1 - start) = (FT.drop start).take (s - start) ++ [FT.getD s 0] := by
  have hget : (FT.drop start)[s - start]? = some (FT.getD s 0) := by
    rw [List.getElem?_drop, Nat.add_sub_of_le hs, getElem?_eq_getD h]
  rw [Nat.succ_sub hs, List.take_add_one, hget, Option.toList_some]

/-- From the start of a segment on, of which no byte up to `s` is the terminator, the loop
reads the segments of the rest of the file. -/
theorem PsfHeader.mappingLoop_eq_readSegments {FT : Bytes} {s start n : Nat} (hn : s + n = FT.length)
    (hs : start ≤ s) (hseg : (0xFF : UInt8) ∉ (FT.drop start).take (s - start)) (glyph : BitVec 32)
    (map : Mapping) : PsfHeader.mappingLoop FT s start glyph map n =
      PsfHeader.readSegments glyph map (terminated 0xFF (FT.drop start)) := by
  induction n generalizing s start glyph map with
  | zero =>
    have hall : (FT.drop start).take (s - start) = FT.drop start := by
      apply List.take_of_length_le
      rw [List.length_drop]
      omega
    rw [hall] at hseg
    rw [PsfHeader.mappingLoop, terminated_of_not_mem hseg, PsfHeader.readSegments]
  | succ n ih =>
    have hlt : s < FT.length := by omega
    by_cases hff : FT.getD s 0 = 0xFF
    · have hload : load8 FT s = 0xFF := by rw [load8, hff]; rfl
      have hterm : terminated 0xFF (FT.drop start) =
          (FT.drop start).take (s - start) :: terminated 0xFF (FT.drop (s + 1)) := by
        have hsplit := drop_eq_take_append_cons hs hlt
        rw [hff] at hsplit
        exact (congrArg _ hsplit).trans (terminated_append_cons hseg _)
      rw [PsfHeader.mappingLoop, if_pos hload, hterm, PsfHeader.readSegments]
      cases ByteArray.utf8Decode? ⟨((FT.drop start).take (s - start)).toArray⟩ with
      | none => rfl
      | some string => exact ih (by omega) le_rfl (by simp) _ _
    · have hload : load8 FT s ≠ 0xFF := by
        intro h
        exact hff (UInt8.toBitVec_inj.mp h)
      rw [PsfHeader.mappingLoop, if_neg hload]
      refine ih (by omega) (by omega) ?_ glyph map
      rw [take_succ_sub hs hlt, List.mem_append, List.mem_singleton]
      rintro (hmem | heq)
      · exact hseg hmem
      · exact hff heq.symm

theorem PsfHeader.readSegments_fails_iff (glyph : BitVec 32) (map : Mapping) {segments : List Bytes} :
    (∃ e, PsfHeader.readSegments glyph map segments = .error e) ↔
      ∃ segment ∈ segments, ¬ ValidUtf8 segment := by
  induction segments generalizing glyph map with
  | nil => simp [PsfHeader.readSegments]
  | cons segment segments ih =>
    have hvalid := ByteArray.isSome_utf8Decode?_iff (b := ⟨segment.toArray⟩)
    rw [PsfHeader.readSegments, List.exists_mem_cons_iff]
    cases hdec : ByteArray.utf8Decode? ⟨segment.toArray⟩ with
    | none =>
      have hnot : ¬ ValidUtf8 segment := by simpa [hdec, ValidUtf8] using hvalid
      simp [hnot]
    | some string =>
      have hok : ValidUtf8 segment := by simpa [hdec, ValidUtf8] using hvalid
      simp only [hok, not_true_eq_false, false_or]
      exact ih _ _

/-- A table that is right for the segments read so far stays right for the ones to come. -/
theorem PsfHeader.readSegments_last {glyph : BitVec 32} {map : Mapping} {done segments : List Bytes}
    (hvalid : ∀ segment ∈ segments, ValidUtf8 segment)
    (hmap : Last Occurs BitVec.toNat map done) (hglyph : glyph = .ofNat 32 done.length)
    (hlt : done.length + segments.length < 2 ^ 32) :
    ∃ map', PsfHeader.readSegments glyph map segments = .ok map' ∧
      Last Occurs BitVec.toNat map' (done ++ segments) := by
  induction segments generalizing glyph map done with
  | nil => exact ⟨map, rfl, by rwa [List.append_nil]⟩
  | cons segment segments ih =>
    obtain ⟨string, rfl⟩ := validUtf8_iff.mp (hvalid _ List.mem_cons_self)
    rw [List.length_cons] at hlt
    have hnum : glyph.toNat = done.length := by
      rw [hglyph, BitVec.toNat_ofNat, Nat.mod_eq_of_lt (by omega)]
    have hnext : glyph + 1 = .ofNat 32 (done ++ [utf8 string]).length := by
      rw [hglyph, List.length_append, List.length_singleton, BitVec.ofNat_add]
      rfl
    have hstep : Last Occurs BitVec.toNat (map.insertAll glyph string) (done ++ [utf8 string]) := by
      refine hmap.snoc hnum ?_ ?_
      · intro c hc
        rw [Mapping.insertAll_apply, if_pos (occurs_utf8_iff.mp hc)]
      · intro c hc
        rw [Mapping.insertAll_apply, if_neg fun hmem => hc (occurs_utf8_iff.mpr hmem)]
    obtain ⟨map', hread, hlast⟩ := ih
      (fun segment hs => hvalid segment (List.mem_cons_of_mem _ hs)) hstep hnext
      (by rw [List.length_append, List.length_singleton]; omega)
    refine ⟨map', ?_, ?_⟩
    · rw [PsfHeader.readSegments, utf8Decode_utf8]
      exact hread
    · rwa [List.append_assoc, List.singleton_append] at hlast

variable {font : PsfHeader} {FT : Bytes}

/-- Neither the start of the table nor a number of a segment wraps around. -/
theorem PsfHeader.unicodeMapping_eq (hflags : font.flags ≠ 0) (hlt : FT.length < 2 ^ 32)
    (hle : font.tableStart ≤ FT.length) : font.unicodeMapping FT =
      (PsfHeader.readSegments 0 (fun _ => none) (font.segments FT)).map some := by
  have hstart : (font.headersize + font.glyphs * font.bytesPerGlyph).toNat = font.tableStart := by
    rw [PsfHeader.tableStart] at hle ⊢
    rw [BitVec.toNat_add, BitVec.toNat_mul, Nat.add_mod_mod, Nat.mod_eq_of_lt (by omega)]
  have hloop : PsfHeader.mappingLoop FT font.tableStart font.tableStart 0 (fun _ => none)
      (FT.length - font.tableStart) = PsfHeader.readSegments 0 (fun _ => none) (font.segments FT) :=
    PsfHeader.mappingLoop_eq_readSegments (by omega) le_rfl (by simp) 0 _
  rw [PsfHeader.unicodeMapping, if_neg hflags, hstart]
  dsimp only
  rw [hloop]
  cases PsfHeader.readSegments 0 (fun _ => none) (font.segments FT) <;> rfl

theorem PsfHeader.length_segments_lt (font : PsfHeader) (hlt : FT.length < 2 ^ 32) :
    (font.segments FT).length < 2 ^ 32 := by
  have hle := length_terminated_le 0xFF (FT.drop font.tableStart)
  rw [List.length_drop] at hle
  rw [PsfHeader.segments]
  omega

theorem PsfHeader.unicodeMapping_last (hflags : font.flags ≠ 0) (hlt : FT.length < 2 ^ 32)
    (hle : font.tableStart ≤ FT.length)
    (hvalid : ∀ segment ∈ font.segments FT, ValidUtf8 segment) :
    ∃ map, font.unicodeMapping FT = .ok (some map) ∧
      Last Occurs BitVec.toNat map (font.segments FT) := by
  have hbound : 0 + (font.segments FT).length < 2 ^ 32 := by
    simpa using font.length_segments_lt hlt
  have hzero : (0 : BitVec 32) = .ofNat 32 ([] : List Bytes).length := rfl
  obtain ⟨map, hread, hlast⟩ := PsfHeader.readSegments_last hvalid .nil hzero hbound
  rw [List.nil_append] at hlast
  refine ⟨map, ?_, hlast⟩
  rw [PsfHeader.unicodeMapping_eq hflags hlt hle, hread]
  rfl

theorem PsfHeader.segments_of_encodeTable {lists : List (List Char)}
    (h : FT.drop font.tableStart = encodeTable lists) : font.segments FT = lists.map utf8 := by
  have htable : encodeTable lists = (lists.map utf8).flatMap (· ++ [0xFF]) := by
    rw [encodeTable, List.flatMap_map]
  rw [PsfHeader.segments, h, htable]
  apply terminated_flatMap
  intro segment hs
  obtain ⟨string, -, rfl⟩ := List.mem_map.mp hs
  exact terminator_not_mem_utf8 string

theorem unicode_mapping_decodes (hflags : font.flags ≠ 0) (hlt : FT.length < 2 ^ 32)
    (hle : font.tableStart ≤ FT.length) :
    ((∃ e, font.unicodeMapping FT = .error e) ↔
      ∃ segment ∈ font.segments FT, ¬ ValidUtf8 segment) ∧
    ((∀ segment ∈ font.segments FT, ValidUtf8 segment) →
      ∃ map, font.unicodeMapping FT = .ok (some map) ∧
        Last Occurs BitVec.toNat map (font.segments FT)) ∧
    ∀ lists : List (List Char), FT.drop font.tableStart = encodeTable lists →
      ∃ map, font.unicodeMapping FT = .ok (some map) ∧
        Last (fun c string => c ∈ string) BitVec.toNat map lists := by
  refine ⟨?_, PsfHeader.unicodeMapping_last hflags hlt hle, ?_⟩
  · rw [PsfHeader.unicodeMapping_eq hflags hlt hle,
      ← PsfHeader.readSegments_fails_iff 0 fun _ => none]
    cases PsfHeader.readSegments 0 (fun _ => none) (font.segments FT) <;> simp [Except.map]
  · intro lists h
    have hsegments := PsfHeader.segments_of_encodeTable h
    have hvalid : ∀ segment ∈ font.segments FT, ValidUtf8 segment := by
      rw [hsegments]
      intro segment hs
      obtain ⟨string, -, rfl⟩ := List.mem_map.mp hs
      exact validUtf8_iff.mpr ⟨string, rfl⟩
    obtain ⟨map, hmap, hlast⟩ := PsfHeader.unicodeMapping_last hflags hlt hle hvalid
    rw [hsegments] at hlast
    exact ⟨map, hmap, hlast.of_map fun _ _ => occurs_utf8_iff⟩

/-- Two glyphs of one line and 10 columns, a full block and the top of an `A`, and a table
that lists `A` for both of them. -/
def wideFont : Bytes :=
  [0x72, 0xb5, 0x4a, 0x86, 0, 0, 0, 0, 32, 0, 0, 0, 1, 0, 0, 0,
    2, 0, 0, 0, 2, 0, 0, 0, 1, 0, 0, 0, 10, 0, 0, 0, 0xff, 0xff, 0x3e, 0,
    0x20, 0x41, 0xff, 0x41, 0xff]

def wideHeader : PsfHeader where
  headersize := 32
  flags := 1
  glyphs := 2
  bytesPerGlyph := 2
  height := 1
  width := 10

theorem unicode_mapping_decodes_wide :
    ∃ map, wideHeader.unicodeMapping wideFont = .ok (some map) ∧ map 'A' = some 1 ∧
      map 'b' = none := by
  have htable : wideFont.drop wideHeader.tableStart = encodeTable [[' ', 'A'], ['A']] := by
    decide +kernel
  obtain ⟨map, hmap, hlast⟩ :=
    (unicode_mapping_decodes (by decide) (by decide) (by decide)).2.2 _ htable
  refine ⟨map, hmap, ?_, ?_⟩
  · obtain ⟨v, hv⟩ := Option.isSome_iff_exists.mp ((hlast.keys 'A').mpr ⟨['A'], by simp, by simp⟩)
    obtain ⟨hmem, hge⟩ := hlast.last 'A' v hv
    have hlt := placesOf_lt_length hmem
    have hone : 1 ≤ v.toNat := hge ⟨['A'], rfl, by simp⟩
    rw [hv, Option.some.injEq]
    apply BitVec.eq_of_toNat_eq
    exact Nat.le_antisymm (Nat.le_of_lt_succ hlt) hone
  · have hnot := (hlast.keys 'b').not.mpr (by simp)
    exact Option.not_isSome_iff_eq_none.mp hnot

end Nacl
