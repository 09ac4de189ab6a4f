import Mathlib.Data.List.Induction
import Toolchain.Proofs.Diagnostic.Colours

/-!
# The mark stands under its column

An excerpt shows a line of the source with its tabs replaced, and below it a mark. The line is
replaced byte by byte, in one go; how far the mark is indented is counted character by character, up
to the column. The two agree since a tab is a byte that belongs to no other character, and since a
stray byte counts as one character in both.

Both lines begin with a margin. In that of the shown line stands the number of the line, in that of
the mark as many blanks.

## Main definitions

* `Rendering.shown`: what is shown of some characters
* `Text.caretOffset`: how many characters stand in front of the first caret of a text

## Main results

* `Rendering.expandTabs_eq`: a shown line, character by character
* `Rendering.glyphs_expandTabs`: a shown line that is read again
* `Rendering.caret_under_column`: **the mark stands under the column that a diagnostic tells**
-/

namespace Toolchain

/-- The byte that marks a column. -/
def Text.caret : UInt8 := '^'.toUInt8

/-- How many characters of a text stand in front of its first caret. -/
def Text.caretOffset (t : Text) : Nat := (glyphs (t.takeWhile (· ≠ caret))).length

theorem Text.length_glyphs_of_ascii {t : Text} (h : ∀ b ∈ t, b.toNat < 128) :
    t.glyphs.length = t.length := by
  induction t using List.reverseRecOn with
  | nil => rfl
  | append_singleton t b ih =>
    rw [List.forall_mem_append, List.forall_mem_singleton] at h
    have hsingle : (glyphs [b]).length = 1 := by
      rw [glyphs, glyphsFrom]
      split <;> rfl
    have hglyphs : glyphs (t ++ [b]) = glyphs t ++ glyphs [b] := glyphs_append_ascii h.2 [] t
    rw [hglyphs, List.length_append, List.length_append, ih h.1, hsingle, List.length_singleton]

/-- A number is written with digits and a minus sign. -/
theorem Text.bounds_of_mem_ofInt {n : Int} {b : UInt8} (h : b ∈ ofInt n) :
    '-'.toNat ≤ b.toNat ∧ b.toNat ≤ '9'.toNat := by
  have hdigits {n : Nat} (h : b ∈ ofNat n) : '-'.toNat ≤ b.toNat ∧ b.toNat ≤ '9'.toNat := by
    have hbounds : ∀ c ∈ Nat.toDigits 10 n, '0'.toNat ≤ c.toNat ∧ c.toNat ≤ '9'.toNat := by
      intro c hc
      have hdigit := Nat.isDigit_of_mem_toDigits (by decide) (by decide) hc
      simpa [Char.isDigit, UInt32.le_iff_toNat_le] using hdigit
    have hascii : ∀ c ∈ Nat.toDigits 10 n, c.toNat < 128 := fun c hc =>
      Nat.lt_of_le_of_lt (hbounds c hc).2 (by decide)
    rw [ofNat, ofString_eq_ofChars, Nat.repr, String.toList_ofList, ofChars_of_ascii hascii] at h
    obtain ⟨c, hc, rfl⟩ := List.mem_map.mp h
    obtain ⟨hlow, hhigh⟩ := hbounds c hc
    have hcode : c.toUInt8.toNat = c.toNat :=
      Nat.mod_eq_of_lt (Nat.lt_trans (hascii c hc) (by decide))
    rw [hcode]
    exact ⟨Nat.le_trans (by decide) hlow, hhigh⟩
  unfold ofInt at h
  split at h
  · rcases List.mem_cons.mp h with rfl | h
    · decide
    · exact hdigits h
  · exact hdigits h

/-- Some blanks and other characters of one byte, up to a caret. -/
theorem Text.caretOffset_append {t : Text} (h : ∀ b ∈ t, b.toNat < 128)
    (hcaret : caret ∉ t) (u : Text) :
    caretOffset (t ++ caret :: u) = t.length := by
  have htake : (t ++ caret :: u).takeWhile (· ≠ caret) = t := by
    have hall : ∀ b ∈ t, decide (b ≠ caret) = true := by
      intro b hb
      rw [decide_eq_true_eq]
      rintro rfl
      exact hcaret hb
    rw [List.takeWhile_append_of_pos hall]
    simp
  rw [caretOffset, htake, length_glyphs_of_ascii h]

namespace Rendering

open Text (newline caret)

variable (r : Rendering)

/-- What is shown of a character: of a tab, some spaces. -/
def shownGlyph (g : Glyph) : List Glyph :=
  if g = .char '\t' then List.replicate r.tabWidth (.char ' ') else [g]

/-- What is shown of some characters. -/
def shown (gs : List Glyph) : List Glyph := gs.flatMap r.shownGlyph

theorem shown_append (gs hs : List Glyph) : r.shown (gs ++ hs) = r.shown gs ++ r.shown hs :=
  List.flatMap_append

theorem shown_cons (g : Glyph) (gs : List Glyph) :
    r.shown (g :: gs) = r.shownGlyph g ++ r.shown gs :=
  List.flatMap_cons

theorem shown_of_not_mem {gs : List Glyph} (h : .char '\t' ∉ gs) : r.shown gs = gs := by
  induction gs with
  | nil => rfl
  | cons g gs ih =>
    rw [List.mem_cons, not_or] at h
    rw [shown_cons, shownGlyph, if_neg (Ne.symm h.1), ih h.2, List.singleton_append]

theorem bytes_glyphs (t : Text) : t.glyphs.flatMap Glyph.bytes = t :=
  Text.flatMap_bytes_glyphsFrom 0 t

theorem bytes_of_ascii {c : Char} (h : c.toNat < 128) : Glyph.bytes (.char c) = [c.toUInt8] :=
  Text.ofChars_of_ascii (List.forall_mem_singleton.mpr h)

theorem bytes_tab : Glyph.bytes (.char '\t') = ['\t'.toUInt8] := bytes_of_ascii (by decide)

/-- Spaces are written by as many bytes. -/
theorem bytes_spaces (n : Nat) :
    (List.replicate n (Glyph.char ' ')).flatMap Glyph.bytes = List.replicate n ' '.toUInt8 := by
  induction n with
  | zero => rfl
  | succ n ih =>
    rw [List.replicate_succ, List.flatMap_cons, ih, List.replicate_succ]
    have hspace : Glyph.bytes (.char ' ') = [' '.toUInt8] := bytes_of_ascii (by decide)
    rw [hspace]
    rfl

/-- A tab is no part of another character. -/
theorem tab_mem_bytes {g : Glyph} (hstray : ∀ b, g = .stray b → 128 ≤ b.toNat)
    (h : '\t'.toUInt8 ∈ g.bytes) : g = .char '\t' := by
  cases g with
  | stray b =>
    obtain rfl := List.mem_singleton.mp h
    exact absurd (hstray _ rfl) (by decide)
  | char c =>
    rw [Glyph.bytes, Text.ofChars_cons, Text.ofChars_nil, List.append_nil] at h
    by_cases hc : c.toNat < 128
    · rw [Text.utf8EncodeChar_of_ascii hc, List.mem_singleton] at h
      have hcode : c.toNat = '\t'.toNat := by
        have hmod : c.toNat % 256 = 9 := (congrArg UInt8.toNat h).symm
        show c.toNat = 9
        omega
      rw [Char.toNat_inj.mp hcode]
    · exact absurd (Text.le_of_mem_utf8EncodeChar (Nat.le_of_not_lt hc) _ h) (by decide)

theorem expandTabs_append (t u : Text) : r.expandTabs (t ++ u) = r.expandTabs t ++ r.expandTabs u :=
  List.flatMap_append

theorem expandTabs_of_not_mem {t : Text} (h : '\t'.toUInt8 ∉ t) : r.expandTabs t = t := by
  induction t with
  | nil => rfl
  | cons b t ih =>
    rw [List.mem_cons, not_or] at h
    rw [expandTabs, List.flatMap_cons, if_neg (Ne.symm h.1)]
    exact congrArg (b :: ·) (ih h.2)

theorem expandTabs_tab : r.expandTabs ['\t'.toUInt8] = List.replicate r.tabWidth ' '.toUInt8 := by
  rw [expandTabs, List.flatMap_cons, if_pos rfl, List.flatMap_nil, List.append_nil]

/-- A line is shown character by character: the bytes of a tab are replaced, and no others. -/
theorem expandTabs_eq (line : Text) :
    r.expandTabs line = (r.shown line.glyphs).flatMap Glyph.bytes := by
  have hshown : ∀ gs : List Glyph, (∀ b, .stray b ∈ gs → 128 ≤ b.toNat) →
      r.expandTabs (gs.flatMap Glyph.bytes) = (r.shown gs).flatMap Glyph.bytes := by
    intro gs hstray
    induction gs with
    | nil => rfl
    | cons g gs ih =>
      have hrest := ih fun b hb => hstray b (List.mem_cons_of_mem _ hb)
      rw [List.flatMap_cons, expandTabs_append, shown_cons, List.flatMap_append, hrest]
      congr 1
      by_cases hg : g = .char '\t'
      · rw [hg, bytes_tab, expandTabs_tab, shownGlyph, if_pos rfl, bytes_spaces]
      · have htab : '\t'.toUInt8 ∉ g.bytes := fun hmem =>
          hg (tab_mem_bytes (fun b hb => hstray b (hb ▸ List.mem_cons_self)) hmem)
        rw [expandTabs_of_not_mem r htab, shownGlyph, if_neg hg, List.flatMap_cons,
          List.flatMap_nil,
          List.append_nil]
  rw [← hshown line.glyphs fun b hb => Text.le_of_stray_mem_glyphs hb, bytes_glyphs]

/-- Characters are read again as they were written. -/
theorem glyphs_flatMap_bytes {gs : List Glyph} (h : ∀ g ∈ gs, ∃ c, g = .char c) :
    Text.glyphs (gs.flatMap Glyph.bytes) = gs := by
  induction gs with
  | nil => rfl
  | cons g gs ih =>
    rw [List.forall_mem_cons] at h
    obtain ⟨⟨c, rfl⟩, h⟩ := h
    rw [List.flatMap_cons, Glyph.bytes, Text.glyphs_ofChars_append, ih h]
    rfl

/-- Only a tab is read as one. -/
theorem tab_not_mem_glyphs {t : Text} (h : '\t'.toUInt8 ∉ t) : Glyph.char '\t' ∉ t.glyphs := by
  intro hmem
  rw [← bytes_glyphs t] at h
  refine h (List.mem_flatMap.mpr ⟨_, hmem, ?_⟩)
  rw [bytes_tab]
  exact List.mem_cons_self

theorem glyphs_tab_cons (t : Text) : Text.glyphs ('\t'.toUInt8 :: t) = .char '\t' :: t.glyphs := by
  have hone : '\t'.toUInt8 :: t = Text.ofChars ['\t'] ++ t := by
    rw [Text.ofChars_of_ascii (List.forall_mem_singleton.mpr (by decide))]
    rfl
  rw [hone, Text.glyphs_ofChars_append]
  rfl

theorem glyphs_spaces_append (n : Nat) (t : Text) :
    Text.glyphs (List.replicate n ' '.toUInt8 ++ t) = List.replicate n (.char ' ') ++ t.glyphs := by
  have hspaces : List.replicate n ' '.toUInt8 = Text.ofChars (List.replicate n ' ') := by
    rw [Text.ofChars_of_ascii, List.map_replicate]
    intro c hc
    obtain rfl := List.eq_of_mem_replicate hc
    decide
  rw [hspaces, Text.glyphs_ofChars_append, List.map_replicate]

/-- Spaces end what was read before them, so that no bytes come together. -/
theorem glyphs_expandTabs_of_pos (h : 0 < r.tabWidth) (line : Text) :
    (r.expandTabs line).glyphs = r.shown line.glyphs := by
  by_cases htab : '\t'.toUInt8 ∈ line
  · obtain ⟨before, after, rfl, hbefore⟩ := List.eq_append_cons_of_mem htab
    have hrest := glyphs_expandTabs_of_pos h after
    have hexpanded : r.expandTabs (before ++ '\t'.toUInt8 :: after) =
        before ++ (List.replicate r.tabWidth ' '.toUInt8 ++ r.expandTabs after) := by
      rw [expandTabs_append, expandTabs_of_not_mem r hbefore, ← List.singleton_append,
        expandTabs_append, expandTabs_tab]
    have hbreak (u : Text) : Text.glyphs (before ++ (List.replicate r.tabWidth ' '.toUInt8 ++ u)) =
        Text.glyphs before ++ Text.glyphs (List.replicate r.tabWidth ' '.toUInt8 ++ u) := by
      obtain ⟨n, hn⟩ : ∃ n, r.tabWidth = n + 1 := ⟨r.tabWidth - 1, by omega⟩
      rw [hn, List.replicate_succ, List.cons_append]
      exact Text.glyphs_append_ascii (by decide) _ before
    rw [hexpanded, hbreak, glyphs_spaces_append, hrest, Text.glyphs_append_ascii (by decide),
      glyphs_tab_cons, shown_append, shown_of_not_mem r (tab_not_mem_glyphs hbefore), shown_cons,
      shownGlyph, if_pos rfl]
  · rw [expandTabs_of_not_mem r htab, shown_of_not_mem r (tab_not_mem_glyphs htab)]
  termination_by line.length

/-- A shown line that is read again has the characters that were shown. Only tabs that take no room
may bring stray bytes together that make up a character. -/
theorem glyphs_expandTabs {line : Text} (h : 0 < r.tabWidth ∨ line.isValid = true) :
    (r.expandTabs line).glyphs = r.shown line.glyphs := by
  rcases h with hwidth | hvalid
  · exact r.glyphs_expandTabs_of_pos hwidth line
  · rw [expandTabs_eq]
    refine glyphs_flatMap_bytes fun g hg => ?_
    obtain ⟨g', hg', hg⟩ := List.mem_flatMap.mp hg
    unfold shownGlyph at hg
    split at hg
    · exact ⟨' ', List.eq_of_mem_replicate hg⟩
    · obtain rfl := List.mem_singleton.mp hg
      exact Text.exists_char_of_mem_glyphs hvalid g hg'

/-- The mark is indented by as many columns as the characters before it are shown by. -/
theorem columnsBefore_eq (line : Text) (column : Int) :
    r.columnsBefore line column = (r.shown (line.glyphs.take (column - 1).toNat)).length := by
  have hcount (gs : List Glyph) (n : Nat) :
      (gs.map Glyph.toChar).foldl (fun n c => n + if c = '\t' then r.tabWidth else 1) n =
        n + (r.shown gs).length := by
    induction gs generalizing n with
    | nil => rfl
    | cons g gs ih =>
      have hg : (if g.toChar = '\t' then r.tabWidth else 1) = (r.shownGlyph g).length := by
        cases g with
        | stray b => rfl
        | char c =>
          by_cases hc : c = '\t'
          · simp [shownGlyph, Glyph.toChar, hc]
          · simp [shownGlyph, Glyph.toChar, hc]
      rw [List.map_cons, List.foldl_cons, ih, hg, shown_cons, List.length_append, Nat.add_assoc]
  rw [columnsBefore, Text.chars, ← List.map_take, hcount, Nat.zero_add]

/-! ## The excerpt -/

section Uncoloured

variable (c : Colour) (t : Text) (p q : Painted)

theorem text_plain : (Painted.plain t).text false = t := List.append_nil t

theorem text_inColour : (Painted.inColour c t).text false = t := List.append_nil t

theorem text_append : Painted.text false (p ++ q) = p.text false ++ q.text false :=
  List.flatMap_append

end Uncoloured

/-- Spaces. -/
def blanks (n : Nat) : Text := List.replicate n ' '.toUInt8

/-- The first line of an excerpt. -/
def bar (number : Int) : Text := blanks (Text.ofInt number).length ++ [' '.toUInt8, '|'.toUInt8]

/-- What stands in front of the line of the source. -/
def margin (number : Int) : Text := Text.ofInt number ++ [' '.toUInt8, '|'.toUInt8, ' '.toUInt8]

/-- What stands in front of the mark. -/
def indent (line : Text) (number column : Int) : Text :=
  bar number ++ [' '.toUInt8] ++ blanks (r.columnsBefore line column)

theorem eq_of_mem_bar {number : Int} {b : UInt8} (h : b ∈ bar number) :
    b = ' '.toUInt8 ∨ b = '|'.toUInt8 := by
  rcases List.mem_append.mp h with h | h
  · exact .inl (List.eq_of_mem_replicate h)
  · simpa using h

theorem eq_of_mem_indent {line : Text} {number column : Int} {b : UInt8}
    (h : b ∈ r.indent line number column) : b = ' '.toUInt8 ∨ b = '|'.toUInt8 := by
  rcases List.mem_append.mp h with h | h
  · rcases List.mem_append.mp h with h | h
    · exact eq_of_mem_bar h
    · exact .inl (List.mem_singleton.mp h)
  · exact .inl (List.eq_of_mem_replicate h)

theorem bounds_of_mem_margin {number : Int} {b : UInt8} (h : b ∈ margin number) :
    newline.toNat < b.toNat ∧ b.toNat < 128 := by
  rcases List.mem_append.mp h with h | h
  · obtain ⟨hlow, hhigh⟩ := Text.bounds_of_mem_ofInt h
    exact ⟨Nat.lt_of_lt_of_le (by decide) hlow, Nat.lt_of_le_of_lt hhigh (by decide)⟩
  · have hends : b = ' '.toUInt8 ∨ b = '|'.toUInt8 := by simpa [or_comm] using h
    rcases hends with rfl | rfl
    · decide
    · decide

/-- The mark is indented by the margin and by what is shown before its column. -/
theorem length_indent (line : Text) (number column : Int) :
    (r.indent line number column).length =
      (margin number).glyphs.length + (r.shown (line.glyphs.take (column - 1).toNat)).length := by
  have hmargin := Text.length_glyphs_of_ascii fun b (hb : b ∈ margin number) =>
    (bounds_of_mem_margin hb).2
  rw [hmargin, ← columnsBefore_eq]
  simp only [indent, bar, margin, blanks, List.length_append, List.length_replicate,
    List.length_cons, List.length_nil]

theorem ofString_of_ascii {s : String} (h : (s.toList.all fun c => c.toNat < 128) = true) :
    Text.ofString s = s.toList.map Char.toUInt8 := by
  rw [Text.ofString_eq_ofChars]
  exact Text.ofChars_of_ascii fun c hc => of_decide_eq_true (List.all_eq_true.mp h c hc)

/-- An excerpt without its colours. -/
theorem text_excerpt (line : Text) (number column endColumn : Int) :
    ∃ more, (r.excerpt line number column endColumn).text false =
      bar number ++ [newline] ++ (margin number ++ r.expandTabs line) ++ [newline] ++
        (r.indent line number column ++ caret :: List.replicate more caret) ++ [newline] := by
  obtain ⟨more, hmore⟩ : ∃ n, (max 1 (wrapInt64 (endColumn - column))).toNat = n + 1 :=
    ⟨(max 1 (wrapInt64 (endColumn - column))).toNat - 1, by omega⟩
  have hbar : Text.ofString " |" = [' '.toUInt8, '|'.toUInt8] := ofString_of_ascii rfl
  have hgap : Text.ofString " " = [' '.toUInt8] := ofString_of_ascii rfl
  have hbreak : Text.ofString "\n" = [newline] := ofString_of_ascii rfl
  refine ⟨more, ?_⟩
  unfold excerpt
  simp only [text_append, text_plain, text_inColour, hbar, hgap, hbreak, hmore]
  simp [bar, margin, indent, blanks, caret, List.replicate_succ]

/-- The lines of an excerpt are a bar, the line of the source behind a margin, and a line that marks
a column of it. -/
structure Marks (line : Text) (number column : Int) (below : Text) : Prop where
  /-- Nothing but the line of the source may go over several lines. -/
  oneLine : newline ∉ bar number ∧ newline ∉ margin number ∧ newline ∉ below
  hasCaret : caret ∈ below
  /-- The line is shown character by character. -/
  shown : r.expandTabs line = (r.shown line.glyphs).flatMap Glyph.bytes
  /-- What is shown is read again as the characters that were shown, except that bytes outside of
  all characters may come together if tabs take no room. -/
  readAgain : 0 < r.tabWidth ∨ line.isValid = true →
    (r.expandTabs line).glyphs = r.shown line.glyphs
  /-- The mark stands under the character of its column. -/
  under : ∀ before g after, line.glyphs = before ++ g :: after → column = before.length + 1 →
    below.caretOffset = (margin number).glyphs.length + (r.shown before).length
  /-- The mark stands behind the line if the column is behind its last character. -/
  behind : line.glyphs.length < column →
    below.caretOffset = (margin number).glyphs.length + (r.shown line.glyphs).length

theorem marks_indent (line : Text) (number column : Int) (more : Nat) :
    r.Marks line number column
      (r.indent line number column ++ caret :: List.replicate more caret) := by
  have hoffset : (r.indent line number column ++ caret :: List.replicate more caret).caretOffset =
      (margin number).glyphs.length + (r.shown (line.glyphs.take (column - 1).toNat)).length := by
    have hascii : ∀ b ∈ r.indent line number column, b.toNat < 128 := by
      intro b hb
      rcases r.eq_of_mem_indent hb with rfl | rfl <;> decide
    have hcaret : caret ∉ r.indent line number column := fun h => by
      rcases r.eq_of_mem_indent h with h | h <;> exact absurd h (by decide)
    rw [Text.caretOffset_append hascii hcaret, length_indent]
  refine ⟨⟨?_, ?_, ?_⟩, ?_, r.expandTabs_eq line, r.glyphs_expandTabs, ?_, ?_⟩
  · intro h
    rcases eq_of_mem_bar h with h | h <;> exact absurd h (by decide)
  · exact fun h => absurd (bounds_of_mem_margin h).1 (Nat.lt_irrefl _)
  · intro h
    rcases List.mem_append.mp h with h | h
    · rcases r.eq_of_mem_indent h with h | h <;> exact absurd h (by decide)
    · rw [← List.replicate_succ] at h
      exact absurd (List.eq_of_mem_replicate h) (by decide)
  · exact List.mem_append_right _ List.mem_cons_self
  · rintro before g after hline rfl
    have htake : line.glyphs.take ((before.length : Int) + 1 - 1).toNat = before := by
      rw [hline, Int.add_sub_cancel, Int.toNat_natCast, List.take_left]
    rw [hoffset, htake]
  · intro hcolumn
    rw [hoffset, List.take_of_length_le (by omega)]

/-- **The mark stands under the column that a diagnostic tells.** Without the codes of its colours
an excerpt is a bar, a line of the source with its tabs replaced, and a line whose first caret has
as many characters in front of it as are shown before the column, or as the whole shown line has if
the column is behind its end. -/
theorem caret_under_column (line : Text) (number column endColumn : Int) :
    let page := r.excerpt line number column endColumn
    (Colour.escape ∉ line → ∀ order : List Text, order.Perm Colour.codes →
      Painted.stripIn order (page.text true) = page.text false) ∧
    ∃ below : Text,
      page.text false = bar number ++ [newline] ++
        (margin number ++ r.expandTabs line) ++ [newline] ++
        below ++ [newline] ∧
      r.Marks line number column below := by
  intro page
  obtain ⟨more, hpage⟩ := r.text_excerpt line number column endColumn
  refine ⟨fun hline order horder => ?_, _, hpage, r.marks_indent line number column more⟩
  exact Painted.stripIn_text (r.isClear_excerpt hline number column endColumn) horder

/-- A tab, a character of two bytes and a stray byte. -/
example : (({} : Rendering).shown [.char '\t', .char 'é', .stray 0xFF]).length = 6 := rfl

end Rendering

end Toolchain
