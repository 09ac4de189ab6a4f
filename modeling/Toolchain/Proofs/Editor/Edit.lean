import Mathlib.Tactic.Common
import Toolchain.Editor.Document
import Toolchain.Proofs.Disk.Place
import Toolchain.Proofs.Text.Utf8

/-!
# A part of a document is replaced

An editor names the part of a document that a new text stands for by the line and the character
where it starts and where it stops. A place after the end of a line is meant to be that end, and a
place after the last line the end of the document. The document, however, is put together from
lines, and of a place after the last line only the line is changed, not the character; so such a
place is the end of the document only if its character is not before the end of the last line.

## Main definitions

* `DocumentPlace.offset`: where in a text a place is
* `DocumentPlace.before`, `DocumentPlace.after`: the lines up to a place, and from there on
* `DocumentPlace.inside`: the place that is taken for a place
* `DocumentPlace.IsKept`: a place for which no other one is taken

## Main results

* `replaceRange_eq`: a text with another one for a part of it, by lines
* `DocumentPlace.length_before`: the lines up to a place, by bytes
* `replaceRange_exact`: **which part of a document is replaced**
-/

namespace Toolchain

/-! ## Lines -/

namespace Text

theorem lines_newline (rest : Text) : lines ('\n'.toUInt8 :: rest) = [] :: lines rest := by
  rw [lines, splitAt, if_pos rfl, lines]

theorem lines_cons {b : UInt8} (h : b ≠ '\n'.toUInt8) (rest : Text) :
    ∃ line more, lines rest = line :: more ∧ lines (b :: rest) = (b :: line) :: more := by
  have hnot : '\n'.toUInt8 ∉ ([b] : Text) := fun hb => h (List.mem_singleton.mp hb).symm
  exact splitAt_append_of_not_mem rest hnot

theorem length_lines_pos (t : Text) : 0 < t.lines.length :=
  List.length_pos_iff.mpr (splitAt_ne_nil _ t)

theorem join_cons_of_ne_nil {separator : UInt8} (part : Text) {parts : List Text} (h : parts ≠ []) :
    join [separator] (part :: parts) = part ++ separator :: join [separator] parts := by
  obtain ⟨next, more, rfl⟩ := List.exists_cons_of_ne_nil h
  exact join_cons_cons separator part next more

/-- Joined texts are cut in one of them. -/
theorem join_cut {separator : UInt8} (left right : Text) (after : List Text) :
    ∀ before, join [separator] (before ++ (left ++ right) :: after) =
      join [separator] (before ++ [left]) ++ join [separator] (right :: after)
  | [] => by
    cases after with
    | nil => simp
    | cons next more => simp [join_cons_cons]
  | part :: before => by
    rw [List.cons_append, join_cons_of_ne_nil part (by simp), join_cut left right after before,
      List.cons_append, join_cons_of_ne_nil part (by simp), List.append_assoc, List.cons_append]

theorem join_lines (t : Text) : join ['\n'.toUInt8] t.lines = t := by
  induction t with
  | nil => rfl
  | cons b rest ih =>
    by_cases hb : b = '\n'.toUInt8
    · subst hb
      have hne : lines rest ≠ [] := splitAt_ne_nil _ rest
      rw [lines_newline, join_cons_of_ne_nil [] hne, ih]
      rfl
    · obtain ⟨line, more, hrest, hlines⟩ := lines_cons hb rest
      rw [hrest] at ih
      rw [hlines, ← ih]
      exact join_cut [b] line more []

end Text

theorem normalizeLines_of_not_mem : ∀ {t : Text}, '\r'.toUInt8 ∉ t → normalizeLines t = t
  | [], _ => rfl
  | b :: rest, h => by
    rw [List.mem_cons, not_or] at h
    rw [normalizeLines.eq_def]
    simp only
    rw [if_neg fun hb => h.1 hb.symm, normalizeLines_of_not_mem h.2]

theorem documentLines_of_not_mem {t : Text} (h : '\r'.toUInt8 ∉ t) : documentLines t = t.lines := by
  rw [documentLines, normalizeLines_of_not_mem h]

/-! ## Places -/

namespace DocumentPlace

/-- Places in their order, by line and then by character. -/
instance : LE DocumentPlace where
  le p q := p.line < q.line ∨ p.line = q.line ∧ p.character ≤ q.character

instance (p q : DocumentPlace) : Decidable (p ≤ q) :=
  inferInstanceAs (Decidable (p.line < q.line ∨ p.line = q.line ∧ p.character ≤ q.character))

theorem le_iff {p q : DocumentPlace} :
    p ≤ q ↔ p.line < q.line ∨ p.line = q.line ∧ p.character ≤ q.character := Iff.rfl

/-- How many bytes of a text stand before a place. A place after the end of a line is that end, and
one after the last line is the end of the text. -/
def offset : Text → DocumentPlace → Nat
  | [], _ => 0
  | b :: rest, ⟨0, character⟩ =>
    if b = '\n'.toUInt8 ∨ character = 0 then 0 else offset rest ⟨0, character - 1⟩ + 1
  | b :: rest, ⟨line + 1, character⟩ =>
    offset rest ⟨if b = '\n'.toUInt8 then line else line + 1, character⟩ + 1

/-- The lines of a text up to a place in one of them. -/
def before (lines : List Text) (p : DocumentPlace) : Text :=
  Text.join ['\n'.toUInt8] (lines.take p.line ++ [(lines.getD p.line []).take p.character])

/-- The lines of a text from a place in one of them on. -/
def after (lines : List Text) (p : DocumentPlace) : Text :=
  Text.join ['\n'.toUInt8] ((lines.getD p.line []).drop p.character :: lines.drop (p.line + 1))

/-- The place in some lines that is taken for a place: a line after the last one is the last one. -/
def inside (lines : List Text) (p : DocumentPlace) : DocumentPlace :=
  ⟨min p.line (lines.length - 1), p.character⟩

/-- A place for which no other one is taken: it is in one of the lines, or not before the end of the
last one. -/
def IsKept (lines : List Text) (p : DocumentPlace) : Prop :=
  p.line < lines.length ∨ (lines.getLastD []).length ≤ p.character

variable {lines : List Text} {p q : DocumentPlace}

theorem inside_of_lt (h : p.line < lines.length) : p.inside lines = p := by
  unfold inside
  rw [Nat.min_eq_left (Nat.le_sub_one_of_lt h)]

theorem line_inside_lt (h : 0 < lines.length) : (p.inside lines).line < lines.length :=
  Nat.lt_of_le_of_lt (Nat.min_le_right _ _) (Nat.sub_one_lt_of_lt h)

theorem inside_le (lines : List Text) (p : DocumentPlace) : p.inside lines ≤ p := by
  rw [le_iff]
  exact (Nat.lt_or_eq_of_le (Nat.min_le_left _ _)).imp_right fun h => ⟨h, Nat.le_refl _⟩

/-- The lines are cut at a place in one of them. -/
theorem before_append_after (h : p.line < lines.length) :
    before lines p ++ after lines p = Text.join ['\n'.toUInt8] lines := by
  have hline : lines.getD p.line [] = lines[p.line] := by
    rw [List.getD_eq_getElem?_getD, List.getElem?_eq_getElem h, Option.getD_some]
  unfold before after
  rw [← Text.join_cut, List.take_append_drop, hline, ← List.drop_eq_getElem_cons h,
    List.take_append_drop]

/-- The lines up to a place have as many bytes as stand before it. -/
theorem length_before (content : Text) (h : p.line < content.lines.length) :
    (before content.lines p).length = offset content p := by
  induction content generalizing p with
  | nil =>
    obtain ⟨line, character⟩ := p
    obtain rfl : line = 0 := Nat.lt_one_iff.mp h
    simp [before, offset, Text.lines, Text.splitAt]
  | cons b rest ih =>
    obtain ⟨line, character⟩ := p
    by_cases hb : b = '\n'.toUInt8
    · subst hb
      rw [Text.lines_newline] at h ⊢
      cases line with
      | zero => simp [before, offset]
      | succ line =>
        have hline : line < (Text.lines rest).length := Nat.lt_of_succ_lt_succ h
        have hbefore : before ([] :: (Text.lines rest)) ⟨line + 1, character⟩ =
            '\n'.toUInt8 :: before (Text.lines rest) ⟨line, character⟩ := by
          simp [before, Text.join_cons_of_ne_nil]
        rw [hbefore, List.length_cons, ih (p := ⟨line, character⟩) hline, offset, if_pos rfl]
    · obtain ⟨part, more, hrest, hlines⟩ := Text.lines_cons hb rest
      rw [hlines] at h ⊢
      rw [hrest] at ih
      cases line with
      | zero =>
        cases character with
        | zero => simp [before, offset]
        | succ character =>
          have hbefore := ih (p := ⟨0, character⟩) (Nat.zero_lt_succ _)
          simpa [before, offset, hb] using hbefore
      | succ line =>
        have hbefore := ih (p := ⟨line + 1, character⟩) h
        rw [offset, if_neg hb, ← hbefore]
        simp [before, Text.join_cons_of_ne_nil]

/-- All bytes of a text stand before a place after its last line. -/
theorem offset_of_length_le (content : Text) (h : content.lines.length ≤ p.line) :
    offset content p = content.length := by
  induction content generalizing p with
  | nil => rfl
  | cons b rest ih =>
    obtain ⟨line, character⟩ := p
    obtain _ | line := line
    · exact absurd (Text.length_lines_pos _) (Nat.not_lt.mpr h)
    rw [offset, List.length_cons]
    congr 1
    apply ih
    by_cases hb : b = '\n'.toUInt8
    · subst hb
      rw [Text.lines_newline] at h
      exact Nat.le_of_succ_le_succ h
    · obtain ⟨part, more, hrest, hlines⟩ := Text.lines_cons hb rest
      rw [hlines] at h
      rw [hrest, if_neg hb]
      exact h

/-- A later place has no fewer bytes before it. -/
theorem offset_mono (content : Text) (h : p ≤ q) : offset content p ≤ offset content q := by
  induction content generalizing p q with
  | nil => exact Nat.le_refl 0
  | cons b rest ih =>
    obtain ⟨line, character⟩ := p
    obtain ⟨line', character'⟩ := q
    rw [le_iff] at h
    dsimp only at h
    cases line with
    | zero =>
      rw [offset]
      split
      · exact Nat.zero_le _
      · next hnot =>
        obtain ⟨hb, hcharacter⟩ := not_or.mp hnot
        cases line' with
        | zero =>
          rw [offset, if_neg (not_or.mpr ⟨hb, by omega⟩)]
          refine Nat.succ_le_succ (ih ?_)
          rw [le_iff]
          dsimp only
          omega
        | succ line' =>
          rw [offset, if_neg hb]
          exact Nat.succ_le_succ (ih (.inl (Nat.zero_lt_succ _)))
    | succ line =>
      cases line' with
      | zero => omega
      | succ line' =>
        refine Nat.succ_le_succ (ih ?_)
        rw [le_iff]
        dsimp only
        split <;> omega

theorem offset_le_length (content : Text) (p : DocumentPlace) :
    offset content p ≤ content.length := by
  fun_induction offset content p with
  | case1 => exact Nat.le_refl 0
  | case2 => exact Nat.zero_le _
  | case3 _ _ _ _ ih => exact Nat.succ_le_succ ih
  | case4 _ _ _ _ ih => exact Nat.succ_le_succ ih

variable {content : Text}

/-- A text is cut at a place in one of its lines. -/
theorem take_offset_and_drop_offset (h : p.line < content.lines.length) :
    content.take (offset content p) = before content.lines p ∧
      content.drop (offset content p) = after content.lines p := by
  have hcut := before_append_after h
  rw [Text.join_lines] at hcut
  have htake : (before content.lines p ++ after content.lines p).take
      (before content.lines p).length = before content.lines p := List.take_left
  have hdrop : (before content.lines p ++ after content.lines p).drop
      (before content.lines p).length = after content.lines p := List.drop_left
  rw [hcut, length_before content h] at htake hdrop
  exact ⟨htake, hdrop⟩

/-- In the last line, or after it, only what the last line has after the character follows. -/
theorem after_inside (h : lines.length ≤ p.line + 1) :
    after lines (p.inside lines) = (lines.getLastD []).drop p.character := by
  have hline : (p.inside lines).line = lines.length - 1 := Nat.min_eq_right (by omega)
  have hdrop : lines.drop (lines.length - 1 + 1) = [] := List.drop_eq_nil_of_le (by omega)
  have hlast : lines.getD (lines.length - 1) [] = lines.getLastD [] := by
    rw [List.getD_eq_getElem?_getD, ← List.getLast?_eq_getElem?, List.getLastD_eq_getLast?]
  rw [after, hline, hdrop, hlast, Text.join_singleton]
  rfl

/-- As many bytes are before the place that is taken for a place as before itself just if that is
kept. -/
theorem offset_inside_eq_iff :
    offset content (p.inside content.lines) = offset content p ↔ p.IsKept content.lines := by
  by_cases h : p.line < content.lines.length
  · rw [inside_of_lt h]
    exact iff_of_true rfl (.inl h)
  · have hafter := after_inside (Nat.le_succ_of_le (Nat.le_of_not_lt h))
    have hinside := line_inside_lt (p := p) (Text.length_lines_pos content)
    have hdrop := (take_offset_and_drop_offset hinside).2
    have hle := offset_le_length content (p.inside content.lines)
    rw [offset_of_length_le content (Nat.le_of_not_lt h), IsKept, or_iff_right h,
      ← List.drop_eq_nil_iff, ← hafter, ← hdrop, List.drop_eq_nil_iff]
    omega

end DocumentPlace

/-! ## The part that is replaced -/

/-- A text with another one for a part of it is cut at the places that are taken for the ends of
that part, however its lines end. -/
theorem replaceRange_eq (content : Text) (range : DocumentRange) (new : Text) :
    replaceRange content range new =
      (range.start.inside (documentLines content)).before (documentLines content) ++ new ++
        (range.stop.inside (documentLines content)).after (documentLines content) := by
  have hnewline : ("\n" : Text) = ['\n'.toUInt8] := by decide +kernel
  unfold replaceRange DocumentPlace.before DocumentPlace.after DocumentPlace.inside
  generalize documentLines content = lines
  dsimp only
  rw [hnewline, List.append_assoc _ [_], List.singleton_append, List.append_assoc _ new,
    Text.join_cut, List.append_assoc _ new]
  congr 1
  exact (Text.join_cut _ _ _ []).trans (by rw [List.nil_append, Text.join_singleton])

/-- A text is cut at the same places if the two parts stand in the same way around any other
text. -/
theorem eq_of_around {content : Text} {m m' n n' : Nat} (hm : m ≤ m') (hm' : m' ≤ content.length)
    (hn : n ≤ content.length) (hn' : n' ≤ content.length)
    (h : ∀ new, content.take m ++ new ++ content.drop n =
      content.take m' ++ new ++ content.drop n') :
    m = m' ∧ n = n' := by
  have heq : m = m' := by
    by_contra hne
    have hlt : m < m' := Nat.lt_of_le_of_ne hm hne
    -- The byte that is not the one of the text shows where the other text begins.
    obtain ⟨b, hb⟩ : ∃ b, b ≠ content[m] := by
      by_cases hzero : content[m] = 0
      · exact ⟨1, by rw [hzero]; decide⟩
      · exact ⟨0, Ne.symm hzero⟩
    have hleft : (content.take m ++ [b] ++ content.drop n)[m]? = some b := by
      rw [List.append_assoc, List.getElem?_append_right (List.length_take_le m content),
        List.length_take_of_le (by omega), Nat.sub_self]
      rfl
    rw [h [b], List.append_assoc, List.getElem?_append_left (by rw [List.length_take]; omega),
      List.getElem?_take_of_lt hlt, List.getElem?_eq_getElem (by omega)] at hleft
    exact hb (Option.some.inj hleft).symm
  subst heq
  have hdrop := congrArg List.length (List.append_cancel_left (h []))
  rw [List.length_drop, List.length_drop] at hdrop
  exact ⟨rfl, by omega⟩

open DocumentPlace

/-- **Which part of a document is replaced.** In a document without carriage returns, the part
between the places that are taken for the ends of a range is replaced by any text, and nothing else.
That is the range itself just if its ends are kept: each is in one of the lines, or its character is
not before the end of the last one. -/
theorem replaceRange_exact {content : Text} (hcontent : '\r'.toUInt8 ∉ content)
    {range : DocumentRange} (hrange : range.start ≤ range.stop) :
    offset content range.start ≤ offset content range.stop ∧
    (∀ new, replaceRange content range new =
      content.take (offset content (range.start.inside content.lines)) ++ new ++
        content.drop (offset content (range.stop.inside content.lines))) ∧
    ((∀ new, replaceRange content range new =
      content.take (offset content range.start) ++ new ++
        content.drop (offset content range.stop)) ↔
      range.start.IsKept content.lines ∧ range.stop.IsKept content.lines) := by
  have hreplaced (new : Text) : replaceRange content range new =
      content.take (offset content (range.start.inside content.lines)) ++ new ++
        content.drop (offset content (range.stop.inside content.lines)) := by
    have hpos := Text.length_lines_pos content
    rw [(take_offset_and_drop_offset (line_inside_lt hpos)).1,
      (take_offset_and_drop_offset (line_inside_lt hpos)).2, replaceRange_eq,
      documentLines_of_not_mem hcontent]
  refine ⟨offset_mono content hrange, hreplaced, ?_⟩
  constructor
  · intro h
    have hsame := eq_of_around (offset_mono content (inside_le content.lines range.start))
      (offset_le_length content _) (offset_le_length content _) (offset_le_length content _)
      fun new => (hreplaced new).symm.trans (h new)
    exact ⟨offset_inside_eq_iff.mp hsame.1, offset_inside_eq_iff.mp hsame.2⟩
  · rintro ⟨hstart, hstop⟩ new
    rw [hreplaced, offset_inside_eq_iff.mpr hstart, offset_inside_eq_iff.mpr hstop]

/-- A range stops far after the last line, with a character that is not before the end of it: so all
that follows the first line is replaced. -/
theorem replaceRange_exact_twoLines :
    '\r'.toUInt8 ∉ ("ab\ncd" : Text) ∧ (⟨0, 2⟩ : DocumentPlace) ≤ ⟨7, 2⟩ ∧
    replaceRange "ab\ncd" ⟨⟨0, 2⟩, ⟨7, 2⟩⟩ "!" = "ab!" := by
  have hcontent : '\r'.toUInt8 ∉ ("ab\ncd" : Text) := by decide +kernel
  let range : DocumentRange := ⟨⟨0, 2⟩, ⟨7, 2⟩⟩
  have hrange : range.start ≤ range.stop := by decide
  obtain ⟨-, -, hexact⟩ := replaceRange_exact hcontent hrange
  have hkept := hexact.mpr ⟨.inl (by decide +kernel), .inr (by decide +kernel)⟩
  exact ⟨hcontent, hrange, (hkept "!").trans (by decide +kernel)⟩

/-- A line that is replaced as a whole, with the end of the range where the line after it would
start, is not replaced: the new text goes in front of it. A place after the end of a document and a
later one can be taken for places the other way round, and what is between them is there twice. -/
theorem not_replaceRange_exact_afterLastLine :
    '\r'.toUInt8 ∉ ("x = 1" : Text) ∧
    (⟨0, 0⟩ : DocumentPlace) ≤ ⟨1, 0⟩ ∧
    offset "x = 1" ⟨1, 0⟩ = ("x = 1" : Text).length ∧
    replaceRange "x = 1" ⟨⟨0, 0⟩, ⟨1, 0⟩⟩ "y = 2" = "y = 2x = 1" ∧
    replaceRange "x = 1" ⟨⟨0, 0⟩, ⟨1, 0⟩⟩ "y = 2" ≠
      ("x = 1" : Text).take (offset "x = 1" ⟨0, 0⟩) ++ "y = 2" ++
        ("x = 1" : Text).drop (offset "x = 1" ⟨1, 0⟩) ∧
    (⟨1, 5⟩ : DocumentPlace) ≤ ⟨2, 0⟩ ∧
    replaceRange "x = 1" ⟨⟨1, 5⟩, ⟨2, 0⟩⟩ "!" = "x = 1!x = 1" := by
  decide +kernel

end Toolchain
