import Toolchain.Proofs.Token.Forms
import Toolchain.Proofs.Token.Order

/-!
# The positions of tokens

A position names a line of a text and a column of the line. From the position of a token on, the
text reads as the token was written: a name, a number, an operator, a newline or a comment as its
value, a string as its quotes, and a string with a mark as its mark and its quotes. The position of
an indentation is the beginning of the line in front of which it stands.

## Main definitions

* `Text.charsFrom?`: the characters of a text from a position on

## Main results

* `Text.charsFrom?_after`: after some characters the others are left
* `Lexer.Cuts.exact`: the tokens of pieces stand where the pieces do
* `positions_of_tokenize`: **the positions of tokens are exact**
-/

namespace Toolchain

/-! ## The text from a position on -/

namespace Text

/-- The characters of a text from a position on, if it has such a position. Lines are split at
newlines, and lines and columns are counted from one. -/
def charsFrom? (t : Text) (p : Position) : Option (List Char) :=
  match (t.chars.splitOn '\n').drop (p.line - 1) with
  | [] => none
  | line :: below =>
    if 1 ≤ p.line ∧ 1 ≤ p.column ∧ p.column ≤ line.length + 1 then
      some (['\n'].intercalate (line.drop (p.column - 1) :: below))
    else none

theorem charsFrom?_eq_some {t : Text} {p : Position} {cs : List Char} :
    t.charsFrom? p = some cs ↔
      ∃ line below, (t.chars.splitOn '\n').drop (p.line - 1) = line :: below ∧
      (1 ≤ p.line ∧ 1 ≤ p.column ∧ p.column ≤ line.length + 1) ∧
      ['\n'].intercalate (line.drop (p.column - 1) :: below) = cs := by
  unfold charsFrom?
  split
  · next heq => simp [heq]
  · next line below heq =>
    constructor
    · intro h
      obtain ⟨hbounds, h⟩ := Option.ite_none_right_eq_some.mp h
      exact ⟨line, below, heq, hbounds, Option.some.inj h⟩
    · rintro ⟨line', below', heq', hbounds, h⟩
      obtain ⟨rfl, rfl⟩ := List.cons.inj (heq.symm.trans heq')
      rw [if_pos hbounds, h]

/-- A text from its start on. -/
theorem charsFrom?_start (t : Text) : t.charsFrom? {} = some t.chars := by
  obtain ⟨line, below, heq⟩ := List.exists_cons_of_ne_nil (List.splitOn_ne_nil '\n' t.chars)
  refine charsFrom?_eq_some.mpr ⟨line, below, heq, ⟨Nat.le_refl 1, Nat.le_refl 1, by simp⟩, ?_⟩
  show ['\n'].intercalate (line :: below) = t.chars
  rw [← heq]
  exact List.intercalate_splitOn '\n'

/-- A line has no newline. -/
theorem newline_notMem_of_splitOn {cs line : List Char} (h : line ∈ cs.splitOn '\n') :
    '\n' ∉ line := by
  induction cs generalizing line with
  | nil =>
    obtain rfl := List.mem_singleton.mp h
    exact List.not_mem_nil
  | cons c cs ih =>
    obtain ⟨first, below, heq⟩ := List.exists_cons_of_ne_nil (List.splitOn_ne_nil '\n' cs)
    rw [heq] at ih
    rw [List.splitOn] at heq
    rw [List.splitOn, List.splitOnP_cons_eq_if_modifyHead, heq] at h
    split at h
    · rcases List.mem_cons.mp h with rfl | h
      · exact List.not_mem_nil
      · exact ih h
    · next hc =>
      rcases List.mem_cons.mp h with rfl | h
      · intro hmem
        rcases List.mem_cons.mp hmem with rfl | hmem
        · exact hc rfl
        · exact ih List.mem_cons_self hmem
      · exact ih (List.mem_cons_of_mem _ h)

theorem intercalate_cons (c : Char) (line : List Char) (below : List (List Char)) :
    ['\n'].intercalate ((c :: line) :: below) = c :: ['\n'].intercalate (line :: below) := by
  cases below with
  | nil => simp
  | cons => simp

/-- One character further. -/
theorem charsFrom?_next {t : Text} {p : Position} {c : Char} {cs : List Char}
    (h : t.charsFrom? p = some (c :: cs)) : t.charsFrom? (p.next c) = some cs := by
  obtain ⟨line, below, heq, ⟨hline, hcolumn, hle⟩, hchars⟩ := charsFrom?_eq_some.mp h
  cases hrest : line.drop (p.column - 1) with
  | nil =>
    -- the line is over, so that the character is the newline behind it
    rw [hrest] at hchars
    cases below with
    | nil => simp at hchars
    | cons next below =>
      rw [List.intercalate_cons_cons] at hchars
      obtain ⟨rfl, rfl⟩ := List.cons.inj hchars
      refine charsFrom?_eq_some.mpr ⟨next, below, ?_, ?_, rfl⟩
      · show (t.chars.splitOn '\n').drop (p.line + 1 - 1) = _
        rw [show p.line + 1 - 1 = p.line - 1 + 1 by omega, ← List.tail_drop, heq, List.tail_cons]
      · exact ⟨Nat.le_add_left 1 _, Nat.le_refl 1, Nat.le_add_left 1 _⟩
  | cons x rest =>
    rw [hrest, intercalate_cons] at hchars
    obtain ⟨rfl, rfl⟩ := List.cons.inj hchars
    have hx : x ≠ '\n' := by
      rintro rfl
      have hmem : '\n' ∈ line := List.mem_of_mem_drop (hrest ▸ List.mem_cons_self)
      exact newline_notMem_of_splitOn (List.mem_of_mem_drop (heq ▸ List.mem_cons_self)) hmem
    have hlength := congrArg List.length hrest
    rw [List.length_drop, List.length_cons] at hlength
    rw [Position.next, if_neg hx]
    refine charsFrom?_eq_some.mpr ⟨line, below, heq, ⟨hline, Nat.le_add_left 1 _, ?_⟩, ?_⟩
    · show p.column + 1 ≤ line.length + 1
      omega
    · show ['\n'].intercalate (line.drop (p.column + 1 - 1) :: below) = _
      rw [show p.column + 1 - 1 = p.column - 1 + 1 by omega, ← List.tail_drop, hrest,
        List.tail_cons]

/-- **After some characters the others are left.** -/
theorem charsFrom?_after {t : Text} {p : Position} {before after : List Char}
    (h : t.charsFrom? p = some (before ++ after)) : t.charsFrom? (p.after before) = some after := by
  induction before generalizing p with
  | nil => exact h
  | cons c before ih => exact ih (charsFrom?_next h)

/-- A text has only positions that are counted from one. -/
theorem column_pos_of_charsFrom? {t : Text} {p : Position} {cs : List Char}
    (h : t.charsFrom? p = some cs) : 1 ≤ p.column := by
  obtain ⟨line, below, -, ⟨-, hcolumn, -⟩, -⟩ := charsFrom?_eq_some.mp h
  exact hcolumn

end Text

/-! ## Tokens -/

/-- What a text reads as where a token stands. -/
structure Token.Spelt (x : Token) (cs : List Char) : Prop where
  value : x.kind ∉ [.invalid, .string, .fstring] → x.value.toList <+: cs
  quoted : x.kind = .string → ∃ quote rest, cs = quote :: rest ∧ (quote = '\'' ∨ quote = '"')
  marked : x.kind = .fstring → ∃ mark quote rest, cs = mark :: quote :: rest ∧
    (mark = 'f' ∨ mark = 'F') ∧ (quote = '\'' ∨ quote = '"')

/-- A token stands in a text where it was written, and an indentation at the beginning of a line. -/
structure Token.Exact (x : Token) (t : Text) : Prop where
  column : x.kind = .indentation → x.pos.column = 1
  exists_chars : x.kind ≠ .indentation → ∃ cs, t.charsFrom? x.pos = some cs ∧ x.Spelt cs

theorem Token.Spelt.exact {x : Token} {cs : List Char} (h : x.Spelt cs)
    (hkind : x.kind ≠ .indentation)
    {t : Text} (hcs : t.charsFrom? x.pos = some cs) : x.Exact t where
  column heq := absurd heq hkind
  exists_chars _ := ⟨cs, hcs, h⟩

theorem Lexeme.Form.spelt {x : Lexeme} (h : Form x) (p : Position) {cs : List Char}
    (hparts : x.taken ++ x.rest = cs) : Token.Spelt ⟨x.kind, String.ofList x.value, p⟩ cs := by
  subst hparts
  cases h with
  | slash | bad => exact ⟨fun h => absurd List.mem_cons_self h, nofun, nofun⟩
  | quoted hquote value inner rest => exact ⟨by simp, fun _ => ⟨_, _, rfl, hquote⟩, nofun⟩
  | marked hmark hquote value inner rest =>
    exact ⟨by simp, nofun, fun _ => ⟨_, _, _, rfl, hmark, hquote⟩⟩
  | written hkind hvalue rest =>
    refine ⟨fun _ => ?_, fun h => absurd h hkind.2.1, fun h => absurd h hkind.2.2⟩
    show (String.ofList _).toList <+: _
    rw [String.toList_ofList]
    exact hvalue.trans (List.prefix_append _ _)

namespace Lexer

open Lexeme

theorem column_margin (blanks : List Char) (p : Position) (ps : List Piece) :
    (margin blanks p ps).pos.column = 1 := by
  fun_induction margin blanks p ps with
  | case1 _ _ _ _ ih | case2 _ _ _ _ ih | case3 _ _ _ _ ih => exact ih
  | case4 | case5 => rfl

theorem exact_margin (t : Text) (blanks : List Char) (p : Position) (ps : List Piece) :
    (margin blanks p ps).Exact t where
  column _ := column_margin blanks p ps
  exists_chars hkind := absurd (margin_kind blanks p ps) hkind

/-- The tokens of pieces stand where the pieces do. -/
theorem Cuts.exact {t : Text} {depth : Nat} {front bare : Bool} {cs : List Char} {ps : List Piece}
    (h : Cuts depth front bare cs ps) {p : Position} (hp : t.charsFrom? p = some cs) :
    ∀ x ∈ render p ps, x.Exact t := by
  induction h generalizing p with
  | nil =>
    intro x hx
    obtain rfl := List.mem_singleton.mp hx
    have hspelt : Token.Spelt ⟨.finish, "", p⟩ [] := ⟨fun _ => List.prefix_rfl, nofun, nofun⟩
    exact hspelt.exact nofun hp
  | joined _ _ _ _ ih => exact ih (Text.charsFrom?_after hp)
  | enclosed _ _ _ ih => exact ih (Text.charsFrom?_next hp)
  | blank _ _ _ ih => exact ih (Text.charsFrom?_next hp)
  | hidden _ _ ih =>
    refine ih (Text.charsFrom?_after ?_)
    rw [hp]
    exact congrArg (fun cs => some ('#' :: cs)) List.takeWhile_append_dropWhile.symm
  | @ending front bare rest ps _ ih =>
    have hrest := ih (Text.charsFrom?_next hp)
    cases !front && !bare with
    | false => exact hrest
    | true =>
      intro x hx
      rcases List.mem_cons.mp hx with rfl | hx
      · have hspelt : Token.Spelt ⟨.newLine, "\n", p⟩ ('\n' :: rest) :=
          ⟨fun _ => by simp, nofun, nofun⟩
        exact hspelt.exact nofun hp
      rcases List.mem_cons.mp hx with rfl | hx
      · exact exact_margin t [] _ ps
      · exact hrest x hx
  | @token _ _ c rest _ _ _ _ _ _ _ ih =>
    have htaken := taken_next c rest
    intro x hx
    rcases List.mem_cons.mp hx with rfl | hx
    · refine ((form_next c rest).spelt p htaken.parts).exact (fun heq => ?_) hp
      have hkind := htaken.kind
      rw [show (next c rest).kind = .indentation from heq] at hkind
      cases hkind
    · rw [← htaken.parts] at hp
      exact ih (Text.charsFrom?_after hp) x hx

end Lexer

open Lexer

theorem exact_of_mem_tokenize {t : Text} {x : Token} (hx : x ∈ (tokenize t).1) : x.Exact t := by
  have hcuts : Cuts 0 true true t.chars (pieces t) := cuts_cut 0 0 true true t.chars
  rw [tokenize_eq_tokensOf, tokensOf] at hx
  rcases List.mem_append.mp hx with hx | hx
  · split at hx
    · cases hx
    · rw [List.mem_singleton.mp hx]
      exact exact_margin t [] {} _
  · exact hcuts.exact (Text.charsFrom?_start t) x hx

theorem column_pos_of_mem_tokenize {t : Text} {x : Token} (hx : x ∈ (tokenize t).1) :
    1 ≤ x.pos.column := by
  have hexact := exact_of_mem_tokenize hx
  by_cases hkind : x.kind = .indentation
  · exact Nat.le_of_eq (hexact.column hkind).symm
  · obtain ⟨cs, hcs, -⟩ := hexact.exists_chars hkind
    exact Text.column_pos_of_charsFrom? hcs

/-- **The positions of tokens are exact.** Where a token stands, the text reads as the token was
written. The positions never go back, and a token that is no indentation stands before all tokens
that follow it. -/
theorem positions_of_tokenize (t : Text) :
    (∀ x ∈ (tokenize t).1, x.Exact t) ∧ (tokenize t).1.Pairwise fun x y =>
      x.pos.Upto y.pos ∧ (x.kind ≠ .indentation → x.pos.Before y.pos) := by
  refine ⟨fun x hx => exact_of_mem_tokenize hx, ?_⟩
  refine (pairwise_tokenize t).imp_of_mem fun {x y} hx hy hprecedes => ?_
  refine ⟨?_, hprecedes.before⟩
  by_cases hkind : x.kind = .indentation
  · -- an indentation stands at the beginning of its line
    have hcolumn := (exact_of_mem_tokenize hx).column hkind
    have hline := hprecedes.line
    have hpos := column_pos_of_mem_tokenize hy
    unfold Position.Upto
    omega
  · exact (hprecedes.before hkind).upto

end Toolchain
