import Toolchain.Proofs.Token.Pieces

/-!
# The order of tokens

The tokens of a text stand in the order of their positions, and the end of the input is the last of
them. The indentation of a line is put at the beginning of the line, where its first token may stand
too; every other token stands before the ones that follow it.

## Main definitions

* `Position.Before`, `Position.Upto`: the order of positions
* `Token.Precedes`: one token stands before another

## Main results

* `Lexer.pairwise_render`: the tokens of pieces are in order
* `pairwise_tokenize`, `exists_finish_of_tokenize`: the tokens of a text are in order, and the end
  of the input is the last
-/

namespace Toolchain

/-! ## Positions -/

namespace Position

/-- One position stands before another. -/
def Before (p q : Position) : Prop := p.line < q.line ∨ p.line = q.line ∧ p.column < q.column

/-- One position does not stand behind another. -/
def Upto (p q : Position) : Prop := p.line < q.line ∨ p.line = q.line ∧ p.column ≤ q.column

instance (p q : Position) : Decidable (Upto p q) := inferInstanceAs (Decidable (_ ∨ _))

variable {p q r : Position}

theorem Upto.refl (p : Position) : p.Upto p := .inr ⟨rfl, Nat.le_refl _⟩

theorem Before.upto (h : p.Before q) : p.Upto q := by
  unfold Before Upto at *
  omega

theorem Upto.trans (h : p.Upto q) (h' : q.Upto r) : p.Upto r := by
  unfold Upto at *
  omega

theorem Before.trans_upto (h : p.Before q) (h' : q.Upto r) : p.Before r := by
  unfold Before Upto at *
  omega

theorem Upto.line_le (h : p.Upto q) : p.line ≤ q.line := by
  unfold Upto at h
  omega

theorem Before.not_upto (h : p.Before q) : ¬ q.Upto p := by
  unfold Before Upto at *
  omega

theorem before_next (p : Position) (c : Char) : p.Before (p.next c) := by
  unfold Before next
  split
  · exact .inl (Nat.lt_succ_self _)
  · exact .inr ⟨rfl, Nat.lt_succ_self _⟩

theorem upto_after (p : Position) (cs : List Char) : p.Upto (p.after cs) := by
  induction cs generalizing p with
  | nil => exact .refl p
  | cons c cs ih => exact (before_next p c).upto.trans (ih (p.next c))

theorem before_after (p : Position) {cs : List Char} (hcs : cs ≠ []) : p.Before (p.after cs) := by
  cases cs with
  | nil => exact absurd rfl hcs
  | cons c cs => exact (before_next p c).trans_upto (upto_after (p.next c) cs)

end Position

/-! ## Tokens -/

/-- One token stands before another; an indentation may only be on an earlier line, or on the same
one. -/
structure Token.Precedes (x y : Token) : Prop where
  line : x.pos.line ≤ y.pos.line
  before : x.kind ≠ .indentation → x.pos.Before y.pos

namespace Lexer

open Lexeme

theorem line_le_margin (blanks : List Char) (p : Position) (ps : List Piece) :
    p.line ≤ (margin blanks p ps).pos.line := by
  fun_induction margin blanks p ps with
  | case1 blanks p c ps ih => exact Nat.le_trans (Position.before_next p c).upto.line_le ih
  | case2 blanks p cs ps ih => exact Nat.le_trans (Position.upto_after p cs).line_le ih
  | case3 blanks p closes ps ih => exact Nat.le_trans (Position.before_next p '\n').upto.line_le ih
  | case4 | case5 => exact Nat.le_refl _

/-- No token stands before the position from which pieces are rendered. -/
theorem upto_render (p : Position) (ps : List Piece) : ∀ t ∈ render p ps, p.Upto t.pos := by
  fun_induction render p ps with
  | case1 p =>
    intro t ht
    obtain rfl := List.mem_singleton.mp ht
    exact .refl p
  | case2 p x ps ih =>
    intro t ht
    rcases List.mem_cons.mp ht with rfl | ht
    · exact .refl p
    · exact (Position.upto_after p _).trans (ih t ht)
  | case3 p ps ih =>
    intro t ht
    have hnext := Position.before_next p '\n'
    rcases List.mem_cons.mp ht with rfl | ht
    · exact .refl p
    rcases List.mem_cons.mp ht with rfl | ht
    · have hline := line_le_margin [] (p.next '\n') ps
      exact .inl (Nat.lt_of_lt_of_le (Nat.lt_succ_self p.line) hline)
    · exact hnext.upto.trans (ih t ht)
  | case4 p q ps _ _ ih =>
    intro t ht
    exact (Position.upto_after p _).trans (ih t ht)

/-- The indentation of a line stands before the tokens of the line. -/
theorem margin_le_render {depth : Nat} {front bare : Bool} {cs : List Char} {ps : List Piece}
    (h : Cuts depth front bare cs ps) (hdepth : depth = 0) (hfront : front = true) (p : Position)
    (blanks : List Char) :
    ∀ t ∈ render p ps, (margin blanks p ps).pos.line ≤ t.pos.line := by
  induction h generalizing p blanks with
  | nil | joined | token => exact fun t ht => (upto_render p _ t ht).line_le
  | enclosed bare hpos h ih => omega
  | ending h ih =>
    subst hfront
    exact ih rfl rfl _ _
  | blank bare hc h ih => exact ih hdepth hfront _ _
  | hidden bare h ih => exact ih hdepth rfl _ _

/-- The tokens of pieces stand in order. -/
theorem pairwise_render {depth : Nat} {front bare : Bool} {cs : List Char} {ps : List Piece}
    (h : Cuts depth front bare cs ps) (p : Position) : (render p ps).Pairwise Token.Precedes := by
  induction h generalizing p with
  | nil => exact List.pairwise_singleton _ _
  | joined _ _ _ h ih | enclosed _ _ h ih | blank _ _ h ih | hidden _ h ih => exact ih _
  | @ending front bare rest ps h ih =>
    cases hcloses : (!front && !bare) with
    | false => exact ih _
    | true =>
      obtain ⟨hfront, -⟩ := Bool.and_eq_true_iff.mp hcloses
      have hnext : (front || !bare) = true := by
        cases front
        · simpa using hcloses
        · rfl
      rw [render, List.pairwise_cons, List.pairwise_cons]
      refine ⟨fun t ht => ?_, fun t ht => ⟨?_, fun hkind => ?_⟩, ih _⟩
      · -- what follows the newline stands on a later line
        have hline : p.line < t.pos.line := by
          rcases List.mem_cons.mp ht with rfl | ht
          · exact Nat.lt_of_lt_of_le (Nat.lt_succ_self p.line) (line_le_margin [] (p.next '\n') ps)
          · exact Nat.lt_of_lt_of_le (Nat.lt_succ_self p.line) (upto_render _ ps t ht).line_le
        exact ⟨Nat.le_of_lt hline, fun _ => .inl hline⟩
      · exact margin_le_render h rfl hnext (p.next '\n') [] t ht
      · exact absurd (margin_kind _ _ _) hkind
  | @token depth front c rest ps bare _ _ _ _ h ih =>
    rw [render, List.pairwise_cons]
    refine ⟨fun t ht => ?_, ih _⟩
    have hbefore := (Position.before_after p (taken_next c rest).some).trans_upto
      (upto_render _ ps t ht)
    exact ⟨hbefore.upto.line_le, fun _ => hbefore⟩

/-- The end of the input is the last token, and no other one is. -/
theorem exists_finish_of_render {depth : Nat} {front bare : Bool} {cs : List Char} {ps : List Piece}
    (h : Cuts depth front bare cs ps) (p : Position) :
    ∃ before t, render p ps = before ++ [t] ∧ (t.kind = .finish ∧ t.value = "") ∧
      ∀ x ∈ before, x.kind ≠ .finish := by
  induction h generalizing p with
  | nil => exact ⟨[], _, rfl, ⟨rfl, rfl⟩, by simp⟩
  | joined _ _ _ h ih | enclosed _ _ h ih | blank _ _ h ih | hidden _ h ih => exact ih _
  | @ending front bare rest ps h ih =>
    cases hcloses : (!front && !bare) with
    | false => exact ih _
    | true =>
      obtain ⟨before, t, heq, ht, hbefore⟩ := ih (p.next '\n')
      refine ⟨⟨.newLine, "\n", p⟩ :: margin [] (p.next '\n') ps :: before, t, ?_, ht, ?_⟩
      · rw [render, heq]
        rfl
      · intro x hx
        rcases List.mem_cons.mp hx with rfl | hx
        · exact nofun
        rcases List.mem_cons.mp hx with rfl | hx
        · rw [margin_kind]
          exact nofun
        · exact hbefore x hx
  | @token depth front c rest ps bare _ _ _ _ h ih =>
    obtain ⟨before, t, heq, ht, hbefore⟩ := ih (p.after (next c rest).taken)
    refine ⟨⟨(next c rest).kind, String.ofList (next c rest).value, p⟩ :: before, t, ?_, ht, ?_⟩
    · rw [render, heq]
      rfl
    · intro x hx
      rcases List.mem_cons.mp hx with rfl | hx
      · intro hfinish
        have hkind := (taken_next c rest).kind
        rw [show (next c rest).kind = .finish from hfinish] at hkind
        cases hkind
      · exact hbefore x hx

end Lexer

open Lexer

/-- The tokens of a text stand in order. -/
theorem pairwise_tokenize (t : Text) : (tokenize t).1.Pairwise Token.Precedes := by
  have hcuts : Cuts 0 true true t.chars (pieces t) := cuts_cut 0 0 true true t.chars
  rw [tokenize_eq_tokensOf, tokensOf, List.pairwise_append]
  refine ⟨?_, pairwise_render hcuts _, ?_⟩
  · split
    · exact List.Pairwise.nil
    · exact List.pairwise_singleton _ _
  · intro x hx y hy
    split at hx
    · cases hx
    · obtain rfl := List.mem_singleton.mp hx
      exact ⟨margin_le_render hcuts rfl rfl _ _ y hy, fun h => absurd (margin_kind _ _ _) h⟩

/-- The end of the input is the last token of a text, and no other one is. -/
theorem exists_finish_of_tokenize (t : Text) :
    ∃ before e, (tokenize t).1 = before ++ [e] ∧ (e.kind = .finish ∧ e.value = "") ∧
      ∀ x ∈ before, x.kind ≠ .finish := by
  have hcuts : Cuts 0 true true t.chars (pieces t) := cuts_cut 0 0 true true t.chars
  obtain ⟨before, e, heq, he, hbefore⟩ := exists_finish_of_render hcuts {}
  rw [tokenize_eq_tokensOf, tokensOf, heq, ← List.append_assoc]
  refine ⟨_, e, rfl, he, fun x hx => ?_⟩
  rcases List.mem_append.mp hx with hx | hx
  · split at hx
    · cases hx
    · rw [List.mem_singleton.mp hx, margin_kind]
      exact nofun
  · exact hbefore x hx

end Toolchain
