import Mathlib.Tactic.Common
import Toolchain.Proofs.Tree.WellFormed

/-!
# Names among the tokens

Every token that the lexer gives out as an identifier is one: it starts with a letter, goes on with
letters and digits, and is no reserved word.

## Main definitions

* `Token.Proper`: a token that is an identifier only if its value is

## Main results

* `Lexeme.isIdentifier_of_scan`: what is read as an identifier is one
* `proper_of_mem_tokenize`: all tokens of a text are proper
-/

namespace Toolchain

/-- A token that is an identifier only if its value is one. -/
def Token.Proper (t : Token) : Prop := t.kind = .identifier → IsIdentifier t.value

namespace Lexeme

open Lexer

theorem ofWord_ne_of_keyword {s : String} {k : Keyword} (h : Keyword.ofSpelling? s = some k) :
    TokenKind.ofWord s ≠ .identifier := by
  simp [TokenKind.ofWord, h]

theorem kind_ofInside {kind : TokenKind} (hk : kind ≠ .identifier) (quotes : List Char)
    (i : Inside) :
    (ofInside kind quotes i).kind ≠ .identifier := by
  unfold ofInside
  cases i.ending <;> simp [bad, hk]

theorem kind_string {kind : TokenKind} (hk : kind ≠ .identifier) (quote : Char)
    (rest : List Char) : (string kind quote rest).kind ≠ .identifier := by
  unfold string
  split
  · split
    · exact kind_ofInside hk _ _
    · exact hk
  · exact kind_ofInside hk _ _

theorem kind_hexNumber (mark rest : List Char) : (hexNumber mark rest).kind ≠ .identifier := by
  unfold hexNumber
  simp only
  split
  · simp [badNumber, bad]
  · simp [plain]

theorem kind_decimal (cs : List Char) : (decimal cs).kind ≠ .identifier := by
  unfold decimal
  simp only
  split
  · simp [badNumber, bad]
  · split <;> simp [plain, bad]

theorem kind_number (cs : List Char) : (number cs).kind ≠ .identifier := by
  unfold number
  split
  · exact kind_hexNumber _ _
  · exact kind_hexNumber _ _
  · exact kind_decimal _

theorem kind_symbol (c : Char) (rest : List Char) : (symbol c rest).kind ≠ .identifier := by
  unfold symbol
  split
  · next spelling kind hfind =>
    have hmem := List.mem_of_find?_eq_some hfind
    have hkinds : ∀ s ∈ symbols, s.2 ≠ .identifier := by decide
    exact hkinds _ hmem
  · simp [bad]

theorem isIdentifier_of_word {c : Char} {rest : List Char} (hc : isAlpha c = true)
    (hk : (word (c :: rest)).kind = .identifier) :
    IsIdentifier (String.ofList (word (c :: rest)).value) := by
  have hnum : isAlphaNumeric c = true := by simp [isAlphaNumeric, hc]
  revert hk
  unfold word
  simp only
  split
  case h_5 =>
    intro hk
    refine ⟨⟨c, rest.takeWhile isAlphaNumeric, ?_, hc, ?_⟩, ?_⟩
    · simp [plain, hnum]
    · exact fun x hx => List.all_eq_true.mp List.all_takeWhile x hx
    · by_contra hne
      obtain ⟨k, hk'⟩ := Option.ne_none_iff_exists'.mp hne
      exact ofWord_ne_of_keyword hk' hk
  all_goals
    intro hk
    exact absurd hk (kind_string (by simp) _ _)

/-- What is read as an identifier is one. -/
theorem isIdentifier_of_scan {c : Char} {rest : List Char}
    (hk : (scan c rest).kind = .identifier) : IsIdentifier (String.ofList (scan c rest).value) := by
  revert hk
  unfold scan
  split
  · simp [comment]
  split
  · exact fun hk => absurd hk (kind_string (by simp) _ _)
  split
  · exact fun hk => absurd hk (kind_number _)
  split
  · next hc => exact isIdentifier_of_word hc
  split
  · split
    · exact fun hk => absurd hk (kind_decimal _)
    · simp [plain]
  · exact fun hk => absurd hk (kind_symbol _ _)

end Lexeme

namespace Lexer

/-- A lexer whose tokens are proper. -/
def Proper (l : Lexer) : Prop := ∀ t ∈ l.queue, t.Proper

theorem Proper.push {l : Lexer} (hl : l.Proper) {x : Lexeme}
    (hx : x.kind = .identifier → IsIdentifier (String.ofList x.value)) : (l.push x).Proper := by
  exact List.forall_mem_append.mpr ⟨hl, List.forall_mem_singleton.mpr hx⟩

theorem indentation_spec (l : Lexer) (blanks : List Char) (hidden : Bool) (cs : List Char) :
    (l.indentation blanks hidden cs).1.queue = l.queue ∧
      (l.indentation blanks hidden cs).2.kind = .indentation := by
  induction cs generalizing l blanks hidden with
  | nil => exact ⟨rfl, rfl⟩
  | cons c rest ih =>
    unfold indentation
    simp only
    split
    · exact ih _ _ _
    split
    · exact ih _ _ _
    split
    · exact ih _ _ _
    split
    · exact ih _ _ _
    split
    · exact ih _ _ _
    · exact ⟨rfl, rfl⟩

theorem Proper.scanFrom {l : Lexer} (hl : l.Proper) (cs : List Char) : (l.scanFrom cs).Proper := by
  have hbad (value taken rest : List Char) (fault : Message) :
      (Lexeme.bad value taken rest fault).kind = .identifier →
        IsIdentifier (String.ofList (Lexeme.bad value taken rest fault).value) := by
    simp [Lexeme.bad]
  fun_induction l.scanFrom cs with
  | case1 l =>
    intro t ht
    rcases List.mem_append.mp ht with ht | ht
    · exact hl t ht
    · obtain rfl := List.mem_singleton.mp ht
      simp [Token.Proper]
  | case2 l rest ih => exact ih hl
  | case3 l rest ih => exact ih hl
  | case4 l rest => exact hl.push (hbad _ _ _ _)
  | case5 l rest => exact hl.push (hbad _ _ _ _)
  | case6 l rest _ _ _ _ _ onward ih => exact ih hl
  | case7 l rest _ _ next token _ _ _ _ onward hind =>
    intro t ht
    have hspec := indentation_spec { onward with multiLine := false } [] false rest
    rw [hind] at hspec
    rcases List.mem_append.mp ht with ht | ht
    · exact hl t (hspec.1 ▸ ht)
    · rcases List.mem_cons.mp ht with rfl | ht
      · simp [Token.Proper]
      · obtain rfl := List.mem_singleton.mp ht
        exact fun hk => absurd (hspec.2.symm.trans hk) (by simp)
  | case8 l rest _ _ _ _ _ _ onward ih => exact ih hl
  | case9 l c rest _ _ _ _ onward hc hblank ih => exact ih hl
  | case10 l c rest => exact hl.push Lexeme.isIdentifier_of_scan

theorem Proper.scan {l : Lexer} (hl : l.Proper) : l.scan.Proper := by
  unfold Lexer.scan
  split
  · exact hl.scanFrom _
  · have hspec := indentation_spec { l with started := true } [] false l.rest
    rcases hind : indentation { l with started := true } [] false l.rest with ⟨next, token⟩
    rw [hind] at hspec
    have hnext : next.Proper := fun t ht => hl t (hspec.1 ▸ ht)
    simp only
    split
    · exact hnext.scanFrom _
    · exact List.forall_mem_append.mpr
        ⟨hnext, List.forall_mem_singleton.mpr (fun hk => absurd (hspec.2.symm.trans hk) (by simp))⟩

theorem proper_of_mem_drainWithin {n : Nat} {l : Lexer} (hl : l.Proper) {t : Token}
    (ht : t ∈ (drainWithin n l).1) : t.Proper := by
  induction n generalizing l with
  | zero => exact hl t ht
  | succ n ih =>
    unfold drainWithin at ht
    split at ht
    · exact hl t ht
    · rcases List.mem_append.mp ht with ht | ht
      · exact hl t ht
      · have hempty : Proper { l with queue := [] } := fun t ht => absurd ht List.not_mem_nil
        exact ih hempty.scan ht

end Lexer

/-- All tokens of a text are proper. -/
theorem proper_of_mem_tokenize {text : Text} {t : Token} (ht : t ∈ (tokenize text).1) :
    t.Proper := by
  have hstart : (Lexer.start text).Proper := fun _ h => absurd h List.not_mem_nil
  exact Lexer.proper_of_mem_drainWithin (n := (Lexer.start text).rest.length + 2) hstart ht

end Toolchain
