import Toolchain.Format.Expression
import Toolchain.Parser.Expression
import Toolchain.Proofs.Decimal.Shortest
import Toolchain.Proofs.Text.Utf8
import Toolchain.Proofs.Token.Spaced

/-!
# Literals are read back

A constant is written as the one token that has its value. A string is written between quotes, over
several lines between three quotes, or as an f-string. The first and the last have other escapes
than the second one, but in each of them every character is written in such a way that the lexer
reads it as itself, whatever stands beside it. Inside an f-string a brace is written twice, and the
parser takes two of them for one.

## Main definitions

* `Format.literalFace`: the token of a constant
* `ReadsAlone`: a text that is one token

## Main results

* `Format.spells_literal`: a constant is written as its token tells
* `Format.integer?_integer`: an integer is read back from its digits
* `Lexer.Writes.readsAlone`: a text that is read as one token in front of a space is one token alone
* `Format.parts_fstringText`: a text with doubled braces is split into its characters
* `strings_read_back`: **strings are read back**
-/

namespace Toolchain

namespace Lexeme

open Lexer

variable {quote c : Char} {triple : Bool}

/-- A character that stands for itself inside a string. -/
theorem inside_plain (hslash : c ≠ '\\') (hnewline : c ≠ '\n') (hquote : c ≠ quote)
    (rest : List Char) :
    inside quote triple (c :: rest) = (inside quote triple rest).prepend [c] [c] := by
  rw [inside_cons hslash hnewline, if_neg hquote]

theorem inside_quote (hslash : quote ≠ '\\') (hnewline : quote ≠ '\n') (rest : List Char) :
    inside quote false (quote :: rest) = ⟨[], [quote], rest, .closed⟩ := by
  rw [inside_cons hslash hnewline, if_pos rfl]
  rfl

theorem inside_quotes (hslash : quote ≠ '\\') (hnewline : quote ≠ '\n') (rest : List Char) :
    inside quote true (quote :: quote :: quote :: rest) =
      ⟨[], [quote, quote, quote], rest, .closed⟩ := by
  rw [inside_cons hslash hnewline, if_pos rfl]
  simp [twoMore]

theorem inside_newline (rest : List Char) :
    inside quote true ('\n' :: rest) = (inside quote true rest).prepend ['\n'] ['\n'] := by
  rfl

/-- A quote. -/
abbrev IsQuote (c : Char) : Prop := c = '\'' ∨ c = '"'

theorem IsQuote.ne (h : IsQuote quote) : quote ≠ '\\' ∧ quote ≠ '\n' := by
  rcases h with rfl | rfl <;> decide

end Lexeme

namespace Format

open Lexeme Lexer

variable {quote : Char}

/-- How a character is written in a string that is read back. -/
theorem inside_escapeChar (hquote : IsQuote quote) (c : Char) (rest : List Char) :
    inside quote false (escapeChar quote c ++ rest) =
      (inside quote false rest).prepend [c] (escapeChar quote c) := by
  unfold escapeChar
  split
  · exact inside_escaped (by decide) rest
  · exact inside_escaped (by decide) rest
  · exact inside_escaped (by decide) rest
  · exact inside_escaped (by decide) rest
  · exact inside_escaped (by decide) rest
  · next hslash hnewline _ _ _ =>
    split
    · next hc =>
      subst hc
      rcases hquote with rfl | rfl
      · exact inside_escaped (by decide) rest
      · exact inside_escaped (by decide) rest
    · next hc => exact inside_plain hslash hnewline hc rest

/-- The content of a string is read back up to the quote that ends it. -/
theorem inside_escape (hquote : IsQuote quote) (cs rest : List Char) :
    inside quote false (escape quote cs ++ quote :: rest) =
      ⟨cs, escape quote cs ++ [quote], rest, .closed⟩ := by
  induction cs with
  | nil => exact inside_quote hquote.ne.1 hquote.ne.2 rest
  | cons c cs ih =>
    rw [escape, List.flatMap_cons, List.append_assoc, inside_escapeChar hquote, ← escape, ih]
    simp [Inside.prepend]

/-- How a character is written in a string over several lines that is read back. -/
theorem inside_docstringChar (c : Char) (rest : List Char) :
    inside '"' true (docstringChar c ++ rest) =
      (inside '"' true rest).prepend [c] (docstringChar c) := by
  unfold docstringChar
  split
  · exact inside_escaped (by decide) rest
  · exact inside_escaped (by decide) rest
  · exact inside_escaped (by decide) rest
  · exact inside_escaped (by decide) rest
  · next hslash hquote _ _ =>
    by_cases hnewline : c = '\n'
    · subst hnewline
      exact inside_newline rest
    · exact inside_plain hslash hnewline hquote rest

theorem inside_docstring (cs rest : List Char) :
    inside '"' true (cs.flatMap docstringChar ++ '"' :: '"' :: '"' :: rest) =
      ⟨cs, cs.flatMap docstringChar ++ ['"', '"', '"'], rest, .closed⟩ := by
  induction cs with
  | nil => exact inside_quotes (by decide) (by decide) rest
  | cons c cs ih =>
    rw [List.flatMap_cons, List.append_assoc, inside_docstringChar, ih]
    simp [Inside.prepend]

theorem headIs_escape (cs rest : List Char) (hcs : cs ≠ []) (hquote : IsQuote quote) :
    headIs (· == quote) (escape quote cs ++ rest) = false := by
  obtain ⟨c, cs, rfl⟩ := List.exists_cons_of_ne_nil hcs
  rw [escape, List.flatMap_cons, List.append_assoc]
  unfold escapeChar
  have hslash := hquote.ne.1
  split
  case h_6 =>
    split
    · simpa [headIs] using Ne.symm hslash
    · next hc => simpa [headIs] using hc
  all_goals simpa [headIs] using Ne.symm hslash

/-- A string between quotes is read as its content. -/
theorem string_escape (kind : TokenKind) (hquote : IsQuote quote) (cs : List Char)
    {rest : List Char}
    (hrest : Follows afterWord rest) :
    string kind quote (escape quote cs ++ quote :: rest) =
      ⟨kind, cs, quote :: (escape quote cs ++ [quote]), rest, none⟩ := by
  unfold string
  cases cs with
  | nil =>
    have hnext : headIs (· == quote) rest = false := by
      refine headIs_of_follows (hrest.mono fun c hc => ?_)
      rcases hquote with rfl | rfl
      · simp [afterWord] at hc
        simp [hc]
      · simp [afterWord] at hc
        simp [hc]
    show (if headIs (· == quote) (quote :: rest) then
      if headIs (· == quote) rest then _ else (⟨kind, [], [quote, quote], rest, none⟩ : Lexeme)
      else _) = _
    rw [if_pos (by simp [headIs]), hnext]
    rfl
  | cons c cs =>
    rw [headIs_escape _ _ (List.cons_ne_nil c cs) hquote, inside_escape hquote]
    rfl

theorem string_docstring (cs rest : List Char) :
    string .string '"' ('"' :: '"' :: (cs.flatMap docstringChar ++ '"' :: '"' :: '"' :: rest)) =
      ⟨.string, cs, docstring cs, rest, none⟩ := by
  unfold string
  simp only [headIs, List.drop_succ_cons, List.drop_zero, beq_self_eq_true, if_true,
    inside_docstring]
  simp [ofInside, docstring]

theorem isToken_string (hquote : IsQuote quote) (s : String) :
    IsToken afterWord quote (escape quote s.toList ++ [quote]) (.string, s) := by
  refine ⟨?_, ?_, ?_⟩
  · rcases hquote with rfl | rfl <;> decide
  · rw [← List.cons_append, List.getLast?_concat]
    rintro ⟨⟩
    exact hquote.ne.2 rfl
  · intro rest hrest
    have hcomment : quote ≠ '#' := by rcases hquote with rfl | rfl <;> decide
    unfold Lexeme.scan
    rw [if_neg hcomment, if_pos hquote, List.append_assoc, List.singleton_append,
      string_escape _ hquote _ hrest]

theorem spells_string (s : String) : Spells afterWord (literal (.str s)) [(.string, s)] :=
  (isToken_string (.inl rfl) s).spells fun _ => rfl

/-- A string over several lines. -/
theorem isToken_docstring (s : String) :
    IsToken (fun _ => true) '"'
      ('"' :: '"' :: (s.toList.flatMap docstringChar ++ ['"', '"', '"'])) (.string, s) := by
  refine ⟨by decide, ?_, ?_⟩
  · rw [← List.cons_append, ← List.cons_append, ← List.cons_append, List.getLast?_append]
    nofun
  · intro rest _
    have hscan := string_docstring s.toList rest
    unfold Lexeme.scan
    rw [if_neg (by decide), if_pos (.inr rfl), List.cons_append, List.cons_append,
      List.append_assoc]
    exact hscan

theorem spells_docstring (s : String) :
    Spells (fun _ => true) (docstring s.toList) [(.string, s)] := by
  have hspells := (isToken_docstring s).spells fun _ => rfl
  rwa [← List.cons_append, ← List.cons_append, ← List.cons_append] at hspells

/-- An f-string is one token, whatever its content. -/
theorem isToken_fstring (content : List Char) :
    IsToken afterWord 'f' ('"' :: (escape '"' content ++ ['"']))
      (.fstring, String.ofList content) := by
  refine ⟨by decide, ?_, ?_⟩
  · rw [← List.cons_append, ← List.cons_append, List.getLast?_concat]
    decide
  · intro rest hrest
    have hstring := string_escape .fstring (.inr rfl) content hrest
    unfold Lexeme.scan
    rw [if_neg (by decide), if_neg (by decide), if_neg (by decide), if_pos (by decide),
      List.cons_append, List.append_assoc, List.singleton_append]
    have htake (cs : List Char) : ('f' :: '"' :: cs).takeWhile isAlphaNumeric = ['f'] := by
      rw [List.takeWhile_cons_of_pos (by decide), List.takeWhile_cons_of_neg (by decide)]
    have hdrop (cs : List Char) : ('f' :: '"' :: cs).dropWhile isAlphaNumeric = '"' :: cs := by
      rw [List.dropWhile_cons_of_pos (by decide), List.dropWhile_cons_of_neg (by decide)]
    unfold word
    simp only [htake, hdrop, hstring]
    simp [after]

theorem spells_fstring (content : List Char) :
    Spells afterWord (fstring content) [(.fstring, String.ofList content)] :=
  (isToken_fstring content).spells fun _ => rfl

/-! ## Literals -/

/-- The face of the token that a literal is written with. -/
def literalFace : Literal → Face
  | .none => TokenKind.face (.keyword .none)
  | .bool true => TokenKind.face (.keyword .true)
  | .bool false => TokenKind.face (.keyword .false)
  | .int n => (.integer, String.ofList (integer n.toInt))
  | .float x => (.float, String.ofList (float x))
  | .str s => (.string, s)

theorem isDigit_eq (c : Char) : Lexer.isDigit c = c.isDigit := by
  simp [Lexer.isDigit, Char.isDigit, Char.le_def]

theorem spells_literal {v : Literal} (h : v.WellFormed) :
    Spells afterLiteral (literal v) [literalFace v] := by
  have hword : ∀ c, afterLiteral c = true → afterWord c = true := by
    intro c hc
    exact (Bool.and_eq_true_iff.mp hc).1
  cases v with
  | none => exact (spells_keyword .none).mono hword
  | bool b => cases b with
    | true => exact (spells_keyword .true).mono hword
    | false => exact (spells_keyword .false).mono hword
  | int n =>
    have hn : ¬n.toInt < 0 := Int.not_lt.mpr h
    rw [literal, literalFace, integer, if_neg hn]
    refine spells_integer Nat.toDigits_ne_nil fun c hc => ?_
    rw [isDigit_eq]
    exact Nat.isDigit_of_mem_toDigits (by decide) (by decide) hc
  | float x =>
    obtain ⟨whole, fraction, hfloat, hwhole, -, hdigits, -⟩ := float_spec h
    rw [literal, literalFace, hfloat]
    refine spells_float hwhole (fun c hc => ?_) fun c hc => ?_
    · rw [isDigit_eq]
      exact hdigits c (List.mem_append_left _ hc)
    · rw [isDigit_eq]
      exact hdigits c (List.mem_append_right _ hc)
  | str s => exact (spells_string s).mono hword

theorem digitsIn_of_isDigit {cs : List Char} (h : ∀ c ∈ cs, c.isDigit = true) :
    Parse.digitsIn 10 cs = Binary64.digitsValue cs := by
  apply List.foldl_ext
  intro n c hc
  have hdigit := h c hc
  have hbounds : '0' ≤ c ∧ c ≤ '9' := by simpa [Char.isDigit, Char.le_def] using hdigit
  rw [Text.hexDigit?, if_pos hbounds, Option.getD_some]

/-- An integer that is not negative is read back from its digits. -/
theorem integer?_integer {n : Int64} (h : 0 ≤ n.toInt) :
    Parse.integer? (String.ofList (integer n.toInt)) = some n := by
  have hdigits : ∀ c ∈ Nat.toDigits 10 n.toInt.natAbs, c.isDigit = true := fun c hc =>
    Nat.isDigit_of_mem_toDigits (by decide) (by decide) hc
  rw [integer, if_neg (Int.not_lt.mpr h)]
  unfold Parse.integer?
  simp only [String.toList_ofList]
  have hvalue : Parse.digitsIn 10 (Nat.toDigits 10 n.toInt.natAbs) = n.toInt.natAbs := by
    rw [digitsIn_of_isDigit hdigits, Binary64.digitsValue_toDigits]
  split
  · next heq =>
    rw [heq] at hdigits
    exact absurd (hdigits 'x' (by simp)) (by decide)
  · next heq =>
    rw [heq] at hdigits
    exact absurd (hdigits 'X' (by simp)) (by decide)
  · rw [hvalue]
    have hbound : n.toInt < 2 ^ 63 := n.toInt_lt
    have hlt : n.toInt.natAbs < twoPow 63 := by
      rw [show twoPow 63 = 2 ^ 63 from rfl]
      omega
    rw [if_pos hlt]
    congr 1
    rw [← Int64.ofInt_eq_ofNat, Int.natAbs_of_nonneg h, Int64.ofInt_toInt]

end Format

/-! ## Strings -/

/-- A text in which one token stands and nothing is wrong. -/
def ReadsAlone (cs : List Char) (f : Face) : Prop :=
  ∃ tokens, tokenize (Text.ofChars cs) = (tokens, []) ∧
    tokens.map Token.face = [f, (.finish, "")]

namespace Lexer

variable {stop : Char → Bool} {cs : List Char} {f : Face}

theorem Writes.readsAlone (h : Writes stop cs f) (hspace : stop ' ' = true) : ReadsAlone cs f := by
  have hchars : (Text.ofChars cs).chars = [' '].intercalate [cs] := by
    rw [Text.chars_ofChars, List.intercalate_singleton]
  obtain ⟨hfaces, herrors⟩ := tokenize_of_writes (.cons (h.spaced hspace) .nil) hchars
  exact ⟨_, Prod.ext rfl herrors, hfaces⟩

end Lexer

namespace Format

open Lexer

theorem readsAlone_string {α : Type} (spaced : Bool) (place : Place) (m : α) (s : String) :
    ReadsAlone (expr spaced place (.constant m (.str s))) (.string, s) := by
  have hexpr : expr spaced place (.constant m (.str s)) = literal (.str s) := rfl
  rw [hexpr]
  exact Writes.readsAlone ⟨_, _, rfl, isToken_string (.inl rfl) s⟩ (by decide)

theorem readsAlone_docstring (s : String) : ReadsAlone (docstring s.toList) (.string, s) := by
  have hwrites : Writes (fun _ => true) (docstring s.toList) (.string, s) :=
    ⟨_, _, by simp [docstring], isToken_docstring s⟩
  exact hwrites.readsAlone rfl

theorem readsAlone_fstring (s : String) : ReadsAlone (fstring s.toList) (.fstring, s) := by
  have htoken := isToken_fstring s.toList
  rw [String.ofList_toList] at htoken
  exact Writes.readsAlone ⟨_, _, rfl, htoken⟩ (by decide)

/-! ## Doubled braces -/

/-- A character in front of others is read as itself: a brace is written twice, and two of them are
one. -/
theorem next?_fstringText (c : Char) (cs : List Char) :
    FString.next? (fstringText (c :: cs)) = some (.literal c (fstringText cs)) := by
  rw [fstringText, List.flatMap_cons]
  by_cases hopen : c = '\x7b'
  · subst hopen
    rfl
  by_cases hclose : c = '\x7d'
  · subst hclose
    rfl
  rw [if_neg (not_or.mpr ⟨hopen, hclose⟩), List.singleton_append]
  unfold FString.next?
  split <;> simp_all [fstringText]

open Parse in
/-- A text with doubled braces has no fields, so that all its characters go to one literal part. -/
theorem parts_fstringText (expr : Parse MarkedExpr) (token : Token) {n : Nat} {cs : List Char}
    (hn : cs.length ≤ n) (literal : List Char) :
    parts expr token n literal (fstringText cs) = literalPart token (cs.reverse ++ literal) := by
  induction n generalizing cs literal with
  | zero =>
    obtain rfl := List.length_eq_zero_iff.mp (Nat.le_zero.mp hn)
    rfl
  | succ n ih =>
    cases cs with
    | nil => rfl
    | cons c cs =>
      rw [parts, next?_fstringText]
      simp only
      rw [ih (Nat.le_of_succ_le_succ hn)]
      simp

theorem length_le_fstringText (cs : List Char) : cs.length ≤ (fstringText cs).length := by
  induction cs with
  | nil => exact Nat.le_refl 0
  | cons c cs ih =>
    rw [fstringText, List.flatMap_cons, List.length_append, List.length_cons, ← fstringText]
    split
    · simp only [List.length_cons, List.length_nil]
      omega
    · simp only [List.length_cons, List.length_nil]
      omega

open Parse in
/-- A literal part is one constant, unless it is empty. -/
theorem literalPart_reverse (token : Token) (s : String) :
    literalPart token s.toList.reverse =
      if s = "" then return []
      else do return [.constant (← register .constant token.pos) (.str s)] := by
  unfold literalPart
  by_cases hs : s = ""
  · have hempty : s.toList.reverse.isEmpty = true := by simp [hs]
    rw [if_pos hs, if_pos hempty]
  · have hsome : ¬s.toList.reverse.isEmpty = true := by simpa using hs
    rw [if_neg hs, if_neg hsome, List.reverse_reverse, String.ofList_toList]

open Parse in
/-- The content of an f-string that is written for a text is split into the text alone. -/
theorem parts_content {α : Type} (spaced sum : Bool) (m : α) (s : String)
    (expr : Parse MarkedExpr) (token : Token) :
    parts expr token ((content spaced sum (.constant m (.str s))).length + 1) []
        (content spaced sum (.constant m (.str s))) =
      if s = "" then return []
      else do return [.constant (← register .constant token.pos) (.str s)] := by
  have hcontent : content spaced sum (.constant m (.str s)) = fstringText s.toList := by
    simp [content]
  have hn := Nat.le_succ_of_le (length_le_fstringText s.toList)
  rw [hcontent, parts_fstringText expr token hn, List.append_nil]
  exact literalPart_reverse token s

end Format

open Format Parse

/-- **Strings are read back.** Written as a constant, wherever that stands, or over several lines, a
string is the only token, with the string as its value; and so it is written as an f-string, if it
is taken for its content. The content that is written for a text in an f-string is split into one
constant, which is the text, unless that is empty. -/
theorem strings_read_back (s : String) :
    (∀ (α : Type) (spaced : Bool) (place : Place) (m : α),
      ReadsAlone (expr spaced place (.constant m (.str s))) (.string, s)) ∧
    ReadsAlone (docstring s.toList) (.string, s) ∧
    ReadsAlone (fstring s.toList) (.fstring, s) ∧
    ∀ (α : Type) (spaced sum : Bool) (m : α) (parser : Parse MarkedExpr) (token : Token),
      parts parser token ((content spaced sum (.constant m (.str s))).length + 1) []
          (content spaced sum (.constant m (.str s))) =
        if s = "" then return []
        else do return [.constant (← register .constant token.pos) (.str s)] := by
  exact ⟨fun _ spaced place m => readsAlone_string spaced place m s, readsAlone_docstring s,
    readsAlone_fstring s,
      fun _ spaced sum m parser token => parts_content spaced sum m s parser token⟩

end Toolchain
