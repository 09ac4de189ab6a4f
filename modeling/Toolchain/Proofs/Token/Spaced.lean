import Mathlib.Data.List.Forall2
import Mathlib.Data.List.ReduceOption
import Toolchain.Proofs.Text.Utf8
import Toolchain.Proofs.Token.Calls
import Toolchain.Proofs.Token.Spelling

/-!
# Tokens with spaces between them

A word, a number or a symbol has a text of its own. When such texts are written one after the other
with a space between each two, the lexer reads each of them whole and goes on with the next one, so
that it finds the tokens that were written and nothing is wrong.

## Main definitions

* `TokenKind.isDelimiter`: brackets and punctuation
* `IsWritten`: a kind of token with a text that it may have

## Main results

* `positions_errors_tokenize`: what is wrong with a text are its invalid tokens
* `Lexer.cuts_spaced`: texts of tokens are cut at the spaces between them
* `IsWritten.writes`: every proper text is read as its token
* `tokenize_spaced`: **lexing undoes printing**
-/

namespace Toolchain

/-! ## What is wrong with a text -/

open Lexer in
/-- What is wrong with a text are its invalid tokens, one after the other. -/
theorem positions_errors_tokenize (t : Text) :
    (tokenize t).2.map LexError.pos = faults (tokenize t).1 := by
  obtain ⟨before, e, heq, he, -⟩ := endsOnce_tokenize t
  have hlast : (tokenize t).1.drop ((tokenize t).1.length - 1) = [e] := by
    rw [heq]
    simp
  obtain ⟨-, hserves⟩ := (serves_start t).all
  rw [hlast] at hserves
  obtain ⟨passed, hts, herrors⟩ := hserves.exists_passed
  obtain ⟨more, hmore⟩ := hserves.ahead.queue_prefix
  -- what has not been found yet is the end of the input at most
  have hquiet : faults more = [] := by
    have hmem : ∀ x ∈ more, x = e := by
      intro x hx
      exact List.mem_singleton.mp (hmore ▸ List.mem_append_right _ hx)
    rw [faults, List.map_eq_nil_iff, List.filter_eq_nil_iff]
    intro x hx
    rw [hmem x hx, he]
    exact of_decide_eq_false rfl
  calc (tokenize t).2.map LexError.pos = faults (passed ++ (start t).all.2.queue) := herrors
    _ = faults (passed ++ ((start t).all.2.queue ++ more)) := by
      rw [faults_append, faults_append, faults_append, hquiet, List.append_nil]
    _ = faults (tokenize t).1 := by rw [hmore, ← hts]

namespace Lexer

open Lexeme

/-! ## Texts with spaces between them -/

variable {stop stop' : Char → Bool} {c : Char} {cs : List Char} {f : Face}

/-- What is read as a token is a proper one. -/
theorem IsToken.kind_ne (h : IsToken stop c cs f) : f.1 ≠ .invalid := by
  have hform := form_scan c (cs ++ [])
  rw [h.scan_eq [] nofun] at hform
  exact beq_eq_false_iff_ne.mp hform.isSome_fault.symm

/-- A token that ends at a space is no comment. -/
theorem IsToken.ne_comment (h : IsToken stop c cs f) (hspace : stop ' ' = true) : c ≠ '#' := by
  rintro rfl
  have hscan := h.scan_eq [' '] (.cons hspace [])
  have hcomment : Lexeme.scan '#' (cs ++ [' ']) = comment ('#' :: (cs ++ [' '])) := rfl
  have hrest : ('#' :: (cs ++ [' '])).dropWhile (· != '\n') = [' '] :=
    congrArg Lexeme.rest (hcomment.symm.trans hscan)
  have hnot := List.head?_dropWhile_not (· != '\n') ('#' :: (cs ++ [' ']))
  rw [hrest] at hnot
  cases hnot

theorem Writes.mono (h : Writes stop' cs f) (hstop : ∀ c, stop c = true → stop' c = true) :
    Writes stop cs f := by
  obtain ⟨c, ds, rfl, htoken⟩ := h
  exact ⟨c, ds, rfl, htoken.visible, htoken.last,
    fun rest hrest => htoken.scan_eq rest (hrest.mono hstop)⟩

/-- A text that may stand in front of a space. -/
theorem Writes.spaced (h : Writes stop cs f) (hspace : stop ' ' = true) :
    Writes (· == ' ') cs f := by
  refine h.mono fun c hc => ?_
  rw [beq_iff_eq.mp hc]
  exact hspace

/-- A text of a token in front of a space or of the end of the text, also at the beginning of a
line. -/
theorem Writes.cuts (h : Writes (· == ' ') cs f) {depth : Nat} (front bare : Bool)
    {rest : List Char} {ps : List Piece} (hrest : Follows (· == ' ') rest)
    (hcuts : Cuts (depthAfter depth f.1) false false rest ps) :
    ∃ x : Lexeme, x.face = f ∧ Cuts depth front bare (cs ++ rest) (.token x :: ps) := by
  obtain ⟨c, ds, rfl, htoken⟩ := h
  obtain ⟨x, hface, -, hcuts'⟩ := htoken.cuts (fun _ => htoken.ne_comment rfl) hrest hcuts
  exact ⟨x, hface, hcuts'⟩

variable {texts : List (List Char)} {fs : List Face}

/-- **Texts of tokens are cut at the spaces between them**, whatever brackets the tokens open and
close, and there is no blank in front of the first one. -/
theorem cuts_spaced (h : List.Forall₂ (Writes (· == ' ')) texts fs) (depth : Nat)
    (front bare : Bool) :
    ∃ ps, Inline ps fs ∧ Cuts depth front bare ([' '].intercalate texts) ps ∧
      ∀ p, (margin [] p ps).value = "" := by
  induction h generalizing depth front bare with
  | nil => exact ⟨[], .nil, .nil _ _ _, fun _ => rfl⟩
  | @cons cs f texts fs hwrites htail ih =>
    -- behind the first text there is nothing, or a space and the other texts
    have hrest : ∃ rest ps, [' '].intercalate (cs :: texts) = cs ++ rest ∧
        Follows (· == ' ') rest ∧ Inline ps fs ∧
          Cuts (depthAfter depth f.1) false false rest ps := by
      cases htail with
      | nil => exact ⟨[], [], by simp, nofun, .nil, .nil _ _ _⟩
      | @cons ds g texts fs =>
        obtain ⟨ps, hinline, hcuts, -⟩ := ih (depthAfter depth f.1) false false
        refine ⟨' ' :: [' '].intercalate (ds :: texts), .blank ' ' :: ps, ?_, .cons rfl _,
          .blank ' ' hinline, .blank false rfl hcuts⟩
        rw [List.intercalate_cons_cons]
        simp
    obtain ⟨rest, ps, hjoin, hfollows, hinline, hcuts⟩ := hrest
    obtain ⟨x, hface, hcuts⟩ := hwrites.cuts front bare hfollows hcuts
    refine ⟨.token x :: ps, ?_, ?_, fun _ => rfl⟩
    · rw [← hface]
      exact .token x hinline
    · rw [hjoin]
      exact hcuts

theorem kind_ne_of_writes (h : List.Forall₂ (Writes (· == ' ')) texts fs) :
    ∀ f ∈ fs, f.1 ≠ .invalid := by
  induction h with
  | nil => exact List.forall_mem_nil _
  | cons hwrites _ ih =>
    obtain ⟨c, cs, -, htoken⟩ := hwrites
    exact List.forall_mem_cons.mpr ⟨htoken.kind_ne, ih⟩

/-- The tokens of texts with spaces between them, and nothing is wrong with them. -/
theorem tokenize_of_writes (h : List.Forall₂ (Writes (· == ' ')) texts fs) {t : Text}
    (ht : t.chars = [' '].intercalate texts) :
    (tokenize t).1.map Token.face = fs ++ [(.finish, "")] ∧ (tokenize t).2 = [] := by
  obtain ⟨ps, hinline, hcuts, hmargin⟩ := cuts_spaced h 0 true true
  rw [← ht] at hcuts
  have hfaces : (tokenize t).1.map Token.face = fs ++ [(.finish, "")] := by
    have hrender := hinline.render {} []
    rw [List.append_nil] at hrender
    rw [tokens_of_cuts hcuts, tokensOf, hmargin {}]
    exact hrender
  refine ⟨hfaces, ?_⟩
  have hproper : ∀ x ∈ (tokenize t).1, x.kind ≠ .invalid := by
    intro x hx
    have hmem : x.face ∈ fs ++ [(.finish, "")] := hfaces ▸ List.mem_map_of_mem hx
    rcases List.mem_append.mp hmem with hmem | hmem
    · exact kind_ne_of_writes h _ hmem
    · rw [show x.kind = .finish from congrArg Prod.fst (List.mem_singleton.mp hmem)]
      decide
  have hpositions : (tokenize t).2.map LexError.pos = [] := by
    rw [positions_errors_tokenize, faults, List.map_eq_nil_iff, List.filter_eq_nil_iff]
    intro x hx
    simpa using hproper x hx
  exact List.map_eq_nil_iff.mp hpositions

/-! ## Numbers -/

theorem isAlphaNumeric_of_isHexDigit {c : Char} (h : isHexDigit c = true) :
    isAlphaNumeric c = true := by
  have hcases : isDigit c = true ∨ ('a' ≤ c ∧ c ≤ 'f') ∨ ('A' ≤ c ∧ c ≤ 'F') := by
    simpa [isHexDigit, or_assoc] using h
  rcases hcases with hdigit | ⟨hlow, hhigh⟩ | ⟨hlow, hhigh⟩
  · simp [isAlphaNumeric, hdigit]
  · have hletter : c ≤ 'z' := Char.le_trans hhigh (by decide)
    simp [isAlphaNumeric, isAlpha, hlow, hletter]
  · have hletter : c ≤ 'Z' := Char.le_trans hhigh (by decide)
    simp [isAlphaNumeric, isAlpha, hlow, hletter]

/-- Hexadecimal digits behind their mark are a number. -/
theorem isToken_hexNumber {mark : Char} (hmark : mark = 'x' ∨ mark = 'X') {digits : List Char}
    (hne : digits ≠ []) (hdigits : ∀ x ∈ digits, isHexDigit x = true) :
    IsToken afterLiteral '0' (mark :: digits)
      (.integer, String.ofList ('0' :: mark :: digits)) := by
  have hnewline : ∀ x ∈ '0' :: mark :: digits, (x != '\n') = true := by
    refine List.forall_mem_cons.mpr ⟨by decide, List.forall_mem_cons.mpr ⟨?_, ?_⟩⟩
    · rcases hmark with rfl | rfl <;> decide
    · intro x hx
      rw [bne_iff_ne]
      rintro rfl
      exact absurd (hdigits _ hx) (by decide)
  refine ⟨by decide, getLast?_ne_of_all (p := (· != '\n')) (by decide) hnewline, ?_⟩
  intro rest hrest
  have hscan : Lexeme.scan '0' (mark :: digits ++ rest) =
      hexNumber ['0', mark] (digits ++ rest) := by
    rcases hmark with rfl | rfl <;> rfl
  have hends : Follows (fun x => !isHexDigit x) rest := hrest.mono fun x hx => by
    have hword : isAlphaNumeric x = false := by simp [afterLiteral, afterWord] at hx; simp [hx]
    rw [Bool.not_eq_true', Bool.eq_false_iff]
    exact fun hhex => Bool.eq_false_iff.mp hword (isAlphaNumeric_of_isHexDigit hhex)
  have hjunk : Follows (fun x => !isJunk x) rest := hrest.mono fun x hx => by
    simp [afterLiteral, afterWord] at hx
    simp [isJunk, hx]
  obtain ⟨htake, hdrop⟩ := takeWhile_of_follows hdigits hends
  have hsome : digits.isEmpty = false := by simpa using hne
  rw [hscan]
  unfold hexNumber
  simp only [htake, hdrop, hsome, headIs_of_follows hjunk]
  simp [plain]

/-- Digits behind a point are a number. -/
theorem isToken_fraction {digits : List Char} (hne : digits ≠ [])
    (hdigits : ∀ x ∈ digits, isDigit x = true) :
    IsToken afterLiteral '.' digits (.float, String.ofList ('.' :: digits)) := by
  have hall : ∀ x ∈ '.' :: digits, isNumeral x = true :=
    List.forall_mem_cons.mpr ⟨rfl, fun x hx => isNumeral_of_isDigit (hdigits x hx)⟩
  have hcount : ('.' :: digits).count '.' = 1 := by
    rw [List.count_cons_self, count_of_digits hdigits]
  refine ⟨by decide, getLast?_ne_of_all (p := isNumeral) (by decide) hall, ?_⟩
  intro rest hrest
  have hscan : Lexeme.scan '.' (digits ++ rest) = decimal ('.' :: digits ++ rest) := by
    obtain ⟨d, digits, rfl⟩ := List.exists_cons_of_ne_nil hne
    exact if_pos (hdigits d List.mem_cons_self)
  rw [hscan, decimal_eq hall (.inr ⟨hcount, rfl⟩) hrest]
  simp [plain]

end Lexer

/-! ## Proper texts -/

namespace TokenKind

/-- Whether the kind is a bracket or punctuation. -/
def isDelimiter : TokenKind → Bool
  | opening _ | closing _ | comma | colon | dot | semicolon => true
  | _ => false

/-- The kinds of operators and delimiters are those in the table of symbols, and the point. -/
theorem mem_symbols_of_numbered : ∀ k ∈ numbered.reduceOption,
    k.isOperator = true ∨ k.isDelimiter = true →
      k = .dot ∨ (k.spelling.toList, k) ∈ Lexeme.symbols := by
  decide

end TokenKind

open Lexer

/-- A kind of token with a text that it may have. -/
inductive IsWritten : Face → Prop where
  | identifier {id : String} (h : IsIdentifier id) : IsWritten (.identifier, id)
  | keyword (k : Keyword) : IsWritten (.keyword k, k.spelling)
  | integer {digits : List Char} (hne : digits ≠ []) (hdigits : ∀ c ∈ digits, isDigit c = true) :
      IsWritten (.integer, String.ofList digits)
  | hexInteger {mark : Char} (hmark : mark = 'x' ∨ mark = 'X') {digits : List Char}
      (hne : digits ≠ []) (hdigits : ∀ c ∈ digits, isHexDigit c = true) :
      IsWritten (.integer, String.ofList ('0' :: mark :: digits))
  /-- Digits around a point, on one side of it at least. -/
  | float {whole fraction : List Char} (hne : whole ≠ [] ∨ fraction ≠ [])
      (hwhole : ∀ c ∈ whole, isDigit c = true) (hfraction : ∀ c ∈ fraction, isDigit c = true) :
      IsWritten (.float, String.ofList (whole ++ '.' :: fraction))
  /-- An operator or a delimiter. -/
  | symbol {k : TokenKind} (hkind : some k ∈ TokenKind.numbered)
      (h : k.isOperator = true ∨ k.isDelimiter = true) : IsWritten (k, k.spelling)

theorem writes_symbol {k : TokenKind} (hkind : some k ∈ TokenKind.numbered)
    (h : k.isOperator = true ∨ k.isDelimiter = true) :
    Writes (· == ' ') k.spelling.toList k.face := by
  have hmem : k ∈ TokenKind.numbered.reduceOption := List.reduceOption_mem_iff.mpr hkind
  rcases TokenKind.mem_symbols_of_numbered k hmem h with rfl | hmem
  · exact Writes.spaced ⟨'.', [], rfl, isToken_dot⟩ rfl
  · exact (writes_face hmem (isFound_of_mem _ hmem)).spaced rfl

/-- **Every proper text is read as its token.** -/
theorem IsWritten.writes {f : Face} (h : IsWritten f) : Writes (· == ' ') f.2.toList f := by
  cases h with
  | identifier h => exact (writes_identifier h).spaced rfl
  | keyword k => exact (writes_keyword k).spaced rfl
  | integer hne hdigits =>
    rw [String.toList_ofList]
    exact (writes_integer hne hdigits).spaced rfl
  | hexInteger hmark hne hdigits =>
    rw [String.toList_ofList]
    exact Writes.spaced ⟨_, _, rfl, isToken_hexNumber hmark hne hdigits⟩ rfl
  | @float whole fraction hne hwhole hfraction =>
    rw [String.toList_ofList]
    by_cases hempty : whole = []
    · subst hempty
      have hsome : fraction ≠ [] := hne.resolve_left fun h => h rfl
      exact Writes.spaced ⟨_, _, rfl, isToken_fraction hsome hfraction⟩ rfl
    · exact (writes_float hempty hwhole hfraction).spaced rfl
  | symbol hkind h => exact writes_symbol hkind h

/-- **Lexing undoes printing.** Names, reserved words, numbers, operators and delimiters that are
written one after the other with a space between each two are found again, in their order and with
their texts, behind them comes the end of the input, and nothing is wrong. -/
theorem tokenize_spaced {fs : List Face} (h : ∀ f ∈ fs, IsWritten f) :
    ∃ tokens, tokenize (Text.ofString (" ".intercalate (fs.map Prod.snd))) = (tokens, []) ∧
      tokens.map Token.face = fs ++ [(.finish, "")] := by
  have hwrites : List.Forall₂ (Writes (· == ' ')) (fs.map fun f => f.2.toList) fs := by
    rw [List.forall₂_map_left_iff, List.forall₂_same]
    exact fun f hf => (h f hf).writes
  have hchars : (Text.ofString (" ".intercalate (fs.map Prod.snd))).chars =
      [' '].intercalate (fs.map fun f => f.2.toList) := by
    rw [Text.chars_ofString, String.toList_intercalate, List.map_map]
    rfl
  obtain ⟨hfaces, herrors⟩ := tokenize_of_writes hwrites hchars
  exact ⟨_, Prod.ext rfl herrors, hfaces⟩

/-- A name, operators of one, two and three characters, brackets, a reserved word, and numbers that
begin with their mark, end with a point and begin with a point. -/
def mixedTokens : List Face :=
  [(.identifier, "f"), (.augmented .pow, "**="), (.integer, "0x1F"), (.compare .ltE, "<="),
    (.opening .paren, "("), (.float, "1."), (.dot, "."), (.float, ".5"), (.keyword .not, "not")]

theorem tokenize_spaced_mixed :
    ∃ tokens, tokenize (Text.ofString "f **= 0x1F <= ( 1. . .5 not") = (tokens, []) ∧
      tokens.map Token.face = mixedTokens ++ [(.finish, "")] := by
  have hname : IsWritten (.identifier, "f") :=
    .identifier ⟨⟨'f', [], rfl, by decide, List.forall_mem_nil _⟩, by decide⟩
  have hpow : IsWritten (.augmented .pow, "**=") := .symbol (by decide) (by decide)
  have hmark : IsWritten (.integer, "0x1F") :=
    .hexInteger (.inl rfl) (List.cons_ne_nil '1' ['F'])
      (List.forall_mem_cons.mpr ⟨rfl, List.forall_mem_singleton.mpr rfl⟩)
  have hleast : IsWritten (.compare .ltE, "<=") := .symbol (by decide) (by decide)
  have hparen : IsWritten (.opening .paren, "(") := .symbol (by decide) (by decide)
  have hbehind : IsWritten (.float, "1.") :=
    .float (.inl (List.cons_ne_nil '1' [])) (List.forall_mem_singleton.mpr rfl)
      (List.forall_mem_nil _)
  have hdot : IsWritten (.dot, ".") := .symbol (by decide) (by decide)
  have hfront : IsWritten (.float, ".5") :=
    .float (.inr (List.cons_ne_nil '5' [])) (List.forall_mem_nil _)
      (List.forall_mem_singleton.mpr rfl)
  have hall : ∀ f ∈ mixedTokens, IsWritten f := by
    simp only [mixedTokens, List.forall_mem_cons]
    exact ⟨hname, hpow, hmark, hleast, hparen, hbehind, hdot, hfront, .keyword .not,
      List.forall_mem_nil _⟩
  have htext : " ".intercalate (mixedTokens.map Prod.snd) = "f **= 0x1F <= ( 1. . .5 not" := by
    decide
  obtain ⟨tokens, htokens, hfaces⟩ := tokenize_spaced hall
  rw [htext] at htokens
  exact ⟨tokens, htokens, hfaces⟩

end Toolchain
