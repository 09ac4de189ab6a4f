import Mathlib.Tactic.Common
import Toolchain.Token.Lexer

/-!
# The pieces of a source text

The lexer looks at positions to decide where a line of the program ends. A source text can be cut
into tokens, blanks, comments and the newlines between them without positions: all there is to know
is how many brackets are open, whether the line of the program has begun, and whether anything
stands on the line of the text so far. The tokens of the text are the pieces with their positions.

## Main definitions

* `Piece`, `Lexer.cut`: the pieces of a text
* `Lexer.render`: the tokens of pieces

## Main results

* `Lexeme.taken_scan`: a token is taken from the head of what is left
* `Lexer.text_cuts`: the pieces are the text
* `Lexer.tokenize_eq_tokensOf`: **the tokens of a text are those of its pieces**
-/

namespace Toolchain

/-! ## A token and what is left -/

/-- Whether a kind is not of a token but of the places between lines, and of the end. -/
def TokenKind.isLayout : TokenKind → Bool
  | .finish | .newLine | .indentation => true
  | _ => false

namespace Lexeme

open Lexer

/-- A token is taken from the head of some characters, of which it takes at least one. -/
structure TakenFrom (x : Lexeme) (cs : List Char) : Prop where
  parts : x.taken ++ x.rest = cs
  some : x.taken ≠ []
  kind : x.kind.isLayout = false

theorem TakenFrom.after {x : Lexeme} {cs : List Char} (h : TakenFrom x cs) (c : Char) :
    TakenFrom (x.after c) (c :: cs) where
  parts := by
    show c :: x.taken ++ x.rest = c :: cs
    rw [List.cons_append, h.parts]
  some := List.cons_ne_nil _ _
  kind := h.kind

/-- A backslash and a character inside a string. -/
theorem inside_escaped {quote c : Char} {triple : Bool} (hc : c ≠ '\n') (rest : List Char) :
    inside quote triple ('\\' :: c :: rest) =
      (inside quote triple rest).prepend (unescape c) ['\\', c] := by
  rw [inside]
  exact fun h => hc h

/-- A character inside a string that is neither a backslash nor a newline. -/
theorem inside_cons {quote c : Char} {triple : Bool} (hslash : c ≠ '\\') (hnewline : c ≠ '\n')
    (rest : List Char) :
    inside quote triple (c :: rest) =
      if c = quote then
        if triple then
          if twoMore quote rest then ⟨[], [c, c, c], rest.drop 2, .closed⟩
          else (inside quote triple rest).prepend [c] [c]
        else ⟨[], [c], rest, .closed⟩
      else (inside quote triple rest).prepend [c] [c] := by
  rw [inside]
  · exact fun h _ => hslash h
  · exact fun _ h _ => hslash h
  · exact fun _ _ h _ => hslash h
  · exact hnewline

/-- The inside of a string and what is left make up the characters after its quotes. -/
theorem parts_inside (quote : Char) (triple : Bool) (cs : List Char) :
    (inside quote triple cs).taken ++ (inside quote triple cs).rest = cs := by
  fun_induction inside quote triple cs with
  | case1 | case2 | case6 | case9 => rfl
  | case3 rest ih => simpa [Inside.prepend] using ih
  | case4 c rest _ ih => simpa [Inside.prepend] using ih
  | case5 rest _ ih => simpa [Inside.prepend] using ih
  | case7 rest _ htwo =>
    rcases rest with _ | ⟨a, _ | ⟨b, rest⟩⟩
    · cases htwo
    · cases htwo
    · obtain ⟨rfl, rfl⟩ : a = quote ∧ b = quote := by simpa [twoMore] using htwo
      rfl
  | case8 rest _ _ _ _ _ _ ih => simpa [Inside.prepend] using ih
  | case10 c rest _ _ _ _ _ ih => simpa [Inside.prepend] using ih

theorem taken_ofInside {kind : TokenKind} (hkind : kind.isLayout = false) {quotes cs : List Char}
    (hquotes : quotes ≠ []) {i : Inside} (hparts : i.taken ++ i.rest = cs) :
    TakenFrom (ofInside kind quotes i) (quotes ++ cs) := by
  have htaken : quotes ++ i.taken ≠ [] := by simp [hquotes]
  have happend : (quotes ++ i.taken) ++ i.rest = quotes ++ cs := by rw [List.append_assoc, hparts]
  unfold ofInside
  cases i.ending
  · exact ⟨happend, htaken, hkind⟩
  · exact ⟨happend, htaken, rfl⟩
  · exact ⟨happend, htaken, rfl⟩

theorem exists_of_headIs {quote : Char} {cs : List Char} (h : headIs (· == quote) cs = true) :
    ∃ rest, cs = quote :: rest := by
  cases cs with
  | nil => cases h
  | cons c rest =>
    obtain rfl : c = quote := by simpa [headIs] using h
    exact ⟨rest, rfl⟩

theorem taken_string {kind : TokenKind} (hkind : kind.isLayout = false) (quote : Char)
    (rest : List Char) : TakenFrom (string kind quote rest) (quote :: rest) := by
  unfold string
  split
  · next h =>
    obtain ⟨rest, rfl⟩ := exists_of_headIs h
    split
    · next h =>
      obtain ⟨rest, rfl⟩ : ∃ rest', rest = quote :: rest' := exists_of_headIs h
      exact taken_ofInside hkind (by simp) (parts_inside quote true rest)
    · exact ⟨rfl, by simp, hkind⟩
  · exact taken_ofInside hkind (by simp) (parts_inside quote false rest)

theorem taken_badNumber (id : MessageId) {taken : List Char} (htaken : taken ≠ [])
    (rest : List Char) : TakenFrom (badNumber id taken rest) (taken ++ rest) where
  parts := by
    show taken ++ rest.takeWhile isJunk ++ rest.dropWhile isJunk = taken ++ rest
    rw [List.append_assoc, List.takeWhile_append_dropWhile]
  some := by
    show taken ++ rest.takeWhile isJunk ≠ []
    simp [htaken]
  kind := rfl

theorem taken_hexNumber {mark : List Char} (hmark : mark ≠ []) (rest : List Char) :
    TakenFrom (hexNumber mark rest) (mark ++ rest) := by
  have hparts : mark ++ rest = mark ++ rest.takeWhile isHexDigit ++ rest.dropWhile isHexDigit := by
    rw [List.append_assoc, List.takeWhile_append_dropWhile]
  have hsome : mark ++ rest.takeWhile isHexDigit ≠ [] := by simp [hmark]
  unfold hexNumber
  simp only
  rw [hparts]
  split
  · exact taken_badNumber _ hsome _
  · exact ⟨rfl, hsome, rfl⟩

theorem taken_decimal {c : Char} (hc : isNumeral c = true) (rest : List Char) :
    TakenFrom (decimal (c :: rest)) (c :: rest) := by
  have hparts := (List.takeWhile_append_dropWhile (p := isNumeral) (l := c :: rest))
  have hsome : (c :: rest).takeWhile isNumeral ≠ [] := by simp [hc]
  unfold decimal
  simp only
  split
  · have h := taken_badNumber .invalidNumber hsome ((c :: rest).dropWhile isNumeral)
    rwa [hparts] at h
  · split
    · exact ⟨hparts, hsome, rfl⟩
    · exact ⟨hparts, hsome, rfl⟩
    · exact ⟨hparts, hsome, rfl⟩

theorem taken_number {c : Char} (hc : isDigit c = true) (rest : List Char) :
    TakenFrom (number (c :: rest)) (c :: rest) := by
  have hnumeral : isNumeral c = true := by simp [isNumeral, hc]
  unfold number
  split
  · next heq =>
    rw [heq]
    exact taken_hexNumber (by simp) _
  · next heq =>
    rw [heq]
    exact taken_hexNumber (by simp) _
  · exact taken_decimal hnumeral rest

theorem isLayout_ofWord (s : String) : (TokenKind.ofWord s).isLayout = false := by
  unfold TokenKind.ofWord
  split <;> rfl

theorem taken_word {c : Char} (hc : isAlpha c = true) (rest : List Char) :
    TakenFrom (word (c :: rest)) (c :: rest) := by
  have halpha : isAlphaNumeric c = true := by simp [isAlphaNumeric, hc]
  have hparts := (List.takeWhile_append_dropWhile (p := isAlphaNumeric) (l := c :: rest))
  have hsome : (c :: rest).takeWhile isAlphaNumeric ≠ [] := by simp [halpha]
  unfold word
  simp only
  split
  case h_5 => exact ⟨hparts, hsome, isLayout_ofWord _⟩
  all_goals
    next hname hrest =>
    rw [hname, hrest] at hparts
    rw [← hparts]
    exact (taken_string rfl _ _).after _

theorem taken_symbol (c : Char) (rest : List Char) :
    TakenFrom (symbol c rest) (c :: rest) := by
  have hsymbols : ∀ s ∈ symbols, s.1 ≠ [] ∧ s.2.isLayout = false := by decide
  unfold symbol
  split
  · next spelling kind hfind =>
    obtain ⟨hsome, hkind⟩ := hsymbols _ (List.mem_of_find?_eq_some hfind)
    have hprefix : spelling <+: c :: rest := by
      have h := List.find?_some hfind
      exact List.isPrefixOf_iff_prefix.mp h
    refine ⟨?_, hsome, hkind⟩
    exact List.prefix_iff_eq_append.mp hprefix
  · exact ⟨rfl, by simp [bad], rfl⟩

theorem taken_comment (rest : List Char) : TakenFrom (comment ('#' :: rest)) ('#' :: rest) where
  parts := List.takeWhile_append_dropWhile
  some := by simp [comment]
  kind := rfl

/-- A token is taken from the head of what is left. -/
theorem taken_scan (c : Char) (rest : List Char) : TakenFrom (scan c rest) (c :: rest) := by
  unfold scan
  split
  · next hc =>
    subst hc
    exact taken_comment rest
  split
  · exact taken_string rfl c rest
  split
  · next hc => exact taken_number hc rest
  split
  · next hc => exact taken_word hc rest
  split
  · next hc =>
    subst hc
    split
    · exact taken_decimal rfl rest
    · exact ⟨rfl, by simp [plain], rfl⟩
  · exact taken_symbol c rest

end Lexeme

/-! ## Pieces -/

/-- A piece of a source text. -/
inductive Piece where
  | blank (c : Char)
  /-- A comment on a line of its own. -/
  | hidden (cs : List Char)
  /-- A backslash and the newline that it hides. -/
  | joined (cs : List Char)
  /-- A newline in brackets. -/
  | enclosed
  /-- Any other newline, and whether it ends a line of the program. -/
  | ending (closes : Bool)
  | token (x : Lexeme)

namespace Piece

/-- The characters of a piece. -/
def text : Piece → List Char
  | blank c => [c]
  | hidden cs => cs
  | joined cs => cs
  | enclosed => ['\n']
  | ending _ => ['\n']
  | token x => x.taken

end Piece

namespace Lexeme

open Lexer

/-- The token that starts with a character that is neither blank nor a newline; a backslash that
hides no newline is none. -/
def next : Char → List Char → Lexeme
  | '\\', '\r' :: rest => bad ['\\'] ['\\', '\r'] rest (.entry .badContinuation [])
  | '\\', rest => bad ['\\'] ['\\'] rest (.entry .badContinuation [])
  | c, rest => scan c rest

/-- Whether the characters of a token end with a newline. -/
def endsLine (x : Lexeme) : Bool := x.taken.getLast? == some '\n'

theorem taken_next (c : Char) (rest : List Char) : TakenFrom (next c rest) (c :: rest) := by
  unfold next
  split
  · exact ⟨rfl, by simp [bad], rfl⟩
  · exact ⟨rfl, by simp [bad], rfl⟩
  · exact taken_scan c rest

theorem length_rest_lt {x : Lexeme} {cs : List Char} (h : TakenFrom x cs) :
    x.rest.length < cs.length := by
  have hlength := congrArg List.length h.parts
  have hsome := List.length_pos_iff.mpr h.some
  rw [List.length_append] at hlength
  omega

end Lexeme

namespace Lexer

open Lexeme

/-- The pieces of a text. Of the characters before it, it is known how many brackets they leave
open, whether a line of the program is still to begin (`front`), and whether the line of the text is
empty so far (`bare`). The first `skip` characters belong to a piece in front of them. -/
def cut : (skip depth : Nat) → (front bare : Bool) → List Char → List Piece
  | _, _, _, _, [] => []
  | skip + 1, depth, front, bare, _ :: rest => cut skip depth front bare rest
  | 0, depth, _, _, '\\' :: '\r' :: '\n' :: rest =>
    .joined ['\\', '\r', '\n'] :: cut 0 depth false true rest
  | 0, depth, _, _, '\\' :: '\n' :: rest => .joined ['\\', '\n'] :: cut 0 depth false true rest
  | 0, depth, front, bare, c :: rest =>
    if c = '\n' then
      if depth > 0 then .enclosed :: cut 0 depth front true rest
      else
        -- an empty line ends nothing, and neither does one before the line of the program begins
        let closes := !front && !bare
        .ending closes :: cut 0 depth (front || closes) true rest
    else if isBlank c then .blank c :: cut 0 depth front false rest
    else if front && c == '#' then
      let line := rest.takeWhile (· != '\n')
      .hidden (c :: line) :: cut line.length depth true false rest
    else
      let x := next c rest
      .token x :: cut (x.taken.length - 1) (depthAfter depth x.kind) false x.endsLine rest

/-- How the pieces of a text come about, piece by piece. -/
inductive Cuts : Nat → Bool → Bool → List Char → List Piece → Prop where
  | nil (depth : Nat) (front bare : Bool) : Cuts depth front bare [] []
  | joined {depth : Nat} {cs rest : List Char} {ps : List Piece} (front bare : Bool)
      (hcs : cs = ['\\', '\r', '\n'] ∨ cs = ['\\', '\n']) (h : Cuts depth false true rest ps) :
      Cuts depth front bare (cs ++ rest) (.joined cs :: ps)
  | enclosed {depth : Nat} {front : Bool} {rest : List Char} {ps : List Piece} (bare : Bool)
      (hdepth : 0 < depth) (h : Cuts depth front true rest ps) :
      Cuts depth front bare ('\n' :: rest) (.enclosed :: ps)
  | ending {front bare : Bool} {rest : List Char} {ps : List Piece}
      (h : Cuts 0 (front || !bare) true rest ps) :
      Cuts 0 front bare ('\n' :: rest) (.ending (!front && !bare) :: ps)
  | blank {depth : Nat} {front : Bool} {c : Char} {rest : List Char} {ps : List Piece} (bare : Bool)
      (hc : isBlank c = true) (h : Cuts depth front false rest ps) :
      Cuts depth front bare (c :: rest) (.blank c :: ps)
  | hidden {depth : Nat} {rest : List Char} {ps : List Piece} (bare : Bool)
      (h : Cuts depth true false (rest.dropWhile (· != '\n')) ps) :
      Cuts depth true bare ('#' :: rest) (.hidden ('#' :: rest.takeWhile (· != '\n')) :: ps)
  | token {depth : Nat} {front : Bool} {c : Char} {rest : List Char} {ps : List Piece} (bare : Bool)
      (hnewline : c ≠ '\n') (hblank : isBlank c = false) (hcomment : front = true → c ≠ '#')
      (hjoined : ∀ after, ¬(c = '\\' ∧ (rest = '\r' :: '\n' :: after ∨ rest = '\n' :: after)))
      (h : Cuts (depthAfter depth (next c rest).kind) false (next c rest).endsLine
        (next c rest).rest ps) :
      Cuts depth front bare (c :: rest) (.token (next c rest) :: ps)

theorem drop_next (c : Char) (rest : List Char) :
    rest.drop ((next c rest).taken.length - 1) = (next c rest).rest := by
  have h := taken_next c rest
  have hdrop : (c :: rest).drop (next c rest).taken.length = (next c rest).rest := by
    rw [← h.parts]
    exact List.drop_left
  have hsome := List.length_pos_iff.mpr h.some
  rwa [← Nat.sub_one_add_one (Nat.pos_iff_ne_zero.mp hsome), List.drop_succ_cons] at hdrop

theorem drop_length_takeWhile (p : Char → Bool) (cs : List Char) :
    cs.drop (cs.takeWhile p).length = cs.dropWhile p := by
  have h : (cs.takeWhile p ++ cs.dropWhile p).drop (cs.takeWhile p).length = cs.dropWhile p :=
    List.drop_left
  rwa [List.takeWhile_append_dropWhile] at h

theorem cuts_cut (skip depth : Nat) (front bare : Bool) (cs : List Char) :
    Cuts depth front bare (cs.drop skip) (cut skip depth front bare cs) := by
  fun_induction cut skip depth front bare cs with
  | case1 =>
    rw [List.drop_nil]
    exact .nil _ _ _
  | case2 skip depth front bare c rest ih =>
    rw [List.drop_succ_cons]
    exact ih
  | case3 front bare depth rest ih => exact .joined front bare (.inl rfl) ih
  | case4 front bare depth rest ih => exact .joined front bare (.inr rfl) ih
  | case5 depth front bare rest hdepth _ _ ih => exact .enclosed bare hdepth ih
  | case6 depth front bare rest hdepth closes _ _ ih =>
    obtain rfl : depth = 0 := by omega
    have hfront : (front || closes) = (front || !bare) := by
      cases front <;> rfl
    rw [hfront] at ih ⊢
    exact .ending ih
  | case7 depth front bare c rest _ _ _ hblank ih => exact .blank bare hblank ih
  | case8 depth front bare c rest _ _ _ _ hcomment line ih =>
    obtain ⟨rfl, rfl⟩ : front = true ∧ c = '#' := by simpa using hcomment
    rw [drop_length_takeWhile] at ih
    exact .hidden bare ih
  | case9 depth front bare c rest h₁ h₂ hnewline hblank hcomment x ih =>
    rw [drop_next] at ih
    refine .token bare hnewline (Bool.eq_false_iff.mpr hblank) ?_ ?_ ih
    · rintro rfl rfl
      exact hcomment rfl
    · rintro after ⟨rfl, hrest | hrest⟩
      · exact h₁ after rfl hrest
      · exact h₂ after rfl hrest

/-- The pieces are the text. -/
theorem text_cuts {depth : Nat} {front bare : Bool} {cs : List Char} {ps : List Piece}
    (h : Cuts depth front bare cs ps) : ps.flatMap Piece.text = cs := by
  induction h with
  | nil => rfl
  | joined _ _ _ _ ih | enclosed _ _ _ ih | ending _ ih | blank _ _ _ ih =>
    rw [List.flatMap_cons, ih]
    rfl
  | hidden _ _ ih =>
    rw [List.flatMap_cons, ih]
    exact congrArg _ List.takeWhile_append_dropWhile
  | @token _ _ c rest _ _ _ _ _ _ _ ih =>
    rw [List.flatMap_cons, ih]
    exact (taken_next c rest).parts

/-! ## Tokens -/

/-- The indentation in front of a line of the program, some blanks of which were met already: the
blanks of its own line, or none if nothing follows. -/
def margin (blanks : List Char) (p : Position) : List Piece → Token
  | .blank c :: ps => margin (if c = ' ' ∨ c = '\t' then c :: blanks else blanks) (p.next c) ps
  | .hidden cs :: ps => margin [] (p.after cs) ps
  | .ending _ :: ps => margin [] (p.next '\n') ps
  | [] => ⟨.indentation, "", ⟨p.line, 1⟩⟩
  | _ => ⟨.indentation, String.ofList blanks.reverse, ⟨p.line, 1⟩⟩

/-- The tokens of pieces from a position on. The newline that ends a line of the program is a token,
and the indentation of the next line follows it. -/
def render (p : Position) : List Piece → List Token
  | [] => [⟨.finish, "", p⟩]
  | .token x :: ps => ⟨x.kind, String.ofList x.value, p⟩ :: render (p.after x.taken) ps
  | .ending true :: ps =>
    ⟨.newLine, "\n", p⟩ :: margin [] (p.next '\n') ps :: render (p.next '\n') ps
  | q :: ps => render (p.after q.text) ps

/-- The pieces of a source text. -/
def pieces (t : Text) : List Piece := cut 0 0 true true t.chars

/-- The tokens of a source text: those of its pieces, after the indentation of its first line if
there is any. -/
def tokensOf (ps : List Piece) : List Token :=
  let first := margin [] {} ps
  (if first.value.isEmpty then [] else [first]) ++ render {} ps

/-! ## The lexer in front of pieces -/

theorem column_next {p : Position} (hp : 1 ≤ p.column) (c : Char) :
    1 ≤ (p.next c).column ∧ ((p.next c).column = 1 ↔ c = '\n') := by
  unfold Position.next
  split
  · next hc => exact ⟨Nat.le_refl 1, fun _ => hc, fun _ => rfl⟩
  · next hc =>
    refine ⟨Nat.le_add_left 1 _, fun h => ?_, fun h => absurd h hc⟩
    have : p.column + 1 = 1 := h
    omega

theorem column_after {p : Position} (hp : 1 ≤ p.column) (cs : List Char) :
    1 ≤ (p.after cs).column ∧
      (cs ≠ [] → ((p.after cs).column = 1 ↔ cs.getLast? = some '\n')) := by
  induction cs generalizing p with
  | nil => exact ⟨hp, fun h => absurd rfl h⟩
  | cons c cs ih =>
    obtain ⟨hnext, hcolumn⟩ := column_next hp c
    obtain ⟨hle, hlast⟩ := ih hnext
    refine ⟨hle, fun _ => ?_⟩
    cases cs with
    | nil => simpa using hcolumn
    | cons c' cs => simpa using hlast (List.cons_ne_nil _ _)

/-- A position at which the line of the text is empty so far, or is not. -/
structure Stands (p : Position) (bare : Bool) : Prop where
  pos : 1 ≤ p.column
  bare_iff : bare = true ↔ p.column = 1

theorem Stands.next {p : Position} {bare : Bool} (h : Stands p bare) {c : Char} (hc : c ≠ '\n') :
    Stands (p.next c) false := by
  obtain ⟨hle, hcolumn⟩ := column_next h.pos c
  refine ⟨hle, ?_⟩
  simp [hcolumn, hc]

theorem Stands.newline {p : Position} {bare : Bool} (h : Stands p bare) :
    Stands (p.next '\n') true := by
  obtain ⟨hle, hcolumn⟩ := column_next h.pos '\n'
  exact ⟨hle, by simp [hcolumn]⟩

theorem Stands.after {p : Position} {bare : Bool} (h : Stands p bare) {cs : List Char}
    (hcs : cs ≠ []) : Stands (p.after cs) (cs.getLast? == some '\n') := by
  obtain ⟨hle, hcolumn⟩ := column_after h.pos cs
  exact ⟨hle, by simp [hcolumn hcs]⟩

theorem getLast?_comment (rest : List Char) :
    ('#' :: rest.takeWhile (· != '\n')).getLast? ≠ some '\n' := by
  intro hlast
  rcases List.mem_cons.mp (List.mem_of_getLast? hlast) with hmem | hmem
  · exact absurd hmem (by decide)
  · have := List.all_eq_true.mp List.all_takeWhile _ hmem
    exact absurd this (by decide)

/-- A comment does not empty the line. -/
theorem Stands.comment {p : Position} {bare : Bool} (h : Stands p bare) (rest : List Char) :
    Stands (p.after ('#' :: rest.takeWhile (· != '\n'))) false := by
  have hlast := getLast?_comment rest
  have hafter := h.after (List.cons_ne_nil '#' (rest.takeWhile (· != '\n')))
  rwa [beq_eq_false_iff_ne.mpr hlast] at hafter

/-- In a comment nothing is looked for but its end. -/
theorem indentation_hidden (l : Lexer) (blanks cs : List Char) :
    indentation l blanks true cs =
      indentation { l with pos := l.pos.after (cs.takeWhile (· != '\n')) } [] false
        (cs.dropWhile (· != '\n')) := by
  induction cs generalizing l blanks with
  | nil => rfl
  | cons c rest ih =>
    by_cases hc : c = '\n'
    · subst hc
      simp [indentation]
    · have hstep : indentation l blanks true (c :: rest) =
          indentation { l with pos := l.pos.next c } [] true rest := by
        simp [indentation, hc]
      rw [hstep, ih]
      simp [hc]

/-- The indentation of the next line is read up to the piece with which the line begins. -/
theorem indentation_cuts {depth : Nat} {front bare : Bool} {cs : List Char} {ps : List Piece}
    (h : Cuts depth front bare cs ps) (hdepth : depth = 0) (hfront : front = true) (l : Lexer)
    (blanks : List Char) (hstands : Stands l.pos bare) :
    ∃ rest pos bare' ps', indentation l blanks false cs =
        ({ l with rest, pos }, margin blanks l.pos ps) ∧
      render l.pos ps = render pos ps' ∧ Stands pos bare' ∧ Cuts 0 false bare' rest ps' ∧
      rest.length ≤ cs.length := by
  induction h generalizing l blanks with
  | nil depth front bare =>
    exact ⟨[], l.pos, bare, [], rfl, rfl, hstands, .nil _ _ _, Nat.le_refl 0⟩
  | @joined depth cs rest ps front bare hcs h ih =>
    subst hdepth
    refine ⟨cs ++ rest, l.pos, bare, .joined cs :: ps, ?_, rfl, hstands, .joined false bare hcs h,
      Nat.le_refl _⟩
    rcases hcs with rfl | rfl <;> rfl
  | enclosed bare hpos h ih => omega
  | @ending front bare rest ps h ih =>
    subst hfront
    obtain ⟨rest', pos, bare', ps', heq, hrender, hstands', hcuts, hle⟩ :=
      ih rfl rfl { l with pos := l.pos.next '\n' } [] hstands.newline
    exact ⟨rest', pos, bare', ps', heq, hrender, hstands', hcuts, Nat.le_succ_of_le hle⟩
  | @blank depth front c rest ps bare hc h ih =>
    have hnewline : c ≠ '\n' := by
      rintro rfl
      cases hc
    obtain ⟨rest', pos, bare', ps', heq, hrender, hstands', hcuts, hle⟩ :=
      ih hdepth hfront { l with pos := l.pos.next c }
        (if c = ' ' ∨ c = '\t' then c :: blanks else blanks)
        (hstands.next hnewline)
    refine ⟨rest', pos, bare', ps', ?_, hrender, hstands', hcuts, Nat.le_succ_of_le hle⟩
    have hcases : (c = ' ' ∨ c = '\t') ∨ c = '\r' ∨ c = '\x0C' := by
      simpa [isBlank, or_assoc] using hc
    rw [margin, ← heq]
    rcases hcases with (rfl | rfl) | rfl | rfl <;> rfl
  | @hidden depth rest ps bare h ih =>
    obtain ⟨rest', pos, bare', ps', heq, hrender, hstands', hcuts, hle⟩ :=
      ih hdepth rfl { l with pos := l.pos.after ('#' :: rest.takeWhile (· != '\n')) } []
        (hstands.comment rest)
    refine ⟨rest', pos, bare', ps', ?_, hrender, hstands', hcuts, Nat.le_trans hle ?_⟩
    · have hstep : indentation l blanks false ('#' :: rest) =
          indentation { l with pos := l.pos.next '#' } [] true rest := rfl
      rw [hstep, indentation_hidden, margin, ← heq]
      rfl
    · exact Nat.le_succ_of_le (List.dropWhile_sublist _).length_le
  | @token depth front c rest ps bare hnewline hblank hcomment hjoined h ih =>
    subst hdepth
    refine ⟨c :: rest, l.pos, bare, .token (next c rest) :: ps, ?_, rfl, hstands,
      .token bare hnewline hblank (by simp) hjoined h, Nat.le_refl _⟩
    have hcomment := hcomment hfront
    have hnone : ¬(c = ' ' ∨ c = '\t') ∧ ¬(c = '\r' ∨ c = '\x0C') := by
      simpa [isBlank, not_or, and_assoc] using hblank
    unfold indentation
    simp only [if_neg hnewline, Bool.false_eq_true, if_false, if_neg hnone.1, if_neg hnone.2,
      if_neg hcomment]
    rfl

/-- What the lexer finds in front of pieces: the end, or some tokens, after which it stands in front
of fewer characters. -/
inductive Finds (l l' : Lexer) (size : Nat) (ps : List Piece) : Prop where
  | finish (t : Token) (hqueue : l'.queue = l.queue ++ [t]) (hkind : t.kind = .finish)
      (hrender : render l.pos ps = [t])
  | more (found : List Token) (bare : Bool) (ps' : List Piece)
      (hqueue : l'.queue = l.queue ++ found) (hkind : ∀ t ∈ found, t.kind ≠ .finish)
      (hrender : render l.pos ps = found ++ render l'.pos ps') (hstands : Stands l'.pos bare)
      (hcuts : Cuts l'.depth false bare l'.rest ps') (hsize : l'.rest.length < size)

/-- What is found does not depend on what gives no token. -/
theorem Finds.skip {l l₀ l' : Lexer} {size size₀ : Nat} {ps ps₀ : List Piece}
    (h : Finds l l' size ps) (hqueue : l.queue = l₀.queue)
    (hrender : render l₀.pos ps₀ = render l.pos ps) (hsize : size ≤ size₀) :
    Finds l₀ l' size₀ ps₀ := by
  cases h with
  | finish t hq hkind hr => exact .finish t (hqueue ▸ hq) hkind (hrender.trans hr)
  | more found bare ps' hq hkind hr hstands hcuts hs =>
    exact .more found bare ps' (hqueue ▸ hq) hkind (hrender.trans hr) hstands hcuts (by omega)

theorem margin_kind (blanks : List Char) (p : Position) (ps : List Piece) :
    (margin blanks p ps).kind = .indentation := by
  fun_induction margin blanks p ps with
  | case1 _ _ _ _ ih | case2 _ _ _ _ ih | case3 _ _ _ _ ih => exact ih
  | case4 | case5 => rfl

/-- A token that is pushed is found. -/
theorem finds_push {l : Lexer} {c : Char} {rest : List Char} {ps : List Piece} {bare : Bool}
    (hstands : Stands l.pos bare)
    (h : Cuts (depthAfter l.depth (next c rest).kind) false (next c rest).endsLine
      (next c rest).rest ps) :
    Finds l (l.push (next c rest)) (c :: rest).length (.token (next c rest) :: ps) := by
  have htaken := taken_next c rest
  refine .more _ (next c rest).endsLine ps rfl ?_ rfl (hstands.after htaken.some) h
    (length_rest_lt htaken)
  intro t ht hfinish
  rw [List.mem_singleton.mp ht] at hfinish
  have hkind := htaken.kind
  rw [show (next c rest).kind = .finish from hfinish] at hkind
  cases hkind

section Steps

variable (l : Lexer) (rest : List Char)

theorem scanFrom_newline :
    l.scanFrom ('\n' :: rest) =
      if l.depth > 0 then scanFrom { l with pos := l.pos.next '\n', multiLine := true } rest
      else if l.pos.column > 1 then
        let (next, token) :=
          indentation { l with pos := l.pos.next '\n', multiLine := false } [] false rest
        { next with queue := next.queue ++ [⟨.newLine, "\n", l.pos⟩, token] }
      else scanFrom { l with pos := l.pos.next '\n', multiLine := false } rest := rfl

theorem scanFrom_blank {c : Char} (hc : isBlank c = true) :
    l.scanFrom (c :: rest) = scanFrom { l with pos := l.pos.next c } rest := by
  have hcases : c = ' ' ∨ c = '\t' ∨ c = '\r' ∨ c = '\x0C' := by
    simpa [isBlank, or_assoc] using hc
  rcases hcases with rfl | rfl | rfl | rfl <;> rfl

theorem scanFrom_next {c : Char} (hnewline : c ≠ '\n') (hblank : isBlank c = false)
    (hjoined : ∀ after, ¬(c = '\\' ∧ (rest = '\r' :: '\n' :: after ∨ rest = '\n' :: after))) :
    l.scanFrom (c :: rest) = l.push (next c rest) := by
  unfold next
  split
  case h_1 rest =>
    rw [scanFrom]
    rintro after rfl
    exact hjoined after ⟨rfl, .inl rfl⟩
  case h_2 hreturn =>
    rw [scanFrom]
    · rintro after rfl
      exact hreturn _ rfl
    · rintro after rfl
      exact hjoined after ⟨rfl, .inr rfl⟩
    · exact hreturn
  case h_3 hbackslash _ =>
    rw [scanFrom, if_neg hnewline, if_neg (Bool.eq_false_iff.mp hblank)]
    all_goals
      intros
      contradiction

end Steps

theorem scanFrom_cuts {depth : Nat} {front bare : Bool} {cs : List Char} {ps : List Piece}
    (h : Cuts depth front bare cs ps) (hfront : front = false) (l : Lexer)
    (hdepth : l.depth = depth)
    (hstands : Stands l.pos bare) :
    (l.scanFrom cs).started = l.started ∧ Finds l (l.scanFrom cs) cs.length ps := by
  induction h generalizing l with
  | nil => exact ⟨rfl, .finish _ rfl rfl rfl⟩
  | @joined depth cs rest ps front bare hcs h ih =>
    have hsome : cs ≠ [] := by rcases hcs with rfl | rfl <;> simp
    have hlast : (cs.getLast? == some '\n') = true := by rcases hcs with rfl | rfl <;> rfl
    have hstands' := hstands.after hsome
    rw [hlast] at hstands'
    obtain ⟨hstarted, hfinds⟩ :=
      ih rfl { l with pos := l.pos.after cs, multiLine := true } hdepth hstands'
    have hstep : l.scanFrom (cs ++ rest) =
        scanFrom { l with pos := l.pos.after cs, multiLine := true } rest := by
      rcases hcs with rfl | rfl <;> rfl
    rw [hstep]
    exact ⟨hstarted, hfinds.skip rfl rfl (by simp)⟩
  | @enclosed depth front rest ps bare hpos h ih =>
    obtain ⟨hstarted, hfinds⟩ :=
      ih hfront { l with pos := l.pos.next '\n', multiLine := true } hdepth hstands.newline
    have hstep : l.scanFrom ('\n' :: rest) =
        scanFrom { l with pos := l.pos.next '\n', multiLine := true } rest := by
      rw [scanFrom_newline, if_pos (hdepth ▸ hpos)]
    rw [hstep]
    exact ⟨hstarted, hfinds.skip rfl rfl (by simp)⟩
  | @ending front bare rest ps h ih =>
    subst hfront
    cases bare with
    | true =>
      -- an empty line is skipped
      obtain ⟨hstarted, hfinds⟩ :=
        ih rfl { l with pos := l.pos.next '\n', multiLine := false } hdepth hstands.newline
      have hcolumn : l.pos.column = 1 := hstands.bare_iff.mp rfl
      have hstep : l.scanFrom ('\n' :: rest) =
          scanFrom { l with pos := l.pos.next '\n', multiLine := false } rest := by
        rw [scanFrom_newline, if_neg (by omega), if_neg (by omega)]
      rw [hstep]
      exact ⟨hstarted, hfinds.skip rfl rfl (by simp)⟩
    | false =>
      have hcolumn : 1 < l.pos.column := by
        have hne : l.pos.column ≠ 1 := fun h => Bool.false_ne_true (hstands.bare_iff.mpr h)
        have := hstands.pos
        omega
      obtain ⟨rest', pos, bare', ps', heq, hrender, hstands', hcuts, hle⟩ :=
        indentation_cuts h rfl rfl { l with pos := l.pos.next '\n', multiLine := false } []
          hstands.newline
      have hstep : l.scanFrom ('\n' :: rest) =
          { l with
            rest := rest'
            pos := pos
            multiLine := false
            queue := l.queue ++ [⟨.newLine, "\n", l.pos⟩, margin [] (l.pos.next '\n') ps] } := by
        rw [scanFrom_newline, if_neg (by omega), if_pos hcolumn, heq]
      rw [hstep]
      refine ⟨rfl, .more _ bare' ps' rfl ?_ ?_ hstands' ?_ ?_⟩
      · intro t ht
        rcases List.mem_cons.mp ht with rfl | ht
        · simp
        · rw [List.mem_singleton.mp ht, margin_kind]
          simp
      · show _ :: margin [] (l.pos.next '\n') ps :: render (l.pos.next '\n') ps = _
        rw [hrender]
        rfl
      · show Cuts l.depth false bare' rest' ps'
        rw [hdepth]
        exact hcuts
      · exact Nat.lt_succ_of_le hle
  | @blank depth front c rest ps bare hc h ih =>
    have hnewline : c ≠ '\n' := by
      rintro rfl
      cases hc
    obtain ⟨hstarted, hfinds⟩ :=
      ih hfront { l with pos := l.pos.next c } hdepth (hstands.next hnewline)
    rw [scanFrom_blank l rest hc]
    exact ⟨hstarted, hfinds.skip rfl rfl (by simp)⟩
  | hidden => cases hfront
  | @token depth front c rest ps bare hnewline hblank hcomment hjoined h ih =>
    rw [scanFrom_next l rest hnewline hblank hjoined]
    exact ⟨rfl, finds_push hstands (hdepth ▸ h)⟩

/-! ## All tokens -/

theorem isDrained_eq_false {l : Lexer} (h : ∀ t ∈ l.queue, t.kind ≠ .finish) :
    l.isDrained = false := by
  unfold isDrained
  rw [List.any_eq_false]
  intro t ht
  simp [h t ht]

theorem drainWithin_drained {l : Lexer} (n : Nat) (h : l.isDrained = true) :
    drainWithin n l = (l.queue, l) := by
  cases n with
  | zero => rfl
  | succ n => rw [drainWithin, if_pos h]

/-- From where the lexer stands all tokens are found that the pieces have. -/
theorem drainWithin_cuts {n : Nat} {l : Lexer} {ps : List Piece} {bare : Bool}
    (hstarted : l.started = true) (hqueue : ∀ t ∈ l.queue, t.kind ≠ .finish)
    (hstands : Stands l.pos bare) (hcuts : Cuts l.depth false bare l.rest ps)
    (hn : l.rest.length < n) :
    (drainWithin n l).1 = l.queue ++ render l.pos ps := by
  induction n generalizing l ps bare with
  | zero => omega
  | succ n ih =>
    have hscan : scan { l with queue := [] } = scanFrom { l with queue := [] } l.rest := by
      unfold scan
      rw [if_pos hstarted]
    obtain ⟨hstarted', hfinds⟩ := scanFrom_cuts hcuts rfl { l with queue := [] } rfl hstands
    rw [drainWithin, isDrained_eq_false hqueue, if_neg Bool.false_ne_true, hscan]
    show l.queue ++ (drainWithin n (scanFrom { l with queue := [] } l.rest)).1 = _
    congr 1
    cases hfinds with
    | finish t hq hkind hrender =>
      have hdrained : (scanFrom { l with queue := [] } l.rest).isDrained = true := by
        unfold isDrained
        rw [hq]
        simp [hkind]
      rw [drainWithin_drained n hdrained, hq]
      exact hrender.symm
    | more found bare' ps' hq hkind hrender hstands' hcuts' hsize =>
      have hq : (scanFrom { l with queue := [] } l.rest).queue = found := hq
      rw [ih (hstarted'.trans hstarted) (hq ▸ hkind) hstands' hcuts' (by omega), hq]
      exact hrender.symm

/-- **The tokens of a text are those of its pieces.** -/
theorem tokenize_eq_tokensOf (t : Text) : (tokenize t).1 = tokensOf (pieces t) := by
  have hcuts : Cuts 0 true true t.chars (pieces t) := cuts_cut 0 0 true true t.chars
  have hstands : Stands {} true := ⟨Nat.le_refl 1, by simp⟩
  obtain ⟨rest, pos, bare, ps, heq, hrender, hstands', hcuts', hle⟩ :=
    indentation_cuts hcuts rfl rfl ({ rest := t.chars, started := true } : Lexer) [] hstands
  have hscan : scan (start t) =
      let (next, token) := indentation { rest := t.chars, started := true } [] false t.chars
      if token.value.isEmpty then next.scanFrom next.rest
      else { next with queue := next.queue ++ [token] } := rfl
  have hall : (tokenize t).1 = (drainWithin (t.chars.length + 1) (scan (start t))).1 := rfl
  rw [hall, hscan, heq]
  show _ = _ ++ render {} (pieces t)
  rw [hrender]
  by_cases hempty : (margin [] {} (pieces t)).value.isEmpty = true
  · simp only [hempty, if_true, List.nil_append]
    -- the first scan goes on at once, as a lexer would that has been started
    have hdrain := drainWithin_cuts (n := t.chars.length + 2) (l := { rest, pos, started := true })
      rfl (by simp) hstands' hcuts' (by show rest.length < _; omega)
    exact hdrain
  · simp only [hempty, Bool.false_eq_true, if_false]
    refine drainWithin_cuts rfl ?_ hstands' hcuts' (Nat.lt_succ_of_le hle)
    intro t ht
    rw [List.mem_singleton.mp ht, margin_kind]
    simp

end Lexer

end Toolchain
