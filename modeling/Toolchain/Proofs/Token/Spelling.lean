import Toolchain.Proofs.Token.Pieces
import Toolchain.Proofs.Tree.WellFormed

/-!
# How tokens are spelled

The text of a token is read as that token as long as the character behind it does not go on with it:
a word is followed by something that is no letter, a symbol by something that is not the rest of a
longer symbol. So the characters of tokens can be put behind each other, with or without blanks,
wherever the second one begins with a character that ends the first.

What the pieces of a text are is told by a relation, which is how a text can be taken apart. It has
one sequence of pieces only, so what can be taken apart in one way is read in that way.

## Main definitions

* `Face`: what the grammar sees of a token
* `Lexer.Spells`: characters that are read as some tokens in front of what ends them
* `TokenKind.spelling`, `TokenKind.face`: how a symbol or a keyword is written
* `Lexer.afterSymbol`, `Lexer.afterWord`, `Lexer.afterLiteral`: the characters that end a token

## Main results

* `Lexer.Cuts.eq_cut`, `Lexer.tokens_of_cuts`: a text has one sequence of pieces
* `Lexer.Spells.append`, `Lexer.Spells.blank`: tokens behind each other
* `Lexer.spells_face`, `Lexer.spells_keyword`, `Lexer.spells_identifier`, `Lexer.spells_integer`,
  `Lexer.spells_float`, `Lexer.spells_dot`: how each sort of token is spelled
-/

namespace Toolchain

/-- What the grammar sees of a token: its kind and its value. -/
abbrev Face := TokenKind × String

/-- A token without its position. -/
def Token.face (t : Token) : Face := (t.kind, t.value)

/-- What the grammar sees of the token that was read. -/
def Lexeme.face (x : Lexeme) : Face := (x.kind, String.ofList x.value)

namespace Lexer

open Lexeme

/-! ## A text has one sequence of pieces -/

theorem cut_skip (skip depth : Nat) (front bare : Bool) (cs : List Char) :
    cut skip depth front bare cs = cut 0 depth front bare (cs.drop skip) := by
  induction cs generalizing skip with
  | nil => cases skip <;> rfl
  | cons c cs ih =>
    cases skip with
    | zero => rfl
    | succ skip => exact ih skip

/-- A character that does not hide a newline. -/
theorem cut_cons {c : Char} {rest : List Char}
    (hjoined : ∀ after, ¬(c = '\\' ∧ (rest = '\r' :: '\n' :: after ∨ rest = '\n' :: after)))
    (depth : Nat) (front bare : Bool) :
    cut 0 depth front bare (c :: rest) =
      if c = '\n' then
        if depth > 0 then .enclosed :: cut 0 depth front true rest
        else .ending (!front && !bare) :: cut 0 depth (front || (!front && !bare)) true rest
      else if isBlank c then .blank c :: cut 0 depth front false rest
      else if front && c == '#' then
        .hidden (c :: rest.takeWhile (· != '\n')) ::
          cut (rest.takeWhile (· != '\n')).length depth true false rest
      else
        .token (next c rest) ::
          cut ((next c rest).taken.length - 1) (depthAfter depth (next c rest).kind) false
            (next c rest).endsLine rest := by
  rw [cut]
  · intro after hc hrest
    exact hjoined after ⟨hc, .inl hrest⟩
  · intro after hc hrest
    exact hjoined after ⟨hc, .inr hrest⟩

theorem not_joined {c : Char} (hc : c ≠ '\\') (rest after : List Char) :
    ¬(c = '\\' ∧ (rest = '\r' :: '\n' :: after ∨ rest = '\n' :: after)) := fun h => hc h.1

/-- The pieces of a text are the only ones it can be cut into. -/
theorem Cuts.eq_cut {depth : Nat} {front bare : Bool} {cs : List Char} {ps : List Piece}
    (h : Cuts depth front bare cs ps) : cut 0 depth front bare cs = ps := by
  induction h with
  | nil => rfl
  | joined _ _ hcs _ ih =>
    rcases hcs with rfl | rfl
    · exact congrArg _ ih
    · exact congrArg _ ih
  | enclosed _ hdepth _ ih =>
    rw [cut_cons (not_joined (by decide) _), if_pos rfl, if_pos hdepth, ih]
  | @ending front bare _ _ _ ih =>
    have hfront : (front || (!front && !bare)) = (front || !bare) := by
      cases front <;> rfl
    rw [cut_cons (not_joined (by decide) _), if_pos rfl, if_neg (Nat.lt_irrefl 0), hfront, ih]
  | @blank _ _ c _ _ _ hc _ ih =>
    have hjoined : c ≠ '\\' := by
      rintro rfl
      cases hc
    have hnewline : c ≠ '\n' := by
      rintro rfl
      cases hc
    rw [cut_cons (not_joined hjoined _), if_neg hnewline, if_pos hc, ih]
  | hidden _ _ ih =>
    rw [cut_cons (not_joined (by decide) _), if_neg (by decide), if_neg (by decide),
      if_pos (by decide),
      cut_skip, drop_length_takeWhile, ih]
  | @token _ front c rest _ _ hnewline hblank hcomment hjoined _ ih =>
    have hshown : ¬((front && c == '#') = true) := by
      intro h
      obtain ⟨rfl, hc⟩ := Bool.and_eq_true_iff.mp h
      exact hcomment rfl (by simpa using hc)
    rw [cut_cons hjoined, if_neg hnewline, if_neg (by simp [hblank]), if_neg hshown, cut_skip,
      drop_next, ih]

/-- The tokens of a text that can be cut into some pieces. -/
theorem tokens_of_cuts {t : Text} {ps : List Piece} (h : Cuts 0 true true t.chars ps) :
    (tokenize t).1 = tokensOf ps := by
  rw [tokenize_eq_tokensOf, pieces, h.eq_cut]

/-! ## Spelling -/

/-- Pieces within a line: tokens with some faces, and blanks between them. -/
inductive Inline : List Piece → List Face → Prop where
  | nil : Inline [] []
  | blank (c : Char) {ps : List Piece} {fs : List Face} (h : Inline ps fs) :
      Inline (.blank c :: ps) fs
  | token (x : Lexeme) {ps : List Piece} {fs : List Face} (h : Inline ps fs) :
      Inline (.token x :: ps) (x.face :: fs)

theorem Inline.append {ps qs : List Piece} {fs gs : List Face} (hp : Inline ps fs)
    (hq : Inline qs gs) : Inline (ps ++ qs) (fs ++ gs) := by
  induction hp with
  | nil => exact hq
  | blank c _ ih => exact .blank c ih
  | token x _ ih => exact .token x ih

/-- The tokens of pieces within a line come before those of the pieces that follow. -/
theorem Inline.render {qs : List Piece} {fs : List Face} (h : Inline qs fs) (p : Position)
    (ps : List Piece) :
    (render p (qs ++ ps)).map Token.face =
      fs ++ (Lexer.render (p.after (qs.flatMap Piece.text)) ps).map Token.face := by
  induction h generalizing p with
  | nil => rfl
  | blank c _ ih => exact ih (p.next c)
  | token x _ ih =>
    have hrest := ih (p.after x.taken)
    rw [← Position.after_append] at hrest
    exact congrArg (x.face :: ·) hrest

/-- What follows begins with an admissible character, if anything follows. -/
def Follows (stop : Char → Bool) (rest : List Char) : Prop := ∀ c ∈ rest.head?, stop c = true

/-- Characters are read as tokens with some faces wherever they stand in a line, if an admissible
character follows. -/
def Spells (stop : Char → Bool) (cs : List Char) (fs : List Face) : Prop :=
  ∀ (depth : Nat) (rest : List Char) (ps : List Piece), Follows stop rest →
    Cuts depth false false rest ps →
      ∃ qs, Inline qs fs ∧ Cuts depth false false (cs ++ rest) (qs ++ ps)

/-- Characters are read as one token, if an admissible character follows. -/
structure IsToken (stop : Char → Bool) (c : Char) (cs : List Char) (f : Face) : Prop where
  visible : isBlank c = false ∧ c ≠ '\n' ∧ c ≠ '\\'
  last : (c :: cs).getLast? ≠ some '\n'
  scan_eq : ∀ rest, Follows stop rest →
    Lexeme.scan c (cs ++ rest) = ⟨f.1, f.2.toList, c :: cs, rest, none⟩

/-- A text is read as one token, if an admissible character follows. -/
def Writes (stop : Char → Bool) (text : List Char) (f : Face) : Prop :=
  ∃ c cs, text = c :: cs ∧ IsToken stop c cs f

variable {stop stop' : Char → Bool} {cs ds : List Char} {fs gs : List Face}

theorem Follows.cons {c : Char} (hc : stop c = true) (rest : List Char) :
    Follows stop (c :: rest) := by
  rintro _ ⟨⟩
  exact hc

theorem Follows.mono (hstop : ∀ c, stop c = true → stop' c = true) {rest : List Char}
    (h : Follows stop rest) : Follows stop' rest := fun c hc => hstop c (h c hc)

theorem Spells.mono (h : Spells stop' cs fs) (hstop : ∀ c, stop c = true → stop' c = true) :
    Spells stop cs fs := fun depth rest ps hfollows hcuts =>
  h depth rest ps (hfollows.mono hstop) hcuts

theorem spells_nil : Spells stop [] [] := fun _ _ _ _ hcuts => ⟨[], .nil, hcuts⟩

/-- Where there are no characters there are no tokens. -/
theorem Spells.eq_nil (h : Spells stop [] fs) : fs = [] := by
  obtain ⟨qs, hinline, hcuts⟩ := h 0 [] [] nofun (.nil _ _ _)
  cases hinline with
  | nil => rfl
  | blank => cases hcuts.eq_cut
  | token => cases hcuts.eq_cut

/-- One after the other, if what follows the first may follow it. -/
theorem Spells.append (h : Spells stop cs fs) (h' : Spells stop' ds gs)
    (hnext : ∀ rest, Follows stop' rest → Follows stop (ds ++ rest)) :
    Spells stop' (cs ++ ds) (fs ++ gs) := by
  intro depth rest ps hfollows hcuts
  obtain ⟨qs', hinline', hcuts'⟩ := h' depth rest ps hfollows hcuts
  obtain ⟨qs, hinline, hcuts''⟩ := h depth (ds ++ rest) (qs' ++ ps) (hnext rest hfollows) hcuts'
  refine ⟨qs ++ qs', hinline.append hinline', ?_⟩
  rwa [List.append_assoc, List.append_assoc]

/-- A text and what begins with an admissible character. -/
theorem Spells.followed {stop' : Char → Bool} {d : Char} (h : Spells stop cs fs)
    (h' : Spells stop' (d :: ds) gs) (hd : stop d = true) :
    Spells stop' (cs ++ d :: ds) (fs ++ gs) :=
  h.append h' fun _ _ => .cons hd _

theorem Spells.blank (h : Spells stop cs fs) : Spells stop (' ' :: cs) fs := by
  intro depth rest ps hfollows hcuts
  obtain ⟨qs, hinline, hcuts'⟩ := h depth rest ps hfollows hcuts
  exact ⟨.blank ' ' :: qs, .blank ' ' hinline, .blank false rfl hcuts'⟩

theorem next_of_ne {c : Char} (hc : c ≠ '\\') (rest : List Char) :
    next c rest = Lexeme.scan c rest := by
  unfold next
  split <;> first | exact absurd rfl hc | rfl

/-- A token in front of what is cut. -/
theorem IsToken.cuts {c : Char} {f : Face} (h : IsToken stop c cs f) {n : Nat}
    {a b : Bool} {rest : List Char} {ps : List Piece} (hcomment : a = true → c ≠ '#')
    (hfollows : Follows stop rest) (hcuts : Cuts (depthAfter n f.1) false false rest ps) :
    ∃ x : Lexeme, x.face = f ∧ x.taken = c :: cs ∧
      Cuts n a b (c :: cs ++ rest) (.token x :: ps) := by
  obtain ⟨hblank, hnewline, hjoined⟩ := h.visible
  have hscan := h.scan_eq rest hfollows
  rw [← next_of_ne hjoined] at hscan
  refine ⟨next c (cs ++ rest), ?_, ?_, .token b hnewline hblank hcomment (not_joined hjoined _) ?_⟩
  · rw [hscan]
    simp [Lexeme.face]
  · rw [hscan]
  · have hends : (next c (cs ++ rest)).endsLine = false := by
      rw [hscan]
      exact beq_eq_false_iff_ne.mpr h.last
    show Cuts (depthAfter n (next c (cs ++ rest)).kind) false (next c (cs ++ rest)).endsLine
      (next c (cs ++ rest)).rest ps
    rw [hends, hscan]
    exact hcuts

/-- A token that is no bracket. -/
theorem IsToken.spells {c : Char} {f : Face} (h : IsToken stop c cs f)
    (hdepth : ∀ depth, depthAfter depth f.1 = depth) : Spells stop (c :: cs) [f] := by
  intro depth rest ps hfollows hcuts
  rw [← hdepth depth] at hcuts
  obtain ⟨x, hface, -, hcuts'⟩ := h.cuts (a := false) (b := false) nofun hfollows hcuts
  exact ⟨[.token x], hface ▸ .token x .nil, hcuts'⟩

theorem Writes.spells {f : Face} (h : Writes stop cs f)
    (hdepth : ∀ depth, depthAfter depth f.1 = depth) : Spells stop cs [f] := by
  obtain ⟨c, ds, rfl, htoken⟩ := h
  exact htoken.spells hdepth

end Lexer

/-! ## Symbols -/

/-- How a token is spelled whose kind tells its spelling. -/
def TokenKind.spelling : TokenKind → String
  | .binary op => op.symbol
  | .bitNot => "~"
  | .compare op => op.symbol
  | .assign => "="
  | .augmented op => op.symbol ++ "="
  | .opening .paren => "("
  | .closing .paren => ")"
  | .opening .square => "["
  | .closing .square => "]"
  | .opening .brace => "\x7b"
  | .closing .brace => "\x7d"
  | .comma => ","
  | .colon => ":"
  | .dot => "."
  | .semicolon => ";"
  | .keyword k => k.spelling
  | .newLine => "\n"
  | _ => ""

/-- The face of a token whose kind tells its spelling. -/
def TokenKind.face (k : TokenKind) : Face := (k, k.spelling)

namespace Lexer

open Lexeme

/-- A character that does not make a longer symbol of a symbol in front of it. -/
def afterSymbol (c : Char) : Bool := !(['=', '*', '/', '<', '>'].contains c)

/-- A symbol in the table is found if an admissible character follows it: no symbol before it is the
beginning of it, and those that it is the beginning of go on with other characters. -/
def IsFound (stop : Char → Bool) (e : List Char × TokenKind) : Prop :=
  ∀ s ∈ symbols.takeWhile (· != e), s.1.isPrefixOf e.1 = false ∧
    (e.1.isPrefixOf s.1 = true → (s.1.drop e.1.length).head?.all (fun x => !stop x) = true)

instance (stop : Char → Bool) (e : List Char × TokenKind) : Decidable (IsFound stop e) :=
  inferInstanceAs (Decidable (∀ s ∈ _, _))

theorem isFound_of_mem : ∀ e ∈ symbols, IsFound afterSymbol e := by
  decide +kernel

/-- A table up to one of its entries. -/
theorem exists_of_takeWhile_ne {α : Type} [BEq α] [LawfulBEq α] {a : α} {as : List α} (h : a ∈ as) :
    ∃ after, as = as.takeWhile (· != a) ++ a :: after := by
  induction as with
  | nil => cases h
  | cons b as ih =>
    by_cases hb : b = a
    · subst hb
      exact ⟨as, by simp⟩
    · obtain ⟨after, hafter⟩ := ih ((List.mem_cons.mp h).resolve_left (Ne.symm hb))
      refine ⟨after, ?_⟩
      rw [List.takeWhile_cons_of_pos (by simpa using hb), List.cons_append, ← hafter]

variable {stop : Char → Bool} {c : Char} {cs : List Char} {kind : TokenKind}

/-- A symbol is read whole. -/
theorem symbol_eq (hmem : (c :: cs, kind) ∈ symbols) (hfound : IsFound stop (c :: cs, kind))
    {rest : List Char} (h : Follows stop rest) :
    symbol c (cs ++ rest) = plain kind (c :: cs) rest := by
  have hfind : symbols.find? (fun s => s.1.isPrefixOf (c :: (cs ++ rest))) =
      some (c :: cs, kind) := by
    rw [List.find?_eq_some_iff_append]
    obtain ⟨after, hsymbols⟩ := exists_of_takeWhile_ne hmem
    refine ⟨by simp, _, after, hsymbols, ?_⟩
    intro s hs
    obtain ⟨hshort, hlong⟩ := hfound s hs
    rw [Bool.not_eq_true', Bool.eq_false_iff]
    intro hbegins
    have hprefix : s.1 <+: (c :: cs) ++ rest := List.isPrefixOf_iff_prefix.mp hbegins
    rcases List.prefix_or_prefix_of_prefix hprefix (List.prefix_append (c :: cs) rest) with hs | hs
    · exact absurd (List.isPrefixOf_iff_prefix.mpr hs) (Bool.eq_false_iff.mp hshort)
    · -- the other symbol begins with this one and goes on in what follows
      obtain ⟨more, hmore⟩ := hs
      have hlong := hlong (List.isPrefixOf_iff_prefix.mpr ⟨more, hmore⟩)
      rw [← hmore, List.drop_left] at hlong
      rw [← hmore, List.prefix_append_right_inj] at hprefix
      cases more with
      | nil =>
        rw [List.append_nil] at hmore
        exact absurd (List.isPrefixOf_iff_prefix.mpr (hmore ▸ List.prefix_rfl))
          (Bool.eq_false_iff.mp hshort)
      | cons x more =>
        obtain ⟨rest', rfl⟩ := hprefix
        have hx := h x (by simp)
        simp [hx] at hlong
  unfold symbol
  rw [hfind]
  simp

/-- The symbols begin with characters that begin nothing else. -/
theorem symbols_scanned : ∀ e ∈ symbols, e.1.getLast? ≠ some '\n' ∧ ∀ c ∈ e.1.head?,
    (isBlank c = false ∧ c ≠ '\n' ∧ c ≠ '\\') ∧ c ≠ '#' ∧ ¬(c = '\'' ∨ c = '"') ∧
      isDigit c = false ∧ isAlpha c = false ∧ c ≠ '.' := by
  have hall : ∀ e ∈ symbols, e.1.getLast? ≠ some '\n' ∧ e.1.head?.all (fun c => decide
      ((isBlank c = false ∧ c ≠ '\n' ∧ c ≠ '\\') ∧ c ≠ '#' ∧ ¬(c = '\'' ∨ c = '"') ∧
        isDigit c = false ∧ isAlpha c = false ∧ c ≠ '.')) = true := by decide
  intro e he
  obtain ⟨hlast, hhead⟩ := hall e he
  refine ⟨hlast, fun c hc => ?_⟩
  rw [Option.mem_def.mp hc, Option.all_some] at hhead
  exact of_decide_eq_true hhead

theorem isToken_symbol (hmem : (c :: cs, kind) ∈ symbols) (hfound : IsFound stop (c :: cs, kind)) :
    IsToken stop c cs (kind, String.ofList (c :: cs)) := by
  obtain ⟨hlast, hhead⟩ := symbols_scanned _ hmem
  obtain ⟨hvisible, hcomment, hquote, hdigit, halpha, hdot⟩ := hhead c rfl
  refine ⟨hvisible, hlast, fun rest h => ?_⟩
  unfold Lexeme.scan
  rw [if_neg hcomment, if_neg hquote, if_neg (by simp [hdigit]), if_neg (by simp [halpha]),
    if_neg hdot, symbol_eq hmem hfound h]
  simp [plain]

/-- A symbol that is told by its kind. -/
theorem writes_face {k : TokenKind} (hmem : (k.spelling.toList, k) ∈ symbols)
    (hfound : IsFound stop (k.spelling.toList, k)) :
    Writes stop k.spelling.toList k.face := by
  cases hspelling : k.spelling.toList with
  | nil =>
    rw [hspelling] at hmem
    exact absurd hmem (by simp [symbols])
  | cons c cs =>
    rw [hspelling] at hmem hfound
    refine ⟨c, cs, rfl, ?_⟩
    have htoken := isToken_symbol hmem hfound
    rwa [← hspelling, String.ofList_toList] at htoken

theorem spells_face {k : TokenKind} (hmem : (k.spelling.toList, k) ∈ symbols)
    (hfound : IsFound stop (k.spelling.toList, k)) (hdepth : ∀ depth, depthAfter depth k = depth) :
    Spells stop k.spelling.toList [k.face] :=
  (writes_face hmem hfound).spells hdepth

theorem spells_binary (op : BinaryOp) :
    Spells afterSymbol op.symbol.toList [TokenKind.face (.binary op)] := by
  have hmem : (op.symbol.toList, .binary op) ∈ symbols := by cases op <;> decide
  exact spells_face hmem (isFound_of_mem _ hmem) fun _ => rfl

/-- What stands between brackets is read as it is outside of them. -/
theorem spells_enclosed (b : Bracket) {fs : List Face} (h : Spells stop cs fs)
    (hstop : ∀ x ∈ (TokenKind.closing b).spelling.toList.head?, stop x = true) :
    Spells (fun _ => true)
      ((TokenKind.opening b).spelling.toList ++ cs ++ (TokenKind.closing b).spelling.toList)
      (TokenKind.face (.opening b) :: fs ++ [TokenKind.face (.closing b)]) := by
  intro depth rest ps _ hcuts
  obtain ⟨o, os, ho, hopen⟩ := @writes_face (fun _ => true) (.opening b)
    (by cases b <;> decide) (by cases b <;> decide)
  obtain ⟨d, ds, hd, hclose⟩ := @writes_face (fun _ => true) (.closing b)
    (by cases b <;> decide) (by cases b <;> decide)
  rw [hd] at hstop
  rw [ho, hd]
  have hany (rest : List Char) : Follows (fun _ => true) rest := fun _ _ => rfl
  obtain ⟨y, hy, -, hcuts⟩ := hclose.cuts (n := depth + 1) (a := false) (b := false) nofun
    (hany rest) hcuts
  obtain ⟨qs, hinline, hcuts⟩ := h (depth + 1) _ _ (.cons (hstop d rfl) _) hcuts
  obtain ⟨x, hx, -, hcuts⟩ := hopen.cuts (n := depth) (a := false) (b := false) nofun
    (hany _) hcuts
  refine ⟨.token x :: (qs ++ [.token y]), ?_, ?_⟩
  · rw [← hx, ← hy]
    exact .token x (hinline.append (.token y .nil))
  · simpa using hcuts

/-! ## Words and numbers -/

/-- A character that neither goes on with a word nor makes a string of it. -/
def afterWord (c : Char) : Bool := !isAlphaNumeric c && c != '\'' && c != '"'

/-- A character that goes on with no literal. -/
def afterLiteral (c : Char) : Bool := afterWord c && c != '.'

theorem isAlpha_of_isDigit {c : Char} (h : isDigit c = true) : isAlpha c = false := by
  have hdigit : 48 ≤ c.toNat ∧ c.toNat ≤ 57 := by
    simpa [isDigit, Char.le_def, UInt32.le_iff_toNat_le] using h
  have hlow : ¬ 'a' ≤ c := by
    rw [Char.le_def, UInt32.le_iff_toNat_le]
    have : ('a' : Char).val.toNat = 97 := rfl
    have : c.val.toNat = c.toNat := rfl
    omega
  have hhigh : ¬ 'A' ≤ c := by
    rw [Char.le_def, UInt32.le_iff_toNat_le]
    have : ('A' : Char).val.toNat = 65 := rfl
    have : c.val.toNat = c.toNat := rfl
    omega
  have hline : c ≠ '_' := by
    rintro rfl
    exact absurd hdigit (by decide)
  have hwide : ¬127 < c.toNat := by omega
  simp [isAlpha, hlow, hhigh, hline, hwide]

/-- Characters of a class, and what comes after them. -/
theorem takeWhile_of_follows {p : Char → Bool} {cs rest : List Char} (hcs : ∀ c ∈ cs, p c = true)
    (hrest : Follows (fun c => !p c) rest) :
    (cs ++ rest).takeWhile p = cs ∧ (cs ++ rest).dropWhile p = rest := by
  rw [List.takeWhile_append_of_pos hcs, List.dropWhile_append_of_pos hcs]
  cases rest with
  | nil => simp
  | cons c rest =>
    have hc : p c = false := by simpa using hrest c rfl
    simp [hc]

theorem headIs_of_follows {p : Char → Bool} {rest : List Char}
    (hrest : Follows (fun c => !p c) rest) :
    headIs p rest = false := by
  cases rest with
  | nil => rfl
  | cons c rest =>
    have hc : p c = false := by simpa using hrest c rfl
    exact hc

theorem getLast?_ne_of_all {p : Char → Bool} {c : Char} (hc : p c = false) {cs : List Char}
    (h : ∀ x ∈ cs, p x = true) : cs.getLast? ≠ some c := by
  intro hlast
  have := h c (List.mem_of_getLast? hlast)
  rw [hc] at this
  cases this

/-- A word is read whole. -/
theorem isToken_word {c : Char} {cs : List Char} (hc : isAlpha c = true)
    (hcs : ∀ x ∈ cs, isAlphaNumeric x = true) :
    IsToken afterWord c cs
      (TokenKind.ofWord (String.ofList (c :: cs)), String.ofList (c :: cs)) := by
  have hall : ∀ x ∈ c :: cs, isAlphaNumeric x = true := by
    rw [List.forall_mem_cons]
    exact ⟨by simp [isAlphaNumeric, hc], hcs⟩
  have hne {x : Char} (hx : isAlpha x = false) : c ≠ x := by
    rintro rfl
    rw [hc] at hx
    cases hx
  refine ⟨⟨?_, hne (by decide), hne (by decide)⟩,
    getLast?_ne_of_all (p := isAlphaNumeric) (by decide) hall, ?_⟩
  · have h₁ := hne (x := ' ') (by decide)
    have h₂ := hne (x := '\t') (by decide)
    have h₃ := hne (x := '\r') (by decide)
    have h₄ := hne (x := '\x0C') (by decide)
    simp [isBlank, h₁, h₂, h₃, h₄]
  · intro rest hrest
    have hdigit : isDigit c = false := by
      rw [Bool.eq_false_iff]
      intro h
      rw [isAlpha_of_isDigit h] at hc
      cases hc
    have hquote : ¬(c = '\'' ∨ c = '"') := not_or.mpr ⟨hne (by decide), hne (by decide)⟩
    have hends : Follows (fun x => !isAlphaNumeric x) rest :=
      hrest.mono fun x hx => by simp [afterWord] at hx; simp [hx]
    obtain ⟨htake, hdrop⟩ := takeWhile_of_follows hall hends
    rw [List.cons_append] at htake hdrop
    unfold Lexeme.scan
    rw [if_neg (hne (by decide)), if_neg hquote, if_neg (by simp [hdigit]), if_pos hc]
    unfold word
    simp only [htake, hdrop]
    split
    case h_5 => simp [plain]
    all_goals exact absurd (hrest _ rfl) (by decide)

/-- A name is written as it is. -/
theorem writes_identifier {id : String} (h : IsIdentifier id) :
    Writes afterWord id.toList (.identifier, id) := by
  obtain ⟨c, cs, hid, hc, hcs⟩ := h.letters
  have htoken := isToken_word hc hcs
  have hkind : TokenKind.ofWord id = .identifier := by
    rw [TokenKind.ofWord, h.unreserved]
  rw [← hid, String.ofList_toList, hkind] at htoken
  exact ⟨c, cs, hid, htoken⟩

theorem spells_identifier {id : String} (h : IsIdentifier id) :
    Spells afterWord id.toList [(.identifier, id)] :=
  (writes_identifier h).spells fun _ => rfl

theorem ofWord_spelling (k : Keyword) : TokenKind.ofWord k.spelling = .keyword k := by
  cases k <;> rfl

theorem letters_spelling (k : Keyword) : ∃ c cs, k.spelling.toList = c :: cs ∧
    isAlpha c = true ∧ ∀ x ∈ cs, isAlphaNumeric x = true := by
  cases k <;> exact ⟨_, _, rfl, by decide, List.all_eq_true.mp (by decide)⟩

/-- A reserved word is written as its kind tells. -/
theorem writes_keyword (k : Keyword) :
    Writes afterWord k.spelling.toList (TokenKind.face (.keyword k)) := by
  obtain ⟨c, cs, hk, hc, hcs⟩ := letters_spelling k
  have htoken := isToken_word hc hcs
  rw [← hk, String.ofList_toList, ofWord_spelling] at htoken
  exact ⟨c, cs, hk, htoken⟩

theorem spells_keyword (k : Keyword) :
    Spells afterWord k.spelling.toList [TokenKind.face (.keyword k)] :=
  (writes_keyword k).spells fun _ => rfl

/-- Two reserved words with a blank between them. -/
theorem spells_pair (k k' : Keyword) :
    Spells afterWord (k.spelling.toList ++ ' ' :: k'.spelling.toList)
      [TokenKind.face (.keyword k), TokenKind.face (.keyword k')] :=
  (spells_keyword k).followed (spells_keyword k').blank (by decide)

/-- Only after a zero a letter may be part of a number. -/
theorem number_eq_decimal {c : Char} {cs : List Char} (h : ∀ x ∈ cs.head?, x ≠ 'x' ∧ x ≠ 'X') :
    number (c :: cs) = decimal (c :: cs) := by
  unfold number
  split
  · next heq =>
    cases heq
    exact absurd rfl (h 'x' rfl).1
  · next heq =>
    cases heq
    exact absurd rfl (h 'X' rfl).2
  · rfl

/-- Digits and points are read whole; with one point among them at most they are a number. -/
theorem decimal_eq {cs : List Char} (hcs : ∀ x ∈ cs, isNumeral x = true) {kind : TokenKind}
    (hkind : cs.count '.' = 0 ∧ kind = .integer ∨ cs.count '.' = 1 ∧ kind = .float)
    {rest : List Char} (hrest : Follows afterLiteral rest) :
    decimal (cs ++ rest) = plain kind cs rest := by
  have hnumeral : Follows (fun x => !isNumeral x) rest := hrest.mono fun x hx => by
    simp [afterLiteral, afterWord, isAlphaNumeric] at hx
    simp [isNumeral, hx]
  have halpha : Follows (fun x => !isAlpha x) rest := hrest.mono fun x hx => by
    simp [afterLiteral, afterWord, isAlphaNumeric] at hx
    simp [hx]
  obtain ⟨htake, hdrop⟩ := takeWhile_of_follows hcs hnumeral
  unfold decimal
  simp only [htake, hdrop, headIs_of_follows halpha]
  rcases hkind with ⟨hcount, rfl⟩ | ⟨hcount, rfl⟩
  · simp [hcount]
  · simp [hcount]

/-- Digits with one point among them at most are a number. -/
theorem isToken_numeral {c : Char} {cs : List Char} (hc : isDigit c = true)
    (hcs : ∀ x ∈ cs, isNumeral x = true) {kind : TokenKind}
    (hkind : (c :: cs).count '.' = 0 ∧ kind = .integer ∨ (c :: cs).count '.' = 1 ∧ kind = .float) :
    IsToken afterLiteral c cs (kind, String.ofList (c :: cs)) := by
  have hall : ∀ x ∈ c :: cs, isNumeral x = true := by
    rw [List.forall_mem_cons]
    exact ⟨by simp [isNumeral, hc], hcs⟩
  have hne {x : Char} (hx : isDigit x = false) : c ≠ x := by
    rintro rfl
    rw [hc] at hx
    cases hx
  refine ⟨⟨?_, hne (by decide), hne (by decide)⟩,
    getLast?_ne_of_all (p := isNumeral) (by decide) hall, ?_⟩
  · have h₁ := hne (x := ' ') (by decide)
    have h₂ := hne (x := '\t') (by decide)
    have h₃ := hne (x := '\r') (by decide)
    have h₄ := hne (x := '\x0C') (by decide)
    simp [isBlank, h₁, h₂, h₃, h₄]
  · intro rest hrest
    have hquote : ¬(c = '\'' ∨ c = '"') := not_or.mpr ⟨hne (by decide), hne (by decide)⟩
    -- the second character is one of the number, or one that may follow it
    have hsecond : ∀ x ∈ (cs ++ rest).head?, x ≠ 'x' ∧ x ≠ 'X' := by
      intro x hx
      have hx : isNumeral x = true ∨ afterLiteral x = true := by
        cases cs with
        | nil => exact .inr (hrest x hx)
        | cons d ds =>
          cases hx
          exact .inl (hcs _ List.mem_cons_self)
      constructor
      · rintro rfl
        exact absurd hx (by decide)
      · rintro rfl
        exact absurd hx (by decide)
    unfold Lexeme.scan
    rw [if_neg (hne (by decide)), if_neg hquote, if_pos hc, number_eq_decimal hsecond,
      ← List.cons_append, decimal_eq hall hkind hrest]
    simp [plain]

theorem isNumeral_of_isDigit {c : Char} (h : isDigit c = true) : isNumeral c = true := by
  simp [isNumeral, h]

theorem count_of_digits {cs : List Char} (h : ∀ c ∈ cs, isDigit c = true) : cs.count '.' = 0 :=
  List.count_eq_zero.mpr fun hmem => absurd (h _ hmem) (by decide)

/-- Digits are a number. -/
theorem writes_integer {cs : List Char} (hne : cs ≠ []) (hcs : ∀ c ∈ cs, isDigit c = true) :
    Writes afterLiteral cs (.integer, String.ofList cs) := by
  obtain ⟨c, cs, rfl⟩ := List.exists_cons_of_ne_nil hne
  have hcount := count_of_digits hcs
  rw [List.forall_mem_cons] at hcs
  exact ⟨c, cs, rfl, isToken_numeral hcs.1 (fun x hx => isNumeral_of_isDigit (hcs.2 x hx))
    (.inl ⟨hcount, rfl⟩)⟩

theorem spells_integer {cs : List Char} (hne : cs ≠ []) (hcs : ∀ c ∈ cs, isDigit c = true) :
    Spells afterLiteral cs [(.integer, String.ofList cs)] :=
  (writes_integer hne hcs).spells fun _ => rfl

/-- Digits with a point behind them or between them are a number. -/
theorem writes_float {whole fraction : List Char} (hne : whole ≠ [])
    (hwhole : ∀ c ∈ whole, isDigit c = true) (hfraction : ∀ c ∈ fraction, isDigit c = true) :
    Writes afterLiteral (whole ++ '.' :: fraction)
      (.float, String.ofList (whole ++ '.' :: fraction)) := by
  obtain ⟨c, whole, rfl⟩ := List.exists_cons_of_ne_nil hne
  have hcount : ((c :: whole) ++ '.' :: fraction).count '.' = 1 := by
    rw [List.count_append, count_of_digits hwhole, List.count_cons_self, count_of_digits hfraction]
  rw [List.forall_mem_cons] at hwhole
  refine ⟨c, whole ++ '.' :: fraction, rfl, isToken_numeral hwhole.1 ?_ (.inr ⟨hcount, rfl⟩)⟩
  intro x hx
  rcases List.mem_append.mp hx with hx | hx
  · exact isNumeral_of_isDigit (hwhole.2 x hx)
  · rcases List.mem_cons.mp hx with rfl | hx
    · rfl
    · exact isNumeral_of_isDigit (hfraction x hx)

theorem spells_float {whole fraction : List Char} (hne : whole ≠ [])
    (hwhole : ∀ c ∈ whole, isDigit c = true) (hfraction : ∀ c ∈ fraction, isDigit c = true) :
    Spells afterLiteral (whole ++ '.' :: fraction)
      [(.float, String.ofList (whole ++ '.' :: fraction))] :=
  (writes_float hne hwhole hfraction).spells fun _ => rfl

/-- A point that no digit follows. -/
theorem isToken_dot : IsToken (fun c => !isDigit c) '.' [] (TokenKind.face .dot) := by
  refine ⟨by decide, by decide, fun rest hrest => ?_⟩
  have hscan : Lexeme.scan '.' rest =
      if headIs isDigit rest then decimal ('.' :: rest) else plain .dot ['.'] rest := rfl
  rw [List.nil_append, hscan, headIs_of_follows hrest]
  rfl

theorem spells_dot : Spells (fun c => !isDigit c) ['.'] [TokenKind.face .dot] :=
  isToken_dot.spells fun _ => rfl

end Lexer

end Toolchain
