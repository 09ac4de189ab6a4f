import Toolchain.Proofs.Token.Pieces

/-!
# The lines of a program

A newline that stands in no string, comment or bracket, and that no backslash hides, ends a line of
the program if anything stands on its line of the text and the line of the program has begun. This
is the end of a line that has tokens, except after a hidden newline: a blank line there ends a line
without tokens, and an empty one does not end the line it should.

## Main definitions

* `Lexer.begins`: whether a line of the program has begun
* `Lexer.hasTokens`: whether a line of the program has tokens
* `Lexer.tidy`: every line that goes on after a hidden newline has a token

## Main results

* `Lexer.closes_iff`: which newlines end a line
* `newLines_of_tokenize`: **the newline tokens of a text**, and that those of a tidy text end the
  lines that have tokens
-/

namespace Toolchain

namespace Lexer

open Lexeme

/-! ## Which newlines end a line -/

/-- Whether a line of the program has begun after some pieces: a token was found, or a newline was
hidden, since the last line was ended. -/
def begins (begun : Bool) : List Piece → Bool
  | [] => begun
  | .token _ :: ps => begins true ps
  | .joined _ :: ps => begins true ps
  | .ending true :: ps => begins false ps
  | _ :: ps => begins begun ps

/-- Whether the line of the text is empty after some characters. -/
def isBare (bare : Bool) (cs : List Char) : Bool :=
  match cs.getLast? with
  | none => bare
  | some c => c == '\n'

theorem isBare_append (bare : Bool) (cs ds : List Char) :
    isBare bare (cs ++ ds) = isBare (isBare bare cs) ds := by
  unfold isBare
  rw [List.getLast?_append]
  cases ds.getLast? <;> rfl

theorem begins_cons (begun : Bool) (p : Piece) (ps : List Piece) :
    begins begun (p :: ps) = begins (begins begun [p]) ps := by
  cases p with
  | ending closes => cases closes <;> rfl
  | _ => rfl

theorem isBare_of_ne_nil {cs : List Char} (hcs : cs ≠ []) (bare : Bool) :
    isBare bare cs = (cs.getLast? == some '\n') := by
  unfold isBare
  cases hlast : cs.getLast? with
  | none => exact absurd (List.getLast?_eq_none_iff.mp hlast) hcs
  | some c => rfl

/-- What is left of some pieces after the first one. -/
theorem Cuts.tail {depth : Nat} {front bare : Bool} {cs : List Char} {p : Piece} {ps : List Piece}
    (h : Cuts depth front bare cs (p :: ps)) :
    ∃ depth' front' cs', Cuts depth' front' (isBare bare p.text) cs' ps ∧
      (!front') = begins (!front) [p] ∧ ∀ closes, p = .ending closes →
        closes = (!front && !bare) := by
  cases h with
  | joined _ _ hcs h =>
    rcases hcs with rfl | rfl
    · exact ⟨_, false, _, h, rfl, nofun⟩
    · exact ⟨_, false, _, h, rfl, nofun⟩
  | enclosed _ hdepth h => exact ⟨_, _, _, h, rfl, nofun⟩
  | ending h =>
    refine ⟨_, _, _, h, ?_, ?_⟩
    · cases front <;> cases bare <;> rfl
    · rintro _ ⟨⟩
      rfl
  | @blank depth _ c rest _ _ hc h =>
    have hline : isBare bare [c] = false := by
      rw [isBare_of_ne_nil (List.cons_ne_nil _ _)]
      refine beq_eq_false_iff_ne.mpr ?_
      rintro ⟨⟩
      cases hc
    refine ⟨depth, front, rest, ?_, rfl, nofun⟩
    rw [Piece.text, hline]
    exact h
  | @hidden depth rest _ _ h =>
    have hline : isBare bare ('#' :: rest.takeWhile (· != '\n')) = false := by
      rw [isBare_of_ne_nil (List.cons_ne_nil _ _)]
      exact beq_eq_false_iff_ne.mpr (getLast?_comment rest)
    refine ⟨depth, true, rest.dropWhile (· != '\n'), ?_, rfl, nofun⟩
    rw [Piece.text, hline]
    exact h
  | @token depth _ c rest _ _ _ _ _ _ h =>
    refine ⟨depthAfter depth (next c rest).kind, false, (next c rest).rest, ?_, rfl, nofun⟩
    rw [Piece.text, isBare_of_ne_nil (taken_next c rest).some]
    exact h

/-- A newline ends a line if the line of the program has begun and the line of the text is not
empty. -/
theorem closes_of_cuts {before after : List Piece} {closes : Bool} {depth : Nat} {front bare : Bool}
    {cs : List Char} (h : Cuts depth front bare cs (before ++ .ending closes :: after)) :
    closes = (begins (!front) before && !isBare bare (before.flatMap Piece.text)) := by
  induction before generalizing depth front bare cs with
  | nil =>
    obtain ⟨-, -, -, -, -, hcloses⟩ := h.tail
    exact hcloses closes rfl
  | cons p before ih =>
    obtain ⟨depth', front', cs', hcuts, hbegins, -⟩ := h.tail
    rw [ih hcuts, hbegins, ← begins_cons, List.flatMap_cons, isBare_append]

/-- **Which newlines end a line**: those that stand on a line of the text that is not empty, once
the line of the program has begun. -/
theorem closes_iff {t : Text} {before after : List Piece} {closes : Bool}
    (h : pieces t = before ++ .ending closes :: after) :
    closes = true ↔ begins false before = true ∧
      ∃ c, (before.flatMap Piece.text).getLast? = some c ∧ c ≠ '\n' := by
  have hcuts : Cuts 0 true true t.chars (pieces t) := cuts_cut 0 0 true true t.chars
  rw [h] at hcuts
  rw [closes_of_cuts hcuts, Bool.and_eq_true]
  refine and_congr_right fun _ => ?_
  unfold isBare
  cases (before.flatMap Piece.text).getLast? with
  | none => simp
  | some c => simp

/-! ## Tidy texts -/

/-- Whether every line that goes on after a hidden newline has a token. A token that is no string
because its line ends may hide a newline too. -/
def tidy (awaiting : Bool) : List Piece → Bool
  | [] => true
  | .joined _ :: ps => tidy true ps
  | .token x :: ps => tidy x.endsLine ps
  | .ending _ :: ps => !awaiting && tidy false ps
  | _ :: ps => tidy awaiting ps

/-- Whether there was a token since the last line was ended. -/
def hasTokens (content : Bool) : List Piece → Bool
  | [] => content
  | .token _ :: ps => hasTokens true ps
  | .ending true :: ps => hasTokens false ps
  | _ :: ps => hasTokens content ps

/-- Whether every newline among some tokens comes after a token of its line. -/
def isOrdered (content : Bool) : List TokenKind → Bool
  | [] => true
  | .newLine :: ks => content && isOrdered false ks
  | k :: ks => isOrdered (content || !k.isLayout) ks

/-- A place in a tidy text, in front of some pieces. If no line has begun there are no tokens on it.
If one has, there are tokens unless one is awaited, and then the line of the text is not empty. -/
inductive Place (content : Bool) (ps : List Piece) : Prop where
  | intro (depth : Nat) (front bare awaiting : Bool) (cs : List Char)
      (hcuts : Cuts depth front bare cs ps) (htidy : tidy awaiting ps = true)
      (fresh : front = true → content = false)
      (begun : front = false → awaiting = false → content = true)
      (filled : front = false → awaiting = false → depth = 0 → bare = false)

theorem hasTokens_cons (content : Bool) (p : Piece) (ps : List Piece) :
    hasTokens content (p :: ps) = hasTokens (hasTokens content [p]) ps := by
  cases p with
  | ending closes => cases closes <;> rfl
  | _ => rfl

theorem isOrdered_cons {k : TokenKind} (h : k.isLayout = false) (content : Bool)
    (ks : List TokenKind) : isOrdered content (k :: ks) = isOrdered true ks := by
  cases k with
  | newLine | indentation | finish => cases h
  | _ => simp [isOrdered, TokenKind.isLayout]

/-- The indentation with which a text may begin is no token of its line. -/
theorem isOrdered_tokensOf (ps : List Piece) :
    isOrdered false ((tokensOf ps).map Token.kind) =
      isOrdered false ((render {} ps).map Token.kind) := by
  unfold tokensOf
  dsimp only
  split
  · rfl
  · show isOrdered false ((margin [] {} ps).kind :: _) = _
    rw [margin_kind]
    rfl

namespace Place

variable {content closes : Bool} {p : Piece} {ps : List Piece}

theorem start {t : Text} (h : tidy false (pieces t) = true) : Place false (pieces t) := by
  refine .intro 0 true true false t.chars (cuts_cut 0 0 true true t.chars) h (fun _ => rfl) ?_ ?_
  · intro hfront
    cases hfront
  · intro hfront
    cases hfront

/-- A newline ends a line if there are tokens on it. -/
theorem closes_eq_content (h : Place content (.ending closes :: ps)) : closes = content := by
  obtain ⟨depth, front, bare, awaiting, cs, hcuts, htidy, fresh, begun, filled⟩ := h
  obtain ⟨hawaiting, -⟩ := Bool.and_eq_true_iff.mp htidy
  obtain rfl : awaiting = false := by simpa using hawaiting
  cases hcuts with
  | ending h =>
    cases front with
    | true => rw [fresh rfl]; rfl
    | false => rw [begun rfl rfl, filled rfl rfl rfl]; rfl

theorem kind_token {x : Lexeme} (h : Place content (.token x :: ps)) : x.kind.isLayout = false := by
  obtain ⟨depth, front, bare, awaiting, cs, hcuts, -, -, -, -⟩ := h
  cases hcuts with
  | @token _ _ c rest => exact (taken_next c rest).kind

/-- After a piece of a tidy text the text is tidy. -/
theorem tail (h : Place content (p :: ps)) : Place (hasTokens content [p]) ps := by
  obtain ⟨depth, front, bare, awaiting, cs, hcuts, htidy, fresh, begun, filled⟩ := h
  cases hcuts with
  | joined _ _ _ h =>
    refine .intro _ _ _ true _ h htidy ?_ ?_ ?_
    · intro hfront
      cases hfront
    · intro _ hawaiting
      cases hawaiting
    · intro _ hawaiting
      cases hawaiting
  | enclosed _ hdepth h =>
    refine .intro depth front true awaiting _ h htidy fresh begun ?_
    intro _ _ hzero
    exact absurd hzero (Nat.pos_iff_ne_zero.mp hdepth)
  | ending h =>
    obtain ⟨hawaiting, htidy⟩ := Bool.and_eq_true_iff.mp htidy
    obtain rfl : awaiting = false := by simpa using hawaiting
    cases front with
    | true =>
      obtain rfl : content = false := fresh rfl
      refine .intro 0 true true false _ h htidy (fun _ => rfl) ?_ ?_
      · intro hfront
        cases hfront
      · intro hfront
        cases hfront
    | false =>
      -- the line of the text is not empty, so that the newline ends the line
      obtain rfl : bare = false := filled rfl rfl rfl
      refine .intro 0 true true false _ h htidy (fun _ => rfl) ?_ ?_
      · intro hfront
        cases hfront
      · intro hfront
        cases hfront
  | blank _ _ h => exact .intro depth front false awaiting _ h htidy fresh begun fun _ _ _ => rfl
  | hidden _ h =>
    refine .intro depth true false awaiting _ h htidy fresh ?_ ?_
    · intro hfront
      cases hfront
    · intro hfront
      cases hfront
  | @token _ _ c rest _ _ _ _ _ _ h =>
    refine .intro _ _ _ (next c rest).endsLine _ h htidy ?_ ?_ ?_
    · intro hfront
      cases hfront
    · intro _ _
      rfl
    · intro _ hawaiting _
      exact hawaiting

/-- Every newline ends a line if there are tokens on it. -/
theorem closes_eq_hasTokens {before after : List Piece}
    (h : Place content (before ++ .ending closes :: after)) :
      closes = hasTokens content before := by
  induction before generalizing content with
  | nil => exact h.closes_eq_content
  | cons p before ih =>
    rw [hasTokens_cons]
    exact ih h.tail

/-- Every newline token comes after a token of its line. -/
theorem isOrdered_render (h : Place content ps) (pos : Position) :
    isOrdered content ((render pos ps).map Token.kind) = true := by
  induction ps generalizing content pos with
  | nil => rfl
  | cons p ps ih =>
    have hrest := fun pos => ih h.tail pos
    cases p with
    | blank | hidden | joined | enclosed => exact hrest _
    | ending closes =>
      obtain rfl := h.closes_eq_content
      cases closes with
      | false => exact hrest _
      | true =>
        show isOrdered true (.newLine :: (margin [] (pos.next '\n') ps).kind :: _) = true
        rw [margin_kind]
        exact hrest _
    | token x =>
      show isOrdered content (x.kind :: (render (pos.after x.taken) ps).map Token.kind) = true
      rw [isOrdered_cons h.kind_token]
      exact hrest _

end Place

end Lexer

open Lexer

/-- **Which newlines end a line.** The tokens of a text are those of its pieces, and there a newline
ends a line exactly if a token or a hidden newline came before it on the line of the program, and
something stands on its line of the text. If every line that goes on after a hidden newline has a
token, then every newline token comes after a token of its line, and a newline ends a line exactly
if there are tokens on it. -/
theorem newLines_of_tokenize (t : Text) :
    (tokenize t).1 = tokensOf (pieces t) ∧ (pieces t).flatMap Piece.text = t.chars ∧
      (∀ before closes after, pieces t = before ++ .ending closes :: after →
        (closes = true ↔ begins false before = true ∧
          ∃ c, (before.flatMap Piece.text).getLast? = some c ∧ c ≠ '\n')) ∧
      (tidy false (pieces t) = true →
        isOrdered false ((tokenize t).1.map Token.kind) = true ∧
          ∀ before closes after, pieces t = before ++ .ending closes :: after →
            closes = hasTokens false before) := by
  refine ⟨tokenize_eq_tokensOf t, text_cuts (cuts_cut 0 0 true true t.chars), ?_, ?_⟩
  · intro before closes after h
    exact closes_iff h
  · intro htidy
    have hplace := Place.start htidy
    constructor
    · rw [tokenize_eq_tokensOf, isOrdered_tokensOf]
      exact hplace.isOrdered_render {}
    · intro before closes after h
      exact (h ▸ hplace).closes_eq_hasTokens

/-- A hidden newline and a bracket are on lines that have tokens. -/
theorem newLines_of_tokenize_tidy :
    let t := Text.ofString "x = (1,\n\n  2)\ny \\\n  + 1 # c\n\nz\n"
    tidy false (pieces t) = true ∧ isOrdered false ((tokenize t).1.map Token.kind) = true := by
  have htidy : tidy false
      (pieces (Text.ofString "x = (1,\n\n  2)\ny \\\n  + 1 # c\n\nz\n")) = true := by
    decide +kernel
  exact ⟨htidy, ((newLines_of_tokenize _).2.2.2 htidy).1⟩

/-- An empty line after a hidden newline does not end the line, so that the next one is fused with
it; and one with blanks ends a line that has no tokens. -/
theorem not_newLines_hidden :
    (tokenize (Text.ofString "x \\\n\ny\n")).1.map Token.kind =
        [.identifier, .identifier, .newLine, .indentation, .finish] ∧
      (tokenize (Text.ofString "\\\n  \nx")).1.map Token.kind =
        [.newLine, .indentation, .identifier, .finish] := by
  decide +kernel

end Toolchain
