import Toolchain.Proofs.Token.Segment

/-!
# A newline at the end of a text

A newline that is put behind a text does not change how the text is cut: no token reads on over it,
unless the token is invalid. If the text has no line that is ended by a newline, the new newline
adds at most the end of that line.

## Main definitions

* `LineEnd`: the tokens that may stand at the end of a text

## Main results

* `Text.chars_newline`: the characters of the text and the newline
* `Lexer.cuts_newline`: the pieces of the text and the newline
* `tokenize_newline`: the tokens of the text and the newline
-/

namespace Toolchain

theorem Text.chars_newline (t : Text) : (t ++ [10]).chars = t.chars ++ ['\n'] :=
  chars_append_ascii t (by decide) []

/-- A token that is not invalid does not read on over a newline. -/
theorem Lexeme.next_newline {c : Char} (rest : List Char) (h : (next c rest).kind ≠ .invalid) :
    next c (rest ++ ['\n']) = (next c rest).before ['\n'] :=
  next_append rest h (.cons rfl []) fun _ _ => .cons rfl []

/-! ## Pieces -/

/-- The tokens that may stand at the end of a text: the end of the input, and before it the end of
the last line and an indentation of nothing. -/
inductive LineEnd : List Token → Prop where
  | finish (e : Token) (he : e.kind = .finish) : LineEnd [e]
  | newLine (a b e : Token) (ha : a.kind = .newLine) (hb : b.kind = .indentation)
    (hvalue : b.value = "")
    (he : e.kind = .finish) : LineEnd [a, b, e]

/-- Tokens that end with the end of the input, and those that end with that of a line in its
place. -/
structure Ended (ts ts' : List Token) : Prop where
  exists_before : ∃ before e tail, ts = before ++ [e] ∧ e.kind = .finish ∧ ts' = before ++ tail ∧
    LineEnd tail

theorem Ended.cons {ts ts' : List Token} (h : Ended ts ts') (t : Token) :
    Ended (t :: ts) (t :: ts') := by
  obtain ⟨before, e, tail, rfl, he, rfl, htail⟩ := h.exists_before
  exact ⟨t :: before, e, tail, rfl, he, rfl, htail⟩

theorem Ended.prepend {ts ts' : List Token} (h : Ended ts ts') (first : List Token) :
    Ended (first ++ ts) (first ++ ts') := by
  induction first with
  | nil => exact h
  | cons t first ih => exact ih.cons t

namespace Lexer

open Lexeme

/-- Pieces, and those that end with a newline in addition. -/
structure Newlined (ps qs : List Piece) : Prop where
  render : ∀ p, Ended (render p ps) (render p qs)
  margin : (∃ x, .token x ∈ ps) → ∀ blanks p, margin blanks p qs = margin blanks p ps

/-- A piece in front. -/
theorem Newlined.cons {ps qs : List Piece} (h : Newlined ps qs) {q : Piece}
    (hq : ∀ x, q ≠ .token x) (hclosed : q ≠ .ending true) : Newlined (q :: ps) (q :: qs) where
  render p := by
    cases q with
    | token x => exact absurd rfl (hq x)
    | ending closes =>
      cases closes with
      | true => exact absurd rfl hclosed
      | false => exact h.render _
    | blank | hidden | joined | enclosed => exact h.render _
  margin hx' blanks p := by
    have hx : ∃ x, .token x ∈ ps := by
      obtain ⟨x, hx⟩ := hx'
      exact ⟨x, (List.mem_cons.mp hx).resolve_left (hq x).symm⟩
    cases q with
    | token x => exact absurd rfl (hq x)
    | blank | hidden | ending => exact h.margin hx _ _
    | joined | enclosed => rfl

/-- A newline behind what is left. -/
theorem cuts_newline {depth : Nat} {front bare : Bool} {cs : List Char} {ps : List Piece}
    (h : Cuts depth front bare cs ps) (hvalid : ∀ x, .token x ∈ ps → x.kind ≠ .invalid)
    (hclosed : .ending true ∉ ps) :
    ∃ qs, Cuts depth front bare (cs ++ ['\n']) qs ∧ Newlined ps qs := by
  induction h with
  | nil depth front bare =>
    by_cases hdepth : 0 < depth
    · refine ⟨_, .enclosed bare hdepth (.nil _ _ _), fun p => ?_, fun ⟨_, hx⟩ => nomatch hx⟩
      exact ⟨[], _, _, rfl, rfl, rfl, .finish _ rfl⟩
    · obtain rfl : depth = 0 := by omega
      refine ⟨_, .ending (.nil _ _ _), fun p => ?_, fun ⟨_, hx⟩ => nomatch hx⟩
      cases !front && !bare with
      | false => exact ⟨[], _, _, rfl, rfl, rfl, .finish _ rfl⟩
      | true => exact ⟨[], _, _, rfl, rfl, rfl, .newLine _ _ _ rfl rfl rfl rfl⟩
  | joined front bare hcs _ ih =>
    obtain ⟨qs, hcuts, hqs⟩ :=
      ih (fun x hx => hvalid x (List.mem_cons_of_mem _ hx)) fun h => hclosed
        (List.mem_cons_of_mem _ h)
    rw [List.append_assoc]
    exact ⟨_, .joined front bare hcs hcuts, hqs.cons (by simp) (by simp)⟩
  | enclosed bare hdepth _ ih =>
    obtain ⟨qs, hcuts, hqs⟩ :=
      ih (fun x hx => hvalid x (List.mem_cons_of_mem _ hx)) fun h => hclosed
        (List.mem_cons_of_mem _ h)
    exact ⟨_, .enclosed bare hdepth hcuts, hqs.cons (by simp) (by simp)⟩
  | ending _ ih =>
    obtain ⟨qs, hcuts, hqs⟩ :=
      ih (fun x hx => hvalid x (List.mem_cons_of_mem _ hx)) fun h => hclosed
        (List.mem_cons_of_mem _ h)
    exact ⟨_, .ending hcuts, hqs.cons (by simp) fun h => hclosed (h ▸ List.mem_cons_self)⟩
  | blank bare hc _ ih =>
    obtain ⟨qs, hcuts, hqs⟩ :=
      ih (fun x hx => hvalid x (List.mem_cons_of_mem _ hx)) fun h => hclosed
        (List.mem_cons_of_mem _ h)
    exact ⟨_, .blank bare hc hcuts, hqs.cons (by simp) (by simp)⟩
  | @hidden _ rest _ bare _ ih =>
    obtain ⟨qs, hcuts, hqs⟩ :=
      ih (fun x hx => hvalid x (List.mem_cons_of_mem _ hx)) fun h => hclosed
        (List.mem_cons_of_mem _ h)
    have hends : Follows (fun c => !(c != '\n')) ['\n'] := .cons rfl []
    have hline : (rest ++ ['\n']).takeWhile (· != '\n') = rest.takeWhile (· != '\n') :=
      takeWhile_append_of_follows hends rest
    rw [← dropWhile_append_of_follows hends] at hcuts
    refine ⟨.hidden ('#' :: (rest ++ ['\n']).takeWhile (· != '\n')) :: qs, .hidden bare hcuts, ?_⟩
    rw [hline]
    exact hqs.cons (by simp) (by simp)
  | @token _ _ c rest _ bare hnewline hblank hcomment hjoined _ ih =>
    obtain ⟨qs, hcuts, hqs⟩ :=
      ih (fun x hx => hvalid x (List.mem_cons_of_mem _ hx)) fun h => hclosed
        (List.mem_cons_of_mem _ h)
    have hkind := hvalid _ List.mem_cons_self
    have hnext := next_newline rest hkind
    have htoken : Cuts _ _ _ (c :: (rest ++ ['\n'])) _ := .token bare hnewline hblank hcomment
      (fun _ hc => ne_slash_of_next hkind hc.1) (by rw [hnext]; exact hcuts)
    rw [hnext] at htoken
    refine ⟨_, htoken, fun p => ?_, fun _ blanks p => rfl⟩
    exact (hqs.render (p.after (next c rest).taken)).cons _

/-- The tokens of pieces are of the kinds of the pieces. -/
theorem exists_mem_render {ps : List Piece} {x : Lexeme} (h : .token x ∈ ps) (p : Position) :
    ∃ t ∈ render p ps, t.kind = x.kind := by
  fun_induction render p ps with
  | case1 => cases h
  | case2 p y ps ih =>
    rcases List.mem_cons.mp h with h | h
    · obtain rfl := Piece.token.inj h
      exact ⟨_, List.mem_cons_self, rfl⟩
    · obtain ⟨t, ht, hkind⟩ := ih h
      exact ⟨t, List.mem_cons_of_mem _ ht, hkind⟩
  | case3 p ps ih =>
    have hmem := (List.mem_cons.mp h).resolve_left (by rintro ⟨⟩)
    obtain ⟨t, ht, hkind⟩ := ih hmem
    exact ⟨t, List.mem_cons_of_mem _ (List.mem_cons_of_mem _ ht), hkind⟩
  | case4 p q ps hq _ ih => exact ih ((List.mem_cons.mp h).resolve_left fun h => hq x h.symm)

theorem exists_newLine_of_render {ps : List Piece} (h : .ending true ∈ ps) (p : Position) :
    ∃ t ∈ render p ps, t.kind = .newLine := by
  fun_induction render p ps with
  | case1 => cases h
  | case2 p y ps ih =>
    have hmem := (List.mem_cons.mp h).resolve_left (by rintro ⟨⟩)
    obtain ⟨t, ht, hkind⟩ := ih hmem
    exact ⟨t, List.mem_cons_of_mem _ ht, hkind⟩
  | case3 p ps ih => exact ⟨_, List.mem_cons_self, rfl⟩
  | case4 p q ps _ hq ih => exact ih ((List.mem_cons.mp h).resolve_left fun h => hq h.symm)

theorem exists_token_of_render {ps : List Piece} {t : Token} {p : Position} (h : t ∈ render p ps)
    (hkind : t.kind.isLayout = false) : ∃ x, .token x ∈ ps := by
  fun_induction render p ps with
  | case1 =>
    obtain rfl := List.mem_singleton.mp h
    cases hkind
  | case2 p y ps ih => exact ⟨y, List.mem_cons_self⟩
  | case3 p ps ih =>
    rcases List.mem_cons.mp h with rfl | h
    · cases hkind
    rcases List.mem_cons.mp h with rfl | h
    · rw [margin_kind] at hkind
      cases hkind
    · obtain ⟨x, hx⟩ := ih h
      exact ⟨x, List.mem_cons_of_mem _ hx⟩
  | case4 p q ps _ _ ih =>
    obtain ⟨x, hx⟩ := ih h
    exact ⟨x, List.mem_cons_of_mem _ hx⟩

end Lexer

open Lexer

/-- A text without invalid tokens and without the end of a line keeps its tokens when a newline is
put behind it. -/
theorem tokenize_newline {t : Text}
    (hvalid : ∀ x ∈ (tokenize t).1, x.kind ≠ .invalid ∧ x.kind ≠ .newLine)
    (hsome : ∃ x ∈ (tokenize t).1, x.kind.isLayout = false) :
    Ended (tokenize t).1 (tokenize (t ++ [10])).1 := by
  have hcuts : Cuts 0 true true t.chars (pieces t) := cuts_cut 0 0 true true t.chars
  have hmem {x : Token} (hx : x ∈ render {} (pieces t)) : x ∈ (tokenize t).1 := by
    rw [tokenize_eq_tokensOf, tokensOf]
    exact List.mem_append_right _ hx
  obtain ⟨qs, hcuts', hqs⟩ := cuts_newline hcuts
    (fun x hx hkind => by
      obtain ⟨y, hy, heq⟩ := exists_mem_render hx {}
      exact (hvalid y (hmem hy)).1 (heq.trans hkind))
    fun h => by
      obtain ⟨y, hy, heq⟩ := exists_newLine_of_render h {}
      exact (hvalid y (hmem hy)).2 heq
  have hmargin : margin [] {} qs = margin [] {} (pieces t) := by
    refine hqs.margin ?_ [] {}
    obtain ⟨x, hx, hlayout⟩ := hsome
    rw [tokenize_eq_tokensOf, tokensOf] at hx
    rcases List.mem_append.mp hx with hx | hx
    · split at hx
      · cases hx
      · rw [List.mem_singleton.mp hx, margin_kind] at hlayout
        cases hlayout
    · exact exists_token_of_render hx hlayout
  rw [← Text.chars_newline] at hcuts'
  rw [tokenize_eq_tokensOf, tokens_of_cuts hcuts', tokensOf, tokensOf, hmargin]
  exact (hqs.render {}).prepend _

end Toolchain
