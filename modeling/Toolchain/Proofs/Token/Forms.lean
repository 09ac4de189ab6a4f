import Toolchain.Proofs.Token.Pieces

/-!
# The forms of tokens

A token is read as characters that make none, as a string, as a string with the mark `f` in front,
or as something whose value is the head of the characters it was read from. A comment is of the last
form too, for its value leaves out what ends its line.

## Main definitions

* `Lexeme.Form`: the forms of a token
* `Lexeme.Inside.Ends`: how the inside of a string ends

## Main results

* `Lexeme.form_next`: every token has one of the forms
* `Lexeme.Form.isSome_fault`: a token that is invalid, and no other one, has something wrong
* `Lexeme.follows_comment`: what stands behind a comment
-/

namespace Toolchain.Lexeme

open Lexer

/-- How the inside of a string ends: with its closing quotes, or with the text, or in one quote with
the line. -/
structure Inside.Ends (triple : Bool) (i : Inside) : Prop where
  closed : i.ending = .closed → (if triple then 3 else 1) ≤ i.taken.length
  unterminated : i.ending = .unterminated → i.rest = []
  brokenLine : i.ending = .brokenLine → triple = false

theorem Inside.Ends.prepend {triple : Bool} {i : Inside} (h : i.Ends triple)
    (content taken : List Char) :
    (i.prepend content taken).Ends triple where
  closed hclosed := by
    refine Nat.le_trans (h.closed hclosed) ?_
    show i.taken.length ≤ (taken ++ i.taken).length
    rw [List.length_append]
    exact Nat.le_add_left _ _
  unterminated := h.unterminated
  brokenLine := h.brokenLine

theorem ends_inside (quote : Char) (triple : Bool) (cs : List Char) :
    (inside quote triple cs).Ends triple := by
  fun_induction inside quote triple cs with
  | case1 | case2 => exact ⟨by rintro ⟨⟩, fun _ => rfl, by rintro ⟨⟩⟩
  | case3 rest ih | case4 c rest _ ih | case5 rest _ ih | case8 rest _ _ _ _ _ _ ih
  | case10 c rest _ _ _ _ _ ih => exact ih.prepend _ _
  | case6 rest htriple => exact ⟨by rintro ⟨⟩, by rintro ⟨⟩, fun _ => by simpa using htriple⟩
  | case7 rest htriple => exact ⟨fun _ => by simp [htriple], by rintro ⟨⟩, by rintro ⟨⟩⟩
  | case9 rest htriple => exact ⟨fun _ => by simp [htriple], by rintro ⟨⟩, by rintro ⟨⟩⟩

/-- The forms of a token. -/
inductive Form : Lexeme → Prop where
  /-- A backslash that hides no newline. -/
  | slash (more rest : List Char) :
      Form (bad ['\\'] ('\\' :: more) rest (.entry .badContinuation []))
  /-- Other characters that make no token. A string that is not closed goes on to the end of the
  text. -/
  | bad (value taken : List Char) {rest : List Char} {fault : Message}
      (hslash : fault ≠ .entry .badContinuation [])
      (hopen : fault = .entry .unterminatedString [] → rest = []) :
        Form (bad value taken rest fault)
  /-- A string. -/
  | quoted {quote : Char} (hquote : quote = '\'' ∨ quote = '"') (value inner rest : List Char) :
      Form { kind := .string, value, taken := quote :: inner, rest }
  /-- A string with a mark. -/
  | marked {mark quote : Char} (hmark : mark = 'f' ∨ mark = 'F')
    (hquote : quote = '\'' ∨ quote = '"')
    (value inner rest : List Char) :
      Form { kind := .fstring, value, taken := mark :: quote :: inner, rest }
  /-- Any other token. -/
  | written {kind : TokenKind} (hkind : kind ≠ .invalid ∧ kind ≠ .string ∧ kind ≠ .fstring)
      {value taken : List Char} (hvalue : value <+: taken) (rest : List Char) :
      Form { kind, value, taken, rest }

/-- A token is invalid exactly if something is wrong with it. -/
theorem Form.isSome_fault {x : Lexeme} (h : Form x) : x.fault.isSome = (x.kind == .invalid) := by
  cases h with
  | slash | bad | quoted | marked => rfl
  | written hkind => exact (beq_eq_false_iff_ne.mpr hkind.1).symm

theorem form_plain {kind : TokenKind} (hkind : kind ≠ .invalid ∧ kind ≠ .string ∧ kind ≠ .fstring)
    (taken rest : List Char) : Form (plain kind taken rest) :=
  .written hkind (List.prefix_refl taken) rest

/-- A string that is not closed is no token. -/
theorem string_cases (kind : TokenKind) (quote : Char) (rest : List Char) :
    (∃ value taken after fault, string kind quote rest = bad value taken after fault ∧
      fault ≠ .entry .badContinuation [] ∧ (fault = .entry .unterminatedString [] → after = [])) ∨
    ∃ value inner after,
      string kind quote rest = { kind, value, taken := quote :: inner, rest := after } := by
  have hinside (quotes : List Char) (triple : Bool) (cs : List Char) :
      (∃ value taken after fault,
        ofInside kind (quote :: quotes) (inside quote triple cs) = bad value taken after fault ∧
          fault ≠ .entry .badContinuation [] ∧
            (fault = .entry .unterminatedString [] → after = [])) ∨
      ∃ value inner after, ofInside kind (quote :: quotes) (inside quote triple cs) =
        { kind, value, taken := quote :: inner, rest := after } := by
    have hends := ends_inside quote triple cs
    generalize inside quote triple cs = i at hends
    unfold ofInside
    cases hending : i.ending with
    | closed => exact .inr ⟨_, _, _, rfl⟩
    | unterminated =>
      exact .inl ⟨_, _, _, _, rfl, by decide, fun _ => hends.unterminated hending⟩
    | brokenLine => exact .inl ⟨_, _, _, _, rfl, by decide, fun h => absurd h (by decide)⟩
  unfold string
  split
  · split
    · exact hinside _ _ _
    · exact .inr ⟨_, _, _, rfl⟩
  · exact hinside _ _ _

theorem form_string {quote : Char} (hquote : quote = '\'' ∨ quote = '"') (rest : List Char) :
    Form (string .string quote rest) := by
  rcases string_cases .string quote rest with ⟨_, _, _, _, heq, hslash, hopen⟩ | ⟨_, _, _, heq⟩
  · exact heq ▸ .bad _ _ hslash hopen
  · exact heq ▸ .quoted hquote _ _ _

theorem form_marked {mark quote : Char} (hmark : mark = 'f' ∨ mark = 'F')
    (hquote : quote = '\'' ∨ quote = '"') (rest : List Char) :
    Form (after mark (string .fstring quote rest)) := by
  rcases string_cases .fstring quote rest with ⟨_, _, _, _, heq, hslash, hopen⟩ | ⟨_, _, _, heq⟩
  · exact heq ▸ .bad _ _ hslash hopen
  · exact heq ▸ .marked hmark hquote _ _ _

theorem form_badNumber {id : MessageId} (hid : id ≠ .badContinuation ∧ id ≠ .unterminatedString)
    (taken rest : List Char) : Form (badNumber id taken rest) := by
  refine .bad _ _ (fun h => ?_) fun h => ?_
  · exact absurd (Message.entry.inj h).1 hid.1
  · exact absurd (Message.entry.inj h).1 hid.2

theorem form_hexNumber (mark rest : List Char) : Form (hexNumber mark rest) := by
  unfold hexNumber
  simp only
  split
  · exact form_badNumber (by decide) _ _
  · exact form_plain (by decide) _ _

theorem form_decimal (cs : List Char) : Form (decimal cs) := by
  unfold decimal
  simp only
  split
  · exact form_badNumber (by decide) _ _
  split
  · exact form_plain (by decide) _ _
  · exact form_plain (by decide) _ _
  · exact .bad _ _ (by simp) (by simp)

theorem form_number (cs : List Char) : Form (number cs) := by
  unfold number
  split
  · exact form_hexNumber _ _
  · exact form_hexNumber _ _
  · exact form_decimal _

theorem form_word (cs : List Char) : Form (word cs) := by
  have hword (s : String) : TokenKind.ofWord s ≠ .invalid ∧ TokenKind.ofWord s ≠ .string ∧
      TokenKind.ofWord s ≠ .fstring := by
    unfold TokenKind.ofWord
    split <;> exact ⟨nofun, nofun, nofun⟩
  unfold word
  simp only
  split
  · exact form_marked (.inl rfl) (.inl rfl) _
  · exact form_marked (.inl rfl) (.inr rfl) _
  · exact form_marked (.inr rfl) (.inl rfl) _
  · exact form_marked (.inr rfl) (.inr rfl) _
  · exact form_plain (hword _) _ _

theorem form_symbol (c : Char) (rest : List Char) : Form (symbol c rest) := by
  have hsymbols : ∀ s ∈ symbols, s.2 ≠ .invalid ∧ s.2 ≠ .string ∧ s.2 ≠ .fstring := by decide
  unfold symbol
  split
  · next hfind => exact form_plain (hsymbols _ (List.mem_of_find?_eq_some hfind)) _ _
  · exact .bad _ _ (by simp) (by simp)

/-- What is left of a list without some of its last elements is its head. -/
theorem form_comment (cs : List Char) : Form (comment cs) := by
  refine .written (by decide) ?_ _
  have hsuffix := List.dropWhile_suffix (l := (cs.takeWhile (· != '\n')).reverse) (· == '\r')
  simpa using List.reverse_prefix.mpr hsuffix

theorem form_scan (c : Char) (rest : List Char) : Form (scan c rest) := by
  unfold scan
  split
  · exact form_comment _
  split
  · next hquote => exact form_string hquote _
  split
  · exact form_number _
  split
  · exact form_word _
  split
  · split
    · exact form_decimal _
    · exact form_plain (by decide) _ _
  · exact form_symbol _ _

/-- Every token has one of the forms. -/
theorem form_next (c : Char) (rest : List Char) : Form (next c rest) := by
  unfold next
  split
  · exact .slash _ _
  · exact .slash _ _
  · exact form_scan _ _

/-- Nothing is a comment that does not begin like one. -/
theorem kind_scan_ne_comment {c : Char} (hc : c ≠ '#') (rest : List Char) :
    (scan c rest).kind ≠ .comment := by
  have hdecimal (cs : List Char) : (decimal cs).kind ≠ .comment := by
    unfold decimal
    simp only
    split
    · nofun
    · split <;> nofun
  have hhex (mark cs : List Char) : (hexNumber mark cs).kind ≠ .comment := by
    unfold hexNumber
    simp only
    split <;> nofun
  have hstring {k : TokenKind} (hkind : k ≠ .comment) (quote : Char) (cs : List Char) :
      (string k quote cs).kind ≠ .comment := by
    rcases string_cases k quote cs with ⟨_, _, _, _, heq, -⟩ | ⟨_, _, _, heq⟩
    · rw [heq]
      nofun
    · rw [heq]
      exact hkind
  have hword (s : String) : TokenKind.ofWord s ≠ .comment := by
    unfold TokenKind.ofWord
    split <;> nofun
  unfold scan
  rw [if_neg hc]
  split
  · exact hstring (k := .string) nofun _ _
  split
  · unfold number
    split
    · exact hhex _ _
    · exact hhex _ _
    · exact hdecimal _
  split
  · unfold word
    simp only
    split
    iterate 4 exact hstring (k := .fstring) nofun _ _
    exact hword _
  split
  · split
    · exact hdecimal _
    · nofun
  · have hsymbols : ∀ s ∈ symbols, s.2 ≠ .comment := by decide
    unfold symbol
    split
    · next hfind => exact hsymbols _ (List.mem_of_find?_eq_some hfind)
    · nofun

/-- Behind a comment the line ends. -/
theorem follows_comment {c : Char} {rest : List Char} (h : (next c rest).kind = .comment) :
    ∀ d ∈ (next c rest).rest.head?, d = '\n' := by
  have hmark : c = '#' := by
    by_contra hc
    unfold next at h
    split at h
    · cases h
    · cases h
    · exact kind_scan_ne_comment hc _ h
  subst hmark
  intro d hd
  have hnot := List.head?_dropWhile_not (· != '\n') ('#' :: rest)
  have hrest : (next '#' rest).rest = ('#' :: rest).dropWhile (· != '\n') := rfl
  rw [← hrest, Option.mem_def.mp hd] at hnot
  simpa using hnot

end Toolchain.Lexeme
