import Mathlib.Data.List.Find
import Toolchain.Proofs.Token.Forms
import Toolchain.Proofs.Token.Spelling

/-!
# How far a token looks

A token looks no further than at the character behind it. A space there is as good as any other one
and as the end of the text, unless the token is a comment, or is no token because of what stands
behind it. So a token may be read in front of other characters than those it was read in front of.

## Main definitions

* `Lexer.isSpace`: blanks and newlines
* `Lexer.glance`: what a token sees of what stands behind it
* `Lexeme.Permits`: what may be put behind a token in place of what stands there
* `Lexeme.IsLocal`: a token is read in the same way in front of everything that it permits

## Main results

* `Lexer.takeWhile_of_glance`: characters of a class in front of what stops them
* `Lexeme.inside_of_permits`: the inside of a string
* `Lexeme.isLocal_next`: **a token looks no further than at the character behind it**
-/

namespace Toolchain

/-! ## The character behind -/

namespace Lexer

/-- Whether a character is a blank or a newline. -/
def isSpace (c : Char) : Bool := c == '\n' || isBlank c

/-- What is seen of some characters from in front of them: the first one, unless it is a space. -/
def glance (cs : List Char) : Option Char := cs.head?.filter fun c => !isSpace c

variable {p : Char → Bool} {cs ds : List Char}

/-- A class of characters without spaces. -/
theorem of_isSpace {c : Char} (hp : p '\n' = false ∧ p ' ' = false ∧ p '\t' = false ∧
    p '\r' = false ∧ p '\x0C' = false) (hc : isSpace c = true) : p c = false := by
  have hcases : c = '\n' ∨ c = ' ' ∨ c = '\t' ∨ c = '\r' ∨ c = '\x0C' := by
    simpa [isSpace, isBlank, or_assoc] using hc
  obtain ⟨h₁, h₂, h₃, h₄, h₅⟩ := hp
  rcases hcases with rfl | rfl | rfl | rfl | rfl <;> assumption

theorem glance_of_head? (h : ds.head? = cs.head?) : glance ds = glance cs := by
  rw [glance, glance, h]

theorem glance_eq_none (h : Follows isSpace cs) : glance cs = none := by
  cases cs with
  | nil => rfl
  | cons c cs =>
    have hc : isSpace c = true := h c rfl
    simp [glance, hc]

/-- A character that is no space is seen. -/
theorem exists_of_glance {c : Char} {rest : List Char} (hc : isSpace c = false)
    (h : glance cs = glance (c :: rest)) : ∃ rest', cs = c :: rest' := by
  have hsome : glance (c :: rest) = some c := by simp [glance, hc]
  rw [hsome, glance, Option.filter_eq_some_iff] at h
  obtain ⟨rest', rfl⟩ := List.head?_eq_some_iff.mp h.1
  exact ⟨rest', rfl⟩

/-- In front of what looks alike the same is seen. -/
theorem glance_append (as : List Char) (h : glance ds = glance cs) :
    glance (as ++ ds) = glance (as ++ cs) := by
  cases as with
  | nil => exact h
  | cons => rfl

theorem headIs_of_glance (hp : p '\n' = false ∧ p ' ' = false ∧ p '\t' = false ∧ p '\r' = false ∧
    p '\x0C' = false) (h : glance ds = glance cs) : headIs p ds = headIs p cs := by
  have hseen (cs : List Char) : headIs p cs = (glance cs).any p := by
    cases cs with
    | nil => rfl
    | cons c cs =>
      by_cases hc : isSpace c = true
      · simp [headIs, glance, hc, of_isSpace hp hc]
      · simp [headIs, glance, hc]
  rw [hseen, hseen, h]

/-- Characters of a class without spaces, in front of what looks as what stopped them. -/
theorem takeWhile_of_glance (hp : p '\n' = false ∧ p ' ' = false ∧ p '\t' = false ∧ p '\r' = false ∧
    p '\x0C' = false) (h : glance ds = glance (cs.dropWhile p)) :
    (cs.takeWhile p ++ ds).takeWhile p = cs.takeWhile p ∧
      (cs.takeWhile p ++ ds).dropWhile p = ds := by
  have hall : ∀ c ∈ cs.takeWhile p, p c = true :=
    fun c hc => List.all_eq_true.mp List.all_takeWhile c hc
  have hstops : headIs p (cs.dropWhile p) = false := by
    have hnot := List.head?_dropWhile_not p cs
    cases hrest : cs.dropWhile p with
    | nil => rfl
    | cons c rest =>
      rw [hrest] at hnot
      simpa [headIs] using hnot
  rw [← headIs_of_glance hp h] at hstops
  refine takeWhile_of_follows hall fun c hc => ?_
  cases ds with
  | nil => cases hc
  | cons d ds =>
    obtain rfl := Option.some.inj hc
    show (!p d) = true
    rw [show p d = false from hstops]
    rfl

end Lexer

/-! ## Tokens -/

namespace Lexeme

open Lexer

/-- What is wrong with characters that are no token because of what stands behind them. -/
def breaks : List Message :=
  [.entry .badContinuation [], .entry .unterminatedString [], .entry .newlineInString []]

/-- What may be put behind a token in place of what stands there. -/
inductive Permits (x : Lexeme) (ds : List Char) : Prop where
  /-- The same character is behind it. -/
  | same (h : ds.head? = x.rest.head?)
  /-- The character behind it looks the same, and the token does not depend on which space it is. -/
  | alike (h : glance ds = glance x.rest) (hcomment : x.kind = .comment → Follows (· == '\n') ds)
      (hfault : ∀ fault ∈ x.fault, fault ∉ breaks)

/-- A token that begins with `mark`, in front of everything that it permits: `read` reads it from
the characters behind its mark. -/
def IsLocal (mark : List Char) (read : List Char → Lexeme) (cs : List Char) : Prop :=
  ∃ as, (read cs).taken = mark ++ as ∧
    ∀ ds, (read cs).Permits ds → read (as ++ ds) = { read cs with rest := ds }

theorem Permits.glance_eq {x : Lexeme} {ds : List Char} (h : x.Permits ds) :
    glance ds = glance x.rest := by
  cases h with
  | same h => exact glance_of_head? h
  | alike h => exact h

/-! ### Strings -/

/-- What may follow the inside of a string: anything if it is closed, and else what follows it. -/
def Inside.Permits (i : Inside) (ds : List Char) : Prop :=
  i.ending = .closed ∨ ds.head? = i.rest.head?

/-- Whether two quotes follow inside of three is not known from behind the closing ones. -/
theorem twoMore_of_permits {quote : Char} {cs ds : List Char}
    (h : (inside quote true cs).Permits ds) :
    twoMore quote ((inside quote true cs).taken ++ ds) = twoMore quote cs := by
  have hends := ends_inside quote true cs
  have hparts := parts_inside quote true cs
  generalize inside quote true cs = i at *
  subst hparts
  cases hending : i.ending with
  | closed =>
    have hlong := hends.closed hending
    rcases htaken : i.taken with _ | ⟨a, _ | ⟨b, taken⟩⟩
    · simp [htaken] at hlong
    · simp [htaken] at hlong
    · rfl
  | unterminated =>
    have hrest := hends.unterminated hending
    have hhead : ds.head? = i.rest.head? := h.resolve_left (by simp [hending])
    rw [hrest] at hhead ⊢
    rw [List.head?_eq_none_iff.mp hhead]
  | brokenLine => exact absurd (hends.brokenLine hending) nofun

theorem inside_of_permits {quote : Char} (hquote : quote ≠ '\n') {triple : Bool} {cs ds : List Char}
    (h : (inside quote triple cs).Permits ds) :
    inside quote triple ((inside quote triple cs).taken ++ ds) =
      { inside quote triple cs with rest := ds } := by
  have hvisible {c : Char} {rest : List Char} (hnil : c = '\\' → rest = [] → False)
      (hcons : ∀ d ds, c = '\\' → rest = d :: ds → False) : c ≠ '\\' := by
    intro hc
    cases rest with
    | nil => exact hnil hc rfl
    | cons d ds => exact hcons d ds hc rfl
  fun_induction inside quote triple cs with
  | case1 | case2 =>
    have hhead : ds.head? = none := h.resolve_left (by rintro ⟨⟩)
    obtain rfl := List.head?_eq_none_iff.mp hhead
    rfl
  | case3 rest ih =>
    show inside quote triple ('\\' :: '\n' :: ((inside quote triple rest).taken ++ ds)) = _
    rw [inside, ih h]
    rfl
  | case4 c rest hc ih =>
    show inside quote triple ('\\' :: c :: ((inside quote triple rest).taken ++ ds)) = _
    rw [inside_escaped hc, ih h]
    rfl
  | case5 rest htriple ih =>
    show inside quote triple ('\n' :: ((inside quote triple rest).taken ++ ds)) = _
    rw [inside, if_pos htriple, ih h]
    rfl
  | case6 rest htriple =>
    have hhead : ds.head? = some '\n' := h.resolve_left (by rintro ⟨⟩)
    obtain ⟨ds, rfl⟩ := List.head?_eq_some_iff.mp hhead
    show inside quote triple ('\n' :: ds) = _
    rw [inside, if_neg htriple]
  | case7 rest htriple htwo hnil _ hcons _ =>
    show inside quote triple (quote :: quote :: quote :: ds) = _
    rw [inside_cons (hvisible hnil hcons) hquote, if_pos rfl, if_pos htriple,
      if_pos (by simp [twoMore])]
    rfl
  | case8 rest htriple htwo hnil _ hcons _ ih =>
    show inside quote triple (quote :: ((inside quote triple rest).taken ++ ds)) = _
    have hmore : twoMore quote ((inside quote triple rest).taken ++ ds) = twoMore quote rest := by
      subst htriple
      exact twoMore_of_permits h
    rw [inside_cons (hvisible hnil hcons) hquote, if_pos rfl, if_pos htriple,
      if_neg (by rwa [hmore]), ih h]
    rfl
  | case9 rest htriple hnil _ hcons _ =>
    show inside quote triple (quote :: ds) = _
    rw [inside_cons (hvisible hnil hcons) hquote, if_pos rfl, if_neg htriple]
  | case10 c rest hnil _ hcons hnewline hc ih =>
    show inside quote triple (c :: ((inside quote triple rest).taken ++ ds)) = _
    rw [inside_cons (hvisible hnil hcons) hnewline, if_neg hc, ih h]
    rfl

theorem ofInside_rest (kind : TokenKind) (quotes : List Char) (i : Inside) (ds : List Char) :
    ofInside kind quotes { i with rest := ds } = { ofInside kind quotes i with rest := ds } := by
  unfold ofInside
  cases i.ending <;> rfl

theorem rest_ofInside (kind : TokenKind) (quotes : List Char) (i : Inside) :
    (ofInside kind quotes i).rest = i.rest := by
  unfold ofInside
  cases i.ending <;> rfl

theorem taken_of_ofInside (kind : TokenKind) (quotes : List Char) (i : Inside) :
    (ofInside kind quotes i).taken = quotes ++ i.taken := by
  unfold ofInside
  cases i.ending <;> rfl

theorem permits_of_ofInside {kind : TokenKind} {quotes : List Char} {i : Inside} {ds : List Char}
    (h : (ofInside kind quotes i).Permits ds) : i.Permits ds := by
  cases h with
  | same h => exact .inr (h.trans (congrArg List.head? (rest_ofInside kind quotes i)))
  | alike _ _ hfault =>
    left
    unfold ofInside at hfault
    cases hending : i.ending with
    | closed => rfl
    | unterminated | brokenLine =>
      rw [hending] at hfault
      exact absurd (by decide) (hfault _ rfl)

theorem isLocal_string (kind : TokenKind) {quote : Char} (hquote : quote = '\'' ∨ quote = '"')
    (cs : List Char) : IsLocal [quote] (string kind quote) cs := by
  have hnewline : quote ≠ '\n' := by rcases hquote with rfl | rfl <;> decide
  have hclass : ('\n' == quote) = false ∧ (' ' == quote) = false ∧ ('\t' == quote) = false ∧
      ('\r' == quote) = false ∧ ('\x0C' == quote) = false := by
    rcases hquote with rfl | rfl <;> decide
  unfold IsLocal
  by_cases hfirst : headIs (· == quote) cs = true
  · obtain ⟨cs, rfl⟩ := exists_of_headIs hfirst
    by_cases hsecond : headIs (· == quote) cs = true
    · -- in three quotes
      obtain ⟨cs, rfl⟩ := exists_of_headIs hsecond
      have hstring (cs : List Char) : string kind quote (quote :: quote :: cs) =
          ofInside kind [quote, quote, quote] (inside quote true cs) := by
        simp [string, headIs]
      rw [hstring]
      refine ⟨quote :: quote :: (inside quote true cs).taken, taken_of_ofInside _ _ _,
        fun ds hds => ?_⟩
      rw [List.cons_append, List.cons_append, hstring,
        inside_of_permits hnewline (permits_of_ofInside hds), ofInside_rest]
    · -- two quotes
      have hstring {cs : List Char} (hcs : ¬headIs (· == quote) cs = true) :
          string kind quote (quote :: cs) =
            { kind, value := [], taken := [quote, quote], rest := cs } := by
        unfold string
        rw [if_pos (by simp [headIs]), List.drop_one, List.tail_cons, if_neg hcs]
      rw [hstring hsecond]
      refine ⟨[quote], rfl, fun ds hds => ?_⟩
      rw [← headIs_of_glance hclass hds.glance_eq] at hsecond
      rw [List.singleton_append, hstring hsecond]
  · have hstring {cs : List Char} (hcs : ¬headIs (· == quote) cs = true) :
        string kind quote cs = ofInside kind [quote] (inside quote false cs) := by
      unfold string
      rw [if_neg hcs]
    rw [hstring hfirst]
    refine ⟨(inside quote false cs).taken, taken_of_ofInside _ _ _, fun ds hds => ?_⟩
    have hpermits := permits_of_ofInside hds
    have hhead : headIs (· == quote) ((inside quote false cs).taken ++ ds) =
        headIs (· == quote) cs := by
      have hparts := parts_inside quote false cs
      have hends := ends_inside quote false cs
      generalize inside quote false cs = i at *
      rw [← hparts]
      cases htaken : i.taken with
      | cons => rfl
      | nil =>
        have hsame := hpermits.resolve_left fun hclosed => by
          have := hends.closed hclosed
          simp [htaken] at this
        exact headIs_of_glance hclass (glance_of_head? hsame)
    rw [hstring (by rwa [hhead]), inside_of_permits hnewline hpermits, ofInside_rest]

/-! ### Numbers -/

theorem badNumber_of_glance (id : MessageId) (taken : List Char) {cs ds : List Char}
    (h : glance ds = glance (cs.dropWhile isJunk)) :
    badNumber id taken (cs.takeWhile isJunk ++ ds) = { badNumber id taken cs with rest := ds } := by
  obtain ⟨htake, hdrop⟩ := takeWhile_of_glance (p := isJunk) (by decide) h
  unfold badNumber
  rw [htake, hdrop]
  rfl

/-- What is in front of the characters that an ill-formed number does not swallow. -/
theorem glance_junk {cs ds : List Char} (h : glance ds = glance (cs.dropWhile isJunk)) :
    glance (cs.takeWhile isJunk ++ ds) = glance cs := by
  have happend := glance_append (cs.takeWhile isJunk) h
  rwa [List.takeWhile_append_dropWhile] at happend

theorem isLocal_hexNumber (mark cs : List Char) : IsLocal mark (hexNumber mark) cs := by
  have hnumber {ds : List Char} (h : glance ds = glance (cs.dropWhile isHexDigit)) :
      hexNumber mark (cs.takeWhile isHexDigit ++ ds) =
        if (cs.takeWhile isHexDigit).isEmpty || headIs isJunk (cs.dropWhile isHexDigit) then
          badNumber .invalidHexNumber (mark ++ cs.takeWhile isHexDigit) ds
        else plain .integer (mark ++ cs.takeWhile isHexDigit) ds := by
    obtain ⟨htake, hdrop⟩ := takeWhile_of_glance (p := isHexDigit) (by decide) h
    unfold hexNumber
    simp only
    rw [htake, hdrop, headIs_of_glance (p := isJunk) (by decide) h]
  have hwhole := hnumber rfl
  rw [List.takeWhile_append_dropWhile] at hwhole
  unfold IsLocal
  rw [hwhole]
  split
  · next hbad =>
    refine ⟨cs.takeWhile isHexDigit ++ (cs.dropWhile isHexDigit).takeWhile isJunk,
      List.append_assoc _ _ _, fun ds hds => ?_⟩
    rw [List.append_assoc, hnumber (glance_junk hds.glance_eq), if_pos hbad]
    exact badNumber_of_glance _ _ hds.glance_eq
  · next hgood =>
    refine ⟨cs.takeWhile isHexDigit, rfl, fun ds hds => ?_⟩
    rw [hnumber hds.glance_eq, if_neg hgood]
    rfl

/-- What a numeral is by the number of its points. -/
def ofPoints (numeral after : List Char) : Nat → Lexeme
  | 0 => plain .integer numeral after
  | 1 => plain .float numeral after
  | _ => bad numeral numeral after (.entry .invalidFloat [.text (Text.ofChars numeral)])

theorem isLocal_decimal (cs : List Char) : IsLocal [] decimal cs := by
  have hnumber {ds : List Char} (h : glance ds = glance (cs.dropWhile isNumeral)) :
      decimal (cs.takeWhile isNumeral ++ ds) =
        if headIs isAlpha (cs.dropWhile isNumeral) then
          badNumber .invalidNumber (cs.takeWhile isNumeral) ds
        else ofPoints (cs.takeWhile isNumeral) ds ((cs.takeWhile isNumeral).count '.') := by
    obtain ⟨htake, hdrop⟩ := takeWhile_of_glance (p := isNumeral) (by decide) h
    have hhead := headIs_of_glance (p := isAlpha) (by decide) h
    have hdecimal (numeral after : List Char)
        (htake : (cs.takeWhile isNumeral ++ ds).takeWhile isNumeral = numeral)
        (hdrop : (cs.takeWhile isNumeral ++ ds).dropWhile isNumeral = after) :
        decimal (cs.takeWhile isNumeral ++ ds) =
          if headIs isAlpha after then badNumber .invalidNumber numeral after
          else ofPoints numeral after (numeral.count '.') := by
      subst htake hdrop
      rfl
    rw [hdecimal _ _ htake hdrop, hhead]
  have hwhole := hnumber rfl
  rw [List.takeWhile_append_dropWhile] at hwhole
  unfold IsLocal
  rw [hwhole]
  -- how many points there are does not depend on what follows
  generalize (cs.takeWhile isNumeral).count '.' = points at hnumber ⊢
  split
  · next hbad =>
    refine ⟨cs.takeWhile isNumeral ++ (cs.dropWhile isNumeral).takeWhile isJunk, rfl,
      fun ds hds => ?_⟩
    rw [List.append_assoc, hnumber (glance_junk hds.glance_eq), if_pos hbad]
    exact badNumber_of_glance _ _ hds.glance_eq
  · next hgood =>
    rcases points with _ | _ | points
    all_goals
      refine ⟨cs.takeWhile isNumeral, rfl, fun ds hds => ?_⟩
      rw [hnumber hds.glance_eq, if_neg hgood]
      rfl

section Reading

variable {mark : List Char} {read read' : List Char → Lexeme} {c : Char} {cs : List Char}

/-- The characters behind the first one. -/
theorem IsLocal.tail (h : IsLocal [] read (c :: cs))
    (htaken : TakenFrom (read (c :: cs)) (c :: cs)) :
    IsLocal [c] (fun cs => read (c :: cs)) cs := by
  obtain ⟨as, has, hlocal⟩ := h
  have hparts := htaken.parts
  rw [has, List.nil_append] at hparts
  cases as with
  | nil => exact absurd has htaken.some
  | cons a as =>
    obtain ⟨rfl, -⟩ := List.cons.inj hparts
    exact ⟨as, has, hlocal⟩

/-- The characters from the last one of the mark on. -/
theorem IsLocal.cons (h : IsLocal (mark ++ [c]) read cs) (heq : ∀ ds, read' (c :: ds) = read ds) :
    IsLocal mark read' (c :: cs) := by
  obtain ⟨as, has, hlocal⟩ := h
  refine ⟨c :: as, ?_, fun ds hds => ?_⟩
  · rw [heq, has, List.append_assoc]
    rfl
  · rw [heq] at hds ⊢
    rw [List.cons_append, heq]
    exact hlocal ds hds

/-- Another function that reads the same from what looks the same. -/
theorem IsLocal.congr (h : IsLocal mark read cs) (htaken : TakenFrom (read cs) (mark ++ cs))
    (heq : ∀ ds, glance ds = glance cs → read' ds = read ds) : IsLocal mark read' cs := by
  obtain ⟨as, has, hlocal⟩ := h
  have hparts := htaken.parts
  rw [has, List.append_assoc, List.append_cancel_left_eq] at hparts
  have hwhole := heq cs rfl
  refine ⟨as, by rw [hwhole, has], fun ds hds => ?_⟩
  rw [hwhole] at hds ⊢
  have hglance := glance_append as hds.glance_eq
  rw [hparts] at hglance
  rw [heq _ hglance]
  exact hlocal ds hds

end Reading

theorem isLocal_number {c : Char} (hc : isDigit c = true) (cs : List Char) :
    IsLocal [c] (fun cs => number (c :: cs)) cs := by
  have hseen {m : Char} (hm : m = 'x' ∨ m = 'X') {ds rest : List Char} (h : glance ds = glance cs)
      (heq : c :: ds = '0' :: m :: rest) : c = '0' ∧ ∃ rest', cs = m :: rest' := by
    obtain ⟨rfl, rfl⟩ := List.cons.inj heq
    exact ⟨rfl, exists_of_glance (by rcases hm with rfl | rfl <;> decide) h.symm⟩
  by_cases hhex : ∃ m rest, (m = 'x' ∨ m = 'X') ∧ c = '0' ∧ cs = m :: rest
  · obtain ⟨m, rest, hm, rfl, rfl⟩ := hhex
    refine (isLocal_hexNumber ['0', m] rest).cons fun ds => ?_
    rcases hm with rfl | rfl <;> rfl
  · have hnumeral : isNumeral c = true := by simp [isNumeral, hc]
    have htaken := taken_decimal hnumeral cs
    refine ((isLocal_decimal (c :: cs)).tail htaken).congr htaken fun ds hds => ?_
    show number (c :: ds) = decimal (c :: ds)
    unfold number
    split
    · next heq =>
      obtain ⟨hzero, rest, hrest⟩ := hseen (.inl rfl) hds heq
      exact absurd ⟨'x', rest, .inl rfl, hzero, hrest⟩ hhex
    · next heq =>
      obtain ⟨hzero, rest, hrest⟩ := hseen (.inr rfl) hds heq
      exact absurd ⟨'X', rest, .inr rfl, hzero, hrest⟩ hhex
    · rfl

/-! ### Words and symbols -/

theorem isLocal_after {mark quote : Char} (hquote : quote = '\'' ∨ quote = '"') (rest : List Char) :
    IsLocal [mark, quote] (fun cs => after mark (string .fstring quote cs)) rest := by
  obtain ⟨as, htaken, hlocal⟩ := isLocal_string .fstring hquote rest
  refine ⟨as, congrArg (mark :: ·) htaken, fun ds hds => ?_⟩
  have hpermits : (string .fstring quote rest).Permits ds := by
    cases hds with
    | same h => exact .same h
    | alike h hcomment hfault => exact .alike h hcomment hfault
  show after mark (string .fstring quote (as ++ ds)) = _
  rw [hlocal ds hpermits]
  rfl

theorem isLocal_word {c : Char} (hc : isAlpha c = true) (cs : List Char) :
    IsLocal [c] (fun cs => word (c :: cs)) cs := by
  by_cases hmarked : ∃ quote rest, (quote = '\'' ∨ quote = '"') ∧ (c = 'f' ∨ c = 'F') ∧
      cs = quote :: rest
  · obtain ⟨quote, rest, hquote, hmark, rfl⟩ := hmarked
    refine (isLocal_after hquote rest).cons fun ds => ?_
    rcases hmark with rfl | rfl <;> rcases hquote with rfl | rfl <;> rfl
  · -- without quotes behind a mark a word is as long as it can be
    have halpha : isAlphaNumeric c = true := by simp [isAlphaNumeric, hc]
    have hword {ds : List Char} (hds : glance ds = glance cs) : word (c :: ds) =
        plain (.ofWord (String.ofList (c :: ds.takeWhile isAlphaNumeric)))
          (c :: ds.takeWhile isAlphaNumeric) (ds.dropWhile isAlphaNumeric) := by
      have hname : (c :: ds).takeWhile isAlphaNumeric = c :: ds.takeWhile isAlphaNumeric :=
        List.takeWhile_cons_of_pos halpha
      have hrest : (c :: ds).dropWhile isAlphaNumeric = ds.dropWhile isAlphaNumeric :=
        List.dropWhile_cons_of_pos halpha
      have hnot {mark quote : Char} {rest : List Char} (hmark : mark = 'f' ∨ mark = 'F')
          (hquote : quote = '\'' ∨ quote = '"') (hname : c :: ds.takeWhile isAlphaNumeric = [mark])
          (hrest : ds.dropWhile isAlphaNumeric = quote :: rest) : False := by
        obtain ⟨rfl, hnone⟩ := List.cons.inj hname
        have hds' : ds = quote :: rest := by
          rw [← List.takeWhile_append_dropWhile (p := isAlphaNumeric) (l := ds), hnone, hrest]
          rfl
        obtain ⟨rest', hcs⟩ := exists_of_glance (by rcases hquote with rfl | rfl <;> decide)
          (hds' ▸ hds).symm
        exact hmarked ⟨quote, rest', hquote, hmark, hcs⟩
      unfold word
      simp only
      rw [hname, hrest]
      split
      · next h₁ h₂ => exact (hnot (.inl rfl) (.inl rfl) h₁ h₂).elim
      · next h₁ h₂ => exact (hnot (.inl rfl) (.inr rfl) h₁ h₂).elim
      · next h₁ h₂ => exact (hnot (.inr rfl) (.inl rfl) h₁ h₂).elim
      · next h₁ h₂ => exact (hnot (.inr rfl) (.inr rfl) h₁ h₂).elim
      · rfl
    have hplain : IsLocal [c] (fun ds => plain
        (.ofWord (String.ofList (c :: ds.takeWhile isAlphaNumeric)))
          (c :: ds.takeWhile isAlphaNumeric)
        (ds.dropWhile isAlphaNumeric)) cs := by
      refine ⟨cs.takeWhile isAlphaNumeric, rfl, fun ds hds => ?_⟩
      obtain ⟨htake, hdrop⟩ := takeWhile_of_glance (p := isAlphaNumeric) (by decide) hds.glance_eq
      simp only [htake, hdrop]
      rfl
    exact hplain.congr ⟨congrArg (c :: ·) List.takeWhile_append_dropWhile, List.cons_ne_nil _ _,
      isLayout_ofWord _⟩ fun ds hds => hword hds

/-- A symbol that goes on after another one goes on with no space, and the other one with its next
character is a symbol too, which stands before it in the table. -/
theorem symbols_grow : ∀ e ∈ symbols, ∀ s ∈ symbols.takeWhile (· != e), e.1.isPrefixOf s.1 = true →
    ∃ d ∈ (s.1.drop e.1.length).head?, isSpace d = false ∧
      e.1 ++ [d] ∈ (symbols.takeWhile (· != e)).map Prod.fst := by
  have hall : ∀ e ∈ symbols, ∀ s ∈ symbols.takeWhile (· != e), e.1.isPrefixOf s.1 = true →
      ((s.1.drop e.1.length).head?.any fun d => !isSpace d &&
        ((symbols.takeWhile (· != e)).map Prod.fst).contains (e.1 ++ [d])) = true := by
    decide +kernel
  intro e he s hs hlong
  obtain ⟨d, hd, hgrows⟩ := (Option.any_eq_true _ _).mp (hall e he s hs hlong)
  rw [Bool.and_eq_true, Bool.not_eq_true'] at hgrows
  exact ⟨d, hd, hgrows.1, List.contains_iff_mem.mp hgrows.2⟩

/-- The first two characters of a symbol are a symbol, and the second one is no space. -/
theorem symbols_begin : ∀ s ∈ symbols, s.1 ≠ [] ∧ s.1.take 2 ∈ symbols.map Prod.fst ∧
    ∀ d ∈ (s.1.drop 1).head?, isSpace d = false := by
  have hall : ∀ s ∈ symbols, s.1 ≠ [] ∧ s.1.take 2 ∈ symbols.map Prod.fst ∧
      ((s.1.drop 1).head?.all fun d => !isSpace d) = true := by
    decide +kernel
  intro s hs
  obtain ⟨hne, hmem, hspace⟩ := hall s hs
  refine ⟨hne, hmem, fun d hd => ?_⟩
  rw [Option.mem_def.mp hd, Option.all_some, Bool.not_eq_true'] at hspace
  exact hspace

/-- What stands before an entry of a table is no more than what stands before one place of it. -/
theorem mem_of_mem_takeWhile_ne {α : Type} [BEq α] [LawfulBEq α] {a b : α} {before after : List α}
    (h : b ∈ (before ++ a :: after).takeWhile (· != a)) : b ∈ before := by
  induction before with
  | nil => simp at h
  | cons x before ih =>
    rw [List.cons_append, List.takeWhile_cons] at h
    split at h
    · rcases List.mem_cons.mp h with rfl | h
      · exact List.mem_cons_self
      · exact List.mem_cons_of_mem _ (ih h)
    · cases h

theorem isLocal_symbol (c : Char) (cs : List Char) : IsLocal [c] (symbol c) cs := by
  unfold IsLocal
  cases hfind : symbols.find? fun s => s.1.isPrefixOf (c :: cs) with
  | some e =>
    obtain ⟨hbegins, before, after, hsymbols, hnone⟩ := List.find?_eq_some_iff_append.mp hfind
    have hmem : e ∈ symbols := List.mem_of_find?_eq_some hfind
    obtain ⟨rest, hrest⟩ := List.isPrefixOf_iff_prefix.mp hbegins
    obtain ⟨a, as, has⟩ := List.exists_cons_of_ne_nil (symbols_begin e hmem).1
    rw [has, List.cons_append] at hrest
    obtain ⟨rfl, rfl⟩ := List.cons.inj hrest
    have hsymbol : symbol a (as ++ rest) = plain e.2 (a :: as) rest := by
      unfold symbol
      rw [hfind]
      simp only [has, ← List.cons_append, List.drop_left]
    rw [hsymbol]
    refine ⟨as, rfl, fun ds hds => ?_⟩
    have he : (a :: as, e.2) = e := by rw [← has]
    -- a character that makes a longer symbol would have made it where it stood
    have hfound : IsFound (fun d => isSpace d || rest.head? == some d) (a :: as, e.2) := by
      rw [he]
      intro s hs
      refine ⟨(isFound_of_mem e hmem s hs).1, fun hlong => ?_⟩
      obtain ⟨d, hd, hspace, hbefore⟩ := symbols_grow e hmem s hs hlong
      rw [Option.mem_def.mp hd, Option.all_some]
      show (!(isSpace d || rest.head? == some d)) = true
      rw [hspace, Bool.false_or, Bool.not_eq_true', beq_eq_false_iff_ne]
      intro hhead
      obtain ⟨rest, rfl⟩ := List.head?_eq_some_iff.mp hhead
      obtain ⟨s', hs', hgrown⟩ := List.mem_map.mp hbefore
      have hnot := hnone s' (mem_of_mem_takeWhile_ne (hsymbols ▸ hs'))
      have hgrows : s'.1 <+: a :: (as ++ d :: rest) := by
        rw [hgrown, has]
        exact ⟨rest, by simp⟩
      rw [List.isPrefixOf_iff_prefix.mpr hgrows] at hnot
      cases hnot
    have hfollows : Follows (fun d => isSpace d || rest.head? == some d) ds := by
      intro d hd
      show (isSpace d || rest.head? == some d) = true
      by_cases hspace : isSpace d = true
      · rw [hspace, Bool.true_or]
      · obtain ⟨ds, rfl⟩ := List.head?_eq_some_iff.mp hd
        obtain ⟨rest', hrest'⟩ := exists_of_glance (Bool.eq_false_iff.mpr hspace) hds.glance_eq.symm
        obtain rfl : rest = d :: rest' := hrest'
        simp
    exact symbol_eq (he ▸ hmem) hfound hfollows
  | none =>
    have hsymbol {ds : List Char} (hds : glance ds = glance cs) :
        symbol c ds = bad [c] [c] ds (.entry .unexpectedChar [.char c]) := by
      have hnone : symbols.find? (fun s => s.1.isPrefixOf (c :: ds)) = none := by
        rw [List.find?_eq_none] at hfind ⊢
        intro s hs hprefix
        have hprefix : s.1 <+: c :: ds := List.isPrefixOf_iff_prefix.mp hprefix
        obtain ⟨hne, hbegin, hspace⟩ := symbols_begin s hs
        obtain ⟨s', hs', heq⟩ := List.mem_map.mp hbegin
        refine hfind s' hs' (List.isPrefixOf_iff_prefix.mpr ?_)
        rw [heq]
        rcases hspelling : s.1 with _ | ⟨a, _ | ⟨d, more⟩⟩
        · exact absurd hspelling hne
        · rw [hspelling] at hprefix
          obtain ⟨rfl, -⟩ := List.cons_prefix_cons.mp hprefix
          exact ⟨cs, rfl⟩
        · rw [hspelling] at hprefix hspace
          obtain ⟨rfl, hmore⟩ := List.cons_prefix_cons.mp hprefix
          obtain ⟨rest, rfl⟩ := hmore
          obtain ⟨rest', rfl⟩ := exists_of_glance (hspace d rfl) hds.symm
          exact ⟨rest', rfl⟩
      unfold symbol
      rw [hnone]
    rw [hsymbol rfl]
    exact ⟨[], rfl, fun ds hds => hsymbol hds.glance_eq⟩

/-! ### All tokens -/

/-- A comment ends with its line. -/
theorem isLocal_comment (cs : List Char) : IsLocal [] comment cs := by
  refine ⟨cs.takeWhile (· != '\n'), rfl, fun ds hds => ?_⟩
  have hends : Follows (fun c => !(c != '\n')) ds := by
    cases hds with
    | same h =>
      intro d hd
      have hnot := List.head?_dropWhile_not (· != '\n') cs
      rw [show cs.dropWhile (· != '\n') = (comment cs).rest from rfl, ← h, Option.mem_def.mp hd]
        at hnot
      simpa using hnot
    | alike _ hcomment _ => exact (hcomment rfl).mono fun c hc => by simpa using hc
  have hline : ∀ c ∈ cs.takeWhile (· != '\n'), (c != '\n') = true := fun c hc =>
    List.all_eq_true.mp List.all_takeWhile c hc
  obtain ⟨htake, hdrop⟩ := takeWhile_of_follows hline hends
  unfold comment
  rw [htake, hdrop]

theorem isLocal_scan (c : Char) (cs : List Char) : IsLocal [c] (scan c) cs := by
  have hread {read : List Char → Lexeme} (h : IsLocal [c] read cs)
      (heq : ∀ ds, glance ds = glance cs → scan c ds = read ds) : IsLocal [c] (scan c) cs :=
    h.congr (heq cs rfl ▸ taken_scan c cs) heq
  have htail {read : List Char → Lexeme} (h : IsLocal [] read (c :: cs))
      (heq : ∀ ds, glance ds = glance cs → scan c ds = read (c :: ds)) : IsLocal [c] (scan c) cs :=
    hread (h.tail (heq cs rfl ▸ taken_scan c cs)) heq
  by_cases hmark : c = '#'
  · refine htail (isLocal_comment _) fun ds _ => ?_
    rw [scan, if_pos hmark]
  by_cases hquote : c = '\'' ∨ c = '"'
  · refine hread (isLocal_string .string hquote cs) fun ds _ => ?_
    rw [scan, if_neg hmark, if_pos hquote]
  by_cases hdigit : isDigit c = true
  · refine hread (isLocal_number hdigit cs) fun ds _ => ?_
    rw [scan, if_neg hmark, if_neg hquote, if_pos hdigit]
  by_cases halpha : isAlpha c = true
  · refine hread (isLocal_word halpha cs) fun ds _ => ?_
    rw [scan, if_neg hmark, if_neg hquote, if_neg hdigit, if_pos halpha]
  by_cases hdot : c = '.'
  · have hnext {ds : List Char} (h : glance ds = glance cs) :
        headIs isDigit ds = headIs isDigit cs :=
      headIs_of_glance (by decide) h
    by_cases hfraction : headIs isDigit cs = true
    · refine htail (isLocal_decimal _) fun ds hds => ?_
      rw [scan, if_neg hmark, if_neg hquote, if_neg hdigit, if_neg halpha, if_pos hdot, hnext hds,
        if_pos hfraction]
    · have hplain : IsLocal [c] (plain .dot [c]) cs := ⟨[], rfl, fun _ _ => rfl⟩
      refine hread hplain fun ds hds => ?_
      rw [scan, if_neg hmark, if_neg hquote, if_neg hdigit, if_neg halpha, if_pos hdot, hnext hds,
        if_neg hfraction]
  · refine hread (isLocal_symbol c cs) fun ds _ => ?_
    rw [scan, if_neg hmark, if_neg hquote, if_neg hdigit, if_neg halpha, if_neg hdot]

/-- **A token looks no further than at the character behind it.** -/
theorem isLocal_next (c : Char) (cs : List Char) : IsLocal [c] (next c) cs := by
  by_cases hslash : c = '\\'
  · subst hslash
    by_cases hreturn : ∃ rest, cs = '\r' :: rest
    · obtain ⟨rest, rfl⟩ := hreturn
      exact ⟨['\r'], rfl, fun _ _ => rfl⟩
    · have hnext {ds : List Char} (h : ds.head? = cs.head?) :
          next '\\' ds = bad ['\\'] ['\\'] ds (.entry .badContinuation []) := by
        unfold next
        split
        · next rest =>
          obtain ⟨rest', rfl⟩ := List.head?_eq_some_iff.mp h.symm
          exact absurd ⟨rest', rfl⟩ hreturn
        · rfl
        · contradiction
      unfold IsLocal
      rw [hnext rfl]
      refine ⟨[], rfl, fun ds hds => ?_⟩
      cases hds with
      | same h => exact hnext h
      | alike _ _ hfault => exact absurd (by decide) (hfault _ rfl)
  · have hscan (ds : List Char) : next c ds = scan c ds := next_of_ne hslash ds
    exact (isLocal_scan c cs).congr (taken_scan c cs) fun ds _ => hscan ds

end Lexeme

end Toolchain
