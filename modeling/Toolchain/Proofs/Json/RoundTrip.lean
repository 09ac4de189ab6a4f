import Mathlib.Data.List.DropRight
import Mathlib.Tactic.Common
import Toolchain.Json.Parser
import Toolchain.Proofs.Text.Utf8

/-!
# Reading what was written

A value that is written with its parts on lines of their own is read back. Only the stray bytes of
its strings are lost: each is written as the replacement character.

## Main definitions

* `Json.readBack`: what is read back of a value
* `Json.HasIntegers`: the numbers of a value are integers

## Main results

* `Json.stringTail_escaped`: a quoted string is read back
* `Json.numberToken_ofInt`: an integer is read back
* `Json.parse?_indented`: a value is read back
-/

namespace Toolchain.Json

-- The equations are derived once, and not by each of the proofs that rewrite with them.
attribute [local grind =] value indentedAt

/-! ## Strings -/

theorem charOfCode_toNat (c : Char) : charOfCode c.toNat = c := by
  have hvalid : c.toNat.isValidChar := c.valid
  rw [charOfCode, dif_pos hvalid]
  rfl

/-- The number that four characters write in base sixteen. -/
def unitOf? : List Char → Option Nat
  | [a, b, c, d] => unit? a b c d
  | _ => none

theorem eq_of_unitOf? {cs : List Char} {n : Nat} (h : unitOf? cs = some n) :
    ∃ a b c d, cs = [a, b, c, d] ∧ unit? a b c d = some n := by
  unfold unitOf? at h
  split at h
  · exact ⟨_, _, _, _, rfl, h⟩
  · cases h

/-- The characters that are written by their numbers. -/
theorem unitOf?_hexPadded {c : Char} (h : c.toNat < 0x20 ∨ c = '<' ∨ c = '>' ∨ c = '&' ∨
    c = '\u2028' ∨ c = '\u2029') : unitOf? (Text.hexPadded 4 c.toNat) = some c.toNat := by
  have hlow : ∀ n : Nat, n < 0x20 → unitOf? (Text.hexPadded 4 n) = some n := by decide +kernel
  rcases h with h | rfl | rfl | rfl | rfl | rfl
  · exact hlow _ h
  all_goals decide +kernel

/-- An escape with four digits is read as a character, if it is not the first of a pair. -/
theorem stringTail_unit {a b c d : Char} {n : Nat} (hn : unit? a b c d = some n)
    (hlow : n < 0xD800 ∨
    0xDC00 ≤ n) (rest : List Char) :
    stringTail ('\\' :: 'u' :: a :: b :: c :: d :: rest) =
      before (charOfCode n) (stringTail rest) := by
  have hpair (e f g h : Char) : paired? a b c d e f g h = none := by
    have hnone (low : Nat) : pairedChar? n low = none := by
      rw [pairedChar?, if_neg (by omega)]
    rw [paired?, hn]
    cases unit? e f g h with
    | none => rfl
    | some low => exact hnone low
  by_cases hnext : ∃ e f g h more, rest = '\\' :: 'u' :: e :: f :: g :: h :: more
  · obtain ⟨e, f, g, h, more, rfl⟩ := hnext
    rw [stringTail, hpair, hn]
  · rw [stringTail, hn]
    rintro e f g h more rfl
    exact hnext ⟨e, f, g, h, more, rfl⟩

/-- What is written for one unit is read as its character. -/
theorem stringTail_escapedGlyph (g : Glyph) (rest : List Char) :
    stringTail (escapedGlyph g ++ rest) = before g.toChar (stringTail rest) := by
  cases g with
  | stray b =>
    have hunit : unit? 'f' 'f' 'f' 'd' = some 0xFFFD := by decide
    exact stringTail_unit hunit (by omega) rest
  | char c =>
    rw [escapedGlyph, Glyph.toChar]
    split_ifs with hquote hn hr ht hcode
    · rcases hquote with rfl | rfl <;> rfl
    · subst hn; rfl
    · subst hr; rfl
    · subst ht; rfl
    · -- a character that is written by its number
      obtain ⟨x, y, z, w, hdigits, hunit⟩ := eq_of_unitOf? (unitOf?_hexPadded hcode)
      have hlow : c.toNat < 0xD800 := by
        rcases hcode with h | rfl | rfl | rfl | rfl | rfl
        · omega
        all_goals decide
      rw [hdigits]
      have hread := stringTail_unit hunit (.inl hlow) rest
      rw [charOfCode_toNat] at hread
      exact hread
    · -- a character that stands for itself
      rw [not_or] at hquote hcode
      rw [List.singleton_append, stringTail, if_neg hcode.1]
      · exact hquote.1
      all_goals
        intros
        exact absurd ‹_› hquote.2

/-- A string is read back up to its closing quote. -/
theorem stringTail_escaped (gs : List Glyph) (rest : List Char) :
    stringTail (gs.flatMap escapedGlyph ++ '"' :: rest) = some (gs.map Glyph.toChar, rest) := by
  induction gs with
  | nil => rfl
  | cons g gs ih =>
    rw [List.flatMap_cons, List.append_assoc, stringTail_escapedGlyph, ih]
    rfl

theorem chars_quotedText (t : Text) :
    (quotedText t).chars = '"' :: (t.glyphs.flatMap escapedGlyph ++ ['"']) := by
  rw [quotedText, Text.chars_ofChars]

theorem stringToken_quotedText (t : Text) (rest : List Char) :
    stringToken ((quotedText t).chars ++ rest) = some (t.chars, rest) := by
  rw [chars_quotedText, List.cons_append, stringToken, List.append_assoc]
  exact stringTail_escaped t.glyphs rest

/-! ## Numbers -/

/-- What may come after a number. -/
def Ends (rest : List Char) : Prop :=
  ∀ c more, rest = c :: more → c.isDigit = false ∧ c ≠ '.' ∧ c ≠ 'e' ∧ c ≠ 'E'

theorem ends_nil : Ends [] := nofun

theorem ends_cons {c : Char} (h : c.isDigit = false ∧ c ≠ '.' ∧ c ≠ 'e' ∧ c ≠ 'E')
    (more : List Char) : Ends (c :: more) := by
  rintro _ _ ⟨⟩
  exact h

theorem head_toDigits {n : Nat} (h : 0 < n) :
    ∃ c cs, Nat.toDigits 10 n = c :: cs ∧ c ≠ '0' := by
  induction n using Nat.strongRecOn with
  | ind n ih =>
    by_cases hlt : n < 10
    · have hdigit : ∀ n : Nat, n < 10 → 0 < n → n.digitChar ≠ '0' := by decide
      exact ⟨n.digitChar, [], Nat.toDigits_of_lt_base hlt, hdigit n hlt h⟩
    · obtain ⟨c, cs, hcs, hc⟩ := ih (n / 10) (by omega) (by omega)
      refine ⟨c, cs ++ [(n % 10).digitChar], ?_, hc⟩
      rw [Nat.toDigits_of_base_le (by omega) (by omega), hcs, List.cons_append]

theorem wholePart?_toDigits (n : Nat) {rest : List Char} (hrest : Ends rest) :
    wholePart? (Nat.toDigits 10 n ++ rest) = some (Nat.toDigits 10 n, rest) := by
  by_cases hn : n = 0
  · subst hn
    rfl
  · obtain ⟨c, cs, hcs, hc⟩ := head_toDigits (Nat.pos_of_ne_zero hn)
    have hall : ∀ c ∈ Nat.toDigits 10 n, c.isDigit = true :=
      fun c hc => Nat.isDigit_of_mem_toDigits (by omega) (by omega) hc
    have hstop : rest.takeWhile Char.isDigit = [] ∧ rest.dropWhile Char.isDigit = rest := by
      cases rest with
      | nil => exact ⟨rfl, rfl⟩
      | cons d more => simp [(hrest d more rfl).1]
    have hdigits : digits? (Nat.toDigits 10 n ++ rest) = some (Nat.toDigits 10 n, rest) := by
      unfold digits?
      rw [List.takeWhile_append_of_pos hall, List.dropWhile_append_of_pos hall, hstop.1, hstop.2,
        List.append_nil, if_neg]
      simp [hcs]
    rw [hcs, List.cons_append] at hdigits ⊢
    rw [wholePart?, hdigits]
    intro more hmore
    exact hc (List.cons.inj hmore).1

theorem fraction?_of_ends {rest : List Char} (h : Ends rest) :
    fraction? rest = some ([], rest) := by
  cases rest with
  | nil => rfl
  | cons c more =>
    rw [fraction?]
    intro more' hmore
    exact (h c more rfl).2.1 (List.cons.inj hmore).1

theorem exponent?_of_ends {rest : List Char} (h : Ends rest) :
    exponent? rest = some ([], rest) := by
  cases rest with
  | nil => rfl
  | cons c more =>
    obtain ⟨-, -, he, hE⟩ := h c more rfl
    exact if_neg (by simp [he, hE])

/-- An integer is read back. -/
theorem numberToken_ofInt {n : Int} {literal : String} (h : ofInt n = number literal)
    {rest : List Char} (hrest : Ends rest) :
    numberToken (literal.toList ++ rest) = some (literal.toList, rest) := by
  have hwhole := wholePart?_toDigits n.natAbs hrest
  have hfraction := fraction?_of_ends hrest
  have hexponent := exponent?_of_ends hrest
  injection h with h
  subst h
  split_ifs with hneg
  · -- a sign, then the digits
    rw [String.toList_append, Nat.toList_repr]
    change numberToken ('-' :: (Nat.toDigits 10 n.natAbs ++ rest)) = _
    unfold numberToken
    simp only [hwhole, hfraction, hexponent, Option.bind_eq_bind, Option.bind_some, List.append_nil]
    rfl
  · -- the digits, none of which is a sign
    obtain ⟨c, cs, hcs⟩ := List.exists_cons_of_ne_nil
      (Nat.toDigits_ne_nil (n := n.natAbs) (b := 10))
    have hc : c ≠ '-' := by
      rintro rfl
      have hdigit : '-'.isDigit = true :=
        Nat.isDigit_of_mem_toDigits (n := n.natAbs) (b := 10) (by omega) (by omega) (by simp [hcs])
      exact absurd hdigit (by decide)
    rw [Nat.toList_repr]
    unfold numberToken
    split
    rename_i hhead
    split at hhead
    · rename_i hsame
      rw [hcs] at hsame
      exact absurd (List.cons.inj hsame).1 hc
    · obtain ⟨rfl, rfl⟩ := Prod.mk.inj hhead
      simp only [hwhole, hfraction, hexponent, Option.bind_eq_bind, Option.bind_some,
        List.append_nil]
      rfl

/-- An integer starts with a sign or a digit. -/
theorem head_ofInt {n : Int} {literal : String} (h : ofInt n = number literal) :
    ∃ c cs, literal.toList = c :: cs ∧ (c = '-' ∨ c.isDigit = true) := by
  injection h with h
  subst h
  split_ifs with hneg
  · exact ⟨'-', (Nat.repr n.natAbs).toList, by rw [String.toList_append]; rfl, .inl rfl⟩
  · obtain ⟨c, cs, hcs⟩ := List.exists_cons_of_ne_nil
      (Nat.toDigits_ne_nil (n := n.natAbs) (b := 10))
    refine ⟨c, cs, by rw [Nat.toList_repr, hcs], .inr ?_⟩
    exact Nat.isDigit_of_mem_toDigits (n := n.natAbs) (b := 10) (by omega) (by omega)
      (by simp [hcs])

/-- The character of a sign or a digit is none that is neither. -/
theorem ne_of_head {c d : Char} (hc : c = '-' ∨ c.isDigit = true) (hd : d ≠ '-')
    (hdigit : d.isDigit = false) : c ≠ d := by
  rintro rfl
  rcases hc with rfl | hc
  · exact hd rfl
  · rw [hdigit] at hc
    cases hc

/-! ## Values -/

mutual

/-- What is read back of a value: stray bytes of its strings are replaced. -/
def readBack : Json → Json
  | null => null
  | bool b => bool b
  | number literal => number literal
  | string t => string (Text.ofChars t.chars)
  | array items => array (readBackItems items)
  | object members => object (readBackMembers members)

/-- What is read back of values. -/
def readBackItems : List Json → List Json
  | [] => []
  | v :: rest => readBack v :: readBackItems rest

/-- What is read back of members. -/
def readBackMembers : List (String × Json) → List (String × Json)
  | [] => []
  | (key, v) :: rest => (key, readBack v) :: readBackMembers rest

end

mutual

/-- The numbers of a value are integers. -/
def HasIntegers : Json → Prop
  | number literal => ∃ n, ofInt n = number literal
  | array items => ItemsHaveIntegers items
  | object members => MembersHaveIntegers members
  | _ => True

/-- The numbers of values are integers. -/
def ItemsHaveIntegers : List Json → Prop
  | [] => True
  | v :: rest => HasIntegers v ∧ ItemsHaveIntegers rest

/-- The numbers of members are integers. -/
def MembersHaveIntegers : List (String × Json) → Prop
  | [] => True
  | (_, v) :: rest => HasIntegers v ∧ MembersHaveIntegers rest

end

mutual

/-- How many levels and items deep a value is. -/
def cost : Json → Nat
  | array items => costItems items + 1
  | object members => costMembers members + 1
  | _ => 1

/-- How many levels and items deep values are. -/
def costItems : List Json → Nat
  | [] => 0
  | v :: rest => max (cost v) (costItems rest) + 1

/-- How many levels and items deep members are. -/
def costMembers : List (String × Json) → Nat
  | [] => 0
  | (_, v) :: rest => max (cost v) (costMembers rest) + 1

end

theorem chars_lineBreak (depth : Nat) :
    (lineBreak depth).chars = '\n' :: List.replicate (2 * depth) ' ' := by
  rw [lineBreak, Text.chars_append (Text.isValid_ofString _), Text.chars_ofString,
    Text.chars_ofChars]
  rfl

@[simp] theorem isValid_lineBreak (depth : Nat) : (lineBreak depth).isValid = true :=
  Text.isValid_append (Text.isValid_ofString _) (Text.isValid_ofChars _)

@[simp] theorem isValid_quotedText (t : Text) : (quotedText t).isValid = true :=
  Text.isValid_ofChars _

mutual

theorem isValid_indentedAt (depth : Nat) : ∀ v, (indentedAt depth v).isValid = true
  | array (v :: rest) => by
    have hitems := isValid_indentedItems (depth + 1) (v :: rest)
    exact Text.isValid_append (Text.isValid_append (Text.isValid_append (Text.isValid_ofString _)
      hitems) (isValid_lineBreak depth)) (Text.isValid_ofString _)
  | object (m :: rest) => by
    have hmembers := isValid_indentedMembers (depth + 1) (m :: rest)
    exact Text.isValid_append (Text.isValid_append (Text.isValid_append (Text.isValid_ofString _)
      hmembers) (isValid_lineBreak depth)) (Text.isValid_ofString _)
  | array [] | object [] | null | bool true | bool false | number _ | string _ => by
    simp [indentedAt]

theorem isValid_indentedItems (depth : Nat) : ∀ vs, (indentedItems depth vs).isValid = true
  | [] => rfl
  | [v] => by
    exact Text.isValid_append (isValid_lineBreak depth) (isValid_indentedAt depth v)
  | v :: w :: rest => by
    have hfirst := Text.isValid_append (isValid_lineBreak depth) (isValid_indentedAt depth v)
    rw [indentedItems]
    · exact Text.isValid_append (Text.isValid_append hfirst (Text.isValid_ofString _))
        (isValid_indentedItems depth (w :: rest))
    · exact nofun

theorem isValid_indentedMembers (depth : Nat) : ∀ ms, (indentedMembers depth ms).isValid = true
  | [] => rfl
  | [(key, v)] => by
    have hkey := Text.isValid_append (isValid_lineBreak depth) (isValid_quotedText key)
    exact Text.isValid_append (Text.isValid_append hkey (Text.isValid_ofString _))
      (isValid_indentedAt depth v)
  | (key, v) :: m :: rest => by
    have hkey := Text.isValid_append (isValid_lineBreak depth) (isValid_quotedText key)
    have hfirst := Text.isValid_append (Text.isValid_append hkey (Text.isValid_ofString ": "))
      (isValid_indentedAt depth v)
    rw [indentedMembers]
    · exact Text.isValid_append (Text.isValid_append hfirst (Text.isValid_ofString _))
        (isValid_indentedMembers depth (m :: rest))
    · exact nofun

end

/-! ### The characters of a value -/

theorem chars_array (depth : Nat) (v : Json) (rest : List Json) :
    (indentedAt depth (array (v :: rest))).chars =
      '[' :: ((indentedItems (depth + 1) (v :: rest)).chars ++
        ((lineBreak depth).chars ++ [']'])) := by
  have hitems := isValid_indentedItems (depth + 1) (v :: rest)
  rw [indentedAt, List.append_assoc, List.append_assoc, Text.chars_append (Text.isValid_ofString _),
    Text.chars_append hitems, Text.chars_append (isValid_lineBreak depth), Text.chars_ofString,
    Text.chars_ofString]
  rfl

theorem chars_object (depth : Nat) (m : String × Json) (rest : List (String × Json)) :
    (indentedAt depth (object (m :: rest))).chars =
      '\x7b' :: ((indentedMembers (depth + 1) (m :: rest)).chars ++
        ((lineBreak depth).chars ++ ['\x7d'])) := by
  have hmembers := isValid_indentedMembers (depth + 1) (m :: rest)
  rw [indentedAt, List.append_assoc, List.append_assoc, Text.chars_append (Text.isValid_ofString _),
    Text.chars_append hmembers, Text.chars_append (isValid_lineBreak depth), Text.chars_ofString,
    Text.chars_ofString]
  rfl

theorem chars_item (depth : Nat) (v : Json) :
    (indentedItems depth [v]).chars = (lineBreak depth).chars ++ (indentedAt depth v).chars := by
  rw [indentedItems, Text.chars_append (isValid_lineBreak depth)]

theorem chars_items (depth : Nat) (v w : Json) (rest : List Json) :
    (indentedItems depth (v :: w :: rest)).chars = (lineBreak depth).chars ++
      ((indentedAt depth v).chars ++ ',' :: (indentedItems depth (w :: rest)).chars) := by
  rw [indentedItems, List.append_assoc, List.append_assoc,
    Text.chars_append (isValid_lineBreak depth), Text.chars_append (isValid_indentedAt depth v),
    Text.chars_append (Text.isValid_ofString _), Text.chars_ofString]
  · rfl
  · exact nofun

theorem chars_member (depth : Nat) (key : String) (v : Json) :
    (indentedMembers depth [(key, v)]).chars = (lineBreak depth).chars ++
      ((quotedText key).chars ++ ':' :: ' ' :: (indentedAt depth v).chars) := by
  rw [indentedMembers, List.append_assoc, List.append_assoc,
    Text.chars_append (isValid_lineBreak depth), Text.chars_append (isValid_quotedText _),
    Text.chars_append (Text.isValid_ofString _), Text.chars_ofString]
  rfl

theorem chars_members (depth : Nat) (key : String) (v : Json) (m : String × Json)
    (rest : List (String × Json)) :
    (indentedMembers depth ((key, v) :: m :: rest)).chars = (lineBreak depth).chars ++
      ((quotedText key).chars ++ ':' :: ' ' :: ((indentedAt depth v).chars ++
        ',' :: (indentedMembers depth (m :: rest)).chars)) := by
  rw [indentedMembers, List.append_assoc, List.append_assoc, List.append_assoc, List.append_assoc,
    Text.chars_append (isValid_lineBreak depth), Text.chars_append (isValid_quotedText _),
    Text.chars_append (Text.isValid_ofString _), Text.chars_append (isValid_indentedAt depth v),
    Text.chars_append (Text.isValid_ofString _), Text.chars_ofString, Text.chars_ofString]
  · rfl
  · exact nofun

/-! ### Blanks -/

theorem skipSpace_append {blank : List Char} (h : ∀ c ∈ blank, isSpace c = true)
    (rest : List Char) : skipSpace (blank ++ rest) = skipSpace rest :=
  List.dropWhile_append_of_pos h

theorem skipSpace_cons {c : Char} (h : isSpace c = false) (rest : List Char) :
    skipSpace (c :: rest) = c :: rest := by
  rw [skipSpace, List.dropWhile_cons_of_neg (by simp [h])]

theorem skipSpace_skipSpace (cs : List Char) : skipSpace (skipSpace cs) = skipSpace cs :=
  List.dropWhile_idempotent _ _

theorem isSpace_lineBreak (depth : Nat) : ∀ c ∈ (lineBreak depth).chars, isSpace c = true := by
  intro c hc
  rw [chars_lineBreak] at hc
  rcases List.mem_cons.mp hc with rfl | hc
  · rfl
  · obtain rfl := (List.mem_replicate.mp hc).2
    rfl

theorem value_skipSpace (n : Nat) (cs : List Char) : value n (skipSpace cs) = value n cs := by
  cases n with
  | zero => rw [value, value]
  | succ n => rw [value, value, skipSpace_skipSpace]

theorem items_skipSpace (n : Nat) (cs : List Char) : items n (skipSpace cs) = items n cs := by
  cases n with
  | zero => rw [items, items]
  | succ n => rw [items, items, value_skipSpace]

theorem members_skipSpace (n : Nat) (cs : List Char) : members n (skipSpace cs) = members n cs := by
  cases n with
  | zero => rw [members, members]
  | succ n => rw [members, members, skipSpace_skipSpace]

theorem isSpace_of_head {c : Char} (h : c = '-' ∨ c.isDigit = true) : isSpace c = false := by
  have hne (d : Char) (hd : d ≠ '-') (hdigit : d.isDigit = false) : (c == d) = false :=
    beq_eq_false_iff_ne.mpr (ne_of_head h hd hdigit)
  unfold isSpace
  rw [hne ' ' (by decide) rfl, hne '\t' (by decide) rfl, hne '\n' (by decide) rfl,
    hne '\r' (by decide) rfl]
  rfl

/-- A value starts with a character that is no blank, and closes nothing. -/
theorem exists_head (depth : Nat) (v : Json) (hv : HasIntegers v) :
    ∃ c cs, (indentedAt depth v).chars = c :: cs ∧ isSpace c = false ∧ c ≠ ']' := by
  cases v with
  | null => exact ⟨_, _, by rw [indentedAt, Text.chars_ofString]; rfl, rfl, by decide⟩
  | bool b =>
    cases b <;> exact ⟨_, _, by rw [indentedAt, Text.chars_ofString]; rfl, rfl, by decide⟩
  | number literal =>
    obtain ⟨n, hn⟩ := hv
    obtain ⟨c, cs, hcs, hc⟩ := head_ofInt hn
    refine ⟨c, cs, ?_, isSpace_of_head hc, ne_of_head hc (by decide) rfl⟩
    rw [indentedAt, Text.chars_ofString, hcs]
  | string t => exact ⟨_, _, by rw [indentedAt, chars_quotedText], rfl, by decide⟩
  | array items =>
    cases items with
    | nil => exact ⟨_, _, by rw [indentedAt, Text.chars_ofString]; rfl, rfl, by decide⟩
    | cons v rest => exact ⟨_, _, chars_array depth v rest, rfl, by decide⟩
  | object members =>
    cases members with
    | nil => exact ⟨_, _, by rw [indentedAt, Text.chars_ofString]; rfl, rfl, by decide⟩
    | cons m rest => exact ⟨_, _, chars_object depth m rest, rfl, by decide⟩

/-- Blanks may come after a number, before what closes an array or an object. -/
theorem ends_blank {blank : List Char} (h : ∀ c ∈ blank, isSpace c = true) {c : Char}
    (hc : c.isDigit = false ∧ c ≠ '.' ∧ c ≠ 'e' ∧ c ≠ 'E') (rest : List Char) :
    Ends (blank ++ c :: rest) := by
  cases blank with
  | nil => exact ends_cons hc rest
  | cons b blank =>
    have hb := h b List.mem_cons_self
    simp only [isSpace, Bool.or_eq_true, beq_iff_eq] at hb
    rcases hb with ((rfl | rfl) | rfl) | rfl <;> exact ends_cons (by decide) _

theorem cost_pos (v : Json) : 1 ≤ cost v := by
  cases v <;> simp [cost]

/-! ### Reading a value -/

/-- A number is what is left if nothing else starts a value. -/
theorem value_number (n : Nat) {c : Char} (hc : c = '-' ∨ c.isDigit = true) (cs : List Char) :
    value (n + 1) (c :: cs) = (do
      let (literal, after) ← numberToken (c :: cs)
      return (number (String.ofList literal), after)) := by
  have hne {d : Char} (hd : d ≠ '-') (hdigit : d.isDigit = false) : c ≠ d := ne_of_head hc hd hdigit
  rw [value, skipSpace_cons (isSpace_of_head hc)]
  split
  all_goals first
    | rfl
    | (rename_i heq
       exact absurd (List.cons.inj heq).1 (hne (by decide) rfl))

/-- The items of an array that is not empty. -/
theorem value_array (n : Nat) {cs : List Char} {c : Char} {more : List Char}
    (hcs : skipSpace cs = c :: more) (hc : c ≠ ']') :
    value (n + 1) ('[' :: cs) = (items n cs).map fun (vs, after) => (array vs, after) := by
  rw [value, skipSpace_cons rfl]
  simp only [← items_skipSpace n cs, hcs]
  split
  · rename_i heq
    exact absurd (List.cons.inj heq).1 hc
  · cases items n (c :: more) <;> rfl

/-- The members of an object that is not empty. -/
theorem value_object (n : Nat) {cs : List Char} {c : Char} {more : List Char}
    (hcs : skipSpace cs = c :: more) (hc : c ≠ '\x7d') :
    value (n + 1) ('\x7b' :: cs) = (members n cs).map fun (ms, after) => (object ms, after) := by
  rw [value, skipSpace_cons rfl]
  simp only [← members_skipSpace n cs, hcs]
  split
  · rename_i heq
    exact absurd (List.cons.inj heq).1 hc
  · cases members n (c :: more) <;> rfl

theorem value_string (n : Nat) (t : Text) (rest : List Char) :
    value (n + 1) ((quotedText t).chars ++ rest) = some (string (Text.ofChars t.chars), rest) := by
  have htoken := stringToken_quotedText t rest
  rw [chars_quotedText, List.cons_append] at htoken ⊢
  rw [value, skipSpace_cons rfl]
  change (do
    let (s, after) ← stringToken ('"' :: _)
    return (string (Text.ofChars s), after)) = _
  rw [htoken]
  rfl

/-- The last item of an array. -/
theorem items_last {n : Nat} {cs blank rest : List Char} {v : Json}
    (hread : value n cs = some (v, blank ++ ']' :: rest)) (hblank : ∀ c ∈ blank, isSpace c = true) :
    items (n + 1) cs = some ([v], rest) := by
  rw [items, hread]
  simp only [Option.bind_eq_bind, Option.bind_some, skipSpace_append hblank]
  rfl

/-- An item of an array with more after it. -/
theorem items_next {n : Nat} {cs more rest : List Char} {v : Json} {vs : List Json}
    (hread : value n cs = some (v, ',' :: more)) (hmore : items n more = some (vs, rest)) :
    items (n + 1) cs = some (v :: vs, rest) := by
  rw [items, hread]
  simp only [Option.bind_eq_bind, Option.bind_some]
  rw [skipSpace_cons rfl]
  change (do
    let (vs, after) ← items n more
    return (v :: vs, after)) = _
  rw [hmore]
  rfl

/-- The last member of an object. -/
theorem members_last {n : Nat} {cs after blank rest : List Char} {key : Text} {v : Json}
    (hcs : skipSpace cs = (quotedText key).chars ++ ':' :: after)
    (hread : value n after = some (v, blank ++ '\x7d' :: rest))
    (hblank : ∀ c ∈ blank, isSpace c = true) :
    members (n + 1) cs = some ([(String.ofList key.chars, v)], rest) := by
  rw [members, hcs, stringToken_quotedText]
  simp only [Option.bind_eq_bind, Option.bind_some]
  rw [skipSpace_cons rfl]
  change (value n after).bind _ = _
  rw [hread, Option.bind_some, skipSpace_append hblank]
  rfl

/-- A member of an object with more after it. -/
theorem members_next {n : Nat} {cs after more rest : List Char} {key : Text} {v : Json}
    {ms : List (String × Json)} (hcs : skipSpace cs = (quotedText key).chars ++ ':' :: after)
    (hread : value n after = some (v, ',' :: more)) (hmore : members n more = some (ms, rest)) :
    members (n + 1) cs = some ((String.ofList key.chars, v) :: ms, rest) := by
  rw [members, hcs, stringToken_quotedText]
  simp only [Option.bind_eq_bind, Option.bind_some]
  rw [skipSpace_cons rfl]
  change (value n after).bind _ = _
  rw [hread, Option.bind_some, skipSpace_cons rfl]
  change (members n more).bind _ = _
  rw [hmore]
  rfl

/-- A line break comes before a value. -/
theorem value_lineBreak (n depth : Nat) (cs : List Char) :
    value n ((lineBreak depth).chars ++ cs) = value n cs := by
  rw [← value_skipSpace, skipSpace_append (isSpace_lineBreak depth), value_skipSpace]

theorem value_blank (n : Nat) (cs : List Char) : value n (' ' :: cs) = value n cs := by
  rw [← value_skipSpace, ← value_skipSpace n cs]
  rfl

/-- A key comes first in a member. -/
theorem skipSpace_key (depth : Nat) (key : Text) (rest : List Char) :
    skipSpace ((lineBreak depth).chars ++ ((quotedText key).chars ++ rest)) =
      (quotedText key).chars ++ rest := by
  rw [skipSpace_append (isSpace_lineBreak depth), chars_quotedText, List.cons_append,
    skipSpace_cons rfl]

mutual

/-- A value is read back, whatever comes after it. -/
theorem value_indentedAt (depth : Nat) : ∀ (v : Json) (n : Nat) (rest : List Char), HasIntegers v →
    cost v ≤ n + 1 → Ends rest →
    value (n + 1) ((indentedAt depth v).chars ++ rest) = some (readBack v, rest)
  | null, n, rest, _, _, _ => by
    rw [indentedAt, Text.chars_ofString, readBack, value]
    rfl
  | bool true, n, rest, _, _, _ => by
    rw [indentedAt, Text.chars_ofString, readBack, value]
    rfl
  | bool false, n, rest, _, _, _ => by
    rw [indentedAt, Text.chars_ofString, readBack, value]
    rfl
  | string t, n, rest, _, _, _ => by
    exact value_string n t rest
  | number literal, n, rest, hv, _, hrest => by
    obtain ⟨k, hk⟩ := hv
    obtain ⟨c, cs, hcs, hc⟩ := head_ofInt hk
    have htoken := numberToken_ofInt hk hrest
    rw [indentedAt, Text.chars_ofString, readBack]
    rw [hcs, List.cons_append] at htoken ⊢
    rw [value_number n hc, htoken, ← hcs]
    simp
  | array [], n, rest, _, _, _ => by
    rw [indentedAt, Text.chars_ofString, readBack, value]
    rfl
  | object [], n, rest, _, _, _ => by
    rw [indentedAt, Text.chars_ofString, readBack, value]
    rfl
  | array (v :: vs), n, rest, hv, hcost, hrest => by
    rw [HasIntegers] at hv
    rw [cost] at hcost
    have hread := items_indentedItems (depth + 1) (v :: vs) n rest (lineBreak depth).chars nofun hv
      (by omega) (isSpace_lineBreak depth)
    -- what is first in the brackets is a value, and no closing bracket
    obtain ⟨c, cs, hcs, hspace, hc⟩ := exists_head (depth + 1) v hv.1
    obtain ⟨more, hmore⟩ : ∃ more, skipSpace ((indentedItems (depth + 1) (v :: vs)).chars ++
        ((lineBreak depth).chars ++ ']' :: rest)) = c :: more := by
      cases vs with
      | nil =>
        rw [chars_item, List.append_assoc, skipSpace_append (isSpace_lineBreak _), hcs,
          List.cons_append, skipSpace_cons hspace]
        exact ⟨_, rfl⟩
      | cons w vs =>
        rw [chars_items, List.append_assoc, skipSpace_append (isSpace_lineBreak _), hcs,
          List.cons_append, List.cons_append, skipSpace_cons hspace]
        exact ⟨_, rfl⟩
    have htext : (indentedAt depth (array (v :: vs))).chars ++ rest =
        '[' :: ((indentedItems (depth + 1) (v :: vs)).chars ++
          ((lineBreak depth).chars ++ ']' :: rest)) := by
      rw [chars_array]
      simp only [List.cons_append, List.append_assoc, List.nil_append]
    rw [htext, value_array n hmore hc, hread, readBack]
    rfl
  | object ((key, v) :: ms), n, rest, hv, hcost, hrest => by
    rw [HasIntegers] at hv
    rw [cost] at hcost
    have hread := members_indentedMembers (depth + 1) ((key, v) :: ms) n rest
      (lineBreak depth).chars
      nofun hv (by omega) (isSpace_lineBreak depth)
    -- what is first in the braces is a key, and no closing brace
    obtain ⟨more, hmore⟩ :
      ∃ more, skipSpace ((indentedMembers (depth + 1) ((key, v) :: ms)).chars ++
        ((lineBreak depth).chars ++ '\x7d' :: rest)) = '"' :: more := by
      cases ms with
      | nil =>
        rw [chars_member, List.append_assoc, List.append_assoc, skipSpace_key, chars_quotedText]
        exact ⟨_, rfl⟩
      | cons m ms =>
        rw [chars_members, List.append_assoc, List.append_assoc, skipSpace_key, chars_quotedText]
        exact ⟨_, rfl⟩
    have htext : (indentedAt depth (object ((key, v) :: ms))).chars ++ rest =
        '\x7b' :: ((indentedMembers (depth + 1) ((key, v) :: ms)).chars ++
          ((lineBreak depth).chars ++ '\x7d' :: rest)) := by
      rw [chars_object]
      simp only [List.cons_append, List.append_assoc, List.nil_append]
    rw [htext, value_object n hmore (by decide), hread, readBack]
    rfl

/-- The items of an array are read back. -/
theorem items_indentedItems (depth : Nat) : ∀ (vs : List Json) (n : Nat) (rest blank : List Char),
    vs ≠ [] → ItemsHaveIntegers vs → costItems vs ≤ n → (∀ c ∈ blank, isSpace c = true) →
    items n ((indentedItems depth vs).chars ++ (blank ++ ']' :: rest)) =
      some (readBackItems vs, rest)
  | [], _, _, _, hne, _, _, _ => absurd rfl hne
  | [v], n, rest, blank, _, hv, hcost, hblank => by
    have hpos := cost_pos v
    rw [costItems] at hcost
    obtain ⟨n, rfl⟩ : ∃ m, n = m + 2 := ⟨n - 2, by omega⟩
    have hread := value_indentedAt depth v n (blank ++ ']' :: rest) hv.1 (by omega)
      (ends_blank hblank (by decide) rest)
    rw [← value_lineBreak (n + 1) depth, ← List.append_assoc] at hread
    rw [chars_item, items_last hread hblank]
    rfl
  | v :: w :: vs, n, rest, blank, _, hv, hcost, hblank => by
    have hpos := cost_pos v
    rw [costItems] at hcost
    obtain ⟨n, rfl⟩ : ∃ m, n = m + 2 := ⟨n - 2, by omega⟩
    have hmore := items_indentedItems depth (w :: vs) (n + 1) rest blank nofun hv.2
      (by omega) hblank
    have hread := value_indentedAt depth v n
      (',' :: ((indentedItems depth (w :: vs)).chars ++ (blank ++ ']' :: rest))) hv.1 (by omega)
      (ends_cons (by decide) _)
    rw [← value_lineBreak (n + 1) depth] at hread
    rw [chars_items, List.append_assoc, List.append_assoc, List.cons_append,
      items_next hread hmore]
    rfl

/-- The members of an object are read back. -/
theorem members_indentedMembers (depth : Nat) : ∀ (ms : List (String × Json)) (n : Nat)
    (rest blank : List Char), ms ≠ [] → MembersHaveIntegers ms → costMembers ms ≤ n →
    (∀ c ∈ blank, isSpace c = true) →
    members n ((indentedMembers depth ms).chars ++ (blank ++ '\x7d' :: rest)) =
      some (readBackMembers ms, rest)
  | [], _, _, _, hne, _, _, _ => absurd rfl hne
  | [(key, v)], n, rest, blank, _, hv, hcost, hblank => by
    have hpos := cost_pos v
    rw [costMembers] at hcost
    obtain ⟨n, rfl⟩ : ∃ m, n = m + 2 := ⟨n - 2, by omega⟩
    have hread := value_indentedAt depth v n (blank ++ '\x7d' :: rest) hv.1 (by omega)
      (ends_blank hblank (by decide) rest)
    rw [← value_blank] at hread
    rw [chars_member, List.append_assoc, List.append_assoc, List.cons_append, List.cons_append,
      members_last (skipSpace_key depth key _) hread hblank, Text.chars_ofString,
      String.ofList_toList]
    rfl
  | (key, v) :: m :: ms, n, rest, blank, _, hv, hcost, hblank => by
    have hpos := cost_pos v
    rw [costMembers] at hcost
    obtain ⟨n, rfl⟩ : ∃ m, n = m + 2 := ⟨n - 2, by omega⟩
    have hmore := members_indentedMembers depth (m :: ms) (n + 1) rest blank nofun hv.2
      (by omega) hblank
    have hread := value_indentedAt depth v n
      (',' :: ((indentedMembers depth (m :: ms)).chars ++ (blank ++ '\x7d' :: rest))) hv.1
      (by omega) (ends_cons (by decide) _)
    rw [← value_blank] at hread
    rw [chars_members, List.append_assoc, List.append_assoc, List.cons_append, List.cons_append,
      List.append_assoc, List.cons_append, members_next (skipSpace_key depth key _) hread hmore,
      Text.chars_ofString, String.ofList_toList]
    rfl

end

/-! ### The whole text -/

mutual

/-- A value is written with more characters than it is deep. -/
theorem cost_le_length (depth : Nat) : ∀ v, cost v ≤ 2 * (indentedAt depth v).chars.length + 1
  | array (v :: vs) => by
    have hitems := costItems_le_length (depth + 1) (v :: vs)
    rw [cost, chars_array]
    simp only [List.length_cons, List.length_append]
    omega
  | object (m :: ms) => by
    have hmembers := costMembers_le_length (depth + 1) (m :: ms)
    rw [cost, chars_object]
    simp only [List.length_cons, List.length_append]
    omega
  | array [] | object [] | null | bool true | bool false | number _ | string _ => by
    simp [cost, costItems, costMembers]

theorem costItems_le_length (depth : Nat) : ∀ vs,
    costItems vs ≤ 2 * (indentedItems depth vs).chars.length
  | [] => by simp [costItems]
  | [v] => by
    have hv := cost_le_length depth v
    simp only [costItems, chars_item, chars_lineBreak, List.length_append, List.length_cons]
    omega
  | v :: w :: vs => by
    have hv := cost_le_length depth v
    have hvs := costItems_le_length depth (w :: vs)
    rw [costItems, chars_items, chars_lineBreak]
    simp only [List.length_append, List.length_cons]
    omega

theorem costMembers_le_length (depth : Nat) : ∀ ms,
    costMembers ms ≤ 2 * (indentedMembers depth ms).chars.length
  | [] => by simp [costMembers]
  | [(key, v)] => by
    have hv := cost_le_length depth v
    simp only [costMembers, chars_member, chars_lineBreak, List.length_append, List.length_cons]
    omega
  | (key, v) :: m :: ms => by
    have hv := cost_le_length depth v
    have hms := costMembers_le_length depth (m :: ms)
    rw [costMembers, chars_members, chars_lineBreak]
    simp only [List.length_append, List.length_cons]
    omega

end

/-- **A value that is written is read back**, but for the stray bytes of its strings. -/
theorem parse?_indented {v : Json} (h : HasIntegers v) : parse? v.indented = some (readBack v) := by
  have hcost := cost_le_length 0 v
  have hread := value_indentedAt 0 v (2 * (indentedAt 0 v).chars.length + 1) [] h
    (by omega) ends_nil
  rw [List.append_nil] at hread
  unfold parse? indented
  simp only [hread]
  rfl

end Toolchain.Json
