import Toolchain.Prompt.Input
import Toolchain.Proofs.Text.Utf8
import Toolchain.Proofs.Token.Forms

/-!
# The scanner of the prompt reads as the lexer does

The prompt judges by single bytes whether an input is complete. All that its scanner tells apart are
quotes, brackets, backslashes, number signs and newlines, which are characters of one byte; the
bytes of any other character are all the same to it. So it reads characters, and it goes over each
token of the lexer at once: it is in code again behind the token, as deep in brackets as the token
says, unless the token is a string in three quotes that is not closed.

## Main definitions

* `scanByte`: a character as the scanner sees it
* `Encodes`: the bytes of some characters
* `isOpenAt`: the scanner on characters
* `Lexeme.IsOpenLong`: a string in three quotes that is not closed
* `Lexeme.Scanned`: what the scanner makes of a token

## Main results

* `needsMore_eq_isOpenAt`: the scanner reads characters
* `isOpenAt_inside`: the inside of a string
* `Lexeme.scanned_scan`: **the scanner goes over a token**
-/

namespace Toolchain

/-! ## One byte -/

/-- The byte of an ASCII character, and the same byte for all other characters. -/
def scanByte (c : Char) : UInt8 := UInt8.ofNat (min c.toNat 128)

theorem toNat_scanByte (c : Char) : (scanByte c).toNat = min c.toNat 128 :=
  UInt8.toNat_ofNat_of_lt' (Nat.lt_of_le_of_lt (Nat.min_le_right _ _) (by decide))

theorem scanByte_of_ascii {c : Char} (hc : c.toNat < 128) : scanByte c = c.toUInt8 := by
  rw [scanByte, Nat.min_eq_left (Nat.le_of_lt hc)]
  rfl

theorem scanByte_eq_iff {c q : Char} (hq : q.toNat < 128) : scanByte c = scanByte q ↔ c = q := by
  refine ⟨fun h => ?_, congrArg scanByte⟩
  have hnat := congrArg UInt8.toNat h
  rw [toNat_scanByte, toNat_scanByte] at hnat
  refine Char.toNat_inj.mp ?_
  omega

theorem bracketDepth_eq (b : UInt8) :
    bracketDepth b =
      if b = 40 ∨ b = 91 ∨ b = 123 then 1 else if b = 41 ∨ b = 93 ∨ b = 125 then -1 else 0 := by
  have hopen : "([\x7b".toUTF8.toList = [40, 91, 123] := by
    rw [ByteArray.toList_eq_data]
    rfl
  have hclose : ")]\x7d".toUTF8.toList = [41, 93, 125] := by
    rw [ByteArray.toList_eq_data]
    rfl
  rw [bracketDepth, hopen, hclose]
  simp

/-- A quote that is an ASCII character, if there is one. -/
def Reading.IsAscii : Reading → Prop
  | .string quote _ _ => quote.toNat < 128
  | _ => True

/-- What is being read after a byte that means nothing. -/
def Reading.settled : Reading → Reading
  | .string quote long _ => .string quote long false
  | r => r

theorem Reading.IsAscii.settled {r : Reading} (hr : r.IsAscii) : r.settled.IsAscii := by
  cases r <;> exact hr

section Byte

variable (depth : Int)

/-- A quote opens a string, which is long if two more quotes follow. -/
theorem isOpen_quote {b : UInt8} (hb : b = '"'.toUInt8 ∨ b = '\''.toUInt8) (t : Text) :
    isOpen depth .code (b :: t) =
      if t.take 2 = [b, b] then isOpen depth (.string b true false) (t.drop 2)
      else isOpen depth (.string b false false) t := by
  have hcomment : b ≠ '#'.toUInt8 := by rcases hb with rfl | rfl <;> decide
  conv_lhs => unfold isOpen
  rw [if_neg hcomment, if_pos hb]
  rcases t with _ | ⟨c, _ | ⟨d, t⟩⟩
  · rfl
  · simp
  · simp

/-- In a long string three quotes close it, and a backslash hides what follows. -/
theorem isOpen_long (quote b : UInt8) (t : Text) :
    isOpen depth (.string quote true false) (b :: t) =
      if b = '\\'.toUInt8 then isOpen depth (.string quote true true) t
      else if b = quote ∧ t.take 2 = [quote, quote] then isOpen depth .code (t.drop 2)
      else isOpen depth (.string quote true false) t := by
  conv_lhs => unfold isOpen
  rcases t with _ | ⟨c, _ | ⟨d, t⟩⟩
  · simp
  · simp
  · simp

/-- A byte that stands for no ASCII character means nothing. -/
theorem isOpen_neutral {r : Reading} (hr : r.IsAscii) {b : UInt8} (hb : 128 ≤ b.toNat) (t : Text) :
    isOpen depth r (b :: t) = isOpen depth r.settled t := by
  have hne {q : UInt8} (hq : q.toNat < 128) : b ≠ q := by
    rintro rfl
    omega
  cases r with
  | code =>
    have hquote : ¬(b = '"'.toUInt8 ∨ b = '\''.toUInt8) :=
      not_or.mpr ⟨hne (by decide), hne (by decide)⟩
    have hflat : bracketDepth b = 0 := by
      rw [bracketDepth_eq, if_neg, if_neg]
      all_goals exact not_or.mpr ⟨hne (by decide), not_or.mpr ⟨hne (by decide), hne (by decide)⟩⟩
    conv_lhs => unfold isOpen
    rw [if_neg (hne (by decide)), if_neg hquote, hflat, Int.add_zero]
    rfl
  | comment => rw [isOpen, if_neg (hne (by decide))]; rfl
  | string quote long escaped =>
    have hquote : b ≠ quote := hne hr
    cases escaped with
    | true => rw [isOpen]; rfl
    | false =>
      cases long with
      | true =>
        rw [isOpen_long, if_neg (hne (by decide)), if_neg fun h => hquote h.1]
        rfl
      | false =>
        rw [isOpen, if_neg (hne (by decide)), if_neg (not_or.mpr ⟨hquote, hne (by decide)⟩)]
        rfl

theorem isOpen_neutral_append {r : Reading} (hr : r.IsAscii) {bs : Text} (hne : bs ≠ [])
    (hbs : ∀ b ∈ bs, 128 ≤ b.toNat) (t : Text) :
    isOpen depth r (bs ++ t) = isOpen depth r.settled t := by
  induction bs generalizing r with
  | nil => exact absurd rfl hne
  | cons b bs ih =>
    have htwice : r.settled.settled = r.settled := by cases r <;> rfl
    rw [List.cons_append, isOpen_neutral depth hr (hbs b List.mem_cons_self)]
    cases bs with
    | nil => rfl
    | cons c bs =>
      have hrest : ∀ b ∈ c :: bs, 128 ≤ b.toNat := fun b hb => hbs b (List.mem_cons_of_mem _ hb)
      rw [ih hr.settled (List.cons_ne_nil c bs) hrest, htwice]

/-- The scanner looks at a byte, and at the two bytes after it if they are the same. -/
theorem isOpen_cons_congr {b : UInt8} (hb : b.toNat < 128) {t u : Text}
    (h : ∀ (depth : Int) (r : Reading), r.IsAscii → isOpen depth r t = isOpen depth r u)
    (htwo : t.take 2 = [b, b] ↔ u.take 2 = [b, b])
    (hdrop : t.take 2 = [b, b] → ∀ (depth : Int) (r : Reading), r.IsAscii →
      isOpen depth r (t.drop 2) = isOpen depth r (u.drop 2))
    {r : Reading} (hr : r.IsAscii) : isOpen depth r (b :: t) = isOpen depth r (b :: u) := by
  cases r with
  | comment =>
    simp only [isOpen]
    split
    · exact h depth .code trivial
    · exact h depth .comment trivial
  | code =>
    by_cases hquote : b = '"'.toUInt8 ∨ b = '\''.toUInt8
    · simp only [isOpen_quote depth hquote, htwo]
      split
      · next htake => exact hdrop (htwo.mpr htake) depth _ hb
      · exact h depth _ hb
    · conv_lhs => unfold isOpen
      conv_rhs => unfold isOpen
      simp only [if_neg hquote]
      split
      · exact h depth .comment trivial
      · exact h _ .code trivial
  | string quote long escaped =>
    cases escaped with
    | true =>
      simp only [isOpen]
      exact h depth _ hr
    | false =>
      cases long with
      | true =>
        simp only [isOpen_long]
        split
        · exact h depth _ hr
        by_cases hb' : b = quote
        · subst hb'
          simp only [true_and, htwo]
          split
          · next htake => exact hdrop (htwo.mpr htake) depth .code trivial
          · exact h depth _ hr
        · simp only [hb', false_and, if_false]
          exact h depth _ hr
      | false =>
        simp only [isOpen]
        split
        · exact h depth _ hr
        split
        · exact h depth .code trivial
        · exact h depth _ hr

end Byte

/-! ## The characters of a text -/

/-- The bytes of some characters: one for an ASCII character, and some that stand for no ASCII
character for any other one. -/
inductive Encodes : Text → List Char → Prop where
  | nil : Encodes [] []
  | ascii {c : Char} {t : Text} {cs : List Char} (hc : c.toNat < 128) (h : Encodes t cs) :
      Encodes (c.toUInt8 :: t) (c :: cs)
  | wide {c : Char} {bs t : Text} {cs : List Char} (hc : 128 ≤ c.toNat) (hne : bs ≠ [])
      (hbs : ∀ b ∈ bs, 128 ≤ b.toNat) (h : Encodes t cs) : Encodes (bs ++ t) (c :: cs)

namespace Encodes

variable {t : Text} {cs : List Char}

/-- An ASCII character at the head of a text is the one at the head of its characters. -/
theorem head?_eq_iff (h : Encodes t cs) {b : UInt8} (hb : b.toNat < 128) :
    (t.head? = some b ↔ (cs.map scanByte).head? = some b) ∧
      (t.head? = some b → Encodes t.tail cs.tail) := by
  cases h with
  | nil => exact ⟨Iff.rfl, nofun⟩
  | @ascii c t cs hc h =>
    rw [List.map_cons, scanByte_of_ascii hc]
    exact ⟨Iff.rfl, fun _ => h⟩
  | @wide c bs t cs hc hne hbs h =>
    obtain ⟨b', bs, rfl⟩ := List.exists_cons_of_ne_nil hne
    have hbyte : b' ≠ b := by
      rintro rfl
      have := hbs b' List.mem_cons_self
      omega
    have hscanByte : scanByte c ≠ b := by
      rintro rfl
      rw [toNat_scanByte] at hb
      omega
    exact ⟨by simp [hbyte, hscanByte], fun hhead => absurd (Option.some.inj hhead) hbyte⟩

/-- So are two of them. -/
theorem take_two_iff (h : Encodes t cs) {b : UInt8} (hb : b.toNat < 128) :
    (t.take 2 = [b, b] ↔ (cs.map scanByte).take 2 = [b, b]) ∧
      (t.take 2 = [b, b] → Encodes (t.drop 2) (cs.drop 2)) := by
  have htwo (u : Text) : u.take 2 = [b, b] ↔ u.head? = some b ∧ u.tail.head? = some b := by
    rcases u with _ | ⟨c, _ | ⟨d, u⟩⟩ <;> simp
  obtain ⟨hiff, hencodes⟩ := h.head?_eq_iff hb
  rw [htwo, htwo, ← List.map_tail]
  constructor
  · constructor
    · rintro ⟨hhead, hnext⟩
      exact ⟨hiff.mp hhead, ((hencodes hhead).head?_eq_iff hb).1.mp hnext⟩
    · rintro ⟨hhead, hnext⟩
      exact ⟨hiff.mpr hhead, ((hencodes (hiff.mpr hhead)).head?_eq_iff hb).1.mpr hnext⟩
  · rintro ⟨hhead, hnext⟩
    have hafter := ((hencodes hhead).head?_eq_iff hb).2 hnext
    simpa only [← List.drop_one, List.drop_drop] using hafter

/-- The scanner reads the characters of a text. -/
theorem isOpen_eq {t : Text} {cs : List Char} (h : Encodes t cs) (depth : Int) {r : Reading}
    (hr : r.IsAscii) : isOpen depth r t = isOpen depth r (cs.map scanByte) := by
  cases h with
  | nil => rfl
  | @ascii c t cs hc h =>
    have hbyte : c.toUInt8.toNat < 128 := by
      rw [← scanByte_of_ascii hc, toNat_scanByte]
      omega
    obtain ⟨hiff, hdrop⟩ := h.take_two_iff hbyte
    rw [List.map_cons, scanByte_of_ascii hc]
    refine isOpen_cons_congr depth hbyte (fun depth r hr => isOpen_eq h depth hr) hiff ?_ hr
    intro htake depth r hr
    rw [← List.map_drop]
    exact isOpen_eq (hdrop htake) depth hr
  | @wide c bs t cs hc hne hbs h =>
    have hbyte : 128 ≤ (scanByte c).toNat := by
      rw [toNat_scanByte]
      omega
    rw [isOpen_neutral_append depth hr hne hbs, List.map_cons, isOpen_neutral depth hr hbyte]
    exact isOpen_eq h depth hr.settled
  termination_by cs.length

end Encodes

/-- The characters of a text; a stray byte is read as one character too. -/
theorem encodes_chars (t : Text) : Encodes t t.chars := by
  have hencodes : ∀ gs : List Glyph, (∀ b, .stray b ∈ gs → 128 ≤ b.toNat) →
      Encodes (gs.flatMap Glyph.bytes) (gs.map Glyph.toChar) := by
    intro gs hstray
    induction gs with
    | nil => exact .nil
    | cons g gs ih =>
      have hrest := ih fun b hb => hstray b (List.mem_cons_of_mem _ hb)
      cases g with
      | stray b =>
        have hb := hstray b List.mem_cons_self
        have hwide : Encodes ([b] ++ gs.flatMap Glyph.bytes) ('\uFFFD' :: gs.map Glyph.toChar) :=
          .wide (by decide) (List.cons_ne_nil _ _) (by simpa using hb) hrest
        exact hwide
      | char c =>
        have hbytes : (Glyph.char c).bytes = String.utf8EncodeChar c := by
          rw [Glyph.bytes, Text.ofChars_cons, Text.ofChars_nil, List.append_nil]
        rw [List.flatMap_cons, List.map_cons, hbytes]
        by_cases hc : c.toNat < 128
        · rw [Text.utf8EncodeChar_of_ascii hc]
          exact .ascii hc hrest
        · have hwide : 128 ≤ c.toNat := Nat.le_of_not_lt hc
          have hbytes := Text.le_of_mem_utf8EncodeChar hwide
          exact .wide hwide (Text.utf8EncodeChar_ne_nil c) hbytes hrest
  have h := hencodes t.glyphs fun b hb => Text.le_of_stray_mem_glyphs hb
  rwa [Text.glyphs, Text.flatMap_bytes_glyphsFrom, List.drop_zero] at h

/-- Whether brackets or a long string are open at the end of some characters. -/
def isOpenAt (depth : Int) (r : Reading) (cs : List Char) : Bool := isOpen depth r (cs.map scanByte)

/-- **The scanner reads characters.** -/
theorem needsMore_eq_isOpenAt (t : Text) : needsMore t = isOpenAt 0 .code t.chars :=
  (encodes_chars t).isOpen_eq 0 trivial

/-! ## One character -/

section Step

variable (depth : Int)

/-- The quotes of strings. -/
def OpensString (q : Char) : Prop := q = '\'' ∨ q = '"'

instance (q : Char) : Decidable (OpensString q) := inferInstanceAs (Decidable (_ ∨ _))

/-- The characters that the scanner tells apart in code. -/
def marks : List Char := ['#', '"', '\'', '(', ')', '[', ']', '\x7b', '\x7d']

/-- How much deeper a character goes into brackets. -/
def bracketTurn (c : Char) : Int :=
  if c ∈ ['(', '[', '\x7b'] then 1 else if c ∈ [')', ']', '\x7d'] then -1 else 0

/-- How much deeper characters go into brackets. -/
def turnOf : List Char → Int
  | [] => 0
  | c :: cs => bracketTurn c + turnOf cs

theorem bracketDepth_scanByte (c : Char) : bracketDepth (scanByte c) = bracketTurn c := by
  have hmem {q : Char} (hq : q.toNat < 128) : scanByte c = scanByte q ↔ c = q := scanByte_eq_iff hq
  have hopen : scanByte c = 40 ∨ scanByte c = 91 ∨ scanByte c = 123 ↔ c ∈ ['(', '[', '\x7b'] := by
    simp only [List.mem_cons, List.not_mem_nil, or_false]
    exact or_congr (hmem (q := '(') (by decide))
      (or_congr (hmem (q := '[') (by decide)) (hmem (q := '\x7b') (by decide)))
  have hclose : scanByte c = 41 ∨ scanByte c = 93 ∨ scanByte c = 125 ↔ c ∈ [')', ']', '\x7d'] := by
    simp only [List.mem_cons, List.not_mem_nil, or_false]
    exact or_congr (hmem (q := ')') (by decide))
      (or_congr (hmem (q := ']') (by decide)) (hmem (q := '\x7d') (by decide)))
  rw [bracketDepth_eq, bracketTurn]
  simp only [hopen, hclose]

/-- A character that begins neither a comment nor a string. -/
theorem isOpenAt_code {c : Char} (hcomment : c ≠ '#') (hquote : ¬OpensString c) (cs : List Char) :
    isOpenAt depth .code (c :: cs) = isOpenAt (depth + bracketTurn c) .code cs := by
  have hcomment' : scanByte c ≠ '#'.toUInt8 :=
    (scanByte_eq_iff (q := '#') (by decide)).not.mpr hcomment
  have hquote' : ¬(scanByte c = '"'.toUInt8 ∨ scanByte c = '\''.toUInt8) := by
    rintro (h | h)
    · exact hquote (.inr ((scanByte_eq_iff (q := '"') (by decide)).mp h))
    · exact hquote (.inl ((scanByte_eq_iff (q := '\'') (by decide)).mp h))
  rw [isOpenAt, List.map_cons]
  conv_lhs => unfold isOpen
  rw [if_neg hcomment', if_neg hquote', bracketDepth_scanByte]
  rfl

/-- Characters that begin neither a comment nor a string. -/
theorem isOpenAt_append {cs : List Char} (hcs : ∀ c ∈ cs, c ≠ '#' ∧ ¬OpensString c)
    (ds : List Char) :
    isOpenAt depth .code (cs ++ ds) = isOpenAt (depth + turnOf cs) .code ds := by
  induction cs generalizing depth with
  | nil => exact congrArg (isOpenAt · .code ds) (Int.add_zero depth).symm
  | cons c cs ih =>
    obtain ⟨hcomment, hquote⟩ := hcs c List.mem_cons_self
    have hrest : ∀ d ∈ cs, d ≠ '#' ∧ ¬OpensString d := fun d hd => hcs d (List.mem_cons_of_mem _ hd)
    rw [List.cons_append, isOpenAt_code depth hcomment hquote, ih _ hrest, turnOf,
      Int.add_assoc]

/-- A character that is no mark. -/
theorem isOpenAt_neutral {c : Char} (hc : c ∉ marks) (cs : List Char) :
    isOpenAt depth .code (c :: cs) = isOpenAt depth .code cs := by
  simp only [marks, List.mem_cons, List.not_mem_nil, or_false, not_or] at hc
  obtain ⟨hcomment, hdouble, hsingle, hbrackets⟩ := hc
  rw [isOpenAt_code depth hcomment (not_or.mpr ⟨hsingle, hdouble⟩), bracketTurn]
  simp [hbrackets]

/-- Characters that are no marks. -/
theorem isOpenAt_dropWhile {p : Char → Bool} (hp : marks.any p = false) (cs : List Char) :
    isOpenAt depth .code (cs.dropWhile p) = isOpenAt depth .code cs := by
  induction cs with
  | nil => rfl
  | cons c cs ih =>
    rw [List.dropWhile_cons]
    split
    · next hc =>
      have hmark : c ∉ marks := fun hmem => List.any_eq_false.mp hp c hmem hc
      rw [ih, isOpenAt_neutral depth hmark]
    · rfl

/-- A number sign begins a comment. -/
theorem isOpenAt_hash (cs : List Char) :
    isOpenAt depth .code ('#' :: cs) = isOpenAt depth .comment cs := by
  have hhash : scanByte '#' = '#'.toUInt8 := rfl
  rw [isOpenAt, List.map_cons, hhash]
  conv_lhs => unfold isOpen
  rw [if_pos rfl]
  rfl

/-- A newline ends a comment. -/
theorem isOpenAt_comment_cons (c : Char) (cs : List Char) :
    isOpenAt depth .comment (c :: cs) =
      isOpenAt depth (if c = '\n' then .code else .comment) cs := by
  have hnewline : scanByte c = '\n'.toUInt8 ↔ c = '\n' := scanByte_eq_iff (q := '\n') (by decide)
  rw [isOpenAt, List.map_cons, isOpen]
  simp only [hnewline]
  rfl

/-- A comment goes up to the end of its line. -/
theorem isOpenAt_comment (cs : List Char) :
    isOpenAt depth .comment cs = isOpenAt depth .code (cs.dropWhile (· != '\n')) := by
  induction cs with
  | nil => rfl
  | cons c cs ih =>
    rw [isOpenAt_comment_cons]
    by_cases hc : c = '\n'
    · rw [if_pos hc, hc]
      exact (isOpenAt_neutral depth (by decide) cs).symm
    · rw [if_neg hc, List.dropWhile_cons_of_pos (by simpa using hc)]
      exact ih

variable {quote : Char}

theorem OpensString.ascii (hq : OpensString quote) : quote.toNat < 128 := by
  rcases hq with rfl | rfl <;> decide

theorem OpensString.scanByte_eq (hq : OpensString quote) (c : Char) :
    scanByte c = scanByte quote ↔ c = quote := scanByte_eq_iff hq.ascii

theorem OpensString.take_two (hq : OpensString quote) (cs : List Char) :
    (cs.map scanByte).take 2 = [scanByte quote, scanByte quote] ↔
      Lexeme.twoMore quote cs = true := by
  rcases cs with _ | ⟨c, _ | ⟨d, cs⟩⟩
  · simp [Lexeme.twoMore]
  · simp [Lexeme.twoMore]
  · simp [Lexeme.twoMore, hq.scanByte_eq]

theorem isOpenAt_quote (hq : OpensString quote) (cs : List Char) :
    isOpenAt depth .code (quote :: cs) =
      if Lexeme.twoMore quote cs then
        isOpenAt depth (.string (scanByte quote) true false) (cs.drop 2)
      else isOpenAt depth (.string (scanByte quote) false false) cs := by
  have hbyte : scanByte quote = '"'.toUInt8 ∨ scanByte quote = '\''.toUInt8 := by
    rcases hq with rfl | rfl
    · exact .inr rfl
    · exact .inl rfl
  rw [isOpenAt, List.map_cons, isOpen_quote depth hbyte, ← List.map_drop]
  simp only [hq.take_two]
  rfl

/-- A backslash hides the character after it. -/
theorem isOpenAt_escaped (quote : UInt8) (triple : Bool) (c : Char) (cs : List Char) :
    isOpenAt depth (.string quote triple false) ('\\' :: c :: cs) =
      isOpenAt depth (.string quote triple false) cs := by
  have hslash : scanByte '\\' = '\\'.toUInt8 := rfl
  rw [isOpenAt, List.map_cons, List.map_cons, hslash]
  cases triple with
  | true =>
    rw [isOpen_long, if_pos rfl, isOpen]
    rfl
  | false =>
    rw [isOpen, if_pos rfl, isOpen]
    rfl

theorem isOpenAt_long (hq : OpensString quote) {c : Char} (hc : c ≠ '\\') (cs : List Char) :
    isOpenAt depth (.string (scanByte quote) true false) (c :: cs) =
      if c = quote ∧ Lexeme.twoMore quote cs then isOpenAt depth .code (cs.drop 2)
      else isOpenAt depth (.string (scanByte quote) true false) cs := by
  have hslash : scanByte c ≠ '\\'.toUInt8 := (scanByte_eq_iff (q := '\\') (by decide)).not.mpr hc
  rw [isOpenAt, List.map_cons, isOpen_long, if_neg hslash, ← List.map_drop]
  simp only [hq.scanByte_eq, hq.take_two]
  rfl

theorem isOpenAt_short (hq : OpensString quote) {c : Char} (hc : c ≠ '\\') (cs : List Char) :
    isOpenAt depth (.string (scanByte quote) false false) (c :: cs) =
      if c = quote ∨ c = '\n' then isOpenAt depth .code cs
      else isOpenAt depth (.string (scanByte quote) false false) cs := by
  have hslash : scanByte c ≠ '\\'.toUInt8 := (scanByte_eq_iff (q := '\\') (by decide)).not.mpr hc
  have hnewline : scanByte c = '\n'.toUInt8 ↔ c = '\n' := scanByte_eq_iff (q := '\n') (by decide)
  rw [isOpenAt, List.map_cons, isOpen, if_neg hslash]
  simp only [hq.scanByte_eq, hnewline]
  rfl

/-- The inside of a string. The scanner is in code behind it, unless the string is long and not
closed. -/
theorem isOpenAt_inside (hq : OpensString quote) (triple : Bool) (cs : List Char) :
    isOpenAt depth (.string (scanByte quote) triple false) cs =
      (triple && (Lexeme.inside quote triple cs).ending == .unterminated ||
        isOpenAt depth .code (Lexeme.inside quote triple cs).rest) := by
  have hslash : quote ≠ '\\' := by rcases hq with rfl | rfl <;> decide
  have hnewline : '\n' ≠ quote := by rcases hq with rfl | rfl <;> decide
  have hmark : '\n' ∉ marks := by decide
  -- the lexer looks for the end of the string as the scanner does, character by character
  fun_induction Lexeme.inside quote triple cs with
  | case1 => cases triple <;> rfl
  | case2 =>
    have hslash : scanByte '\\' = '\\'.toUInt8 := rfl
    rw [isOpenAt, List.map_singleton, hslash]
    cases triple with
    | true => rw [isOpen_long, if_pos rfl]; rfl
    | false => rw [isOpen, if_pos rfl]; rfl
  | case3 rest ih => rw [isOpenAt_escaped]; exact ih
  | case4 c rest hc ih => rw [isOpenAt_escaped]; exact ih
  | case5 rest htriple ih =>
    obtain rfl : triple = true := by simpa using htriple
    rw [isOpenAt_long depth hq (by decide), if_neg fun h => hnewline h.1]
    exact ih
  | case6 rest htriple =>
    obtain rfl : triple = false := by simpa using htriple
    rw [isOpenAt_short depth hq (by decide), if_pos (.inr rfl), isOpenAt_neutral depth hmark]
    rfl
  | case7 rest htriple htwo =>
    obtain rfl : triple = true := by simpa using htriple
    rw [isOpenAt_long depth hq hslash, if_pos ⟨rfl, htwo⟩]
    rfl
  | case8 rest htriple htwo _ _ _ _ ih =>
    obtain rfl : triple = true := by simpa using htriple
    rw [isOpenAt_long depth hq hslash, if_neg fun h => htwo h.2]
    exact ih
  | case9 rest htriple =>
    obtain rfl : triple = false := by simpa using htriple
    rw [isOpenAt_short depth hq hslash, if_pos (.inl rfl)]
    rfl
  | case10 c rest hlast _ hmore hline hc ih =>
    have hslash : c ≠ '\\' := by
      cases rest with
      | nil => exact fun h => hlast h rfl
      | cons d rest => exact fun h => hmore d rest h rfl
    cases triple with
    | true =>
      rw [isOpenAt_long depth hq hslash, if_neg fun h => hc h.1]
      exact ih
    | false =>
      rw [isOpenAt_short depth hq hslash, if_neg (not_or.mpr ⟨hc, hline⟩)]
      exact ih

end Step

/-! ## Tokens -/

/-- How much deeper a token goes into brackets. -/
def TokenKind.turn : TokenKind → Int
  | .opening _ => 1
  | .closing _ => -1
  | _ => 0

namespace Lexeme

open Lexer

/-- A string in three quotes that is not closed. -/
def IsOpenLong (x : Lexeme) : Prop :=
  x.fault = some (.entry .unterminatedString []) ∧ ∃ quote, [quote, quote, quote] <+: x.value

/-- What the scanner makes of a token that stands at the head of some characters: it is in code
behind it, unless the token is a long string that is not closed, with which the text ends. -/
inductive Scanned (x : Lexeme) (cs : List Char) : Prop where
  | past (hx : ¬x.IsOpenLong)
      (h : ∀ depth, isOpenAt depth .code cs = isOpenAt (depth + x.kind.turn) .code x.rest)
  | within (hkind : x.kind = .invalid) (hx : x.IsOpenLong) (hrest : x.rest = [])
      (h : ∀ depth, isOpenAt depth .code cs = true)

/-- A token of characters that mean nothing to the scanner. -/
theorem scanned_flat {x : Lexeme} {cs : List Char} (hkind : x.kind.turn = 0)
    (hfault : x.fault ≠ some (.entry .unterminatedString []))
    (h : ∀ depth, isOpenAt depth .code x.rest = isOpenAt depth .code cs) : Scanned x cs := by
  refine .past (fun hlong => hfault hlong.1) fun depth => ?_
  rw [hkind, Int.add_zero, h]

theorem scanned_comment (rest : List Char) : Scanned (comment ('#' :: rest)) ('#' :: rest) := by
  refine scanned_flat rfl nofun fun depth => ?_
  rw [isOpenAt_hash, isOpenAt_comment]
  rfl

/-- A backslash that hides no newline. -/
theorem scanned_slash (more : List Char) (hmore : ∀ c ∈ more, c ∉ marks) (rest : List Char) :
    Scanned (bad ['\\'] ('\\' :: more) rest (.entry .badContinuation []))
      ('\\' :: (more ++ rest)) := by
  refine scanned_flat rfl (by simp [bad]) fun depth => ?_
  rw [isOpenAt_neutral depth (by decide)]
  induction more with
  | nil => rfl
  | cons c more ih =>
    rw [List.cons_append, isOpenAt_neutral depth (hmore c List.mem_cons_self)]
    exact ih fun d hd => hmore d (List.mem_cons_of_mem _ hd)

theorem scanned_badNumber {id : MessageId} (hid : id ≠ .unterminatedString) (taken : List Char)
    {rest cs : List Char} (h : ∀ depth, isOpenAt depth .code rest = isOpenAt depth .code cs) :
    Scanned (badNumber id taken rest) cs := by
  refine scanned_flat rfl ?_ fun depth => ?_
  · intro hfault
    exact hid (Message.entry.inj (Option.some.inj hfault)).1
  · rw [← h]
    exact isOpenAt_dropWhile depth rfl rest

theorem scanned_hexNumber (mark : List Char) {rest cs : List Char}
    (h : ∀ depth, isOpenAt depth .code rest = isOpenAt depth .code cs) :
    Scanned (hexNumber mark rest) cs := by
  have hdigits (depth : Int) :
      isOpenAt depth .code (rest.dropWhile isHexDigit) = isOpenAt depth .code cs :=
    (isOpenAt_dropWhile depth rfl rest).trans (h depth)
  unfold hexNumber
  simp only
  split
  · exact scanned_badNumber (by decide) _ hdigits
  · exact scanned_flat rfl nofun hdigits

theorem scanned_decimal (cs : List Char) : Scanned (decimal cs) cs := by
  have hdigits (depth : Int) :
      isOpenAt depth .code (cs.dropWhile isNumeral) = isOpenAt depth .code cs :=
    isOpenAt_dropWhile depth rfl cs
  unfold decimal
  simp only
  split
  · exact scanned_badNumber (by decide) _ hdigits
  split
  · exact scanned_flat rfl nofun hdigits
  · exact scanned_flat rfl nofun hdigits
  · exact scanned_flat rfl (by simp [bad]) hdigits

theorem scanned_number (cs : List Char) : Scanned (number cs) cs := by
  have hmark (x : Char) (hx : x ∉ marks) (rest : List Char) (depth : Int) :
      isOpenAt depth .code rest = isOpenAt depth .code ('0' :: x :: rest) := by
    rw [isOpenAt_neutral depth (by decide), isOpenAt_neutral depth hx]
  unfold number
  split
  · exact scanned_hexNumber _ (hmark _ (by decide) _)
  · exact scanned_hexNumber _ (hmark _ (by decide) _)
  · exact scanned_decimal _

section Quoted

variable {kind : TokenKind} {quote : Char}

theorem scanned_long (hkind : kind.turn = 0) (hq : OpensString quote) (rest : List Char) :
    Scanned (ofInside kind [quote, quote, quote] (inside quote true rest))
      (quote :: quote :: quote :: rest) := by
  have hends := ends_inside quote true rest
  have hscan (depth : Int) : isOpenAt depth .code (quote :: quote :: quote :: rest) =
      ((inside quote true rest).ending == .unterminated ||
        isOpenAt depth .code (inside quote true rest).rest) := by
    rw [isOpenAt_quote depth hq, if_pos (by simp [twoMore])]
    exact isOpenAt_inside depth hq true rest
  generalize inside quote true rest = i at hends hscan
  unfold ofInside
  cases hending : i.ending with
  | closed =>
    refine scanned_flat hkind (by rintro ⟨⟩) fun depth => ?_
    rw [hscan, hending]
    rfl
  | unterminated =>
    have hlong := List.prefix_append [quote, quote, quote] i.taken
    refine .within rfl ⟨rfl, quote, hlong⟩ (hends.unterminated hending) fun depth => ?_
    rw [hscan, hending]
    rfl
  | brokenLine => cases hends.brokenLine hending

/-- A string in one quote, which is not followed by another one. -/
theorem scanned_short (hkind : kind.turn = 0) (hq : OpensString quote) {rest : List Char}
    (hrest : ¬headIs (· == quote) rest = true) :
    Scanned (ofInside kind [quote] (inside quote false rest)) (quote :: rest) := by
  have hparts := parts_inside quote false rest
  have hscan (depth : Int) : isOpenAt depth .code (inside quote false rest).rest =
      isOpenAt depth .code (quote :: rest) := by
    have htwo : ¬twoMore quote rest = true := by
      rcases rest with _ | ⟨a, _ | ⟨b, rest⟩⟩
      · exact Bool.false_ne_true
      · exact Bool.false_ne_true
      · intro htwo
        simp only [twoMore, Bool.and_eq_true] at htwo
        exact hrest htwo.1
    rw [isOpenAt_quote depth hq, if_neg htwo, isOpenAt_inside depth hq]
    rfl
  generalize inside quote false rest = i at hparts hscan
  unfold ofInside
  cases hending : i.ending with
  | closed => exact scanned_flat hkind (by rintro ⟨⟩) hscan
  | unterminated =>
    refine .past ?_ fun depth => ?_
    · -- its value begins with one quote only
      rintro ⟨-, q, more, hvalue⟩
      obtain ⟨rfl, htaken⟩ := List.cons.inj hvalue
      apply hrest
      rw [← hparts, ← show q :: q :: more = i.taken from htaken]
      exact beq_self_eq_true q
    · rw [← hscan]
      exact congrArg (isOpenAt · .code i.rest) (Int.add_zero depth).symm
  | brokenLine => exact scanned_flat rfl (by simp [bad]) hscan

theorem scanned_string (hkind : kind.turn = 0) (hq : OpensString quote) (rest : List Char) :
    Scanned (string kind quote rest) (quote :: rest) := by
  unfold string
  split
  · next hfirst =>
    obtain ⟨rest, rfl⟩ := exists_of_headIs hfirst
    split
    · next hsecond =>
      obtain ⟨rest, rfl⟩ : ∃ rest', rest = quote :: rest' := exists_of_headIs hsecond
      exact scanned_long hkind hq rest
    · next hsecond =>
      have htwo : ¬twoMore quote (quote :: rest) = true := by
        cases rest with
        | nil => exact Bool.false_ne_true
        | cons c rest => simpa [twoMore, headIs] using hsecond
      have hslash : quote ≠ '\\' := by rcases hq with rfl | rfl <;> decide
      refine scanned_flat hkind (by rintro ⟨⟩) fun depth => ?_
      rw [isOpenAt_quote depth hq, if_neg htwo, isOpenAt_short depth hq hslash, if_pos (.inl rfl)]
      rfl
  · next hfirst => exact scanned_short hkind hq hfirst

end Quoted

theorem turn_ofWord (s : String) : (TokenKind.ofWord s).turn = 0 := by
  unfold TokenKind.ofWord
  split <;> rfl

theorem Scanned.after {x : Lexeme} {cs : List Char} (h : Scanned x cs) {c : Char} (hc : c ∉ marks) :
    Scanned (x.after c) (c :: cs) := by
  cases h with
  | past hx h =>
    refine .past hx fun depth => ?_
    rw [isOpenAt_neutral depth hc]
    exact h depth
  | within hkind hx hrest h =>
    refine .within hkind hx hrest fun depth => ?_
    rw [isOpenAt_neutral depth hc]
    exact h depth

theorem scanned_word (cs : List Char) : Scanned (word cs) cs := by
  have hparts := List.takeWhile_append_dropWhile (p := isAlphaNumeric) (l := cs)
  unfold word
  simp only
  split
  case h_5 =>
    exact scanned_flat (turn_ofWord _) nofun fun depth => isOpenAt_dropWhile depth rfl cs
  all_goals
    next hname hrest =>
    rw [hname, hrest] at hparts
    rw [← hparts]
    refine (scanned_string rfl ?_ _).after (by decide)
    simp [OpensString]

theorem scanned_symbol {c : Char} (hcomment : c ≠ '#') (hquote : ¬OpensString c)
    (rest : List Char) :
    Scanned (symbol c rest) (c :: rest) := by
  have hsymbols : ∀ s ∈ symbols, s.1.all (fun c => c ≠ '#' ∧ ¬OpensString c) = true ∧
      turnOf s.1 = s.2.turn := by decide
  unfold symbol
  split
  · next spelling kind hfind =>
    obtain ⟨hspelling, hturn⟩ := hsymbols _ (List.mem_of_find?_eq_some hfind)
    have hprefix := List.find?_some hfind
    obtain ⟨more, hmore⟩ := List.isPrefixOf_iff_prefix.mp hprefix
    refine .past (fun hlong => nomatch hlong.1) fun depth => ?_
    have hplain : ∀ c ∈ spelling, c ≠ '#' ∧ ¬OpensString c := by simpa using hspelling
    rw [plain, ← hmore, List.drop_left, isOpenAt_append depth hplain, hturn]
  · next hfind =>
    have hnone := List.find?_eq_none.mp hfind
    -- every bracket is a symbol, so that a character that begins none turns nowhere
    have hbrackets : (['(', '[', '\x7b', ')', ']', '\x7d'].all fun b =>
      symbols.any fun s => s.1 = [b]) = true := rfl
    have hflat : bracketTurn c = 0 := by
      by_contra hturn
      have hc : c ∈ ['(', '[', '\x7b', ')', ']', '\x7d'] := by
        by_contra hc
        simp_all [bracketTurn]
      obtain ⟨s, hs, hspelling⟩ := List.any_eq_true.mp (List.all_eq_true.mp hbrackets c hc)
      exact hnone s hs (by simp [of_decide_eq_true hspelling])
    refine .past (fun hlong => by simp [IsOpenLong, bad] at hlong) fun depth => ?_
    rw [isOpenAt_code depth hcomment hquote, hflat]
    rfl

/-- **The scanner goes over a token.** -/
theorem scanned_scan (c : Char) (rest : List Char) : Scanned (scan c rest) (c :: rest) := by
  unfold scan
  split
  · next hc =>
    subst hc
    exact scanned_comment rest
  split
  · next hq => exact scanned_string rfl hq rest
  split
  · exact scanned_number _
  split
  · exact scanned_word _
  split
  · next hc =>
    subst hc
    split
    · exact scanned_decimal _
    · exact scanned_flat rfl nofun fun depth => (isOpenAt_neutral depth (by decide) rest).symm
  · next hcomment hq _ _ _ => exact scanned_symbol hcomment hq rest

end Lexeme

end Toolchain
