import Mathlib.Tactic.Common
import Toolchain.Text.Basic

/-!
# Texts of characters

The text of some characters is their UTF-8 encoding, one after the other, and reading a text takes
the characters off again. So every string has one text, its characters can be read back from it, and
a text that is valid is the text of its characters.

## Main results

* `Text.ofChars_eq_flatMap`: the text of characters, character by character
* `Text.glyphs_ofChars_append`: the characters at the head of a text are its first units
* `Text.chars_ofChars`: the characters of a text are read back
* `Text.ofChars_chars`: a valid text is the text of its characters
-/

namespace Toolchain

/-- The newline character. -/
def Text.newline : UInt8 := '\n'.toUInt8

/-! ## The bytes of a string -/

theorem ByteArray.toList_loop_eq (bs : ByteArray) (i : Nat) (r : List UInt8) :
    ByteArray.toList.loop bs i r = r.reverse ++ bs.data.toList.drop i := by
  induction i, r using ByteArray.toList.loop.induct bs with
  | case1 i r hlt ih =>
    rw [ByteArray.toList.loop, if_pos hlt, ih, List.reverse_cons, List.append_assoc]
    have hlt' : i < bs.data.size := hlt
    have hget : bs.get! i = bs.data.toList.get ⟨i, by simpa using hlt'⟩ := by
      rw [ByteArray.get!, getElem!_pos bs.data i hlt']
      rfl
    rw [hget, List.singleton_append, List.get_eq_getElem, List.getElem_cons_drop]
  | case2 i r hge =>
    have hge' : bs.data.toList.length ≤ i := by
      have : bs.size ≤ i := Nat.le_of_not_lt hge
      simpa using this
    rw [ByteArray.toList.loop, if_neg hge, List.drop_eq_nil_of_le hge', List.append_nil]

theorem ByteArray.toList_eq_data (bs : ByteArray) : bs.toList = bs.data.toList := by
  rw [ByteArray.toList, toList_loop_eq]
  rfl

namespace Text

theorem ofChars_eq_flatMap (cs : List Char) : ofChars cs = cs.flatMap String.utf8EncodeChar := by
  rw [ofChars, ofString, ByteArray.toList_eq_data]
  change (List.toByteArray _).data.toList = _
  exact List.toList_data_toByteArray

theorem ofString_eq_ofChars (s : String) : ofString s = ofChars s.toList := by
  rw [ofChars, String.ofList_toList]

@[simp] theorem ofChars_nil : ofChars [] = [] := by rw [ofChars_eq_flatMap, List.flatMap_nil]

theorem ofChars_append (cs ds : List Char) : ofChars (cs ++ ds) = ofChars cs ++ ofChars ds := by
  simp only [ofChars_eq_flatMap, List.flatMap_append]

theorem ofChars_cons (c : Char) (cs : List Char) :
    ofChars (c :: cs) = String.utf8EncodeChar c ++ ofChars cs := by
  simp only [ofChars_eq_flatMap, List.flatMap_cons]

theorem ofString_append (s t : String) : ofString (s ++ t) = ofString s ++ ofString t := by
  rw [ofString_eq_ofChars, ofString_eq_ofChars, ofString_eq_ofChars, String.toList_append,
    ofChars_append]

/-- The text of a character of one byte. -/
theorem utf8EncodeChar_of_ascii {c : Char} (h : c.toNat < 128) :
    String.utf8EncodeChar c = [c.toUInt8] := by
  have hle : c.val.toNat ≤ 127 := Nat.le_of_lt_succ h
  simp only [String.utf8EncodeChar, hle, if_true]
  rfl

/-- The text of characters of one byte. -/
theorem ofChars_of_ascii {cs : List Char} (h : ∀ c ∈ cs, c.toNat < 128) :
    ofChars cs = cs.map Char.toUInt8 := by
  induction cs with
  | nil => rw [ofChars_nil, List.map_nil]
  | cons c cs ih =>
    rw [ofChars_cons, utf8EncodeChar_of_ascii (h c List.mem_cons_self), List.map_cons,
      ih fun c hc => h c (List.mem_cons_of_mem _ hc)]
    rfl

/-! ## Reading a character -/

theorem wide?_val {c : Char} {least : Nat} (h : least ≤ c.val.toNat) (width : Nat) :
    wide? c.val.toNat least width = some (c, width) := by
  have hvalid : c.val.toNat.isValidChar := c.valid
  rw [wide?, dif_pos hvalid, if_pos h]
  rfl

theorem continuation?_ofNat {n : Nat} (h : n < 64) :
    continuation? (UInt8.ofNat (n + 128)) = some n := by
  have hval : (UInt8.ofNat (n + 128)).toNat = n + 128 := by
    rw [UInt8.toNat_ofNat']
    omega
  have hlo : (0x80 : UInt8) ≤ UInt8.ofNat (n + 128) := by
    rw [UInt8.le_iff_toNat_le, hval]
    simp
  have hhi : UInt8.ofNat (n + 128) ≤ (0xBF : UInt8) := by
    rw [UInt8.le_iff_toNat_le, hval]
    simp
    omega
  rw [continuation?, if_pos ⟨hlo, hhi⟩, hval, Nat.add_sub_cancel]

theorem ofNat_lt_iff {n m : Nat} {b : UInt8} (hb : b.toNat = m) (hn : n < 256) :
    UInt8.ofNat n < b ↔ n < m := by
  rw [UInt8.lt_iff_toNat_lt, UInt8.toNat_ofNat_of_lt' hn, hb]

/-- The bytes of a character at the head of a text are read as that character. -/
theorem leading?_utf8EncodeChar (c : Char) (rest : Text) :
    leading? (String.utf8EncodeChar c ++ rest) = some (c, (String.utf8EncodeChar c).length) := by
  have hvalid : c.val.toNat < 0x110000 := by
    have := c.valid
    simp only [UInt32.isValidChar, Nat.isValidChar] at this
    omega
  have hge {n : Nat} (m : Nat) {b : UInt8} (hb : b.toNat = m) (h : m ≤ n) (hn : n < 256) :
      ¬ UInt8.ofNat n < b := by
    rw [ofNat_lt_iff hb hn]
    omega
  have hlt {n : Nat} (m : Nat) {b : UInt8} (hb : b.toNat = m) (h : n < m) (hn : n < 256) :
      UInt8.ofNat n < b := (ofNat_lt_iff hb hn).mpr h
  have htoNat (n : Nat) (hn : n < 256) : (UInt8.ofNat n).toNat = n := UInt8.toNat_ofNat_of_lt' hn
  unfold String.utf8EncodeChar
  simp only
  by_cases h₁ : c.val.toNat ≤ 127
  · -- one byte
    rw [if_pos h₁]
    simp only [List.singleton_append, leading?]
    rw [if_pos (hlt 0x80 rfl (by omega) (by omega)), htoNat _ (by omega)]
    exact wide?_val (Nat.zero_le _) 1
  rw [if_neg h₁]
  by_cases h₂ : c.val.toNat ≤ 2047
  · -- two bytes
    rw [if_pos h₂]
    have hdigit : c.val.toNat / 64 % 32 = c.val.toNat / 64 := Nat.mod_eq_of_lt (by omega)
    simp only [hdigit, List.cons_append, List.nil_append, leading?]
    rw [if_neg (hge 0x80 rfl (by omega) (by omega)),
      if_neg (hge 0xC0 rfl (by omega) (by omega)),
      if_pos (hlt 0xE0 rfl (by omega) (by omega)),
      continuation?_ofNat (Nat.mod_lt _ (by omega)), htoNat _ (by omega)]
    simp only [Option.bind_eq_bind, Option.bind_some]
    rw [show (c.val.toNat / 64 + 192 - 0xC0) * 64 + c.val.toNat % 64 = c.val.toNat by omega]
    exact wide?_val (by omega) 2
  rw [if_neg h₂]
  by_cases h₃ : c.val.toNat ≤ 65535
  · -- three bytes
    rw [if_pos h₃]
    have hdigit : c.val.toNat / 4096 % 16 = c.val.toNat / 4096 := Nat.mod_eq_of_lt (by omega)
    simp only [hdigit, List.cons_append, List.nil_append, leading?]
    rw [if_neg (hge 0x80 rfl (by omega) (by omega)),
      if_neg (hge 0xC0 rfl (by omega) (by omega)),
      if_neg (hge 0xE0 rfl (by omega) (by omega)),
      if_pos (hlt 0xF0 rfl (by omega) (by omega)),
      continuation?_ofNat (Nat.mod_lt _ (by omega)), continuation?_ofNat (Nat.mod_lt _ (by omega)),
      htoNat _ (by omega)]
    simp only [Option.bind_eq_bind, Option.bind_some]
    rw [show ((c.val.toNat / 4096 + 224 - 0xE0) * 64 + c.val.toNat / 64 % 64) * 64 +
      c.val.toNat % 64 = c.val.toNat by omega]
    exact wide?_val (by omega) 3
  · -- four bytes
    rw [if_neg h₃]
    have hdigit : c.val.toNat / 262144 % 8 = c.val.toNat / 262144 := Nat.mod_eq_of_lt (by omega)
    simp only [hdigit, List.cons_append, List.nil_append, leading?]
    rw [if_neg (hge 0x80 rfl (by omega) (by omega)),
      if_neg (hge 0xC0 rfl (by omega) (by omega)),
      if_neg (hge 0xE0 rfl (by omega) (by omega)),
      if_neg (hge 0xF0 rfl (by omega) (by omega)),
      if_pos (hlt 0xF8 rfl (by omega) (by omega)),
      continuation?_ofNat (Nat.mod_lt _ (by omega)), continuation?_ofNat (Nat.mod_lt _ (by omega)),
      continuation?_ofNat (Nat.mod_lt _ (by omega)), htoNat _ (by omega)]
    simp only [Option.bind_eq_bind, Option.bind_some]
    rw [show (((c.val.toNat / 262144 + 240 - 0xF0) * 64 + c.val.toNat / 4096 % 64) * 64 +
      c.val.toNat / 64 % 64) * 64 + c.val.toNat % 64 = c.val.toNat by omega]
    exact wide?_val (by omega) 4

/-! ## Reading a text -/

theorem glyphsFrom_append_skip (rest : Text) : ∀ bytes : Text,
    glyphsFrom bytes.length (bytes ++ rest) = glyphsFrom 0 rest
  | [] => rfl
  | _ :: bytes => by
    exact glyphsFrom_append_skip rest bytes

theorem utf8EncodeChar_ne_nil (c : Char) : String.utf8EncodeChar c ≠ [] := by
  unfold String.utf8EncodeChar
  simp only
  split
  · exact List.cons_ne_nil _ _
  · split
    · exact List.cons_ne_nil _ _
    · split <;> exact List.cons_ne_nil _ _

/-- The characters at the head of a text are its first units. -/
theorem glyphs_ofChars_append (rest : Text) : ∀ cs : List Char,
    (ofChars cs ++ rest).glyphs = cs.map .char ++ rest.glyphs
  | [] => by rw [ofChars_nil]; rfl
  | c :: cs => by
    obtain ⟨b, bytes, hc⟩ := List.exists_cons_of_ne_nil (utf8EncodeChar_ne_nil c)
    have hread := leading?_utf8EncodeChar c (ofChars cs ++ rest)
    rw [hc, List.cons_append] at hread
    rw [ofChars_cons, List.append_assoc, hc, List.cons_append, glyphs, glyphsFrom, hread]
    simp only [List.length_cons, Nat.add_sub_cancel]
    rw [glyphsFrom_append_skip]
    exact congrArg _ (glyphs_ofChars_append rest cs)

theorem glyphs_ofChars (cs : List Char) : (ofChars cs).glyphs = cs.map .char := by
  simpa [glyphs, glyphsFrom] using glyphs_ofChars_append [] cs

/-- The characters of a text are read back. -/
@[simp] theorem chars_ofChars (cs : List Char) : (ofChars cs).chars = cs := by
  rw [chars, glyphs_ofChars, List.map_map]
  exact List.map_id cs

@[simp] theorem chars_ofString (s : String) : (ofString s).chars = s.toList := by
  rw [ofString_eq_ofChars, chars_ofChars]

theorem chars_ofChars_append (cs : List Char) (rest : Text) :
    (ofChars cs ++ rest).chars = cs ++ rest.chars := by
  rw [chars, glyphs_ofChars_append, List.map_append, List.map_map]
  exact congrArg (· ++ rest.chars) (List.map_id cs)

@[simp] theorem isValid_ofChars (cs : List Char) : (ofChars cs).isValid = true := by
  rw [isValid, glyphs_ofChars, List.all_map]
  exact List.all_eq_true.mpr fun _ _ => rfl

@[simp] theorem isValid_ofString (s : String) : (ofString s).isValid = true := by
  rw [ofString_eq_ofChars, isValid_ofChars]

/-! ## Valid texts -/

/-- What is read as a character is its encoding. -/
theorem eq_utf8EncodeChar_of_leading? {t : Text} {c : Char} {width : Nat}
    (h : leading? t = some (c, width)) :
    t.take width = String.utf8EncodeChar c ∧ width = (String.utf8EncodeChar c).length := by
  -- a longer encoding is accepted only if no shorter one would do
  have hwide {code least w : Nat} (h : wide? code least w = some (c, width)) :
      c.val.toNat = code ∧ least ≤ code ∧ width = w := by
    rw [wide?] at h
    by_cases hvalid : code.isValidChar
    · rw [dif_pos hvalid] at h
      by_cases hle : least ≤ code
      · rw [if_pos hle] at h
        obtain ⟨rfl, rfl⟩ := Prod.mk.inj (Option.some.inj h)
        exact ⟨rfl, hle, rfl⟩
      · rw [if_neg hle] at h
        cases h
    · rw [dif_neg hvalid] at h
      cases h
  have hcont {b : UInt8} {x : Nat} (h : continuation? b = some x) :
      b = UInt8.ofNat (x + 128) ∧ x < 64 := by
    unfold continuation? at h
    split at h
    · rename_i hb
      have hlo : 128 ≤ b.toNat := by simpa [UInt8.le_iff_toNat_le] using hb.1
      have hhi : b.toNat ≤ 191 := by simpa [UInt8.le_iff_toNat_le] using hb.2
      obtain rfl := Option.some.inj h
      refine ⟨?_, by omega⟩
      rw [Nat.sub_add_cancel hlo, UInt8.ofNat_toNat]
    · cases h
  have hbyte (b : UInt8) (n : Nat) (h : b.toNat = n) : b = UInt8.ofNat n := by
    rw [← h, UInt8.ofNat_toNat]
  cases t with
  | nil => cases h
  | cons b₀ rest =>
    have hb₀ := b₀.toNat_lt
    simp only [leading?, UInt8.lt_iff_toNat_lt] at h
    split at h
    · rename_i hlt
      obtain ⟨hc, -, rfl⟩ := hwide h
      have hle : c.val.toNat ≤ 127 := by
        simp at hlt
        omega
      simp only [String.utf8EncodeChar, hle, if_true, List.take_succ_cons, List.take_zero,
        List.length_singleton, and_true]
      rw [hc, UInt8.ofNat_toNat]
    · split at h
      · cases h
      · split at h
        · rename_i h₁ h₂ h₃
          cases rest with
          | nil => cases h
          | cons b₁ rest =>
            simp only [Option.bind_eq_bind, Option.bind_eq_some_iff] at h
            obtain ⟨x₁, hx₁, h⟩ := h
            obtain ⟨rfl, hlt₁⟩ := hcont hx₁
            obtain ⟨hc, hle, rfl⟩ := hwide h
            simp at h₁ h₂ h₃
            have hnot : ¬ c.val.toNat ≤ 127 := by omega
            have hfits : c.val.toNat ≤ 2047 := by omega
            simp only [String.utf8EncodeChar, hnot, hfits, if_false, if_true, List.take_succ_cons,
              List.take_zero, List.length_cons, List.length_nil, and_true]
            rw [hbyte b₀ (c.val.toNat / 64 % 32 + 192) (by omega),
              show c.val.toNat % 64 = x₁ by omega]
        · split at h
          · rename_i h₁ h₂ h₃ h₄
            rcases rest with _ | ⟨b₁, _ | ⟨b₂, rest⟩⟩
            · cases h
            · cases h
            · simp only [Option.bind_eq_bind, Option.bind_eq_some_iff] at h
              obtain ⟨x₁, hx₁, x₂, hx₂, h⟩ := h
              obtain ⟨rfl, hlt₁⟩ := hcont hx₁
              obtain ⟨rfl, hlt₂⟩ := hcont hx₂
              obtain ⟨hc, hle, rfl⟩ := hwide h
              simp at h₁ h₂ h₃ h₄
              have hnot : ¬ c.val.toNat ≤ 127 := by omega
              have hnot' : ¬ c.val.toNat ≤ 2047 := by omega
              have hfits : c.val.toNat ≤ 65535 := by omega
              simp only [String.utf8EncodeChar, hnot, hnot', hfits, if_false, if_true,
                List.take_succ_cons, List.take_zero, List.length_cons, List.length_nil, and_true]
              rw [hbyte b₀ (c.val.toNat / 4096 % 16 + 224) (by omega),
                show c.val.toNat % 64 = x₂ by omega, show c.val.toNat / 64 % 64 = x₁ by omega]
          · split at h
            · rename_i h₁ h₂ h₃ h₄ h₅
              rcases rest with _ | ⟨b₁, _ | ⟨b₂, _ | ⟨b₃, rest⟩⟩⟩
              · cases h
              · cases h
              · cases h
              · simp only [Option.bind_eq_bind, Option.bind_eq_some_iff] at h
                obtain ⟨x₁, hx₁, x₂, hx₂, x₃, hx₃, h⟩ := h
                obtain ⟨rfl, hlt₁⟩ := hcont hx₁
                obtain ⟨rfl, hlt₂⟩ := hcont hx₂
                obtain ⟨rfl, hlt₃⟩ := hcont hx₃
                obtain ⟨hc, hle, rfl⟩ := hwide h
                simp at h₁ h₂ h₃ h₄ h₅
                have hvalid : c.val.toNat < 0x110000 := by
                  have := c.valid
                  simp only [UInt32.isValidChar, Nat.isValidChar] at this
                  omega
                have hnot : ¬ c.val.toNat ≤ 127 := by omega
                have hnot' : ¬ c.val.toNat ≤ 2047 := by omega
                have hnot'' : ¬ c.val.toNat ≤ 65535 := by omega
                simp only [String.utf8EncodeChar, hnot, hnot', hnot'', if_false,
                  List.take_succ_cons, List.take_zero, List.length_cons, List.length_nil, and_true]
                rw [hbyte b₀ (c.val.toNat / 262144 % 8 + 240) (by omega),
                  show c.val.toNat % 64 = x₃ by omega, show c.val.toNat / 64 % 64 = x₂ by omega,
                  show c.val.toNat / 4096 % 64 = x₁ by omega]
            · cases h

/-- The units of a text make it up. -/
theorem flatMap_bytes_glyphsFrom : ∀ (skip : Nat) (t : Text),
    (glyphsFrom skip t).flatMap Glyph.bytes = t.drop skip
  | _, [] => by simp [glyphsFrom]
  | skip + 1, b :: rest => by
    rw [glyphsFrom, flatMap_bytes_glyphsFrom skip rest, List.drop_succ_cons]
  | 0, b :: rest => by
    rw [glyphsFrom]
    cases hread : leading? (b :: rest) with
    | none =>
      simp only [List.flatMap_cons, Glyph.bytes, flatMap_bytes_glyphsFrom 0 rest]
      rfl
    | some read =>
      obtain ⟨c, width⟩ := read
      obtain ⟨htake, hwidth⟩ := eq_utf8EncodeChar_of_leading? hread
      have hpos : 0 < width := by
        rw [hwidth]
        exact List.length_pos_iff.mpr (utf8EncodeChar_ne_nil c)
      obtain ⟨n, rfl⟩ : ∃ n, width = n + 1 := ⟨width - 1, by omega⟩
      simp only [List.flatMap_cons, Glyph.bytes, flatMap_bytes_glyphsFrom _ rest,
        Nat.add_sub_cancel, ofChars_cons, ofChars_nil, List.append_nil, ← htake,
        List.take_succ_cons, List.cons_append, List.take_append_drop, List.drop_zero]

/-- A valid text has characters only. -/
theorem exists_char_of_mem_glyphs {t : Text} (h : t.isValid = true) :
    ∀ g ∈ t.glyphs, ∃ c, g = .char c := by
  intro g hg
  have hchar := List.all_eq_true.mp h g hg
  cases g with
  | char c => exact ⟨c, rfl⟩
  | stray b => cases hchar

/-- A valid text is the text of its characters. -/
theorem ofChars_chars {t : Text} (h : t.isValid = true) : ofChars t.chars = t := by
  have hall : ∀ gs : List Glyph, (∀ g ∈ gs, ∃ c, g = .char c) →
      ofChars (gs.map Glyph.toChar) = gs.flatMap Glyph.bytes := by
    intro gs hgs
    induction gs with
    | nil => rw [List.map_nil, ofChars_nil, List.flatMap_nil]
    | cons g gs ih =>
      rw [List.forall_mem_cons] at hgs
      obtain ⟨⟨c, rfl⟩, hgs⟩ := hgs
      rw [List.map_cons, ofChars_cons, ih hgs, List.flatMap_cons, Glyph.bytes, ofChars_cons,
        ofChars_nil, List.append_nil]
      rfl
  rw [chars, hall t.glyphs (exists_char_of_mem_glyphs h), glyphs, flatMap_bytes_glyphsFrom,
    List.drop_zero]

/-- The characters of two texts are read one after the other, if the first one is valid. -/
theorem chars_append {t : Text} (ht : t.isValid = true) (u : Text) :
    (t ++ u).chars = t.chars ++ u.chars := by
  rw [← ofChars_chars ht, chars_ofChars_append, chars_ofChars]

theorem isValid_append {t u : Text} (ht : t.isValid = true) (hu : u.isValid = true) :
    (t ++ u).isValid = true := by
  rw [← ofChars_chars ht, ← ofChars_chars hu, ← ofChars_append, isValid_ofChars]

/-- A text of bytes that stand for characters of one byte is valid. -/
theorem isValid_of_ascii {t : Text} (h : ∀ b ∈ t, b.toNat < 128) : t.isValid = true := by
  have hchar : ∀ n : Nat, n < 128 →
      (Char.ofNat n).toUInt8 = UInt8.ofNat n ∧ (Char.ofNat n).toNat < 128 := by decide +kernel
  have htext : t = ofChars (t.map fun b => Char.ofNat b.toNat) := by
    rw [ofChars_of_ascii, List.map_map]
    · refine (List.map_id t).symm.trans (List.map_congr_left fun b hb => ?_)
      exact ((hchar _ (h b hb)).1.trans UInt8.ofNat_toNat).symm
    · intro c hc
      obtain ⟨b, hb, rfl⟩ := List.mem_map.mp hc
      exact (hchar _ (h b hb)).2
  rw [htext]
  exact isValid_ofChars _

/-! ## Bytes of characters -/

/-- The bytes of a character of several bytes stand for no character of one byte. -/
theorem le_of_mem_utf8EncodeChar {c : Char} (h : 128 ≤ c.toNat) :
    ∀ b ∈ String.utf8EncodeChar c, 128 ≤ b.toNat := by
  have hlead (n k : Nat) (hk : 128 ≤ k) (hn : n + k < 256) : 128 ≤ (UInt8.ofNat (n + k)).toNat := by
    rw [UInt8.toNat_ofNat_of_lt' hn]
    omega
  have hnot : ¬ c.val.toNat ≤ 127 := by
    have : c.val.toNat = c.toNat := rfl
    omega
  intro b hb
  unfold String.utf8EncodeChar at hb
  simp only [hnot, if_false] at hb
  split at hb
  · simp only [List.mem_cons, List.not_mem_nil, or_false] at hb
    rcases hb with rfl | rfl
    · exact hlead _ 192 (by omega) (by omega)
    · exact hlead _ 128 (by omega) (by omega)
  · split at hb
    · simp only [List.mem_cons, List.not_mem_nil, or_false] at hb
      rcases hb with rfl | rfl | rfl
      · exact hlead _ 224 (by omega) (by omega)
      all_goals exact hlead _ 128 (by omega) (by omega)
    · simp only [List.mem_cons, List.not_mem_nil, or_false] at hb
      rcases hb with rfl | rfl | rfl | rfl
      · exact hlead _ 240 (by omega) (by omega)
      all_goals exact hlead _ 128 (by omega) (by omega)

/-- A stray byte stands for no character of one byte. -/
theorem le_of_stray_mem_glyphs {t : Text} {b : UInt8} (h : .stray b ∈ t.glyphs) :
    128 ≤ b.toNat := by
  have hfrom : ∀ (skip : Nat) (t : Text), .stray b ∈ t.glyphsFrom skip → 128 ≤ b.toNat := by
    intro skip t
    fun_induction glyphsFrom skip t with
    | case1 => exact nofun
    | case2 skip b' rest ih => exact ih
    | case3 b' rest c width hread ih =>
      intro hmem
      rcases List.mem_cons.mp hmem with heq | hmem
      · cases heq
      · exact ih hmem
    | case4 b' rest hread ih =>
      intro hmem
      rcases List.mem_cons.mp hmem with heq | hmem
      · obtain rfl := Glyph.stray.inj heq
        by_contra hlt
        -- a byte of an ASCII character is read as that character
        have hsmall : b < 0x80 := by
          rw [UInt8.lt_iff_toNat_lt]
          exact Nat.lt_of_not_le hlt
        have hvalid : b.toNat.isValidChar := .inl (by omega)
        have hone : leading? (b :: rest) = wide? b.toNat 0 1 := if_pos hsmall
        rw [hone, wide?, dif_pos hvalid, if_pos (Nat.zero_le _)] at hread
        cases hread
      · exact ih hmem
  exact hfrom 0 t h

/-- A text that starts no character starts none in front of a character of one byte. -/
theorem leading?_append_ascii {b : UInt8} (hb : b.toNat < 128) {a : UInt8} {t : Text}
    (h : leading? (a :: t) = none) (u : Text) : leading? (a :: t ++ b :: u) = none := by
  rw [Option.eq_none_iff_forall_ne_some]
  rintro ⟨c, width⟩ hread
  obtain ⟨htake, hwidth⟩ := eq_utf8EncodeChar_of_leading? hread
  by_cases hle : width ≤ (a :: t).length
  · -- the character would stand in front of the other one
    rw [List.take_append_of_le_length hle] at htake
    have hsplit : a :: t = String.utf8EncodeChar c ++ (a :: t).drop width := by
      rw [← htake, List.take_append_drop]
    rw [hsplit, leading?_utf8EncodeChar] at h
    cases h
  · have hwide : 128 ≤ c.toNat := by
      by_contra hascii
      rw [utf8EncodeChar_of_ascii (Nat.lt_of_not_le hascii)] at hwidth
      simp only [List.length_cons, List.length_nil] at hwidth hle
      omega
    have hmem : b ∈ String.utf8EncodeChar c := by
      rw [← htake]
      refine List.mem_take_iff_getElem.mpr ⟨(a :: t).length, ?_, ?_⟩
      · rw [List.length_append, List.length_cons (a := b)]
        omega
      · rw [List.getElem_append_right (Nat.le_refl _)]
        simp
    exact absurd hb (Nat.not_lt.mpr (le_of_mem_utf8EncodeChar hwide b hmem))

/-- A character of one byte ends what was read before it. -/
theorem glyphs_append_ascii {b : UInt8} (hb : b.toNat < 128) (u : Text) : ∀ t : Text,
    glyphs (t ++ b :: u) = glyphs t ++ glyphs (b :: u)
  | [] => rfl
  | a :: t => by
    cases hread : leading? (a :: t) with
    | some read =>
      obtain ⟨c, width⟩ := read
      obtain ⟨htake, hwidth⟩ := eq_utf8EncodeChar_of_leading? hread
      have hsplit : a :: t = ofChars [c] ++ (a :: t).drop width := by
        rw [ofChars_cons, ofChars_nil, List.append_nil, ← htake, List.take_append_drop]
      have hpos : 0 < width := by
        rw [hwidth]
        exact List.length_pos_iff.mpr (utf8EncodeChar_ne_nil c)
      have hshorter : ((a :: t).drop width).length < (a :: t).length := by
        rw [List.length_drop, List.length_cons]
        omega
      rw [hsplit, List.append_assoc, glyphs_ofChars_append, glyphs_ofChars_append,
        glyphs_append_ascii hb u _, List.append_assoc]
    | none =>
      have hglyphs (v : Text) (hv : leading? (a :: v) = none) :
          glyphs (a :: v) = Glyph.stray a :: glyphs v := by
        rw [glyphs, glyphsFrom, hv]
        rfl
      rw [hglyphs t hread, List.cons_append,
        hglyphs (t ++ b :: u) (leading?_append_ascii hb hread u),
        glyphs_append_ascii hb u t, List.cons_append]
  termination_by t => t.length

/-! ## Texts cut at a byte of one-byte characters -/

/-- What comes before the first separator goes to the first part. -/
theorem splitAt_append_of_not_mem {separator : UInt8} (t : Text) : ∀ {u : Text}, separator ∉ u →
    ∃ part parts, splitAt separator t = part :: parts ∧
      splitAt separator (u ++ t) = (u ++ part) :: parts
  | [], _ => by
    cases hsplit : splitAt separator t with
    | nil =>
      cases t with
      | nil => cases hsplit
      | cons b t =>
        rw [splitAt] at hsplit
        split at hsplit
        · cases hsplit
        · split at hsplit <;> cases hsplit
    | cons part parts => exact ⟨part, parts, rfl, by simpa using hsplit⟩
  | b :: u, h => by
    rw [List.mem_cons, not_or] at h
    obtain ⟨part, parts, hsplit, hrest⟩ := splitAt_append_of_not_mem t h.2
    refine ⟨part, parts, hsplit, ?_⟩
    rw [List.cons_append, splitAt, if_neg (fun hb => h.1 hb.symm), hrest]
    rfl

/-- The parts of a valid text are valid. -/
theorem isValid_of_mem_splitAt {separator : UInt8} (hsep : separator.toNat < 128) {t : Text}
    (ht : t.isValid = true) : ∀ part ∈ splitAt separator t, part.isValid = true := by
  rw [← ofChars_chars ht]
  generalize t.chars = cs
  induction cs with
  | nil =>
    intro part hpart
    rw [ofChars_nil] at hpart
    obtain rfl := List.mem_singleton.mp hpart
    rfl
  | cons c cs ih =>
    intro part hpart
    rw [ofChars_cons] at hpart
    by_cases hmem : separator ∈ String.utf8EncodeChar c
    · have hc : c.toNat < 128 := by
        by_contra hge
        have := le_of_mem_utf8EncodeChar (by omega) separator hmem
        omega
      rw [utf8EncodeChar_of_ascii hc] at hmem hpart
      obtain rfl := List.mem_singleton.mp hmem
      rw [List.singleton_append, splitAt, if_pos rfl] at hpart
      rcases List.mem_cons.mp hpart with rfl | hpart
      · rfl
      · exact ih part hpart
    · obtain ⟨first, parts, hsplit, hwhole⟩ := splitAt_append_of_not_mem (ofChars cs) hmem
      rw [hwhole] at hpart
      rw [hsplit] at ih
      rcases List.mem_cons.mp hpart with rfl | hpart
      · have hencoded : String.utf8EncodeChar c = ofChars [c] := by
          rw [ofChars_cons, ofChars_nil, List.append_nil]
        rw [hencoded]
        exact isValid_append (isValid_ofChars _) (ih first List.mem_cons_self)
      · exact ih part (List.mem_cons_of_mem _ hpart)

/-- Valid texts are joined to a valid text. -/
theorem isValid_join {separator : Text} (hsep : separator.isValid = true) :
    ∀ {parts : List Text}, (∀ part ∈ parts, part.isValid = true) →
      (join separator parts).isValid = true
  | [], _ => rfl
  | [part], h => by simpa [join, List.intercalate] using h part (List.mem_singleton_self _)
  | part :: next :: parts, h => by
    have hjoin : join separator (part :: next :: parts) =
        part ++ (separator ++ join separator (next :: parts)) := by
      simp [join, List.intercalate]
    rw [hjoin]
    exact isValid_append (h part List.mem_cons_self) (isValid_append hsep
      (isValid_join hsep fun p hp => h p (List.mem_cons_of_mem _ hp)))

end Text

end Toolchain
