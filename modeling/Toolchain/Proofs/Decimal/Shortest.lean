import Mathlib.Data.List.Basic
import Mathlib.Data.Nat.Cast.Order.Field
import Toolchain.Format.Expression
import Toolchain.Proofs.Decimal.Rounding
import Toolchain.Tree.Outline

/-!
# Shortest decimals read back

The digits that a finite number is shown by write a value that rounds to the number. Seventeen
digits are always enough: on the grid of the seventeenth digit the steps are narrower than the
interval of a number, so one of the two decimals around the number lies in its interval.

## Main definitions

* `Digits.value`: the value that digits write
* `Digits.Proper`: at least one digit, and nothing but digits

## Main results

* `Binary64.near_shortest`: the shortest digits of a number lie in its interval
* `Binary64.ofRatio?_shortest`: **the value of the shortest digits rounds to the number**
* `Format.ofDecimal?_float`: a number that is written in a program reads back
* `Outline.floatLiteral_injective`: numbers that are shown alike are the same
-/

namespace Toolchain

namespace Binary64

/-! ## Values of digits -/

theorem digitsValue_eq (ds : List Char) : digitsValue ds = Nat.ofDigitChars 10 ds 0 := by
  simp only [digitsValue, Nat.ofDigitChars_eq_foldl, Nat.mul_comm]

theorem digitsValue_toDigits (n : Nat) : digitsValue (Nat.toDigits 10 n) = n := by
  rw [digitsValue_eq, Nat.ofDigitChars_ten_toDigits]

theorem digitsValue_append (ds es : List Char) :
    digitsValue (ds ++ es) = digitsValue ds * 10 ^ es.length + digitsValue es := by
  simp only [digitsValue_eq, Nat.ofDigitChars_append]
  rw [Nat.ofDigitChars_eq_ofDigitChars_zero, Nat.mul_comm]

@[simp]
theorem digitsValue_replicate (n : Nat) : digitsValue (List.replicate n '0') = 0 := by
  simp [digitsValue_eq]

/-- Zeros at the end multiply by powers of ten. -/
theorem digitsValue_append_zeros (ds : List Char) (n : Nat) :
    digitsValue (ds ++ List.replicate n '0') = digitsValue ds * 10 ^ n := by
  simp [digitsValue_append]

/-- Zeros at the front do not count. -/
theorem digitsValue_zeros_append (n : Nat) (ds : List Char) :
    digitsValue (List.replicate n '0' ++ ds) = digitsValue ds := by
  simp [digitsValue_append]

end Binary64

open Binary64

namespace Digits

/-- The value that digits write. -/
def value (d : Digits) : ℚ := digitsValue d.digits * 10 ^ (d.point - d.digits.length)

/-- At least one digit, and nothing but digits. -/
structure Proper (d : Digits) : Prop where
  ne_nil : d.digits ≠ []
  isDigit : ∀ c ∈ d.digits, c.isDigit = true

/-- What is taken off the end is a number of zeros. -/
theorem exists_zeros (ds : List Char) :
    ∃ n, ds = (ds.reverse.dropWhile (· == '0')).reverse ++ List.replicate n '0' := by
  have hzeros : ds.reverse.takeWhile (· == '0') =
      List.replicate (ds.reverse.takeWhile (· == '0')).length '0' := by
    refine List.eq_replicate_iff.mpr ⟨rfl, fun c hc => ?_⟩
    have h := (List.all_eq_true.mp (List.all_takeWhile (p := (· == '0')) (l := ds.reverse))) c hc
    simpa using h
  refine ⟨(ds.reverse.takeWhile (· == '0')).length, ?_⟩
  calc ds = (ds.reverse.takeWhile (· == '0') ++ ds.reverse.dropWhile (· == '0')).reverse := by
        rw [List.takeWhile_append_dropWhile, List.reverse_reverse]
    _ = (ds.reverse.dropWhile (· == '0')).reverse ++ (ds.reverse.takeWhile (· == '0')).reverse :=
        List.reverse_append
    _ = _ := by
        conv_lhs => rw [hzeros, List.reverse_replicate]

theorem value_ofNat (n : Nat) (k : Int) : (ofNat n k).value = n * 10 ^ k := by
  by_cases hn : n = 0
  · simp [ofNat, hn, value, digitsValue]
  obtain ⟨z, hz⟩ := exists_zeros (Nat.toDigits 10 n)
  have hvalue := digitsValue_toDigits n
  simp only [ofNat, if_neg hn, value]
  generalize ((Nat.toDigits 10 n).reverse.dropWhile (· == '0')).reverse = trimmed at hz
  rw [hz, digitsValue_append_zeros] at hvalue
  have hcast : (n : ℚ) = digitsValue trimmed * 10 ^ z := by exact_mod_cast hvalue.symm
  have hexp : ((Nat.toDigits 10 n).length : Int) + k - trimmed.length = k + z := by
    rw [hz, List.length_append, List.length_replicate]
    push_cast
    ring
  rw [hexp, zpow_add₀ (by norm_num), zpow_natCast, hcast]
  ring

theorem proper_ofNat {n : Nat} (hn : n ≠ 0) (k : Int) : (ofNat n k).Proper := by
  have hvalue := value_ofNat n k
  refine ⟨fun hnil => ?_, fun c hc => ?_⟩
  · rw [value, hnil] at hvalue
    have hpow : (10 : ℚ) ^ k ≠ 0 := zpow_ne_zero k (by norm_num)
    have hcast : (n : ℚ) ≠ 0 := by exact_mod_cast hn
    simp [digitsValue, hpow, hcast] at hvalue
  · simp only [ofNat, if_neg hn] at hc
    have hmem := List.mem_reverse.mp ((List.dropWhile_sublist _).mem (List.mem_reverse.mp hc))
    exact Nat.isDigit_of_mem_toDigits (by omega) (by omega) hmem

end Digits

namespace Binary64

/-! ## Grids -/

theorem cast_tenPow (n : Nat) : ((tenPow n : Nat) : ℚ) = 10 ^ n := by
  simp [tenPow]

theorem tenPow_pos (n : Nat) : 0 < tenPow n := Nat.pow_pos (by decide)

theorem ten_zpow_pos (k : Int) : (0 : ℚ) < 10 ^ k := zpow_pos (by norm_num) k

theorem ten_zpow_toNat {k : Int} (hk : 0 ≤ k) : (10 : ℚ) ^ k = 10 ^ k.toNat := by
  conv_lhs => rw [← Int.toNat_of_nonneg hk]
  exact zpow_natCast 10 _

theorem decadic_pos (n : Nat) (k : Int) : 0 < (decadic n k).2 := by
  unfold decadic
  split
  · exact tenPow_pos _
  · exact Nat.one_pos

theorem quotient_decadic (n : Nat) (k : Int) : quotient (decadic n k) = n * 10 ^ k := by
  unfold decadic quotient
  split
  · rw [cast_tenPow, ← ten_zpow_toNat (by omega), zpow_neg, div_inv_eq_mul]
  · next hk =>
    rw [Nat.cast_mul, cast_tenPow, ← ten_zpow_toNat (not_lt.mp hk), Nat.cast_one, div_one]

/-- A quotient of integers and its integral part. -/
theorem cast_div_bounds (n : Nat) {d : Nat} (hd : 0 < d) :
    ((n / d : Nat) : ℚ) ≤ (n : ℚ) / d ∧ (n : ℚ) / d < ((n / d : Nat) : ℚ) + 1 := by
  have hpos : (0 : ℚ) < d := by exact_mod_cast hd
  refine ⟨Nat.cast_div_le, ?_⟩
  rw [div_lt_iff₀ hpos]
  exact_mod_cast Nat.lt_mul_of_div_lt (Nat.lt_succ_self (n / d)) hd

/-- A fraction lies between two neighbours on a grid. -/
theorem gridFloor_bounds {v : Nat × Nat} (hv : 0 < v.2) (k : Int) :
    (gridFloor v k : ℚ) * 10 ^ k ≤ quotient v ∧ quotient v < (gridFloor v k + 1) * 10 ^ k := by
  have hpow := ten_zpow_pos k
  have hscaled : (gridFloor v k : ℚ) ≤ quotient v / 10 ^ k ∧
      quotient v / 10 ^ k < gridFloor v k + 1 := by
    unfold gridFloor quotient
    split
    · have hbounds := cast_div_bounds (v.1 * tenPow (-k).toNat) hv
      have heq : ((v.1 * tenPow (-k).toNat : Nat) : ℚ) / v.2 = v.1 / v.2 / 10 ^ k := by
        rw [Nat.cast_mul, cast_tenPow, ← ten_zpow_toNat (by omega), zpow_neg]
        field_simp
      rwa [heq] at hbounds
    · next hk =>
      have hbounds := cast_div_bounds v.1 (Nat.mul_pos hv (tenPow_pos k.toNat))
      rwa [Nat.cast_mul, cast_tenPow, ← ten_zpow_toNat (not_lt.mp hk), ← div_div] at hbounds
  exact ⟨(le_div_iff₀ hpow).mp hscaled.1, (div_lt_iff₀ hpow).mp hscaled.2⟩

/-- A number with some digits is at least the power of ten of its first one. -/
theorem pow_le_of_length {n : Nat} (hn : n ≠ 0) : 10 ^ ((Nat.toDigits 10 n).length - 1) ≤ n := by
  by_contra hlt
  by_cases hone : (Nat.toDigits 10 n).length = 1
  · rw [hone] at hlt
    simp at hlt
    omega
  · have hpos := Nat.length_toDigits_pos (b := 10) (n := n)
    have hle := (Nat.length_toDigits_le_iff (by decide : 1 < 10)
      (by omega : 0 < (Nat.toDigits 10 n).length - 1)).mpr (Nat.lt_of_not_le hlt)
    omega

theorem lt_pow_length (n : Nat) : n < 10 ^ (Nat.toDigits 10 n).length :=
  (Nat.length_toDigits_le_iff (by decide) Nat.length_toDigits_pos).mp (Nat.le_refl _)

/-- A positive fraction is at least the power of ten of its first digit. -/
theorem le_of_decimalExponent {v : Nat × Nat} (h₁ : 0 < v.1) (h₂ : 0 < v.2) :
    (10 : ℚ) ^ decimalExponent v ≤ quotient v := by
  have hpos : (0 : ℚ) < v.2 := by exact_mod_cast h₂
  unfold decimalExponent quotient
  split
  · next hle =>
    have hdiv : v.1 / v.2 ≠ 0 := Nat.div_ne_zero_iff.mpr ⟨h₂.ne', hle⟩
    have hlength := Nat.length_toDigits_pos (b := 10) (n := v.1 / v.2)
    have hpow := pow_le_of_length hdiv
    have hexp : ((Nat.toDigits 10 (v.1 / v.2)).length : Int) - 1 =
        (((Nat.toDigits 10 (v.1 / v.2)).length - 1 : Nat) : Int) := by omega
    rw [hexp, zpow_natCast]
    have hcast : (10 : ℚ) ^ ((Nat.toDigits 10 (v.1 / v.2)).length - 1) ≤ (v.1 / v.2 : Nat) := by
      exact_mod_cast hpow
    exact hcast.trans Nat.cast_div_le
  · -- below one the digits of the inverse tell the exponent up to one
    have hneg (c : Nat) (hc : v.2 ≤ v.1 * 10 ^ c) : (10 : ℚ) ^ (-(c : Int)) ≤ v.1 / v.2 := by
      rw [zpow_neg, zpow_natCast, inv_le_iff_one_le_mul₀ (by positivity), div_mul_eq_mul_div,
        le_div_iff₀ hpos, one_mul]
      exact_mod_cast hc
    have hlength := Nat.length_toDigits_pos (b := 10) (n := v.2 / v.1)
    simp only
    split
    · next hle =>
      have h := hneg ((Nat.toDigits 10 (v.2 / v.1)).length - 1) hle
      rwa [Nat.cast_sub hlength, Nat.cast_one] at h
    · refine hneg _ ?_
      have hlt := Nat.lt_mul_of_div_lt (lt_pow_length (v.2 / v.1)) h₁
      rw [Nat.mul_comm]
      exact hlt.le

/-! ## The search for digits -/

namespace Interval

variable {i : Interval}

theorem contains_of_onGrid? {k : Int} {n : Nat} (h : i.onGrid? k = some n) :
    i.contains (decadic n k) = true := by
  unfold onGrid? at h
  simp only at h
  split at h
  · next hlow hhigh =>
    split at h
    · cases h
      exact hlow
    · cases h
      split
      · exact hlow
      · exact hhigh
    · cases h
      exact hhigh
  · next hlow _ =>
    cases h
    exact hlow
  · next _ hhigh =>
    cases h
    exact hhigh
  · cases h

/-- The search gives a decimal of the interval if there is one on the grids that are tried. -/
theorem search_spec {n j : Nat} {k : Int} (hj : j < n) (h : i.onGrid? (k - j) ≠ none) :
    ∃ m l, i.search n k = Digits.ofNat m l ∧ i.contains (decadic m l) = true := by
  induction n generalizing j k with
  | zero => omega
  | succ n ih =>
    rw [search]
    cases hgrid : i.onGrid? k with
    | some m => exact ⟨m, k, rfl, contains_of_onGrid? hgrid⟩
    | none =>
      cases j with
      | zero =>
        rw [Nat.cast_zero, sub_zero] at h
        exact absurd hgrid h
      | succ j =>
        refine ih (Nat.lt_of_succ_lt_succ hj) ?_
        have hk : k - 1 - (j : Int) = k - ((j + 1 : Nat) : Int) := by
          push_cast
          ring
        rwa [hk]

end Interval

/-- The exact value of a number. -/
theorem quotient_value (x : Binary64) :
    quotient x.interval.value = x.significand * 2 ^ x.exponent := by
  simp only [interval, quotient_dyadic, quarter_exponent]
  push_cast
  ring

theorem interval_value_pos {x : Binary64} (hs : x.significand ≠ 0) :
    0 < x.interval.value.1 ∧ 0 < x.interval.value.2 := by
  refine ⟨?_, dyadic_pos _ _⟩
  have hsig := Nat.pos_of_ne_zero hs
  simp only [interval, dyadic]
  split
  · exact Nat.mul_pos (by decide) hsig
  · exact Nat.mul_pos (Nat.mul_pos (by decide) hsig) (twoPow_pos _)

theorem significand_of_isBoundary {x : Binary64} (h : x.isBoundary = true) :
    x.significand = twoPow 52 := by
  unfold isBoundary at h
  simp only [Bool.and_eq_true, decide_eq_true_eq] at h
  unfold significand
  rw [if_neg (by omega), h.1, Nat.add_zero]

/-- On the grid of the seventeenth digit a step is narrower than the interval. -/
theorem step_lt_interval {x : Binary64} (hx : x.IsFinite) (hs : x.significand ≠ 0) :
    (10 : ℚ) ^ (decimalExponent x.interval.value - 16) <
      ((if x.isBoundary then 1 / 4 else 1 / 2) + 1 / 2) * 2 ^ x.exponent := by
  have hpos := interval_value_pos hs
  have hlow := le_of_decimalExponent hpos.1 hpos.2
  rw [quotient_value] at hlow
  have hunit := two_zpow_pos x.exponent
  have hstep : (10 : ℚ) ^ (decimalExponent x.interval.value - 16) =
      10 ^ decimalExponent x.interval.value / 10 ^ 16 := by
    rw [zpow_sub₀ (by norm_num)]
    norm_num
  rw [hstep, div_lt_iff₀ (by norm_num)]
  refine hlow.trans_lt ?_
  by_cases hb : x.isBoundary = true
  · rw [if_pos hb, significand_of_isBoundary hb, cast_twoPow]
    nlinarith
  · have hsig : (x.significand : ℚ) < 2 ^ 53 := by
      rw [← cast_twoPow]
      exact_mod_cast hx.significand_lt
    rw [if_neg hb]
    nlinarith

/-- One of the two decimals around a number lies in its interval on the grid of the seventeenth
digit. -/
theorem onGrid?_ne_none {x : Binary64} (hx : x.IsFinite) (hs : x.significand ≠ 0) :
    x.interval.onGrid? (decimalExponent x.interval.value - 16) ≠ none := by
  have hwidth := step_lt_interval hx hs
  obtain ⟨hlower, hupper⟩ := gridFloor_bounds (interval_value_pos hs).2
    (decimalExponent x.interval.value - 16)
  rw [quotient_value] at hlower hupper
  unfold Interval.onGrid?
  simp only
  generalize decimalExponent x.interval.value - 16 = k at hwidth hlower hupper
  generalize gridFloor x.interval.value k = n at hlower hupper
  have hunit := two_zpow_pos x.exponent
  have hstep := ten_zpow_pos k
  have hsome : x.interval.contains (decadic n k) = true ∨
      x.interval.contains (decadic (n + 1) k) = true := by
    rw [near_iff hs (decadic_pos _ _), near_iff hs (decadic_pos _ _), quotient_decadic,
      quotient_decadic]
    push_cast
    by_cases hnear : (x.significand - (if x.isBoundary then 1 / 4 else 1 / 2)) * 2 ^ x.exponent <
        (n : ℚ) * 10 ^ k
    · left
      refine ⟨hnear.le, ?_, fun heq => absurd heq hnear.ne', fun heq => ?_⟩
      · nlinarith
      · nlinarith
    · right
      have hhigh : ((n : ℚ) + 1) * 10 ^ k < (x.significand + 1 / 2) * 2 ^ x.exponent := by
        rw [not_lt] at hnear
        linarith
      have hcut : (x.significand - (if x.isBoundary then 1 / 4 else 1 / 2 : ℚ)) * 2 ^ x.exponent <
          ((n : ℚ) + 1) * 10 ^ k := by
        refine lt_of_le_of_lt (mul_le_mul_of_nonneg_right ?_ hunit.le) hupper
        split <;> linarith
      exact ⟨hcut.le, hhigh.le, fun heq => absurd heq hcut.ne', fun heq => absurd heq hhigh.ne⟩
  split
  · split <;> simp
  · simp
  · simp
  · next hnot hnot' =>
    rcases hsome with h | h
    · rw [h] at hnot
      cases hnot
    · rw [h] at hnot'
      cases hnot'

/-- **The shortest digits of a number lie in its interval.** -/
theorem near_shortest {x : Binary64} (hx : x.IsFinite) (hs : x.significand ≠ 0) :
    x.Near x.shortest.value ∧ x.shortest.Proper := by
  obtain ⟨m, l, hsearch, hcontains⟩ :=
    Interval.search_spec (n := 17) (j := 16) (by decide) (onGrid?_ne_none hx hs)
  have hshortest : x.shortest = Digits.ofNat m l := by
    rw [shortest, if_neg hs]
    exact hsearch
  have hnear := (near_iff hs (decadic_pos m l)).mp hcontains
  rw [quotient_decadic] at hnear
  rw [hshortest, Digits.value_ofNat]
  refine ⟨hnear, Digits.proper_ofNat ?_ l⟩
  rintro rfl
  simpa using hnear.pos hs

theorem shortest_of_zero {x : Binary64} (hs : x.significand = 0) : x.shortest = ⟨['0'], 1⟩ := by
  rw [shortest, if_pos hs]

theorem proper_shortest {x : Binary64} (hx : x.IsFinite) : x.shortest.Proper := by
  by_cases hs : x.significand = 0
  · rw [shortest_of_zero hs]
    exact ⟨by simp, by simp⟩
  · exact (near_shortest hx hs).2

/-- The only finite number without a significand is zero. -/
theorem IsFinite.eq_zero {x : Binary64} (hx : x.IsFinite) (hs : x.significand = 0) : x = ⟨0⟩ := by
  have hsame := hx.assemble?
  have hexponent : x.exponent = -1074 := by
    by_contra hne
    have hle := le_significand hne
    rw [hs] at hle
    exact absurd hle (by decide)
  rw [hs, hexponent] at hsame
  exact (Option.some.inj hsame).symm

/-- **The value of the shortest digits of a number rounds to it.** -/
theorem ofRatio?_shortest {x : Binary64} (hx : x.IsFinite) {n d : Nat} (hd : 0 < d)
    (h : quotient (n, d) = x.shortest.value) : ofRatio? n d = some x := by
  by_cases hs : x.significand = 0
  · have hpos : (d : ℚ) ≠ 0 := by exact_mod_cast hd.ne'
    have hzero : n = 0 := by
      rw [shortest_of_zero hs] at h
      simpa [quotient, Digits.value, digitsValue, hpos] using h
    rw [hzero, hx.eq_zero hs, ofRatio?, if_pos rfl]
  · refine ofRatio?_of_near hx hs hd ?_
    rw [h]
    exact (near_shortest hx hs).1

/-- Numbers with the same shortest digits are the same. -/
theorem eq_of_shortest {x y : Binary64} (hx : x.IsFinite) (hy : y.IsFinite)
    (h : x.shortest = y.shortest) : x = y := by
  have hvalue : quotient (decadic (digitsValue x.shortest.digits)
      (x.shortest.point - x.shortest.digits.length)) = x.shortest.value :=
    quotient_decadic _ _
  have hrx := ofRatio?_shortest hx (decadic_pos _ _) hvalue
  have hry := ofRatio?_shortest hy (decadic_pos _ _) (hvalue.trans (congrArg Digits.value h))
  exact Option.some.inj (hrx.symm.trans hry)

/-! ## Written forms -/

theorem IsFinite.special? {x : Binary64} (hx : x.IsFinite) : x.special? = none := by
  have hexp := hx.parts.1
  have hne : x.exponentBits ≠ 2047 := by omega
  simp [Binary64.special?, isNaN, isInfinite, hne]

theorem IsFinite.signed {x : Binary64} (hx : x.IsFinite) (s : String) : x.signed s = s := by
  have h63 : twoPow 63 = 9223372036854775808 := rfl
  have h52 : twoPow 52 = 4503599627370496 := rfl
  have hnot : x.isNegative = false := by
    unfold IsFinite at hx
    rw [h52] at hx
    rw [isNegative, h63]
    exact decide_eq_false (by omega)
  simp [Binary64.signed, hnot]

theorem IsFinite.positional {x : Binary64} (hx : x.IsFinite) :
    x.positional = x.shortest.positional := by
  simp only [Binary64.positional, hx.special?, hx.signed]

theorem IsFinite.general {x : Binary64} (hx : x.IsFinite) :
    x.general = if x.shortest.exponent < -4 ∨ x.shortest.exponent ≥ 6 then x.shortest.scientific 2
      else x.shortest.positional := by
  simp only [Binary64.general, hx.special?, hx.signed]

/-- The value of digits with a point. -/
theorem ofDecimal?_point {whole : List Char} (h : '.' ∉ whole) (fraction : List Char) :
    ofDecimal? (whole ++ '.' :: fraction) =
      ofRatio? (digitsValue (whole ++ fraction)) (tenPow fraction.length) := by
  have hall : ∀ c ∈ whole, (c != '.') = true := fun c hc => by
    simpa using fun heq : c = '.' => h (heq ▸ hc)
  have htake : (whole ++ '.' :: fraction).takeWhile (· != '.') = whole := by
    rw [List.takeWhile_append_of_pos hall, List.takeWhile_cons_of_neg (by simp), List.append_nil]
  have hdrop : (whole ++ '.' :: fraction).dropWhile (· != '.') = '.' :: fraction := by
    rw [List.dropWhile_append_of_pos hall, List.dropWhile_cons_of_neg (by simp)]
  unfold ofDecimal?
  simp only
  rw [htake, hdrop, List.drop_one, List.tail_cons]

end Binary64

namespace Digits

variable {d : Digits}

theorem Proper.not_mem (h : d.Proper) {c : Char} (hc : c.isDigit = false) : c ∉ d.digits := by
  intro hmem
  rw [h.isDigit c hmem] at hc
  cases hc

/-- Digits in positional notation: some before the point, and some behind it if there is one. -/
theorem Proper.positional (h : d.Proper) :
    ∃ whole fraction, whole ≠ [] ∧ (∀ c ∈ whole ++ fraction, c.isDigit = true) ∧
      quotient (digitsValue (whole ++ fraction), tenPow fraction.length) = d.value ∧
      (fraction ≠ [] ∧ d.positional.toList = whole ++ '.' :: fraction ∨
        fraction = [] ∧ d.positional.toList = whole) := by
  have hzeros (n : Nat) : ∀ c ∈ List.replicate n '0', c.isDigit = true := fun c hc => by
    rw [(List.mem_replicate.mp hc).2]
    decide
  unfold Digits.positional
  simp only [String.toList_ofList]
  split
  · next hpoint =>
    refine ⟨['0'], List.replicate (-d.point).toNat '0' ++ d.digits, by simp, ?_, ?_,
      .inl ⟨by simp [h.ne_nil], rfl⟩⟩
    · intro c hc
      rcases List.mem_append.mp hc with hc | hc
      · exact hzeros 1 c hc
      · exact (List.mem_append.mp hc).elim (hzeros _ c) (h.isDigit c)
    · have hvalue : digitsValue (['0'] ++ (List.replicate (-d.point).toNat '0' ++ d.digits)) =
          digitsValue d.digits := by
        rw [← List.append_assoc, ← List.replicate_one, List.replicate_append_replicate,
          digitsValue_zeros_append]
      have hexp : d.point - d.digits.length =
          -(((-d.point).toNat + d.digits.length : Nat) : Int) := by
        omega
      rw [quotient, hvalue, cast_tenPow, value, hexp, zpow_neg, zpow_natCast, List.length_append,
        List.length_replicate, div_eq_mul_inv]
  · next hpoint =>
    split
    · next hlength =>
      refine ⟨d.digits ++ List.replicate (d.point.toNat - d.digits.length) '0', [],
        by simp [h.ne_nil], ?_, ?_, .inr ⟨rfl, rfl⟩⟩
      · intro c hc
        rw [List.append_nil] at hc
        exact (List.mem_append.mp hc).elim (h.isDigit c) (hzeros _ c)
      · have hexp : d.point - d.digits.length =
            ((d.point.toNat - d.digits.length : Nat) : Int) := by
          omega
        rw [quotient, List.append_nil, digitsValue_append_zeros, value, hexp, zpow_natCast]
        simp [tenPow]
    · next hlength =>
      have hpos : 0 < d.digits.length := List.length_pos_iff.mpr h.ne_nil
      refine ⟨d.digits.take d.point.toNat, d.digits.drop d.point.toNat, ?_, ?_, ?_,
        .inl ⟨?_, rfl⟩⟩
      · rw [Ne, List.take_eq_nil_iff]
        rintro (hzero | hnil)
        · omega
        · exact h.ne_nil hnil
      · rw [List.take_append_drop]
        exact h.isDigit
      · have hexp : d.point - d.digits.length =
            -((d.digits.length - d.point.toNat : Nat) : Int) := by
          omega
        rw [quotient, List.take_append_drop, cast_tenPow, value, hexp, zpow_neg, zpow_natCast,
          List.length_drop, div_eq_mul_inv]
      · rw [Ne, List.drop_eq_nil_iff]
        omega

/-- The digits before the exponent. -/
def mantissa (d : Digits) : List Char :=
  match d.digits with
  | [] => ['0']
  | [c] => [c]
  | c :: rest => c :: '.' :: rest

theorem Proper.filter_mantissa (h : d.Proper) : d.mantissa.filter (· != '.') = d.digits := by
  have hdigits : d.digits.filter (· != '.') = d.digits := by
    refine List.filter_eq_self.mpr fun c hc => ?_
    simpa using fun heq : c = '.' => h.not_mem (by decide) (heq ▸ hc)
  have hne := h.ne_nil
  unfold mantissa
  match hd : d.digits, hne with
  | [c], _ =>
    rw [hd] at hdigits
    exact hdigits
  | c :: e :: rest, _ =>
    rw [hd] at hdigits
    simpa [List.filter_cons] using hdigits

theorem Proper.not_mem_mantissa (h : d.Proper) : 'e' ∉ d.mantissa := by
  intro hmem
  have hfilter : 'e' ∈ d.mantissa.filter (· != '.') := List.mem_filter.mpr ⟨hmem, by decide⟩
  rw [h.filter_mantissa] at hfilter
  exact h.not_mem (by decide) hfilter

theorem toList_scientific (d : Digits) (width : Nat) :
    (d.scientific width).toList = d.mantissa ++ 'e' :: (if d.exponent < 0 then '-' else '+') ::
      (List.replicate (width - (Nat.toDigits 10 d.exponent.natAbs).length) '0' ++
        Nat.toDigits 10 d.exponent.natAbs) := by
  simp only [scientific, String.toList_ofList]
  rfl

/-- An exponent is written without a mark. -/
theorem not_mem_exponent (d : Digits) (width : Nat) :
    'e' ∉ (if d.exponent < 0 then '-' else '+') ::
      (List.replicate (width - (Nat.toDigits 10 d.exponent.natAbs).length) '0' ++
        Nat.toDigits 10 d.exponent.natAbs) := by
  intro hmem
  rcases List.mem_cons.mp hmem with hsign | hmem
  · split at hsign <;> cases hsign
  rcases List.mem_append.mp hmem with hzero | hdigit
  · cases (List.mem_replicate.mp hzero).2
  · exact absurd (Nat.isDigit_of_mem_toDigits (by decide) (by decide) hdigit) (by decide)

/-- The form with an exponent tells the digits. -/
theorem Proper.eq_of_scientific {d' : Digits} (h : d.Proper) (h' : d'.Proper) {width : Nat}
    (heq : (d.scientific width).toList = (d'.scientific width).toList) : d = d' := by
  rw [toList_scientific, toList_scientific,
    List.append_cons_inj_of_notMem h.not_mem_mantissa (not_mem_exponent d width)] at heq
  obtain ⟨hmantissa, -, htail⟩ := heq
  obtain ⟨hsign, hdigits⟩ := List.cons.inj htail
  have hdigits' : d.digits = d'.digits := by
    rw [← h.filter_mantissa, hmantissa, h'.filter_mantissa]
  have habs : d.exponent.natAbs = d'.exponent.natAbs := by
    have hvalue := congrArg digitsValue hdigits
    simpa only [digitsValue_zeros_append, digitsValue_toDigits] using hvalue
  have hpoint : d.point = d'.point := by
    unfold exponent at hsign habs
    split at hsign <;> split at hsign
    · omega
    · simp at hsign
    · simp at hsign
    · omega
  cases d
  cases d'
  simp_all

end Digits

namespace Format

/-- A number that is written in a program has digits before and behind a point, and these write the
value of its shortest digits. -/
theorem float_spec {x : Binary64} (hx : x.IsFinite) :
    ∃ whole fraction, float x = whole ++ '.' :: fraction ∧ whole ≠ [] ∧ fraction ≠ [] ∧
      (∀ c ∈ whole ++ fraction, c.isDigit = true) ∧
      quotient (digitsValue (whole ++ fraction), tenPow fraction.length) = x.shortest.value := by
  obtain ⟨whole, fraction, hwhole, hdigits, hvalue, ⟨hne, htext⟩ | ⟨rfl, htext⟩⟩ :=
    (proper_shortest hx).positional
  · refine ⟨whole, fraction, ?_, hwhole, hne, hdigits, hvalue⟩
    simp [float, hx.positional, htext]
  · rw [List.append_nil] at hdigits hvalue
    have hdot : '.' ∉ whole := fun hmem => absurd (hdigits '.' hmem) (by decide)
    refine ⟨whole, ['0'], ?_, hwhole, by simp, ?_, ?_⟩
    · simp [float, hx.positional, htext, hdot]
    · intro c hc
      rcases List.mem_append.mp hc with hc | hc
      · exact hdigits c hc
      · rw [List.mem_singleton.mp hc]
        decide
    · rw [← hvalue, ← List.replicate_one, digitsValue_append_zeros]
      simp [quotient, tenPow]

/-- A number that is written in a program reads back. -/
theorem ofDecimal?_float {x : Binary64} (hx : x.IsFinite) : ofDecimal? (float x) = some x := by
  obtain ⟨whole, fraction, hfloat, -, -, hdigits, hvalue⟩ := float_spec hx
  have hdot : '.' ∉ whole := fun hmem =>
    absurd (hdigits '.' (List.mem_append_left _ hmem)) (by decide)
  rw [hfloat, ofDecimal?_point hdot]
  exact ofRatio?_shortest hx (tenPow_pos _) hvalue

end Format

namespace Outline

/-- A number is shown with an exponent, or as it is written in a program. -/
theorem toList_floatLiteral {x : Binary64} (hx : x.IsFinite) :
    (floatLiteral x).toList = (x.shortest.scientific 2).toList ∨
      (floatLiteral x).toList = Format.float x := by
  unfold floatLiteral
  rw [hx.general]
  split
  · left
    have hmark : (x.shortest.scientific 2).toList.any
        (fun c => c == '.' || c == 'e' || c == 'E' || c == 'n') = true :=
      List.any_eq_true.mpr ⟨'e', by simp [Digits.toList_scientific], by decide⟩
    simp only [hmark, if_true]
  · right
    obtain ⟨whole, fraction, -, hdigits, -, htext⟩ := (proper_shortest hx).positional
    have hmark : x.shortest.positional.toList.any
        (fun c => c == '.' || c == 'e' || c == 'E' || c == 'n') =
        x.shortest.positional.toList.contains '.' := by
      have hchar : ∀ c ∈ x.shortest.positional.toList, c = '.' ∨ c.isDigit = true := by
        intro c hc
        by_cases hdot : c = '.'
        · exact .inl hdot
        · refine .inr (hdigits c ?_)
          rcases htext with ⟨-, htext⟩ | ⟨rfl, htext⟩
          · rw [htext] at hc
            simpa [hdot] using hc
          · rw [htext] at hc
            simpa using hc
      rw [Bool.eq_iff_iff, List.any_eq_true, List.contains_iff_mem]
      constructor
      · rintro ⟨c, hc, hmarked⟩
        rcases hchar c hc with rfl | hdigit
        · exact hc
        · have hnot (e : Char) (he : e.isDigit = false) : (c == e) = false := by
            simpa using fun heq : c = e => absurd hdigit (by simp [heq, he])
          rw [hnot '.' (by decide), hnot 'e' (by decide), hnot 'E' (by decide),
            hnot 'n' (by decide)] at hmarked
          cases hmarked
      · exact fun hc => ⟨'.', hc, by decide⟩
    simp only [hmark, Format.float, hx.positional]
    split <;> simp

theorem not_mem_float {x : Binary64} (hx : x.IsFinite) : 'e' ∉ Format.float x := by
  obtain ⟨whole, fraction, hfloat, -, -, hdigits, -⟩ := Format.float_spec hx
  rw [hfloat]
  intro hmem
  have hdigit : 'e' ∈ whole ++ fraction := by simpa using hmem
  exact absurd (hdigits 'e' hdigit) (by decide)

/-- Numbers that are shown alike are the same. -/
theorem floatLiteral_injective {x y : Binary64} (hx : x.IsFinite) (hy : y.IsFinite)
    (h : floatLiteral x = floatLiteral y) : x = y := by
  have hlist := congrArg String.toList h
  rcases toList_floatLiteral hx with htx | htx <;> rcases toList_floatLiteral hy with hty | hty
  · rw [htx, hty] at hlist
    exact eq_of_shortest hx hy ((proper_shortest hx).eq_of_scientific (proper_shortest hy) hlist)
  · rw [htx, hty] at hlist
    refine absurd ?_ (not_mem_float hy)
    simp [← hlist, Digits.toList_scientific]
  · rw [htx, hty] at hlist
    refine absurd ?_ (not_mem_float hx)
    simp [hlist, Digits.toList_scientific]
  · rw [htx, hty] at hlist
    have hread := Format.ofDecimal?_float hx
    rw [hlist, Format.ofDecimal?_float hy] at hread
    exact (Option.some.inj hread).symm

end Outline

end Toolchain
