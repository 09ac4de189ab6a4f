import Mathlib.Algebra.Order.Field.Rat
import Mathlib.Algebra.Order.Field.Power
import Mathlib.Tactic.FieldSimp
import Mathlib.Tactic.Linarith
import Mathlib.Tactic.NormNum
import Mathlib.Tactic.Positivity
import Mathlib.Tactic.Ring
import Toolchain.Decimal.Shortest

/-!
# Rounding to the nearest number

A fraction is rounded by finding the power of two at which its quotient has fifty-three bits, and
rounding the quotient to an integer. Every value between the midpoints to the neighbours of a number
rounds to that number; at the midpoints themselves the even neighbour wins.

## Main definitions

* `quotient`: a fraction as a rational number
* `Binary64.IsFinite`: a number that is neither negative nor infinite

## Main results

* `Binary64.lt_of_ratioExponent`, `Binary64.le_of_ratioExponent`: the exponent at which a fraction
  is rounded
* `Binary64.isFinite_of_ofRatio?`: a fraction rounds to a finite number or to none
* `Binary64.near_iff`: what the interval of a number holds
* `Binary64.ofRatio?_of_near`: **every value of the interval of a number rounds to it**
-/

namespace Toolchain

/-- A fraction as a rational number. -/
def quotient (v : Nat × Nat) : ℚ := (v.1 : ℚ) / v.2

@[simp]
theorem cast_twoPow (n : Nat) : ((twoPow n : Nat) : ℚ) = 2 ^ n := by
  simp [twoPow]

theorem twoPow_pos (n : Nat) : 0 < twoPow n := Nat.pow_pos (by decide)

/-! ## Rounding to an integer -/

/-- A fraction rounds to the integer it is nearest to, and in the middle to the even one. -/
theorem roundDiv_eq {n d q : Nat} (hlow : 2 * q * d ≤ 2 * n + d) (hhigh : 2 * n ≤ 2 * q * d + d)
    (htie : 2 * q * d = 2 * n + d ∨ 2 * n = 2 * q * d + d → q % 2 = 0) (hd : 0 < d) :
    roundDiv n d = q := by
  have hdiv := Nat.div_add_mod n d
  have hmod := Nat.mod_lt n hd
  set k := n / d with hk
  set r := n % d with hr
  clear_value k r
  have hle : q ≤ k + 1 := by
    by_contra h
    have hmul : (k + 2) * d ≤ q * d := Nat.mul_le_mul_right d (by omega)
    nlinarith
  have hge : k ≤ q := by
    by_contra h
    have hmul : (q + 1) * d ≤ k * d := Nat.mul_le_mul_right d (by omega)
    nlinarith
  unfold roundDiv
  rw [← hk, ← hr]
  obtain rfl | rfl : q = k ∨ q = k + 1 := by omega
  · have hr2 : 2 * r ≤ d := by nlinarith
    simp only
    split
    · rfl
    · have heq : 2 * r = d := by omega
      have heven := htie (.inr (by nlinarith))
      simp [heq, heven]
  · have hr2 : d ≤ 2 * r := by nlinarith
    rw [if_neg (by omega)]
    split
    · rfl
    · have heq : 2 * r = d := by omega
      have heven := htie (.inl (by nlinarith))
      rw [if_neg (by omega)]

/-- A fraction below an integer rounds to that integer at most. -/
theorem roundDiv_le {n d k : Nat} (h : n < k * d) : roundDiv n d ≤ k := by
  have hdiv : n / d < k := Nat.div_lt_of_lt_mul (by rwa [Nat.mul_comm])
  unfold roundDiv
  simp only
  split
  · omega
  split
  · omega
  split <;> omega

namespace Binary64

/-! ## The exponent of a fraction -/

theorem scaled_pos {n d : Nat} (hd : 0 < d) (e : Int) : 0 < (scaled n d e).2 := by
  unfold scaled
  split
  · exact hd
  · exact Nat.mul_pos hd (twoPow_pos _)

theorem zpow_toNat {e : Int} (he : 0 ≤ e) : (2 : ℚ) ^ e = 2 ^ e.toNat := by
  conv_lhs => rw [← Int.toNat_of_nonneg he]
  exact zpow_natCast 2 _

/-- Scaling divides a fraction by a power of two. -/
theorem quotient_scaled (n d : Nat) (e : Int) :
    quotient (scaled n d e) = (n : ℚ) / d / 2 ^ e := by
  unfold scaled quotient
  split
  · next he =>
    have hneg : (2 : ℚ) ^ (-e).toNat = (2 ^ e)⁻¹ := by
      rw [← zpow_toNat (by omega), zpow_neg]
    simp only [Nat.cast_mul, cast_twoPow, hneg]
    field_simp
  · next he =>
    simp only [Nat.cast_mul, cast_twoPow, ← zpow_toNat (not_lt.mp he)]
    rw [div_div]

/-- The size of a fraction is known from the sizes of its parts, up to a factor of two. -/
theorem bounds_of_log2 {n d : Nat} (hn : n ≠ 0) (hd : d ≠ 0) :
    (2 : ℚ) ^ ((n.log2 : Int) - d.log2 - 1) < (n : ℚ) / d ∧
    (n : ℚ) / d < 2 ^ ((n.log2 : Int) - d.log2 + 1) := by
  have hn₁ : ((2 ^ n.log2 : Nat) : ℚ) ≤ n := by exact_mod_cast Nat.log2_self_le hn
  have hn₂ : (n : ℚ) < ((2 ^ (n.log2 + 1) : Nat) : ℚ) := by exact_mod_cast Nat.lt_log2_self
  have hd₁ : ((2 ^ d.log2 : Nat) : ℚ) ≤ d := by exact_mod_cast Nat.log2_self_le hd
  have hd₂ : (d : ℚ) < ((2 ^ (d.log2 + 1) : Nat) : ℚ) := by exact_mod_cast Nat.lt_log2_self
  have hdpos : (0 : ℚ) < d := by exact_mod_cast Nat.pos_of_ne_zero hd
  push_cast at hn₁ hn₂ hd₁ hd₂
  constructor
  · rw [lt_div_iff₀ hdpos, sub_sub, zpow_sub₀ two_ne_zero]
    have hpow : (2 : ℚ) ^ ((d.log2 : Int) + 1) = 2 ^ (d.log2 + 1) := by exact_mod_cast rfl
    rw [hpow, zpow_natCast, div_mul_eq_mul_div, div_lt_iff₀ (by positivity)]
    nlinarith [pow_pos (two_pos : (0 : ℚ) < 2) n.log2]
  · rw [div_lt_iff₀ hdpos, show (n.log2 : Int) - d.log2 + 1 = ((n.log2 : Int) + 1) - d.log2 by ring,
      zpow_sub₀ two_ne_zero]
    have hpow : (2 : ℚ) ^ ((n.log2 : Int) + 1) = 2 ^ (n.log2 + 1) := by exact_mod_cast rfl
    rw [hpow, zpow_natCast, div_mul_eq_mul_div, lt_div_iff₀ (by positivity)]
    nlinarith [pow_pos (two_pos : (0 : ℚ) < 2) d.log2]

/-- The parts of a fraction compare as its quotient does. -/
theorem lt_mul_iff_quotient_lt {v : Nat × Nat} (hv : 0 < v.2) (k : Nat) :
    v.1 < v.2 * k ↔ quotient v < k := by
  have hpos : (0 : ℚ) < v.2 := by exact_mod_cast hv
  rw [quotient, div_lt_iff₀ hpos, mul_comm (v.2 : Nat)]
  exact_mod_cast Iff.rfl

theorem two_zpow_pos (e : Int) : (0 : ℚ) < 2 ^ e := zpow_pos two_pos e

/-- The quotient of a fraction has fifty-three bits at a power of two, which the sizes of its parts
tell up to one. -/
theorem bounds_of_guess {n d : Nat} (hn : n ≠ 0) (hd : 0 < d) {guess g : Int}
    (hguess : guess = (n.log2 : Int) - d.log2 - 52)
    (hg : g = if (scaled n d guess).1 < (scaled n d guess).2 * twoPow 52 then guess - 1
      else guess) :
    2 ^ 52 * 2 ^ g ≤ (n : ℚ) / d ∧ (n : ℚ) / d < 2 ^ 53 * 2 ^ g := by
  obtain ⟨hlow, hhigh⟩ := bounds_of_log2 hn hd.ne'
  have h51 : (2 : ℚ) ^ ((n.log2 : Int) - d.log2 - 1) = 2 ^ 51 * 2 ^ guess := by
    rw [← zpow_natCast, ← zpow_add₀ two_ne_zero]
    congr 1
    omega
  have h53 : (2 : ℚ) ^ ((n.log2 : Int) - d.log2 + 1) = 2 ^ 53 * 2 ^ guess := by
    rw [← zpow_natCast, ← zpow_add₀ two_ne_zero]
    congr 1
    omega
  rw [h51] at hlow
  rw [h53] at hhigh
  have hcompare := lt_mul_iff_quotient_lt (scaled_pos (n := n) hd guess) (twoPow 52)
  rw [quotient_scaled, cast_twoPow, div_lt_iff₀ (two_zpow_pos guess)] at hcompare
  by_cases hsmall : (scaled n d guess).1 < (scaled n d guess).2 * twoPow 52
  · have hhalf : (2 : ℚ) ^ guess = 2 * 2 ^ (guess - 1) := by
      rw [← zpow_one_add₀ two_ne_zero]
      congr 1
      omega
    have hlt := hcompare.mp hsmall
    rw [hg, if_pos hsmall]
    rw [hhalf] at hlow hlt
    exact ⟨by linarith, by linarith⟩
  · rw [hg, if_neg hsmall]
    exact ⟨not_lt.mp fun h => hsmall (hcompare.mpr h), hhigh⟩

theorem neg_1074_le_ratioExponent (n d : Nat) : -1074 ≤ ratioExponent n d := le_max_left _ _

/-- At the exponent at which a fraction is rounded, its quotient has at most fifty-three bits. -/
theorem lt_of_ratioExponent {n d : Nat} (hn : n ≠ 0) (hd : 0 < d) :
    (n : ℚ) / d < 2 ^ 53 * 2 ^ ratioExponent n d := by
  have hmono := zpow_le_zpow_right₀ (one_le_two (α := ℚ))
    (le_max_right (-1074) (if (scaled n d ((n.log2 : Int) - d.log2 - 52)).1 <
      (scaled n d ((n.log2 : Int) - d.log2 - 52)).2 * twoPow 52
      then (n.log2 : Int) - d.log2 - 52 - 1 else (n.log2 : Int) - d.log2 - 52))
  refine (bounds_of_guess hn hd rfl rfl).2.trans_le ?_
  exact mul_le_mul_of_nonneg_left hmono (by positivity)

/-- It has exactly fifty-three bits unless the exponent is the least one. -/
theorem le_of_ratioExponent {n d : Nat} (hn : n ≠ 0) (hd : 0 < d)
    (he : ratioExponent n d ≠ -1074) : 2 ^ 52 * 2 ^ ratioExponent n d ≤ (n : ℚ) / d := by
  rcases max_choice (-1074) (if (scaled n d ((n.log2 : Int) - d.log2 - 52)).1 <
      (scaled n d ((n.log2 : Int) - d.log2 - 52)).2 * twoPow 52
      then (n.log2 : Int) - d.log2 - 52 - 1 else (n.log2 : Int) - d.log2 - 52) with h | h
  · exact absurd h he
  · have heq : ratioExponent n d = _ := h
    rw [heq]
    exact (bounds_of_guess hn hd rfl rfl).1

/-! ## Finite numbers -/

/-- A number that is neither negative nor infinite. -/
def IsFinite (x : Binary64) : Prop := x.bits.toNat < 2047 * twoPow 52

theorem isFinite_of_assemble? {q : Nat} {e : Int} (hq : q ≤ twoPow 53) {x : Binary64}
    (h : assemble? q e = some x) : x.IsFinite := by
  have h52 : twoPow 52 = 4503599627370496 := rfl
  have h53 : twoPow 53 = 9007199254740992 := rfl
  unfold assemble? at h
  rw [h53] at hq
  rw [h52, h53] at h
  have hbits (m : Nat) (hm : m < 2047 * 4503599627370496) :
      (UInt64.ofNat m).toNat < 2047 * 4503599627370496 := by
    rw [UInt64.toNat_ofNat']
    exact (Nat.mod_le _ _).trans_lt hm
  rw [IsFinite, h52]
  split at h
  · obtain rfl := Option.some.inj h
    exact hbits q (by omega)
  · simp only at h
    split at h
    · split at h
      · cases h
      · obtain rfl := Option.some.inj h
        exact hbits _ (by omega)
    · split at h
      · cases h
      · obtain rfl := Option.some.inj h
        exact hbits _ (by omega)

/-- A fraction rounds to a finite number, if to any. -/
theorem isFinite_of_ofRatio? {n d : Nat} (hd : 0 < d) {x : Binary64} (h : ofRatio? n d = some x) :
    x.IsFinite := by
  unfold ofRatio? at h
  split at h
  · cases h
    exact Nat.mul_pos (by decide) (twoPow_pos _)
  · next hn =>
    refine isFinite_of_assemble? ?_ h
    refine roundDiv_le ?_
    rw [Nat.mul_comm, lt_mul_iff_quotient_lt (scaled_pos hd _), quotient_scaled, cast_twoPow,
      div_lt_iff₀ (two_zpow_pos _)]
    exact lt_of_ratioExponent hn hd

theorem isFinite_of_ofDecimal? {cs : List Char} {x : Binary64} (h : ofDecimal? cs = some x) :
    x.IsFinite :=
  isFinite_of_ofRatio? (Nat.pow_pos (by decide)) h

/-- The parts of a finite number. -/
theorem IsFinite.parts {x : Binary64} (hx : x.IsFinite) :
    x.exponentBits < 2047 ∧ x.fractionBits < twoPow 52 ∧
      x.bits.toNat = x.exponentBits * twoPow 52 + x.fractionBits := by
  have h52 : twoPow 52 = 4503599627370496 := rfl
  have h11 : twoPow 11 = 2048 := rfl
  unfold IsFinite at hx
  unfold exponentBits fractionBits
  rw [h52] at hx ⊢
  rw [h11]
  omega

/-- A finite number is put together from its significand and its exponent. -/
theorem IsFinite.assemble? {x : Binary64} (hx : x.IsFinite) :
    assemble? x.significand x.exponent = some x := by
  obtain ⟨hexp, hfrac, hbits⟩ := hx.parts
  have h52 : twoPow 52 = 4503599627370496 := rfl
  have h53 : twoPow 53 = 9007199254740992 := rfl
  have hx64 : UInt64.ofNat x.bits.toNat = x.bits := UInt64.ofNat_toNat
  unfold Binary64.assemble? significand exponent
  rw [h52] at hfrac hbits ⊢
  rw [h53]
  by_cases h0 : x.exponentBits = 0
  · rw [if_pos h0, if_pos h0, if_pos hfrac]
    rw [h0, Nat.zero_mul, Nat.zero_add] at hbits
    rw [← hbits, hx64]
  · have hsmall : ¬ 4503599627370496 + x.fractionBits = 9007199254740992 := by omega
    rw [if_neg h0, if_neg h0, if_neg (by omega)]
    simp only [if_neg hsmall]
    rw [if_neg (by omega), Nat.add_sub_cancel_left,
      show ((x.exponentBits : Int) - 1075 + 1075).toNat = x.exponentBits by omega, ← hbits, hx64]

theorem IsFinite.significand_lt {x : Binary64} (hx : x.IsFinite) : x.significand < twoPow 53 := by
  obtain ⟨-, hfrac, -⟩ := hx.parts
  have h52 : twoPow 52 = 4503599627370496 := rfl
  have h53 : twoPow 53 = 9007199254740992 := rfl
  unfold significand
  rw [h52] at hfrac ⊢
  rw [h53]
  split <;> omega

theorem neg_1074_le_exponent (x : Binary64) : -1074 ≤ x.exponent := by
  unfold exponent
  split <;> omega

/-- Above the least exponent a number has all fifty-three bits. -/
theorem le_significand {x : Binary64} (he : x.exponent ≠ -1074) : twoPow 52 ≤ x.significand := by
  unfold exponent at he
  unfold significand
  split at he
  · exact absurd rfl he
  · next h => rw [if_neg h]; exact Nat.le_add_right _ _

/-- A power of two above the least exponent is a boundary. -/
theorem isBoundary_of_significand {x : Binary64} (hs : x.significand = twoPow 52)
    (he : x.exponent ≠ -1074) (hx : x.IsFinite) : x.isBoundary = true := by
  obtain ⟨-, hfrac, -⟩ := hx.parts
  unfold exponent at he
  unfold significand at hs
  unfold isBoundary
  split at he
  · exact absurd rfl he
  · next h =>
    rw [if_neg h] at hs
    have hzero : x.fractionBits = 0 := by omega
    have hone : x.exponentBits > 1 := by omega
    simp [hzero, hone]

/-! ## The interval of a number -/

theorem dyadic_pos (n : Nat) (e : Int) : 0 < (dyadic n e).2 := by
  unfold dyadic
  split
  · exact twoPow_pos _
  · exact Nat.one_pos

theorem quotient_dyadic (n : Nat) (e : Int) : quotient (dyadic n e) = n * 2 ^ e := by
  unfold dyadic quotient
  split
  · next he =>
    rw [cast_twoPow, ← zpow_toNat (by omega), zpow_neg, div_inv_eq_mul]
  · next he =>
    rw [Nat.cast_mul, cast_twoPow, ← zpow_toNat (not_lt.mp he), Nat.cast_one, div_one]

theorem below_iff {a b : Nat × Nat} (ha : 0 < a.2) (hb : 0 < b.2) (closed : Bool) :
    below closed a b = true ↔
      if closed then quotient a ≤ quotient b else quotient a < quotient b := by
  have ha' : (0 : ℚ) < a.2 := by exact_mod_cast ha
  have hb' : (0 : ℚ) < b.2 := by exact_mod_cast hb
  unfold below quotient
  cases closed
  · simp only [Bool.false_eq_true, if_false, decide_eq_true_eq]
    rw [div_lt_div_iff₀ ha' hb']
    exact_mod_cast Iff.rfl
  · simp only [if_true, decide_eq_true_eq]
    rw [div_le_div_iff₀ ha' hb']
    exact_mod_cast Iff.rfl

/-- A value of the interval of a number, by its distance from the number in units of the last bit:
half a unit at most, but a quarter below a boundary, and less unless the number is even. -/
structure Near (x : Binary64) (v : ℚ) : Prop where
  low : (x.significand - (if x.isBoundary then 1 / 4 else 1 / 2)) * 2 ^ x.exponent ≤ v
  high : v ≤ (x.significand + 1 / 2) * 2 ^ x.exponent
  low_even : v = (x.significand - (if x.isBoundary then 1 / 4 else 1 / 2)) * 2 ^ x.exponent →
    x.significand % 2 = 0
  high_even : v = (x.significand + 1 / 2) * 2 ^ x.exponent → x.significand % 2 = 0

theorem quarter_exponent (x : Binary64) : (2 : ℚ) ^ (x.exponent - 2) = 2 ^ x.exponent / 4 := by
  rw [zpow_sub₀ two_ne_zero]
  norm_num

/-- The interval of a number holds the values near it. -/
theorem near_iff {x : Binary64} (hs : x.significand ≠ 0) {v : Nat × Nat} (hv : 0 < v.2) :
    x.interval.contains v = true ↔ x.Near (quotient v) := by
  have hlow : quotient x.interval.low =
      (x.significand - (if x.isBoundary then 1 / 4 else 1 / 2)) * 2 ^ x.exponent := by
    simp only [interval, quotient_dyadic, quarter_exponent]
    split
    · rw [Nat.cast_sub (by omega)]
      push_cast
      ring
    · rw [Nat.cast_sub (by omega)]
      push_cast
      ring
  have hhigh : quotient x.interval.high = (x.significand + 1 / 2) * 2 ^ x.exponent := by
    simp only [interval, quotient_dyadic, quarter_exponent]
    push_cast
    ring
  have hclosed : x.interval.closed = true ↔ x.significand % 2 = 0 := by
    simp [interval]
  have hlow_pos : 0 < x.interval.low.2 := dyadic_pos _ _
  have hhigh_pos : 0 < x.interval.high.2 := dyadic_pos _ _
  unfold Interval.contains
  rw [Bool.and_eq_true, below_iff hlow_pos hv, below_iff hv hhigh_pos, hlow, hhigh]
  by_cases heven : x.significand % 2 = 0
  · rw [hclosed.mpr heven, if_pos rfl, if_pos rfl]
    exact ⟨fun h => ⟨h.1, h.2, fun _ => heven, fun _ => heven⟩, fun h => ⟨h.low, h.high⟩⟩
  · rw [if_neg (fun h => heven (hclosed.mp h)), if_neg (fun h => heven (hclosed.mp h))]
    constructor
    · exact fun h => ⟨h.1.le, h.2.le, fun heq => absurd heq h.1.ne', fun heq => absurd heq h.2.ne⟩
    · exact fun h => ⟨lt_of_le_of_ne h.low fun heq => heven (h.low_even heq.symm),
        lt_of_le_of_ne h.high fun heq => heven (h.high_even heq)⟩

/-- A fraction rounds to an integer it is half a unit away from at most, and less unless the integer
is even. -/
theorem roundDiv_of_quotient {v : Nat × Nat} (hv : 0 < v.2) {q : Nat}
    (hlow : (q : ℚ) - 1 / 2 ≤ quotient v) (hhigh : quotient v ≤ q + 1 / 2)
    (htie : quotient v = q - 1 / 2 ∨ quotient v = q + 1 / 2 → q % 2 = 0) :
    roundDiv v.1 v.2 = q := by
  have hpos : (0 : ℚ) < v.2 := by exact_mod_cast hv
  have hmul : quotient v * v.2 = v.1 := div_mul_cancel₀ _ hpos.ne'
  refine roundDiv_eq ?_ ?_ ?_ hv
  · have h : (2 * q * v.2 : ℚ) ≤ 2 * v.1 + v.2 := by
      rw [← hmul]
      nlinarith
    exact_mod_cast h
  · have h : (2 * v.1 : ℚ) ≤ 2 * q * v.2 + v.2 := by
      rw [← hmul]
      nlinarith
    exact_mod_cast h
  · intro h
    refine htie (h.imp (fun h => ?_) fun h => ?_)
    · have h' : (2 * q * v.2 : ℚ) = 2 * v.1 + v.2 := by exact_mod_cast h
      rw [quotient, div_eq_iff hpos.ne']
      linarith
    · have h' : (2 * v.1 : ℚ) = 2 * q * v.2 + v.2 := by exact_mod_cast h
      rw [quotient, div_eq_iff hpos.ne']
      linarith

/-- Every value of the interval of a number is positive. -/
theorem Near.pos {x : Binary64} {v : ℚ} (h : x.Near v) (hs : x.significand ≠ 0) : 0 < v := by
  have hunit := two_zpow_pos x.exponent
  have hone : (1 : ℚ) ≤ x.significand := by exact_mod_cast Nat.pos_of_ne_zero hs
  refine lt_of_lt_of_le (mul_pos ?_ hunit) h.low
  split <;> linarith

/-- **Every value of the interval of a number rounds to it.** -/
theorem ofRatio?_of_near {x : Binary64} (hx : x.IsFinite) (hs : x.significand ≠ 0) {n d : Nat}
    (hd : 0 < d) (hnear : x.Near (quotient (n, d))) : ofRatio? n d = some x := by
  have hn : n ≠ 0 := by
    rintro rfl
    simpa [quotient] using hnear.pos hs
  have hunit := two_zpow_pos x.exponent
  have hupper := lt_of_ratioExponent hn hd
  have hlower := le_of_ratioExponent hn hd
  have hleast := neg_1074_le_ratioExponent n d
  have hsig : (x.significand : ℚ) + 1 ≤ 2 ^ 53 := by
    have h := hx.significand_lt
    rw [← cast_twoPow]
    exact_mod_cast h
  have hlow := hnear.low
  have hhigh := hnear.high
  have hq (e : Int) : quotient (scaled n d e) = quotient (n, d) / 2 ^ e := quotient_scaled n d e
  unfold ofRatio?
  rw [if_neg hn]
  simp only
  generalize ratioExponent n d = e at hupper hlower hleast
  change quotient (n, d) < 2 ^ 53 * 2 ^ e at hupper
  replace hlower : e ≠ -1074 → 2 ^ 52 * 2 ^ e ≤ quotient (n, d) := hlower
  rcases lt_trichotomy e x.exponent with he | rfl | he
  · -- the value lies just below a power of two, and is rounded up to it
    have hexp : x.exponent ≠ -1074 := by omega
    have hsig₂ : (2 : ℚ) ^ 52 ≤ x.significand := by
      rw [← cast_twoPow]
      exact_mod_cast le_significand hexp
    have hmono : (2 : ℚ) ^ e ≤ 2 ^ (x.exponent - 1) := zpow_le_zpow_right₀ one_le_two (by omega)
    have hhalf : (2 : ℚ) ^ (x.exponent - 1) = 2 ^ x.exponent / 2 := by
      rw [zpow_sub_one₀ two_ne_zero]
      rfl
    have hsmall : (x.significand : ℚ) < 2 ^ 52 + 1 := by
      by_contra hbig
      have hcut : (x.significand - (1 / 2 : ℚ)) * 2 ^ x.exponent ≤ quotient (n, d) := by
        refine le_trans (mul_le_mul_of_nonneg_right ?_ hunit.le) hlow
        split <;> linarith
      nlinarith
    have hpower : x.significand = twoPow 52 := by
      have h₁ : ((twoPow 52 : Nat) : ℚ) ≤ x.significand := by rwa [cast_twoPow]
      have h₂ : (x.significand : ℚ) < ((twoPow 52 + 1 : Nat) : ℚ) := by
        push_cast
        rwa [cast_twoPow]
      have h₁' : twoPow 52 ≤ x.significand := by exact_mod_cast h₁
      have h₂' : x.significand < twoPow 52 + 1 := by exact_mod_cast h₂
      omega
    have hcast : (x.significand : ℚ) = 2 ^ 52 := by rw [hpower, cast_twoPow]
    rw [isBoundary_of_significand hpower hexp hx, if_pos rfl, hcast] at hlow
    have hnext : e = x.exponent - 1 := by
      by_contra hne
      have hmono₂ : (2 : ℚ) ^ e ≤ 2 ^ (x.exponent - 2) :=
        zpow_le_zpow_right₀ one_le_two (by omega)
      rw [quarter_exponent] at hmono₂
      linarith
    have hround : roundDiv (scaled n d e).1 (scaled n d e).2 = twoPow 53 := by
      refine roundDiv_of_quotient (scaled_pos hd e) ?_ ?_ fun _ => rfl
      · rw [hq, le_div_iff₀ (two_zpow_pos e), cast_twoPow, hnext, hhalf]
        linarith
      · rw [hq, div_le_iff₀ (two_zpow_pos e), cast_twoPow]
        linarith [two_zpow_pos e]
    have hsame := hx.assemble?
    rw [hround, hnext]
    rw [hpower] at hsame
    have hcarry : Binary64.assemble? (twoPow 53) (x.exponent - 1) =
        Binary64.assemble? (twoPow 52) x.exponent := by
      unfold Binary64.assemble?
      have h₁ : ¬ twoPow 53 < twoPow 52 := by decide
      have h₂ : ¬ twoPow 52 = twoPow 53 := by decide
      simp only [if_neg h₁, if_neg (lt_irrefl (twoPow 52)), if_neg h₂, if_true, sub_add_cancel]
    rw [hcarry, hsame]
  · -- the value is rounded at the exponent of the number
    have hround : roundDiv (scaled n d x.exponent).1 (scaled n d x.exponent).2 = x.significand := by
      have hcut : (x.significand - (1 / 2 : ℚ)) * 2 ^ x.exponent ≤
          (x.significand - (if x.isBoundary then 1 / 4 else 1 / 2)) * 2 ^ x.exponent := by
        refine mul_le_mul_of_nonneg_right ?_ hunit.le
        split <;> linarith
      refine roundDiv_of_quotient (scaled_pos hd _) ?_ ?_ ?_
      · rw [hq, le_div_iff₀ hunit]
        exact hcut.trans hlow
      · rw [hq, div_le_iff₀ hunit]
        exact hhigh
      · rw [hq, div_eq_iff hunit.ne', div_eq_iff hunit.ne']
        rintro (heq | heq)
        · exact hnear.low_even (le_antisymm (heq ▸ hcut) hlow)
        · exact hnear.high_even heq
    rw [hround]
    exact hx.assemble?
  · -- the value would be too large
    exfalso
    have hbig := hlower (by have := neg_1074_le_exponent x; omega)
    have hmono : (2 : ℚ) ^ (x.exponent + 1) ≤ 2 ^ e := zpow_le_zpow_right₀ one_le_two (by omega)
    have hdouble : (2 : ℚ) ^ (x.exponent + 1) = 2 ^ x.exponent * 2 := zpow_add_one₀ two_ne_zero _
    nlinarith

end Binary64

end Toolchain
