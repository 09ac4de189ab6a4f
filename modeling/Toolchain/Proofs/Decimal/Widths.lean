import Mathlib.Tactic.Common
import Mathlib.Tactic.Linarith
import Mathlib.Tactic.Ring
import Toolchain.Decimal.Widths

/-!
# Shorter floating point numbers

A number that is written in a shorter format is read back from it bit for bit.

## Main results

* `BinaryFormat.widen_of_narrow?`: **the shorter bits of a number have its value**
-/

namespace Toolchain

/-- The parts of a number, its sign included. -/
theorem Binary64.bits_eq_compose (x : Binary64) :
    x.bits.toNat = BinaryFormat.double.compose x.isNegative x.exponentBits x.fractionBits := by
  have h11 : twoPow 11 = 2048 := rfl
  have h52 : twoPow 52 = 4503599627370496 := rfl
  have h63 : twoPow 63 = 9223372036854775808 := rfl
  have hlt : x.bits.toNat < 18446744073709551616 := x.bits.toNat_lt
  unfold BinaryFormat.compose Binary64.isNegative Binary64.exponentBits Binary64.fractionBits
  rw [show BinaryFormat.double.exponentWidth + BinaryFormat.double.fractionWidth = 63 from rfl,
    show BinaryFormat.double.fractionWidth = 52 from rfl, h11, h52, h63]
  split
  next h =>
    have hsign := of_decide_eq_true h
    omega
  next h =>
    have hsign : ¬ x.bits.toNat / 9223372036854775808 = 1 := fun hs => h (decide_eq_true hs)
    omega

namespace BinaryFormat

theorem twoPow_add (m n : Nat) : twoPow (m + n) = twoPow m * twoPow n := Nat.pow_add 2 m n

theorem twoPow_pos' (n : Nat) : 0 < twoPow n := Nat.pow_pos (by decide)

/-- A format that loses nothing when it is widened. -/
structure Shorter (f : BinaryFormat) : Prop where
  width : 0 < f.exponentWidth
  fraction : f.fractionWidth ≤ 52
  range : f.bias + f.fractionWidth ≤ 1000

theorem shorter_half : half.Shorter := ⟨by decide, by decide, by decide⟩

theorem shorter_single : single.Shorter := ⟨by decide, by decide, by decide⟩

variable {f : BinaryFormat}

theorem Shorter.special_eq (hf : f.Shorter) : f.special = 2 * f.bias + 1 := by
  obtain ⟨w, hw⟩ := Nat.exists_eq_succ_of_ne_zero (Nat.ne_of_gt hf.width)
  have hpos := twoPow_pos' w
  unfold special bias
  rw [hw, Nat.succ_sub_one, show twoPow w.succ = twoPow w * 2 from twoPow_add w 1]
  omega

theorem special_lt (f : BinaryFormat) : f.special < twoPow f.exponentWidth :=
  Nat.sub_lt (twoPow_pos' _) Nat.one_pos

/-! ## The parts of bits -/

section Parts

variable {e m : Nat} (he : e < twoPow f.exponentWidth) (hm : m < twoPow f.fractionWidth)
  (negative : Bool)

include he hm

theorem magnitude_lt :
    e * twoPow f.fractionWidth + m < twoPow (f.exponentWidth + f.fractionWidth) := by
  rw [twoPow_add]
  calc e * twoPow f.fractionWidth + m
      < e * twoPow f.fractionWidth + twoPow f.fractionWidth := Nat.add_lt_add_left hm _
    _ = (e + 1) * twoPow f.fractionWidth := by ring
    _ ≤ twoPow f.exponentWidth * twoPow f.fractionWidth := Nat.mul_le_mul_right _ he

theorem compose_lt :
    f.compose negative e m < twoPow (f.exponentWidth + f.fractionWidth + 1) := by
  have hlt := magnitude_lt he hm
  rw [twoPow_add _ 1, show twoPow 1 = 2 from rfl]
  unfold compose
  split <;> omega

/-- The parts of composed bits are read back. -/
theorem parts_compose :
    decide (f.compose negative e m / twoPow (f.exponentWidth + f.fractionWidth) % 2 = 1) =
      negative ∧
      f.compose negative e m / twoPow f.fractionWidth % twoPow f.exponentWidth = e ∧
      f.compose negative e m % twoPow f.fractionWidth = m := by
  have hlt := magnitude_lt he hm
  have hsign : f.compose negative e m =
      twoPow (f.exponentWidth + f.fractionWidth) * negative.toNat +
        (e * twoPow f.fractionWidth + m) := by
    unfold compose
    cases negative <;> simp [Nat.add_assoc]
  have hparts : f.compose negative e m =
      twoPow f.fractionWidth * (twoPow f.exponentWidth * negative.toNat + e) + m := by
    rw [hsign, twoPow_add]
    ring
  refine ⟨?_, ?_, ?_⟩
  · rw [hsign, Nat.mul_add_div (twoPow_pos' _), Nat.div_eq_of_lt hlt]
    cases negative <;> rfl
  · rw [hparts, Nat.mul_add_div (twoPow_pos' _), Nat.div_eq_of_lt hm, Nat.add_zero, Nat.mul_add_mod,
      Nat.mod_eq_of_lt he]
  · rw [hparts, Nat.mul_add_mod, Nat.mod_eq_of_lt hm]

end Parts

/-- The number that composed bits stand for. -/
theorem widen_compose {e m : Nat} (he : e < twoPow f.exponentWidth)
    (hm : m < twoPow f.fractionWidth)
    (negative : Bool) :
    f.widen (f.compose negative e m) =
      ⟨UInt64.ofNat <|
        if e = f.special then
          double.compose negative 2047
            (if m = 0 then 0 else twoPow 51 + m * twoPow (52 - f.fractionWidth) % twoPow 51)
        else if e = 0 then exactBits negative m (1 - f.bias - f.fractionWidth)
        else exactBits negative (twoPow f.fractionWidth + m) (e - f.bias - f.fractionWidth)⟩ := by
  obtain ⟨hn, he', hm'⟩ := parts_compose he hm negative
  unfold widen
  simp only [hn, he', hm']

/-! ## Numbers that are read back -/

/-- A normal number is what its bits say, however many of them are left out behind it. -/
theorem exactBits_shifted {m s : Nat} {e : Int} {eb fb : Nat} (negative : Bool)
    (hfb : fb < twoPow 52) (hs : s ≤ 52) (hm : m * twoPow s = twoPow 52 + fb)
    (he : e + 1075 = eb + s) : exactBits negative m e = double.compose negative eb fb := by
  have h52 : twoPow 52 = twoPow (52 - s) * twoPow s := by
    rw [← twoPow_add, Nat.sub_add_cancel hs]
  have hpos := twoPow_pos' s
  have hlow : twoPow (52 - s) ≤ m := by
    refine Nat.le_of_mul_le_mul_right ?_ hpos
    rw [hm, ← h52]
    exact Nat.le_add_right _ _
  have hhigh : m < twoPow (52 - s + 1) := by
    refine Nat.lt_of_mul_lt_mul_right (a := twoPow s) ?_
    rw [hm, twoPow_add (52 - s) 1, Nat.mul_right_comm, ← h52, show twoPow 1 = 2 from rfl]
    omega
  have hne : m ≠ 0 := Nat.ne_of_gt ((twoPow_pos' _).trans_le hlow)
  have hlog : m.log2 = 52 - s := (Nat.log2_eq_iff hne).mpr ⟨hlow, hhigh⟩
  unfold exactBits
  rw [if_neg hne, hlog]
  simp only
  rw [show 52 - (52 - s) = s by omega, hm, Nat.add_sub_cancel_left,
    show (e + ((52 - s : Nat) : Int) + 1023).toNat = eb by omega]

theorem exactShift?_negative {m q s : Nat} {shift : Int} (hs : shift = -(s : Int))
    (h : exactShift? m shift = some q) : q * twoPow s = m := by
  subst hs
  unfold exactShift? at h
  by_cases h0 : s = 0
  · subst h0
    simp only [Int.natCast_zero, Int.neg_zero, Int.le_refl, if_true, Int.toNat_zero,
      Option.some.injEq] at h
    rw [← h, show twoPow 0 = 1 from rfl, Nat.mul_one, Nat.mul_one]
  · rw [if_neg (by omega), Int.neg_neg, Int.toNat_natCast] at h
    split at h
    · next hmod =>
      rw [← Option.some.inj h]
      exact Nat.div_mul_cancel (Nat.dvd_of_mod_eq_zero hmod)
    · cases h

/-- A number below the normal ones has no shorter form. -/
theorem exactShift?_subnormal {m : Nat} {shift : Int} (hm : m ≠ 0) (hlt : m < twoPow 52)
    (hs : shift ≤ -52) : exactShift? m shift = none := by
  unfold exactShift?
  rw [if_neg (by omega), if_neg]
  have hle : twoPow 52 ≤ twoPow (-shift).toNat := Nat.pow_le_pow_right (by decide) (by omega)
  rwa [Nat.mod_eq_of_lt (hlt.trans_le hle)]

/-- **The shorter bits of a number have its value.** They fit into the width of the format, and
widened they are the number again, bit for bit. -/
theorem widen_of_narrow? (hf : f.Shorter) {x : Binary64} {bits : Nat}
    (h : f.narrow? x = some bits) :
    bits < twoPow (f.exponentWidth + f.fractionWidth + 1) ∧ f.widen bits = x := by
  have h52 : twoPow 52 = 4503599627370496 := rfl
  have hfb : x.fractionBits < twoPow 52 := Nat.mod_lt _ (twoPow_pos' _)
  have hspecial := hf.special_eq
  have hspecial_lt := f.special_lt
  have hfraction := hf.fraction
  have hrange := hf.range
  have hpos := twoPow_pos' f.fractionWidth
  -- bits that are read as the bits of the number
  have hread {e m : Nat} (he : e < twoPow f.exponentWidth) (hm : m < twoPow f.fractionWidth)
      (hbits : (if e = f.special then
          double.compose x.isNegative 2047
            (if m = 0 then 0 else twoPow 51 + m * twoPow (52 - f.fractionWidth) % twoPow 51)
        else if e = 0 then exactBits x.isNegative m (1 - f.bias - f.fractionWidth)
        else exactBits x.isNegative (twoPow f.fractionWidth + m) (e - f.bias - f.fractionWidth)) =
          double.compose x.isNegative x.exponentBits x.fractionBits) :
      f.compose x.isNegative e m < twoPow (f.exponentWidth + f.fractionWidth + 1) ∧
        f.widen (f.compose x.isNegative e m) = x := by
    refine ⟨compose_lt he hm _, ?_⟩
    rw [widen_compose he hm, hbits, ← x.bits_eq_compose, UInt64.ofNat_toNat]
  unfold narrow? at h
  by_cases hnan : x.isNaN = true
  · rw [if_pos hnan] at h
    cases h
  rw [if_neg hnan] at h
  by_cases hinf : x.isInfinite = true
  · rw [if_pos hinf] at h
    obtain rfl := Option.some.inj h
    obtain ⟨hexp, hfrac⟩ := Bool.and_eq_true_iff.mp hinf
    refine hread hspecial_lt hpos ?_
    rw [if_pos rfl, if_pos rfl, of_decide_eq_true hexp, of_decide_eq_true hfrac]
  rw [if_neg hinf] at h
  have hexp_lt : x.exponentBits < 2047 := by
    have hlt : x.exponentBits < 2048 := Nat.mod_lt _ (by decide)
    by_contra hge
    have heq : x.exponentBits = 2047 := by omega
    by_cases hzero : x.fractionBits = 0
    · exact hinf (by simp [Binary64.isInfinite, heq, hzero])
    · exact hnan (by simp [Binary64.isNaN, heq, hzero])
  by_cases hzero : x.significand = 0
  · rw [if_pos hzero] at h
    obtain rfl := Option.some.inj h
    have hparts : x.exponentBits = 0 ∧ x.fractionBits = 0 := by
      unfold Binary64.significand at hzero
      split at hzero <;> omega
    refine hread (twoPow_pos' _) hpos ?_
    rw [if_neg (by omega), if_pos rfl, hparts.1, hparts.2]
    rfl
  rw [if_neg hzero] at h
  by_cases hbig : (f.bias : Int) < max (x.exponent + x.significand.log2) (1 - f.bias)
  · rw [if_pos hbig] at h
    cases h
  rw [if_neg hbig] at h
  obtain ⟨q, hq, rfl⟩ := Option.map_eq_some_iff.mp h
  have hnormal : x.exponentBits ≠ 0 := by
    intro h0
    have hsig : x.significand = x.fractionBits := if_pos h0
    have hexp : x.exponent = -1074 := if_pos h0
    rw [hexp, exactShift?_subnormal hzero (hsig ▸ hfb) (by omega)] at hq
    cases hq
  have hsig : x.significand = twoPow 52 + x.fractionBits := if_neg hnormal
  have hexp : x.exponent = (x.exponentBits : Int) - 1075 := if_neg hnormal
  have hlog : x.significand.log2 = 52 :=
    (Nat.log2_eq_iff hzero).mpr ⟨by rw [hsig]; exact Nat.le_add_right _ _, by
      rw [hsig, show (2 : Nat) ^ (52 + 1) = twoPow 52 + twoPow 52 from rfl]
      omega⟩
  rw [hlog, hexp] at hq hbig ⊢
  by_cases hleast : (x.exponentBits : Int) - 1023 < 1 - f.bias
  · -- the shorter number is below the normal ones
    have hmax : max ((x.exponentBits : Int) - 1075 + (52 : Nat)) (1 - f.bias) =
      1 - f.bias := by omega
    rw [hmax] at hq hbig ⊢
    obtain ⟨s, hs⟩ :
        ∃ s : Nat, (x.exponentBits : Int) - 1075 - (1 - f.bias) + f.fractionWidth = -s :=
      ⟨(-((x.exponentBits : Int) - 1075 - (1 - f.bias) + f.fractionWidth)).toNat, by omega⟩
    have hshift := exactShift?_negative hs hq
    have hs52 : 52 < f.fractionWidth + s := by omega
    have hlt : q < twoPow f.fractionWidth := by
      refine Nat.lt_of_mul_lt_mul_right (a := twoPow s) ?_
      rw [hshift, hsig, ← twoPow_add]
      refine Nat.lt_of_lt_of_le ?_ (Nat.pow_le_pow_right (by decide) hs52)
      rw [show 2 ^ Nat.succ 52 = twoPow 52 + twoPow 52 from rfl]
      omega
    have hs_le : s ≤ 52 := by
      by_contra hgt
      have hle : twoPow 53 ≤ twoPow s := Nat.pow_le_pow_right (by decide) (by omega)
      have hq0 : q ≠ 0 := by
        rintro rfl
        rw [Nat.zero_mul] at hshift
        exact hzero hshift.symm
      have hge : twoPow s ≤ q * twoPow s := Nat.le_mul_of_pos_left _ (Nat.pos_of_ne_zero hq0)
      rw [hshift, hsig] at hge
      have h53 : twoPow 53 = twoPow 52 + twoPow 52 := rfl
      omega
    rw [if_pos hlt]
    refine hread (twoPow_pos' _) hlt ?_
    rw [if_neg (by omega), if_pos rfl]
    exact exactBits_shifted _ hfb hs_le (hshift.trans hsig) (by omega)
  · -- the shorter number is normal
    have hmax : max ((x.exponentBits : Int) - 1075 + (52 : Nat)) (1 - f.bias) =
        x.exponentBits - 1023 := by omega
    rw [hmax] at hq hbig ⊢
    have hs : (x.exponentBits : Int) - 1075 - (x.exponentBits - 1023) + f.fractionWidth =
        -((52 - f.fractionWidth : Nat) : Int) := by omega
    have hshift := exactShift?_negative hs hq
    have h52' : twoPow 52 = twoPow f.fractionWidth * twoPow (52 - f.fractionWidth) := by
      rw [← twoPow_add, Nat.add_sub_cancel' hfraction]
    have hge : twoPow f.fractionWidth ≤ q := by
      refine Nat.le_of_mul_le_mul_right ?_ (twoPow_pos' (52 - f.fractionWidth))
      rw [hshift, hsig, ← h52']
      exact Nat.le_add_right _ _
    have hlt : q < twoPow f.fractionWidth + twoPow f.fractionWidth := by
      refine Nat.lt_of_mul_lt_mul_right (a := twoPow (52 - f.fractionWidth)) ?_
      rw [hshift, hsig, Nat.add_mul, ← h52']
      exact Nat.add_lt_add_left hfb _
    rw [if_neg (by omega)]
    have hfield : ((x.exponentBits : Int) - 1023 + f.bias).toNat <
      twoPow f.exponentWidth := by omega
    refine hread hfield (by omega) ?_
    rw [if_neg (by omega), if_neg (by omega), Nat.add_sub_cancel' hge]
    exact exactBits_shifted _ hfb (Nat.sub_le _ _) (hshift.trans hsig) (by omega)

end BinaryFormat

end Toolchain
