import GraphCopy.Proofs.Number.FloatText

/-!
# Narrowing is done once

A number that was rounded to the shorter format stays as it is when it is
rounded to it again. Such a number is a significand of at most 24 bits on a grid
that is not too fine and not too coarse, and the longer format has it exactly.
Rounding looks at the value of a magnitude only, so it does not matter on which
of the grids that hold the number it is written.
-/

namespace GraphCopy

section Scaling

variable {m n k : Nat} {q t : Int}

theorem bitLength_le_iff : bitLength m ≤ k ↔ m < 2 ^ k := by
  unfold bitLength
  by_cases hm : m = 0
  · simp [hm]
  · rw [if_neg hm, Nat.add_one_le_iff, Nat.log2_lt hm]

theorem bitLength_mul_pow (hm : 0 < m) (k : Nat) : bitLength (m * 2 ^ k) = bitLength m + k := by
  refine eq_of_forall_ge_iff fun j => ?_
  by_cases hj : k ≤ j
  · obtain ⟨i, rfl⟩ := Nat.exists_eq_add_of_le' hj
    rw [bitLength_le_iff, Nat.add_le_add_iff_right, bitLength_le_iff, Nat.pow_add,
      Nat.mul_lt_mul_right (by positivity)]
  · have hlarge : 2 ^ j ≤ m * 2 ^ k :=
      (Nat.pow_le_pow_right (by omega) (by omega)).trans (Nat.le_mul_of_pos_left _ hm)
    rw [bitLength_le_iff]
    omega

theorem divHalfEven_mul_right (hk : 0 < k) (m n : Nat) :
    divHalfEven (m * k) (n * k) = divHalfEven m n := by
  have hdouble : 2 * (m % n * k) = 2 * (m % n) * k := (Nat.mul_assoc ..).symm
  simp only [divHalfEven, Nat.mul_div_mul_right _ _ hk, Nat.mul_mod_mul_right, hdouble,
    Nat.mul_lt_mul_right hk]

theorem divHalfEven_mul_self (hn : 0 < n) (m : Nat) : divHalfEven (m * n) n = m := by
  have h := divHalfEven_mul_right hn m 1
  rwa [Nat.one_mul, divHalfEven_one] at h

theorem divHalfEven_le (h : m < k * n) : divHalfEven m n ≤ k := by
  have hq : m / n < k := Nat.div_lt_of_lt_mul (by rwa [Nat.mul_comm])
  unfold divHalfEven
  dsimp only
  split
  · omega
  · split
    · omega
    · split <;> omega

theorem scale2_mul_pow (m k : Nat) (q t : Int) : scale2 (m * 2 ^ k) q t = scale2 m (q + k) t := by
  unfold scale2
  simp only [Nat.pow_eq]
  by_cases hfine : t ≤ q
  · rw [if_pos hfine, if_pos (by omega), Nat.mul_assoc, ← Nat.pow_add]
    congr 2
    omega
  · rw [if_neg hfine]
    by_cases hmid : t ≤ q + k
    · have hk : k = (q + k - t).toNat + (t - q).toNat := by omega
      rw [if_pos hmid]
      nth_rewrite 1 [hk]
      rw [Nat.pow_add, ← Nat.mul_assoc, divHalfEven_mul_self (by positivity)]
    · have ht : (t - q).toNat = (t - (q + k)).toNat + k := by omega
      rw [if_neg hmid, ht, Nat.pow_add, divHalfEven_mul_right (by positivity)]

theorem scale2_add (m k : Nat) (t : Int) : scale2 m (t + k) t = m * 2 ^ k := by
  rw [← scale2_mul_pow, scale2_self]

theorem scale2_zero (q t : Int) : scale2 0 q t = 0 := by
  unfold scale2
  split
  · exact Nat.zero_mul _
  · simp [divHalfEven]

theorem scale2_le (h : q + bitLength m ≤ t + k) : scale2 m q t ≤ 2 ^ k := by
  unfold scale2
  simp only [Nat.pow_eq]
  split
  · have hm : m ≤ 2 ^ bitLength m := (bitLength_le_iff.mp le_rfl).le
    calc m * 2 ^ (q - t).toNat ≤ 2 ^ bitLength m * 2 ^ (q - t).toNat := Nat.mul_le_mul_right _ hm
      _ = 2 ^ (bitLength m + (q - t).toNat) := (Nat.pow_add ..).symm
      _ ≤ 2 ^ k := Nat.pow_le_pow_right (by omega) (by omega)
  · refine divHalfEven_le ?_
    rw [← Nat.pow_add]
    exact bitLength_le_iff.mp (by omega)

end Scaling

namespace Binary64

variable {neg : Bool} {b f m : Nat} {q : Int}

theorem toNat_ofParts (neg : Bool) (hb : b < exponentSpan) (hf : f < fractionSpan) :
    (ofParts neg b f).bits.toNat = (if neg then 2 ^ 63 else 0) + b * fractionSpan + f := by
  rw [ofParts, UInt64.toNat_ofNat']
  refine Nat.mod_eq_of_lt ?_
  simp only [exponentSpan, fractionSpan, Nat.pow_eq] at *
  split <;> omega

theorem negative_ofParts (neg : Bool) (hb : b < exponentSpan) (hf : f < fractionSpan) :
    (ofParts neg b f).negative = neg := by
  rw [negative, toNat_ofParts neg hb hf]
  simp only [exponentSpan, fractionSpan, Nat.pow_eq] at *
  cases neg
  · exact decide_eq_false (by simp only [Bool.false_eq_true, if_false]; omega)
  · exact decide_eq_true (by simp only [if_true]; omega)

theorem biasedExponent_ofParts (neg : Bool) (hb : b < exponentSpan) (hf : f < fractionSpan) :
    (ofParts neg b f).biasedExponent = b := by
  rw [biasedExponent, toNat_ofParts neg hb hf]
  simp only [exponentSpan, fractionSpan, Nat.pow_eq] at *
  split <;> omega

theorem fraction_ofParts (neg : Bool) (hb : b < exponentSpan) (hf : f < fractionSpan) :
    (ofParts neg b f).fraction = f := by
  rw [fraction, toNat_ofParts neg hb hf]
  simp only [exponentSpan, fractionSpan, Nat.pow_eq] at *
  split <;> omega

structure Finite (x : Binary64) (neg : Bool) (m : Nat) (q : Int) : Prop where
  negative : x.negative = neg
  significand : x.significand = m
  exponent : x.exponent = q
  notNaN : x.isNaN = false
  notInfinite : x.isInfinite = false

theorem finite_ofParts (neg : Bool) (hb : b < 2047) (hf : f < fractionSpan) :
    Finite (ofParts neg b f) neg (if b = 0 then f else f + fractionSpan)
      (if b = 0 then -1074 else (b : Int) - 1075) := by
  have hspan : b < exponentSpan := hb.trans (by decide)
  have hne : b ≠ 2047 := by omega
  constructor
  · exact negative_ofParts neg hspan hf
  · rw [significand, biasedExponent_ofParts neg hspan hf, fraction_ofParts neg hspan hf]
  · rw [exponent, biasedExponent_ofParts neg hspan hf]
  · simp [isNaN, biasedExponent_ofParts neg hspan hf, hne]
  · simp [isInfinite, biasedExponent_ofParts neg hspan hf, hne]

theorem finite_ofGrid (neg : Bool) (h : OnGrid m q) (hq : q ≤ 971) :
    Finite (ofGrid neg m q) neg m q := by
  have hspan : fractionSpan = 2 ^ 52 := rfl
  have hlt := h.lt
  have hleast := h.least
  unfold ofGrid
  split
  · next hsub =>
    have hq : q = -1074 := h.normal.resolve_left (by omega)
    have hfinite := finite_ofParts neg (b := 0) (by omega) hsub
    rwa [if_pos rfl, if_pos rfl, ← hq] at hfinite
  · next hnormal =>
    have hfinite := finite_ofParts neg (b := (q + 1075).toNat) (f := m - fractionSpan) (by omega)
      (by omega)
    have hm : m - fractionSpan + fractionSpan = m := by omega
    have hq' : ((q + 1075).toNat : Int) - 1075 = q := by omega
    rw [if_neg (by omega), if_neg (by omega), hm, hq'] at hfinite
    simpa only [show ¬ 2047 ≤ (q + 1075).toNat by omega, if_false] using hfinite

theorem ofScaled_zero (neg : Bool) (q : Int) : ofScaled neg 0 q = ofParts neg 0 0 := by
  rw [ofScaled]
  simp only [scale2_zero]
  rfl

/-- Writing the same magnitude on a finer grid makes the same number. -/
theorem ofScaled_mul_pow (neg : Bool) (m k : Nat) (q : Int) :
    ofScaled neg (m * 2 ^ k) q = ofScaled neg m (q + k) := by
  rcases Nat.eq_zero_or_pos m with rfl | hm
  · rw [Nat.zero_mul, ofScaled_zero, ofScaled_zero]
  · have hlength : q + bitLength (m * 2 ^ k) = q + k + bitLength m := by
      rw [bitLength_mul_pow hm]
      push_cast
      ring
    simp only [ofScaled, hlength, scale2_mul_pow]

/-- A magnitude that fits is not rounded. -/
theorem finite_ofScaled (neg : Bool) (hm : 0 < m) (hlt : m < 2 ^ 53) (hq : -1074 ≤ q)
    (hq' : q + bitLength m ≤ 1024) :
    ∃ k : Nat, Finite (ofScaled neg m q) neg (m * 2 ^ k) (q - k) := by
  have hlength : bitLength m ≤ 53 := bitLength_le_iff.mpr hlt
  have hpos : 1 ≤ bitLength m := by
    rw [Nat.one_le_iff_ne_zero, bitLength, if_neg hm.ne']
    omega
  obtain ⟨t, ht⟩ : ∃ t, unitFor (q + bitLength m) = t := ⟨_, rfl⟩
  have hunit := ht
  unfold unitFor at hunit
  obtain ⟨k, rfl⟩ : ∃ k : Nat, q = t + k := ⟨(q - t).toNat, by omega⟩
  have hbits : bitLength (m * 2 ^ k) = bitLength m + k := bitLength_mul_pow hm k
  have hgrid : OnGrid (m * 2 ^ k) t := by
    refine ⟨by positivity, bitLength_le_iff.mp (by omega), by omega, ?_⟩
    by_cases hleast : t = -1074
    · exact .inr hleast
    · refine .inl (Nat.le_of_not_lt fun hsub => ?_)
      have := bitLength_le_iff.mpr hsub
      omega
  have hscaled : ofScaled neg m (t + k) = ofGrid neg (m * 2 ^ k) t := by
    simp only [ofScaled, ht, scale2_add]
    exact if_neg hgrid.lt.ne
  refine ⟨k, ?_⟩
  rw [hscaled, Int.add_sub_cancel]
  exact finite_ofGrid neg hgrid (by omega)

theorem ofSingleGrid_eq (neg : Bool) (m : Nat) (q : Int) :
    ofSingleGrid neg m q =
      if 2 ^ 24 ≤ m ∧ 104 ≤ q ∨ 105 ≤ q then infinity neg else ofScaled neg m q := by
  unfold ofSingleGrid
  simp only [Nat.pow_eq, Bool.and_eq_true, decide_eq_true_eq]
  by_cases hlarge : 2 ^ 24 ≤ m ∧ 104 ≤ q
  · rw [if_pos hlarge, if_pos (.inl hlarge)]
  · rw [if_neg hlarge]
    simp only [hlarge, false_or]

theorem Finite.toSingle_eq {x : Binary64} (h : Finite x neg m q) :
    x.toSingle = ofSingleGrid neg (scale2 m q (singleUnitFor (q + bitLength m)))
      (singleUnitFor (q + bitLength m)) := by
  simp only [toSingle, h.notNaN, h.notInfinite, h.negative, h.significand, h.exponent,
    Bool.false_eq_true, if_false]

theorem toSingle_ofScaled (neg : Bool) (hlt : m < 2 ^ 24) (hq : -149 ≤ q) (hq' : q ≤ 104) :
    (ofScaled neg m q).toSingle = ofScaled neg m q := by
  rcases Nat.eq_zero_or_pos m with rfl | hm
  · have hzero := finite_ofParts neg (b := 0) (f := 0) (by omega) (by decide)
    have hsingle := hzero.toSingle_eq
    rw [if_pos rfl, if_pos rfl, scale2_zero, ofSingleGrid_eq, if_neg (by decide), ofScaled_zero]
      at hsingle
    rw [ofScaled_zero, hsingle]
  · have hlength : bitLength m ≤ 24 := bitLength_le_iff.mpr hlt
    obtain ⟨k, hx⟩ := finite_ofScaled neg hm (by omega) (by omega : -1074 ≤ q) (by omega)
    have hunit : q - k + bitLength (m * 2 ^ k) = q + bitLength m := by
      rw [bitLength_mul_pow hm]
      push_cast
      ring
    obtain ⟨t, ht⟩ : ∃ t, singleUnitFor (q + bitLength m) = t := ⟨_, rfl⟩
    have hle := ht
    unfold singleUnitFor at hle
    obtain ⟨j, rfl⟩ : ∃ j : Nat, q = t + j := ⟨(q - t).toNat, by omega⟩
    have hsmall : m * 2 ^ j < 2 ^ 24 := by
      rw [← bitLength_le_iff, bitLength_mul_pow hm]
      omega
    rw [hx.toSingle_eq, hunit, ht, scale2_mul_pow, Int.sub_add_cancel, scale2_add, ofSingleGrid_eq,
      if_neg (by omega), ofScaled_mul_pow]

theorem toSingle_infinity (neg : Bool) : (infinity neg).toSingle = infinity neg := by
  cases neg <;> decide +kernel

theorem toSingle_ofSingleGrid (neg : Bool) (hm : m ≤ 2 ^ 24) (hq : -149 ≤ q) :
    (ofSingleGrid neg m q).toSingle = ofSingleGrid neg m q := by
  rw [ofSingleGrid_eq]
  split
  · exact toSingle_infinity neg
  · rcases hm.lt_or_eq with hlt | rfl
    · exact toSingle_ofScaled neg hlt hq (by omega)
    · -- the next power of two has fewer digits on a coarser grid
      rw [show 2 ^ 24 = 2 ^ 23 * 2 ^ 1 by norm_num, ofScaled_mul_pow]
      exact toSingle_ofScaled neg (by decide) (by omega) (by omega)

def quiet (f : Nat) : Nat := f / 2 ^ 29 * 2 ^ 29 ||| 2 ^ 51

theorem quiet_quiet (f : Nat) : quiet (quiet f) = quiet f := by
  have hquiet : ∀ a, a * 2 ^ 29 ||| 2 ^ 51 = (a ||| 2 ^ 22) * 2 ^ 29 := by
    intro a
    rw [← Nat.shiftLeft_eq, ← Nat.shiftLeft_eq, Nat.shiftLeft_or_distrib]
    rfl
  unfold quiet
  rw [hquiet (f / 2 ^ 29), Nat.mul_div_cancel _ (by positivity), hquiet, Nat.or_assoc, Nat.or_self]

theorem quiet_lt (h : f < fractionSpan) : quiet f < fractionSpan :=
  Nat.or_lt_two_pow ((Nat.div_mul_le_self _ _).trans_lt h) (by decide)

theorem quiet_ne_zero (f : Nat) : quiet f ≠ 0 := by
  rw [quiet, Ne, Nat.or_eq_zero_iff]
  exact fun hzero => absurd hzero.2 (by decide)

theorem isNaN_ofParts (neg : Bool) (hf : f < fractionSpan) (hne : f ≠ 0) :
    (ofParts neg 2047 f).isNaN = true := by
  have hspan : 2047 < exponentSpan := by decide
  simpa [isNaN, biasedExponent_ofParts neg hspan hf, fraction_ofParts neg hspan hf] using hne

theorem toSingle_of_isNaN {x : Binary64} (h : x.isNaN = true) :
    x.toSingle = ofParts x.negative 2047 (quiet x.fraction) := if_pos h

theorem toSingle_toSingle_of_isNaN {x : Binary64} (h : x.isNaN = true) :
    x.toSingle.toSingle = x.toSingle := by
  have hspan : 2047 < exponentSpan := by decide
  have hf : quiet x.fraction < fractionSpan := quiet_lt x.fraction_lt
  have hnan := isNaN_ofParts x.negative hf (quiet_ne_zero _)
  rw [toSingle_of_isNaN h, toSingle_of_isNaN hnan, negative_ofParts _ hspan hf,
    fraction_ofParts _ hspan hf, quiet_quiet]

theorem toSingle_toSingle (x : Binary64) : x.toSingle.toSingle = x.toSingle := by
  by_cases hnan : x.isNaN = true
  · exact toSingle_toSingle_of_isNaN hnan
  · by_cases hinf : x.isInfinite = true
    · have hx : x.toSingle = x := by rw [toSingle, if_neg hnan, if_pos hinf]
      rw [hx, hx]
    · have hx : Finite x x.negative x.significand x.exponent :=
        ⟨rfl, rfl, rfl, by simpa using hnan, by simpa using hinf⟩
      rw [hx.toSingle_eq]
      refine toSingle_ofSingleGrid _ (scale2_le ?_) ?_
      · unfold singleUnitFor
        omega
      · unfold singleUnitFor
        omega

end Binary64

end GraphCopy
