import GraphCopy.Proofs.Number.Numerals
import Mathlib.Tactic.Linarith

/-!
# Equal decimals

Dropping trailing zeros keeps the value, and of one value there is one decimal
without trailing zeros. So decimals are numerically equal when their values are
equal, and decimals with one text are numerically equal.
-/

namespace GraphCopy

namespace Decimal

variable {d d' : Decimal}

theorem value_reduceBy (fuel : Nat) (d : Decimal) : (d.reduceBy fuel).value = d.value := by
  induction fuel generalizing d with
  | zero => rfl
  | succ fuel ih =>
    rw [reduceBy]
    split
    · next h =>
      rw [ih]
      obtain ⟨k, hk⟩ := Int.dvd_of_emod_eq_zero h
      have hquotient : d.digits / 10 = k := by omega
      rw [value, value, hquotient, hk, show -(d.scale - 1) = -d.scale + 1 by ring,
        zpow_add_one₀ (by norm_num)]
      push_cast
      ring
    · rfl

theorem value_reduced (d : Decimal) : d.reduced.value = d.value := by
  unfold reduced
  split
  · next h => simp [value, h]
  · exact value_reduceBy _ d

def Canonical (d : Decimal) : Prop := d = ⟨0, 0⟩ ∨ d.digits % 10 ≠ 0

theorem canonical_reduceBy (fuel : Nat) (d : Decimal) (hd : d.digits ≠ 0)
    (hfuel : d.digits.natAbs < 10 ^ fuel) : (d.reduceBy fuel).digits % 10 ≠ 0 := by
  induction fuel generalizing d with
  | zero => omega
  | succ fuel ih =>
    rw [reduceBy]
    split
    · next h =>
      rw [Nat.pow_succ] at hfuel
      exact ih _ (by dsimp only; omega) (by dsimp only; omega)
    · next h => exact h

theorem canonical_reduced (d : Decimal) : d.reduced.Canonical := by
  unfold reduced
  split
  · exact .inl rfl
  · next h => exact .inr (canonical_reduceBy _ d h (lt_pow_decimalLength _))

theorem digits_eq_of_value_eq {k : Nat} (hscale : d'.scale = d.scale + k) (h : d.value = d'.value) :
    d'.digits = d.digits * 10 ^ k := by
  have hpos : (10 : ℚ) ^ (-d'.scale) ≠ 0 := zpow_ne_zero _ (by norm_num)
  have hshift : (10 : ℚ) ^ (-d.scale) = 10 ^ k * 10 ^ (-d'.scale) := by
    rw [← zpow_natCast, ← zpow_add₀ (by norm_num), hscale]
    congr 1
    ring
  rw [value, value, hshift, ← mul_assoc] at h
  exact_mod_cast (mul_right_cancel₀ hpos h).symm

theorem Canonical.eq_of_value_eq (hd : d.Canonical) (hd' : d'.Canonical) (h : d.value = d'.value) :
    d = d' := by
  have hzero : ∀ {d : Decimal}, d.value = 0 ↔ d.digits = 0 := by
    intro d
    simp [value, zpow_ne_zero]
  -- digits that end in no zero are those of the coarsest decimal
  have hfinest : ∀ {d d' : Decimal}, d.digits % 10 ≠ 0 → d'.digits % 10 ≠ 0 → d.scale ≤ d'.scale →
      d.value = d'.value → d = d' := by
    intro d d' hd hd' hle h
    obtain ⟨k, hk⟩ := Int.le.dest hle
    have hdigits := digits_eq_of_value_eq hk.symm h
    cases k with
    | zero =>
      cases d
      cases d'
      simp_all
    | succ k =>
      rw [pow_succ, ← mul_assoc] at hdigits
      omega
  rcases hd with rfl | hd
  · rcases hd' with rfl | hd'
    · rfl
    · have hdigits := hzero.mp (h.symm.trans (hzero.mpr rfl))
      simp [hdigits] at hd'
  · rcases hd' with rfl | hd'
    · have hdigits := hzero.mp (h.trans (hzero.mpr rfl))
      simp [hdigits] at hd
    · rcases Int.le_total d.scale d'.scale with hle | hle
      · exact hfinest hd hd' hle h
      · exact (hfinest hd' hd hle h.symm).symm

/-- Decimals are numerically equal when their values are equal. -/
theorem numEq_iff : d.numEq d' = true ↔ d.value = d'.value := by
  rw [numEq, beq_iff_eq]
  constructor
  · intro h
    rw [← value_reduced d, h, value_reduced]
  · intro h
    exact (canonical_reduced d).eq_of_value_eq (canonical_reduced d')
      (by rw [value_reduced, value_reduced, h])

theorem numEq_of_text_eq (h : d.text = d'.text) : d.numEq d' = true := by
  obtain ⟨s, htext, hs⟩ := d.text_reads
  obtain ⟨s', htext', hs'⟩ := d'.text_reads
  rw [htext, htext'] at h
  obtain ⟨hsign, habs⟩ := sign_append_inj hs hs' h
  have hvalue : ∀ d : Decimal, d.value =
      (if d.digits < 0 then -1 else 1) * (d.digits.natAbs * 10 ^ (-d.scale)) := by
    intro d
    rw [value, ← mul_assoc]
    congr 1
    rw [Nat.cast_natAbs]
    split
    · next hneg => rw [abs_of_neg hneg, Int.cast_neg, neg_mul_neg, one_mul]
    · next hneg => rw [abs_of_nonneg (Int.not_lt.mp hneg), one_mul]
  rw [numEq_iff, hvalue, hvalue, habs]
  simp only [hsign]

end Decimal

end GraphCopy
