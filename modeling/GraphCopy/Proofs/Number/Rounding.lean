import GraphCopy.Proofs.Number.Numerals
import Mathlib.Data.Nat.Cast.Order.Field
import Mathlib.Tactic.FieldSimp
import Mathlib.Tactic.Linarith
import Mathlib.Tactic.Positivity

/-!
# The shortest decimal rounds to its number

A number of the grid stands for the reals between the two points halfway to its
neighbours, and for these points when its significand is even. The search goes
from grid to grid until one of the two decimals next to the number is among
these reals, which happens at the latest on the grid of the seventeenth digit.
Different numbers stand for different reals, so the decimal tells the number.
-/

namespace GraphCopy

/-- The point halfway to the neighbour below, in quarters of the unit; below a power of two the
neighbour is half as far. -/
def lowerQuarters (m : Nat) : Nat := 4 * m - if m = Nat.pow 2 52 then 1 else 2

def upperQuarters (m : Nat) : Nat := 4 * m + 2

/-- The reals that round to `m * 2 ^ q`. -/
def RoundsTo (m : Nat) (q : Int) (x : ℚ) : Prop :=
  if m % 2 = 0 then lowerQuarters m * 2 ^ (q - 2) ≤ x ∧ x ≤ upperQuarters m * 2 ^ (q - 2)
  else lowerQuarters m * 2 ^ (q - 2) < x ∧ x < upperQuarters m * 2 ^ (q - 2)

theorem zpow_mul_pow_toNat {b : ℚ} (hb : b ≠ 0) (z : Int) : b ^ z * b ^ (-z).toNat = b ^ z.toNat := by
  rw [← zpow_natCast, ← zpow_natCast, ← zpow_add₀ hb]
  congr 1
  omega

section Interval

variable {m n d : Nat} {q e : Int} {i : RoundingInterval}

theorem quarters_cast (n : Nat) (q e : Int) :
    ((n * Nat.pow 2 q.toNat * Nat.pow 10 (-e).toNat : Nat) : ℚ) =
      n * 2 ^ (q - 2) * (4 * 2 ^ (-q).toNat * 10 ^ (-e).toNat) := by
  have htwo : (2 : ℚ) ^ (q - 2) * 4 = 2 ^ q := by
    rw [zpow_sub₀ (by norm_num)]
    norm_num
  simp only [Nat.pow_eq]
  push_cast
  rw [← zpow_mul_pow_toNat (by norm_num) q, ← htwo]
  ring

theorem decimal_cast (d : Nat) (q e : Int) :
    ((d * Nat.pow 10 e.toNat * (4 * Nat.pow 2 (-q).toNat) : Nat) : ℚ) =
      d * 10 ^ e * (4 * 2 ^ (-q).toNat * 10 ^ (-e).toNat) := by
  simp only [Nat.pow_eq]
  push_cast
  rw [← zpow_mul_pow_toNat (by norm_num) e]
  ring

theorem contains_iff : (roundingInterval m q).contains d e = true ↔ RoundsTo m q (d * 10 ^ e) := by
  have hpos : (0 : ℚ) < 4 * 2 ^ (-q).toNat * 10 ^ (-e).toNat := by positivity
  have hle : ∀ a b : Nat, a ≤ b ↔ (a : ℚ) ≤ b := fun a b => Nat.cast_le.symm
  have hlt : ∀ a b : Nat, a < b ↔ (a : ℚ) < b := fun a b => Nat.cast_lt.symm
  by_cases heven : m % 2 = 0
  · simp only [RoundingInterval.contains, roundingInterval, RoundsTo, heven, decide_true, if_true,
      Bool.and_eq_true, decide_eq_true_eq, hle]
    rw [decimal_cast, ← lowerQuarters, ← upperQuarters, quarters_cast, quarters_cast,
      mul_le_mul_iff_of_pos_right hpos, mul_le_mul_iff_of_pos_right hpos]
  · simp only [RoundingInterval.contains, roundingInterval, RoundsTo, heven, decide_false, if_false,
      Bool.and_eq_true, decide_eq_true_eq, hlt, Bool.false_eq_true]
    rw [decimal_cast, ← lowerQuarters, ← upperQuarters, quarters_cast, quarters_cast,
      mul_lt_mul_iff_of_pos_right hpos, mul_lt_mul_iff_of_pos_right hpos]

namespace RoundingInterval

theorem contains_of_onGrid? {d : DecimalDigits} (h : i.onGrid? e = some d) :
    i.contains d.digits d.exponent = true := by
  unfold onGrid? at h
  dsimp only at h
  split at h
  · next hlow =>
    cases h
    simp only [Bool.and_eq_true] at hlow
    exact hlow.1.1
  · split at h
    · next hhigh =>
      cases h
      exact hhigh
    · cases h

theorem onGrid?_isSome
    (h : i.contains (i.point * Nat.pow 10 (-e).toNat / (i.den * Nat.pow 10 e.toNat) + 1) e = true) :
    (i.onGrid? e).isSome = true := by
  unfold onGrid?
  simp only [h, if_true]
  split <;> rfl

theorem contains_of_search {d : DecimalDigits} (h : i.search n e = some d) :
    i.contains d.digits d.exponent = true := by
  induction n generalizing e with
  | zero => cases h
  | succ n ih =>
    rw [search] at h
    split at h
    · next hd =>
      cases h
      exact contains_of_onGrid? hd
    · exact ih h

theorem search_isSome {k : Nat} (hk : k < n) (h : (i.onGrid? (e - k)).isSome = true) :
    (i.search n e).isSome = true := by
  induction n generalizing e k with
  | zero => omega
  | succ n ih =>
    rw [search]
    cases hgrid : i.onGrid? e with
    | some d => rfl
    | none =>
      cases k with
      | zero =>
        rw [Nat.cast_zero, sub_zero, hgrid] at h
        cases h
      | succ k =>
        refine ih (Nat.lt_of_succ_lt_succ hk) ?_
        rwa [show e - 1 - (k : Int) = e - (k + 1 : Nat) by push_cast; ring]

end RoundingInterval

theorem zpow_sub_one_eq (q : Int) : (2 : ℚ) ^ (q - 1) = 2 * 2 ^ (q - 2) := by
  rw [show q - 1 = q - 2 + 1 by ring, zpow_add_one₀ (by norm_num)]
  ring

theorem zpow_eq_quarters (q : Int) : (2 : ℚ) ^ q = 4 * 2 ^ (q - 2) := by
  rw [zpow_sub₀ (by norm_num)]
  field_simp
  norm_num

theorem lowerQuarters_lt (hm : 0 < m) : (lowerQuarters m : ℚ) < 4 * m := by
  have hlt : lowerQuarters m < 4 * m := by
    unfold lowerQuarters
    split <;> omega
  exact_mod_cast hlt

theorem roundsTo_of_near {x : ℚ} (hm : 0 < m) (hlow : m * 2 ^ q ≤ x) (hhigh : x < m * 2 ^ q + 2 ^ (q - 1)) :
    RoundsTo m q x := by
  have hunit : (0 : ℚ) < 2 ^ (q - 2) := by positivity
  rw [zpow_eq_quarters] at hlow hhigh
  rw [zpow_sub_one_eq] at hhigh
  have hlower : (lowerQuarters m : ℚ) * 2 ^ (q - 2) < x :=
    calc (lowerQuarters m : ℚ) * 2 ^ (q - 2) < 4 * m * 2 ^ (q - 2) :=
          mul_lt_mul_of_pos_right (lowerQuarters_lt hm) hunit
      _ = m * (4 * 2 ^ (q - 2)) := by ring
      _ ≤ x := hlow
  have hupper : x < upperQuarters m * 2 ^ (q - 2) :=
    calc x < m * (4 * 2 ^ (q - 2)) + 2 * 2 ^ (q - 2) := hhigh
      _ = upperQuarters m * 2 ^ (q - 2) := by
        rw [upperQuarters]
        push_cast
        ring
  unfold RoundsTo
  split
  · exact ⟨hlower.le, hupper.le⟩
  · exact ⟨hlower, hupper⟩

theorem den_pos (m : Nat) (q : Int) : (0 : ℚ) < (roundingInterval m q).den := by
  simp only [roundingInterval, Nat.pow_eq]
  positivity

theorem cast_point (m : Nat) (q : Int) :
    ((roundingInterval m q).point : ℚ) = m * 2 ^ q * (roundingInterval m q).den := by
  simp only [roundingInterval, Nat.pow_eq]
  push_cast
  rw [← zpow_mul_pow_toNat (by norm_num) q]
  ring

theorem grid_bounds (m : Nat) (q e : Int) (below : Nat)
    (hbelow : below = (roundingInterval m q).point * Nat.pow 10 (-e).toNat /
      ((roundingInterval m q).den * Nat.pow 10 e.toNat)) :
    (below : ℚ) * 10 ^ e ≤ m * 2 ^ q ∧ (m : ℚ) * 2 ^ q < (below + 1 : Nat) * 10 ^ e := by
  have hscale : (0 : ℚ) < (roundingInterval m q).den * 10 ^ (-e).toNat :=
    mul_pos (den_pos m q) (by positivity)
  have hnum : (((roundingInterval m q).point * Nat.pow 10 (-e).toNat : Nat) : ℚ) =
      m * 2 ^ q * ((roundingInterval m q).den * 10 ^ (-e).toNat) := by
    rw [Nat.cast_mul, cast_point, Nat.pow_eq]
    push_cast
    ring
  have hcell : (((roundingInterval m q).den * Nat.pow 10 e.toNat : Nat) : ℚ) =
      10 ^ e * ((roundingInterval m q).den * 10 ^ (-e).toNat) := by
    rw [Nat.pow_eq]
    push_cast
    rw [← zpow_mul_pow_toNat (by norm_num) e]
    ring
  generalize (roundingInterval m q).point * Nat.pow 10 (-e).toNat = num at hnum hbelow
  generalize (roundingInterval m q).den * Nat.pow 10 e.toNat = cell at hcell hbelow
  have hpos : 0 < cell := by
    have hcast : (0 : ℚ) < cell := by
      rw [hcell]
      positivity
    exact_mod_cast hcast
  subst hbelow
  constructor
  · have hle : ((num / cell * cell : Nat) : ℚ) ≤ num := Nat.cast_le.mpr (Nat.div_mul_le_self num cell)
    rw [Nat.cast_mul, hcell, hnum, ← mul_assoc] at hle
    exact le_of_mul_le_mul_right hle hscale
  · have hlt : (num : ℚ) < ((num / cell + 1) * cell : Nat) :=
      Nat.cast_lt.mpr (Nat.lt_mul_of_div_lt (Nat.lt_succ_self _) hpos)
    rw [Nat.cast_mul, hcell, hnum, ← mul_assoc ((num / cell + 1 : Nat) : ℚ)] at hlt
    exact lt_of_mul_lt_mul_right hlt hscale.le

theorem onGrid?_isSome_of_fine (hm : 0 < m) (he : (10 : ℚ) ^ e < 2 ^ (q - 1)) :
    ((roundingInterval m q).onGrid? e).isSome = true := by
  obtain ⟨hbelow, habove⟩ := grid_bounds m q e _ rfl
  apply RoundingInterval.onGrid?_isSome
  rw [contains_iff]
  refine roundsTo_of_near hm habove.le ?_
  rw [Nat.cast_add, Nat.cast_one, add_mul, one_mul]
  linarith

theorem pow_top_le (hm : 0 < m) :
    (10 : ℚ) ^ ((if (roundingInterval m q).point / (roundingInterval m q).den = 0 then
        2 - (decimalLength ((roundingInterval m q).den / (roundingInterval m q).point) : Int)
      else decimalLength ((roundingInterval m q).point / (roundingInterval m q).den)) - 2) ≤
      m * 2 ^ q := by
  have hden := den_pos m q
  have hpoint := cast_point m q
  have hpositive : (0 : ℚ) < m * 2 ^ q := mul_pos (Nat.cast_pos.mpr hm) (by positivity)
  generalize (roundingInterval m q).point = point at hpoint ⊢
  generalize (roundingInterval m q).den = den at hden hpoint ⊢
  generalize (m * 2 ^ q : ℚ) = x at hpoint hpositive ⊢
  split
  · next hsmall =>
    have hpos : 0 < point := by
      have hcast : (0 : ℚ) < point := by
        rw [hpoint]
        positivity
      exact_mod_cast hcast
    have hlt : (den : ℚ) < (10 ^ decimalLength (den / point) * point : Nat) :=
      Nat.cast_lt.mpr (Nat.lt_mul_of_div_lt (lt_pow_decimalLength _) hpos)
    rw [Nat.cast_mul, hpoint, ← mul_assoc] at hlt
    have hone : (1 : ℚ) < 10 ^ decimalLength (den / point) * x := by
      refine lt_of_mul_lt_mul_right ?_ hden.le
      rw [one_mul]
      exact_mod_cast hlt
    have hpower : (0 : ℚ) < 10 ^ decimalLength (den / point) := by positivity
    rw [show 2 - (decimalLength (den / point) : Int) - 2 = -(decimalLength (den / point) : Int) by ring,
      zpow_neg, zpow_natCast]
    exact (inv_lt_iff_one_lt_mul₀ hpower).mpr (by rwa [mul_comm] at hone) |>.le
  · next hlarge =>
    have hlead : ((10 ^ (decimalLength (point / den) - 1) : Nat) : ℚ) ≤ (point / den : Nat) :=
      Nat.cast_le.mpr (pow_decimalLength_le hlarge)
    calc (10 : ℚ) ^ ((decimalLength (point / den) : Int) - 2)
        ≤ 10 ^ (decimalLength (point / den) - 1) := by
          rw [← zpow_natCast]
          exact zpow_le_zpow_right₀ (by norm_num) (by omega)
      _ ≤ (point / den : Nat) := by exact_mod_cast hlead
      _ ≤ point / den := Nat.cast_div_le
      _ = x := by rw [hpoint]; field_simp

theorem DecimalDigits.value_trim (d : DecimalDigits) : d.trim.value = d.value := by
  unfold trim
  generalize decimalLength d.digits = fuel
  induction fuel generalizing d with
  | zero => rfl
  | succ fuel ih =>
    rw [trim.go]
    split
    · next h =>
      simp only [Bool.and_eq_true, decide_eq_true_eq] at h
      obtain ⟨k, hk⟩ := Nat.dvd_of_mod_eq_zero h.1
      rw [ih, value, value, hk, Nat.mul_div_cancel_left k (by omega), zpow_add_one₀ (by norm_num)]
      push_cast
      ring
    · rfl

/-- The search finds a decimal, and what it finds rounds to the number. -/
theorem shortest_roundsTo (hm : 0 < m) (hm' : m < 2 ^ 53) (q : Int) :
    RoundsTo m q (shortest m q).value := by
  have htop := pow_top_le (q := q) hm
  unfold shortest
  dsimp only
  generalize (if (roundingInterval m q).point / (roundingInterval m q).den = 0 then
      2 - (decimalLength ((roundingInterval m q).den / (roundingInterval m q).point) : Int)
    else decimalLength ((roundingInterval m q).point / (roundingInterval m q).den)) = top at htop ⊢
  have hunit : (0 : ℚ) < 2 ^ q := by positivity
  have hcast : (m : ℚ) < 2 ^ 53 := by exact_mod_cast hm'
  -- sixteen digits hold 53 bits, and the search goes on to the seventeenth
  have hfine : (10 : ℚ) ^ (top - 19) < 2 ^ (q - 1) :=
    calc (10 : ℚ) ^ (top - 19) = 10 ^ (top - 2) / 10 ^ 17 := by
          rw [show top - 19 = top - 2 - (17 : Nat) by push_cast; ring, zpow_sub₀ (by norm_num),
            zpow_natCast]
      _ ≤ m * 2 ^ q / 10 ^ 17 := by gcongr
      _ ≤ 2 ^ 53 * 2 ^ q / 10 ^ 17 := by gcongr
      _ < 2 ^ q / 2 := by
          rw [div_lt_div_iff₀ (by positivity) (by positivity)]
          nlinarith
      _ = 2 ^ (q - 1) := by rw [zpow_sub_one₀ (by norm_num), div_eq_mul_inv]
  obtain ⟨d, hd⟩ := Option.isSome_iff_exists.mp
    (RoundingInterval.search_isSome (n := 20) (k := 19) (by omega) (onGrid?_isSome_of_fine hm hfine))
  rw [hd]
  dsimp only
  rw [DecimalDigits.value_trim]
  exact contains_iff.mp (RoundingInterval.contains_of_search hd)

end Interval

structure OnGrid (m : Nat) (q : Int) : Prop where
  pos : 0 < m
  lt : m < 2 ^ 53
  least : -1074 ≤ q
  normal : 2 ^ 52 ≤ m ∨ q = -1074

section Order

variable {m m' : Nat} {q q' : Int} {x x' : ℚ}

theorem RoundsTo.le (h : RoundsTo m q x) :
    lowerQuarters m * 2 ^ (q - 2) ≤ x ∧ x ≤ upperQuarters m * 2 ^ (q - 2) := by
  unfold RoundsTo at h
  split at h
  · exact h
  · exact ⟨h.1.le, h.2.le⟩

theorem RoundsTo.lt (h : RoundsTo m q x) (hodd : m % 2 = 1) :
    lowerQuarters m * 2 ^ (q - 2) < x ∧ x < upperQuarters m * 2 ^ (q - 2) := by
  rwa [RoundsTo, if_neg (by omega)] at h

theorem RoundsTo.lt_of_ends (h : RoundsTo m q x) (h' : RoundsTo m' q' x')
    (hle : (upperQuarters m : ℚ) * 2 ^ (q - 2) ≤ lowerQuarters m' * 2 ^ (q' - 2))
    (hstrict : m % 2 = 1 ∨ m' % 2 = 1 ∨
      (upperQuarters m : ℚ) * 2 ^ (q - 2) < lowerQuarters m' * 2 ^ (q' - 2)) : x < x' := by
  rcases hstrict with hodd | hodd | hlt
  · exact ((h.lt hodd).2.trans_le hle).trans_le h'.le.1
  · exact (h.le.2.trans hle).trans_lt (h'.lt hodd).1
  · exact (h.le.2.trans_lt hlt).trans_le h'.le.1

/-- Of two neighbours with one unit, one is odd, so the point halfway between them goes to the other. -/
theorem RoundsTo.lt_of_lt (h : RoundsTo m q x) (h' : RoundsTo m' q x') (hlt : m < m') : x < x' := by
  have hunit : (0 : ℚ) < 2 ^ (q - 2) := by positivity
  have hnat : upperQuarters m ≤ lowerQuarters m' ∧
      (m % 2 = 1 ∨ m' % 2 = 1 ∨ upperQuarters m < lowerQuarters m') := by
    unfold upperQuarters lowerQuarters
    split <;> omega
  refine h.lt_of_ends h' ?_ ?_
  · exact mul_le_mul_of_nonneg_right (Nat.cast_le.mpr hnat.1) hunit.le
  · exact hnat.2.imp_right (.imp_right fun hlt => mul_lt_mul_of_pos_right (Nat.cast_lt.mpr hlt) hunit)

theorem RoundsTo.lt_of_unit_lt (hm : OnGrid m q) (hm' : OnGrid m' q') (h : RoundsTo m q x)
    (h' : RoundsTo m' q' x') (hlt : q < q') : x < x' := by
  have hunit : (0 : ℚ) < 2 ^ (q - 2) := by positivity
  have hdouble : (2 : ℚ) * 2 ^ (q - 2) ≤ 2 ^ (q' - 2) := by
    rw [mul_comm, ← zpow_add_one₀ (by norm_num)]
    exact zpow_le_zpow_right₀ (by norm_num) (by omega)
  have hnormal : 2 ^ 52 ≤ m' := hm'.normal.resolve_right (by have := hm.least; omega)
  have hnat : upperQuarters m ≤ 2 * lowerQuarters m' ∧
      (m % 2 = 1 ∨ m' % 2 = 1 ∨ upperQuarters m < 2 * lowerQuarters m') := by
    have hbound := hm.lt
    unfold upperQuarters lowerQuarters
    simp only [Nat.pow_eq]
    split <;> omega
  have hstep : ((2 * lowerQuarters m' : Nat) : ℚ) * 2 ^ (q - 2) ≤ lowerQuarters m' * 2 ^ (q' - 2) := by
    push_cast
    rw [mul_comm 2, mul_assoc]
    gcongr
  refine h.lt_of_ends h' ?_ ?_
  · exact (mul_le_mul_of_nonneg_right (Nat.cast_le.mpr hnat.1) hunit.le).trans hstep
  · exact hnat.2.imp_right (.imp_right fun hlt =>
      (mul_lt_mul_of_pos_right (Nat.cast_lt.mpr hlt) hunit).trans_le hstep)

theorem RoundsTo.unique (hm : OnGrid m q) (hm' : OnGrid m' q') (h : RoundsTo m q x)
    (h' : RoundsTo m' q' x) : m = m' ∧ q = q' := by
  rcases lt_trichotomy q q' with hlt | rfl | hlt
  · exact absurd (lt_of_unit_lt hm hm' h h' hlt) (lt_irrefl x)
  · rcases lt_trichotomy m m' with hlt | rfl | hlt
    · exact absurd (lt_of_lt h h' hlt) (lt_irrefl x)
    · exact ⟨rfl, rfl⟩
    · exact absurd (lt_of_lt h' h hlt) (lt_irrefl x)
  · exact absurd (lt_of_unit_lt hm' hm h' h hlt) (lt_irrefl x)

theorem RoundsTo.pos (hm : 0 < m) (h : RoundsTo m q x) : 0 < x := by
  have hlower : 0 < lowerQuarters m := by
    unfold lowerQuarters
    split <;> omega
  exact (mul_pos (Nat.cast_pos.mpr hlower) (by positivity)).trans_le h.le.1

end Order

end GraphCopy
