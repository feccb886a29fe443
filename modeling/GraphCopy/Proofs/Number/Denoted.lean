import GraphCopy.Proofs.Number.FloatText
import Mathlib.Order.WithBot

/-!
# Equal floating point numbers

A floating point number denotes a number or an infinity, unless it is none.
Floating point numbers are numerically equal when they denote the same: the two
zeros do, and any other number is denoted by its own bits alone.
-/

namespace GraphCopy.Binary64

variable {x y : Binary64}

def magnitude (x : Binary64) : ℚ := x.significand * 2 ^ x.exponent

def value (x : Binary64) : ℚ := if x.negative = true then -x.magnitude else x.magnitude

/-- What a floating point number denotes: a number or an infinity, if anything. -/
def number? (x : Binary64) : Option (WithBot (WithTop ℚ)) :=
  if x.isNaN = true then none
  else if x.isInfinite = true then some (if x.negative = true then ⊥ else ⊤)
  else some ((x.value : WithTop ℚ) : WithBot (WithTop ℚ))

theorem bits_eq_iff : x.bits = y.bits ↔ x = y := by
  cases x
  cases y
  rw [Binary64.mk.injEq]

theorem numEq_iff : x.numEq y = true ↔
    x.isNaN = false ∧ y.isNaN = false ∧ (x = y ∨ x.isZero = true ∧ y.isZero = true) := by
  simp [numEq, bits_eq_iff, and_assoc]

theorem isInfinite_of_isZero (h : x.isZero = true) : x.isInfinite = false := by
  simp only [isZero, Bool.and_eq_true, beq_iff_eq] at h
  simp [isInfinite, h.1]

theorem significand_eq_zero_iff : x.significand = 0 ↔ x.isZero = true := by
  simp only [significand, isZero, fractionSpan, Nat.pow_eq, Bool.and_eq_true, beq_iff_eq]
  split
  · next hsub => simp [hsub]
  · next hnormal => simp [hnormal]

theorem value_eq_zero_iff : x.value = 0 ↔ x.isZero = true := by
  rw [← significand_eq_zero_iff, value, magnitude]
  split <;> simp [zpow_ne_zero]

theorem magnitude_pos (hzero : x.isZero = false) : 0 < x.magnitude := by
  have hpos : (0 : ℚ) < x.significand := Nat.cast_pos.mpr (onGrid hzero).pos
  exact mul_pos hpos (by positivity)

/-- The magnitude of a number rounds to that number, so it is the magnitude of no other. -/
theorem parts_eq_of_magnitude_eq (hx : x.isZero = false) (hy : y.isZero = false)
    (h : x.magnitude = y.magnitude) :
    x.biasedExponent = y.biasedExponent ∧ x.fraction = y.fraction := by
  have hself : ∀ {m : Nat} {q : Int}, 0 < m → RoundsTo m q (m * 2 ^ q) :=
    fun hm => roundsTo_of_near hm le_rfl (lt_add_of_pos_right _ (by positivity))
  have hround : RoundsTo y.significand y.exponent x.magnitude := h ▸ hself (onGrid hy).pos
  obtain ⟨hm, hq⟩ := RoundsTo.unique (onGrid hx) (onGrid hy) (hself (onGrid hx).pos) hround
  exact parts_eq hm hq

theorem eq_of_value_eq (hx : x.isZero = false) (hy : y.isZero = false) (h : x.value = y.value) :
    x = y := by
  have hxpos := magnitude_pos hx
  have hypos := magnitude_pos hy
  have hsigned : x.negative = y.negative ∧ x.magnitude = y.magnitude := by
    rw [value, value] at h
    cases hxn : x.negative <;> cases hyn : y.negative <;>
      simp only [hxn, hyn, Bool.false_eq_true, if_true, if_false] at h
    · exact ⟨rfl, h⟩
    · linarith
    · linarith
    · exact ⟨rfl, neg_injective h⟩
  obtain ⟨hexp, hfrac⟩ := parts_eq_of_magnitude_eq hx hy hsigned.2
  exact eq_of_parts hsigned.1 hexp hfrac

theorem number?_eq_some_iff {n : WithBot (WithTop ℚ)} : x.number? = some n ↔ x.isNaN = false ∧
    (x.isInfinite = true ∧ (if x.negative = true then ⊥ else ⊤) = n ∨
      x.isInfinite = false ∧ ((x.value : WithTop ℚ) : WithBot (WithTop ℚ)) = n) := by
  unfold number?
  cases x.isNaN <;> cases x.isInfinite <;> simp

theorem eq_or_isZero_of_number?_eq {n : WithBot (WithTop ℚ)} (hx : x.number? = some n)
    (hy : y.number? = some n) : x = y ∨ x.isZero = true ∧ y.isZero = true := by
  obtain ⟨-, ⟨hxi, hxn⟩ | ⟨hxi, hxn⟩⟩ := number?_eq_some_iff.mp hx <;>
    obtain ⟨-, ⟨hyi, hyn⟩ | ⟨hyi, hyn⟩⟩ := number?_eq_some_iff.mp hy <;> subst hxn
  · have hneg : x.negative = y.negative := by
      cases hx' : x.negative <;> cases hy' : y.negative <;> simp_all
    exact .inl (eq_of_isInfinite hxi hyi hneg)
  · cases hx' : x.negative <;> simp [hx'] at hyn
  · cases hy' : y.negative <;> simp [hy'] at hyn
  · have hvalue : x.value = y.value := by simpa using hyn.symm
    have hzero : y.isZero = x.isZero := by
      rw [Bool.eq_iff_iff, ← value_eq_zero_iff, ← value_eq_zero_iff, hvalue]
    cases hx₀ : x.isZero with
    | true => exact .inr ⟨rfl, hzero.trans hx₀⟩
    | false => exact .inl (eq_of_value_eq hx₀ (hzero.trans hx₀) hvalue)

theorem exists_number? (h : x.isNaN = false) : ∃ n, x.number? = some n := by
  cases hinf : x.isInfinite with
  | true => exact ⟨_, number?_eq_some_iff.mpr ⟨h, .inl ⟨hinf, rfl⟩⟩⟩
  | false => exact ⟨_, number?_eq_some_iff.mpr ⟨h, .inr ⟨hinf, rfl⟩⟩⟩

theorem number?_of_isZero (hnan : x.isNaN = false) (hzero : x.isZero = true) :
    x.number? = some ((0 : WithTop ℚ) : WithBot (WithTop ℚ)) := by
  refine number?_eq_some_iff.mpr ⟨hnan, .inr ⟨isInfinite_of_isZero hzero, ?_⟩⟩
  rw [value_eq_zero_iff.mpr hzero]
  rfl

theorem numEq_iff_number? : x.numEq y = true ↔ ∃ n, x.number? = some n ∧ y.number? = some n := by
  rw [numEq_iff]
  constructor
  · rintro ⟨hx, hy, rfl | ⟨hx₀, hy₀⟩⟩
    · obtain ⟨n, hn⟩ := exists_number? hx
      exact ⟨n, hn, hn⟩
    · exact ⟨_, number?_of_isZero hx hx₀, number?_of_isZero hy hy₀⟩
  · rintro ⟨n, hx, hy⟩
    exact ⟨(number?_eq_some_iff.mp hx).1, (number?_eq_some_iff.mp hy).1, eq_or_isZero_of_number?_eq hx hy⟩

end GraphCopy.Binary64
