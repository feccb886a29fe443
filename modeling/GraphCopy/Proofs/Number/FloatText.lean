import GraphCopy.Proofs.Number.Rounding

/-!
# Floating point numbers are told by their texts

Sign, exponent and fraction are the bits of a number, and a finite number other
than zero is told by its significand and its exponent. Its text is read as a
decimal that rounds to it. So numbers with one text have the same bits, unless
they are no numbers.
-/

namespace GraphCopy.Binary64

variable {x y : Binary64}

theorem eq_of_parts (hneg : x.negative = y.negative) (hexp : x.biasedExponent = y.biasedExponent)
    (hfrac : x.fraction = y.fraction) : x = y := by
  have hx := x.bits.toNat_lt
  have hy := y.bits.toNat_lt
  simp only [negative, decide_eq_decide, Nat.pow_eq] at hneg
  simp only [biasedExponent, exponentSpan, fractionSpan, Nat.pow_eq] at hexp
  simp only [fraction, fractionSpan, Nat.pow_eq] at hfrac
  have hbits : x.bits = y.bits := UInt64.toNat_inj.mp (by omega)
  cases x
  cases y
  rw [Binary64.mk.injEq]
  exact hbits

theorem eq_of_isInfinite (hx : x.isInfinite = true) (hy : y.isInfinite = true)
    (hneg : x.negative = y.negative) : x = y := by
  simp only [isInfinite, Bool.and_eq_true, beq_iff_eq] at hx hy
  exact eq_of_parts hneg (hx.1.trans hy.1.symm) (hx.2.trans hy.2.symm)

theorem eq_of_isZero (hx : x.isZero = true) (hy : y.isZero = true) (hneg : x.negative = y.negative) :
    x = y := by
  simp only [isZero, Bool.and_eq_true, beq_iff_eq] at hx hy
  exact eq_of_parts hneg (hx.1.trans hy.1.symm) (hx.2.trans hy.2.symm)

theorem fraction_lt (x : Binary64) : x.fraction < 2 ^ 52 := Nat.mod_lt _ (by decide)

theorem parts_eq (hm : x.significand = y.significand) (hq : x.exponent = y.exponent) :
    x.biasedExponent = y.biasedExponent ∧ x.fraction = y.fraction := by
  have hx := x.fraction_lt
  have hy := y.fraction_lt
  simp only [significand, fractionSpan, Nat.pow_eq] at hm
  simp only [exponent] at hq
  by_cases hx₀ : x.biasedExponent = 0
  · by_cases hy₀ : y.biasedExponent = 0
    · rw [if_pos hx₀, if_pos hy₀] at hm
      exact ⟨hx₀.trans hy₀.symm, hm⟩
    · rw [if_pos hx₀, if_neg hy₀] at hm
      omega
  · rw [if_neg hx₀] at hm hq
    by_cases hy₀ : y.biasedExponent = 0
    · rw [if_pos hy₀] at hm
      omega
    · rw [if_neg hy₀] at hm hq
      omega

theorem onGrid (hzero : x.isZero = false) : OnGrid x.significand x.exponent := by
  have hfrac := x.fraction_lt
  simp only [isZero, Bool.and_eq_false_iff, beq_eq_false_iff_ne] at hzero
  by_cases hsub : x.biasedExponent = 0
  · simp only [significand, exponent, if_pos hsub]
    exact ⟨by omega, by omega, by omega, .inr rfl⟩
  · simp only [significand, exponent, if_neg hsub, fractionSpan, Nat.pow_eq]
    exact ⟨by omega, by omega, by omega, .inl (by omega)⟩

theorem text_reads (hnan : x.isNaN = false) (hinf : x.isInfinite = false) :
    ∃ (s : String) (v : ℚ), x.text = (if x.negative = true then "-" else "") ++ s ∧ Reads s.toList v ∧
      (x.isZero = true ∧ v = 0 ∨ x.isZero = false ∧ RoundsTo x.significand x.exponent v) := by
  unfold text
  simp only [hnan, hinf, Bool.false_eq_true, if_false]
  cases hzero : x.isZero with
  | true =>
    refine ⟨"0.0", 0, rfl, ?_, .inl ⟨rfl, rfl⟩⟩
    have hreads := reads_integral 0 0
    simpa using hreads
  | false =>
    have hgrid := onGrid hzero
    have hrounds := shortest_roundsTo hgrid.pos hgrid.lt x.exponent
    refine ⟨_, _, rfl, ?_, .inr ⟨rfl, hrounds⟩⟩
    split
    · exact DecimalDigits.reads_positional _
    · exact DecimalDigits.reads_scientific _ (.inl rfl)

theorem text_of_isInfinite (h : x.isInfinite = true) :
    x.text = (if x.negative = true then "-" else "") ++ "inf" := by
  have hnan : x.isNaN = false := by
    simp only [isInfinite, Bool.and_eq_true, beq_iff_eq] at h
    simp [isNaN, h.2]
  simp [text, hnan, h]

theorem isNaN_iff_mem : x.isNaN = true ↔ 'N' ∈ x.text.toList := by
  constructor
  · intro h
    rw [text, if_pos h]
    decide
  · intro h
    rcases x.text_numeral with ⟨hnan, -⟩ | ⟨-, htext⟩ | ⟨hover, -⟩
    · exact hnan
    · rw [htext] at h
      split at h <;> exact absurd h (by decide)
    · exact absurd h (hover.not_mem (by decide))

theorem isInfinite_iff_mem : x.isInfinite = true ↔ 'i' ∈ x.text.toList := by
  constructor
  · intro h
    rw [text_of_isInfinite h]
    simp
  · intro h
    rcases x.text_numeral with ⟨-, htext⟩ | ⟨hinf, -⟩ | ⟨hover, -⟩
    · rw [htext] at h
      exact absurd h (by decide)
    · exact hinf
    · exact absurd h (hover.not_mem (by decide))

theorem eq_of_infinite (hx : x.isInfinite = true) (hy : y.isInfinite = true) (h : x.text = y.text) :
    x = y := by
  rw [text_of_isInfinite hx, text_of_isInfinite hy] at h
  have hneg : x.negative = y.negative := by
    cases hxn : x.negative <;> cases hyn : y.negative <;> simp only [hxn, hyn] at h ⊢ <;>
      exact absurd h (by decide)
  exact eq_of_isInfinite hx hy hneg

theorem eq_of_finite (hxn : x.isNaN = false) (hxi : x.isInfinite = false) (hyn : y.isNaN = false)
    (hyi : y.isInfinite = false) (h : x.text = y.text) : x = y := by
  obtain ⟨s, v, htext, hreads, hx⟩ := text_reads hxn hxi
  obtain ⟨s', v', htext', hreads', hy⟩ := text_reads hyn hyi
  rw [htext, htext'] at h
  obtain ⟨hneg, rfl⟩ := sign_append_inj hreads hreads' h
  have hnegative : x.negative = y.negative := Bool.eq_iff_iff.mpr hneg
  rcases hx with ⟨hx, hv⟩ | ⟨hx, hv⟩
  · rcases hy with ⟨hy, -⟩ | ⟨hy, hv'⟩
    · exact eq_of_isZero hx hy hnegative
    · exact absurd hv (hv'.pos (onGrid hy).pos).ne'
  · rcases hy with ⟨hy, hv'⟩ | ⟨hy, hv'⟩
    · exact absurd hv' (hv.pos (onGrid hx).pos).ne'
    · obtain ⟨hm, hq⟩ := RoundsTo.unique (onGrid hx) (onGrid hy) hv hv'
      obtain ⟨hexp, hfrac⟩ := parts_eq hm hq
      exact eq_of_parts hnegative hexp hfrac

theorem eq_or_isNaN_of_text_eq (h : x.text = y.text) : x = y ∨ x.isNaN = true ∧ y.isNaN = true := by
  have hnan : x.isNaN = y.isNaN := by rw [Bool.eq_iff_iff, isNaN_iff_mem, isNaN_iff_mem, h]
  have hinf : x.isInfinite = y.isInfinite := by
    rw [Bool.eq_iff_iff, isInfinite_iff_mem, isInfinite_iff_mem, h]
  cases hxn : x.isNaN with
  | true => exact .inr ⟨rfl, hnan ▸ hxn⟩
  | false =>
    left
    cases hxi : x.isInfinite with
    | true => exact eq_of_infinite hxi (hinf ▸ hxi) h
    | false => exact eq_of_finite hxn hxi (hnan ▸ hxn) (hinf ▸ hxi) h

end GraphCopy.Binary64
