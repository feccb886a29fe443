import GraphCopy.Calendar.Timestamp
import GraphCopy.Number.Decimal
import Mathlib.Algebra.Group.Nat.Defs
import Mathlib.Data.List.Basic

/-!
# The characters of numbers and dates

Integers and dates are written with digits and signs. Numbers with a fraction
or an exponent add the point and the mark of the exponent, points in time the
point, the colon and the letter between date and time. So these texts have no
quote, no bracket, no blank and no at sign in them.
-/

namespace GraphCopy

namespace Text

def isSigned (c : Char) : Bool := c.isDigit || c == '-' || c == '+'

def isNumeral (c : Char) : Bool := isSigned c || c == '.' || c == 'e' || c == 'E'

def isTime (c : Char) : Bool := isSigned c || c == '.' || c == ':' || c == 'T'

def Over (p : Char → Bool) (cs : List Char) : Prop := ∀ c ∈ cs, p c = true

instance (p : Char → Bool) (cs : List Char) : Decidable (Over p cs) :=
  List.decidableBAll (fun c => p c = true) cs

variable {p q : Char → Bool} {cs ds : List Char}

theorem over_cons {c : Char} : Over p (c :: cs) ↔ p c = true ∧ Over p cs := List.forall_mem_cons

theorem over_append : Over p (cs ++ ds) ↔ Over p cs ∧ Over p ds := List.forall_mem_append

theorem Over.mono (h : Over p cs) (hpq : ∀ c, p c = true → q c = true) : Over q cs :=
  fun c hc => hpq c (h c hc)

theorem Over.not_mem {c : Char} (h : Over p cs) (hc : p c = false) : c ∉ cs := by
  intro hmem
  rw [h c hmem] at hc
  cases hc

/-- A word ends at the first character that is not its own. -/
theorem Over.append_inj {cs' k k' : List Char} (hcs : Over p cs) (hcs' : Over p cs')
    (hk : ∀ c ∈ k.head?, p c = false)
    (hk' : ∀ c ∈ k'.head?, p c = false) (h : cs ++ k = cs' ++ k') : cs = cs' ∧ k = k' := by
  induction cs generalizing cs' with
  | nil =>
    cases cs' with
    | nil => exact ⟨rfl, h⟩
    | cons c' cs' =>
      obtain rfl : k = c' :: (cs' ++ k') := h
      have hno := hk c' (by simp)
      rw [(over_cons.mp hcs').1] at hno
      cases hno
  | cons c cs ih =>
    obtain ⟨hc, hcs⟩ := over_cons.mp hcs
    cases cs' with
    | nil =>
      obtain rfl : c :: (cs ++ k) = k' := h
      have hno := hk' c (by simp)
      rw [hc] at hno
      cases hno
    | cons c' cs' =>
      obtain ⟨rfl, htail⟩ := List.cons.inj h
      obtain ⟨rfl, hkk⟩ := ih hcs (over_cons.mp hcs').2 htail
      exact ⟨rfl, hkk⟩

theorem Over.signed (h : Over Char.isDigit cs) : Over isSigned cs :=
  h.mono fun c hc => by simp [isSigned, hc]

theorem Over.numeral (h : Over isSigned cs) : Over isNumeral cs :=
  h.mono fun c hc => by simp [isNumeral, hc]

theorem Over.time (h : Over isSigned cs) : Over isTime cs :=
  h.mono fun c hc => by simp [isTime, hc]

theorem toList_toString (n : Nat) : (toString n).toList = Nat.toDigits 10 n := by
  rw [Nat.toString_eq_ofList_toDigits, String.toList_ofList]

theorem toList_toString_injective {m n : Nat} (h : (toString m).toList = (toString n).toList) :
    m = n := by
  rw [toList_toString, toList_toString] at h
  rw [← Nat.ofDigitChars_ten_toDigits (n := m), h, Nat.ofDigitChars_ten_toDigits]

theorem toString_ne_nil (n : Nat) : (toString n).toList ≠ [] := by
  rw [toList_toString]
  exact Nat.toDigits_ne_nil

theorem over_toString (n : Nat) : Over Char.isDigit (toString n).toList := by
  intro c hc
  rw [toList_toString] at hc
  exact Nat.isDigit_of_mem_toDigits (by omega) (by omega) hc

theorem over_replicate (n : Nat) : Over Char.isDigit (List.replicate n '0') := by
  intro c hc
  rw [List.eq_of_mem_replicate hc]
  rfl

theorem over_zeros (n : Nat) : Over Char.isDigit (zeros n).toList := by
  rw [zeros, String.toList_ofList]
  exact over_replicate n

theorem ofDigitChars_toString (n : Nat) : Nat.ofDigitChars 10 (toString n).toList 0 = n := by
  rw [toList_toString, Nat.ofDigitChars_ten_toDigits]

theorem ofDigitChars_padded (k n : Nat) :
    Nat.ofDigitChars 10 (List.replicate k '0' ++ (toString n).toList) 0 = n := by
  rw [Nat.ofDigitChars_append, Nat.ofDigitChars_replicate_zero, Nat.mul_zero, ofDigitChars_toString]

theorem length_toString_le {n k : Nat} (hk : 0 < k) (hn : n < 10 ^ k) :
    (toString n).toList.length ≤ k := by
  rw [toList_toString]
  exact (Nat.length_toDigits_le_iff (by omega) hk).mpr hn

theorem toList_toString_int (n : Int) :
    (toString n).toList = (if n < 0 then ['-'] else []) ++ (toString n.natAbs).toList := by
  rw [Int.toString_eq_repr, Int.repr_eq_if, Nat.toString_eq_repr]
  by_cases hn : n < 0
  · rw [if_neg (by omega), if_pos hn, show (-n).toNat = n.natAbs by omega]
    simp
  · rw [if_pos (by omega), if_neg hn, show n.toNat = n.natAbs by omega]
    simp

theorem over_toString_int (n : Int) : Over isSigned (toString n).toList := by
  rw [toList_toString_int, over_append]
  refine ⟨?_, (over_toString _).signed⟩
  split <;> decide

theorem over_sign (neg : Prop) [Decidable neg] : Over isSigned (if neg then "-" else "").toList := by
  split <;> decide

end Text

open Text

namespace DecimalDigits

variable (d : DecimalDigits)

theorem over_positional : Over isNumeral d.positional.toList := by
  have hds := over_toString d.digits
  unfold positional
  split
  · simp only [String.toList_append, over_append]
    exact ⟨⟨hds.signed.numeral, (over_zeros _).signed.numeral⟩, by decide⟩
  · dsimp only
    split
    · simp only [String.toList_append, String.toList_ofList, over_append]
      have htake : Over Char.isDigit ((toString d.digits).toList.take
          ((toString d.digits).length - (-d.exponent).toNat)) :=
        fun c hc => hds c (List.mem_of_mem_take hc)
      have hdrop : Over Char.isDigit ((toString d.digits).toList.drop
          ((toString d.digits).length - (-d.exponent).toNat)) :=
        fun c hc => hds c (List.mem_of_mem_drop hc)
      exact ⟨⟨htake.signed.numeral, by decide⟩, hdrop.signed.numeral⟩
    · simp only [String.toList_append, over_append]
      exact ⟨⟨by decide, (over_zeros _).signed.numeral⟩, hds.signed.numeral⟩

theorem point_mem_positional : '.' ∈ d.positional.toList := by
  unfold positional
  split
  · simp
  · dsimp only
    split <;> simp

theorem over_scientific {mark : String} (hmark : Over isNumeral mark.toList) :
    Over isNumeral (d.scientific mark).toList := by
  have hds := over_toString d.digits
  have htake : Over Char.isDigit ((toString d.digits).toList.take 1) :=
    fun c hc => hds c (List.mem_of_mem_take hc)
  have hdrop : Over Char.isDigit ((toString d.digits).toList.drop 1) :=
    fun c hc => hds c (List.mem_of_mem_drop hc)
  simp only [scientific, String.toList_append, String.toList_ofList, over_append]
  refine ⟨⟨⟨htake.signed.numeral, ?_⟩, hmark⟩, (over_toString_int _).numeral⟩
  split
  · decide
  · simp only [String.toList_append, String.toList_ofList, over_append]
    exact ⟨by decide, hdrop.signed.numeral⟩

theorem mark_mem_scientific {mark : String} {c : Char} (hc : c ∈ mark.toList) :
    c ∈ (d.scientific mark).toList := by
  simp [scientific, hc]

end DecimalDigits

theorem Decimal.over_text (d : Decimal) : Over isNumeral d.text.toList := by
  have hds := (over_toString d.digits.natAbs).signed.numeral
  have hsign := (over_sign (d.digits < 0)).numeral
  unfold text
  split
  · decide
  · dsimp only
    split
    · rw [String.toList_append, over_append]
      exact ⟨hsign, DecimalDigits.over_scientific _ (by decide)⟩
    · split
      · simp only [String.toList_append, over_append]
        exact ⟨⟨⟨hsign, hds⟩, by decide⟩, (over_toString_int _).numeral⟩
      · split
        · simp only [String.toList_append, over_append]
          exact ⟨⟨hsign, hds⟩, (over_zeros _).signed.numeral⟩
        · rw [String.toList_append, over_append]
          exact ⟨hsign, DecimalDigits.over_positional _⟩

theorem Binary64.text_numeral (x : Binary64) :
    (x.isNaN = true ∧ x.text = "NaN") ∨
    (x.isInfinite = true ∧ x.text = (if x.negative then "-" else "") ++ "inf") ∨
    (Over isNumeral x.text.toList ∧ ('.' ∈ x.text.toList ∨ 'e' ∈ x.text.toList)) := by
  have hsign := (over_sign (x.negative = true)).numeral
  unfold text
  by_cases hnan : x.isNaN = true
  · exact .inl ⟨hnan, if_pos hnan⟩
  · right
    rw [if_neg hnan]
    dsimp only
    by_cases hinf : x.isInfinite = true
    · exact .inl ⟨hinf, if_pos hinf⟩
    · right
      rw [if_neg hinf]
      generalize (if x.negative = true then "-" else "") = sign at hsign
      generalize shortest x.significand x.exponent = d
      by_cases hzero : x.isZero = true
      · rw [if_pos hzero, String.toList_append, over_append]
        exact ⟨⟨hsign, by decide⟩, .inl (by simp)⟩
      · rw [if_neg hzero, String.toList_append, over_append]
        by_cases hplain : d.isPlain = true
        · rw [if_pos hplain]
          exact ⟨⟨hsign, d.over_positional⟩, .inl (by simp [d.point_mem_positional])⟩
        · rw [if_neg hplain]
          refine ⟨⟨hsign, d.over_scientific (by decide)⟩, .inr ?_⟩
          exact List.mem_append_right _ (d.mark_mem_scientific (by decide))

theorem over_twoDigits (n : Nat) : Over Char.isDigit (twoDigits n).toList := by
  rw [twoDigits, String.toList_append, over_append]
  refine ⟨?_, over_toString n⟩
  split <;> decide

theorem over_yearText (y : Int) : Over isSigned (yearText y).toList := by
  have hpadded : Over isSigned (String.ofList (List.replicate (4 - (toString y.natAbs).length) '0') ++
      toString y.natAbs).toList := by
    rw [String.toList_append, String.toList_ofList, over_append]
    exact ⟨(over_replicate _).signed, (over_toString _).signed⟩
  unfold yearText
  dsimp only
  split
  · exact hpadded
  · rw [String.toList_append, over_append]
    refine ⟨?_, hpadded⟩
    split <;> decide

theorem Date.over_text (d : Date) : Over isSigned d.text.toList := by
  simp only [text, String.toList_append, over_append]
  exact ⟨⟨⟨⟨over_yearText _, by decide⟩, (over_twoDigits _).signed⟩, by decide⟩,
    (over_twoDigits _).signed⟩

theorem Timestamp.over_padded (width n : Nat) : Over Char.isDigit (padded width n).toList := by
  rw [padded, String.toList_append, String.toList_ofList, over_append]
  exact ⟨over_replicate _, over_toString n⟩

theorem Timestamp.over_fractionText (n : Nat) : Over isTime (fractionText n).toList := by
  have hpadded := fun width n => (over_padded width n).signed.time
  unfold fractionText
  split
  · decide
  · split
    · rw [String.toList_append, over_append]
      exact ⟨by decide, hpadded _ _⟩
    · split <;>
      · rw [String.toList_append, over_append]
        exact ⟨by decide, hpadded _ _⟩

theorem Timestamp.over_text (t : Timestamp) : Over isTime t.text.toList := by
  have htwo := fun n => (over_twoDigits n).signed.time
  simp only [text, String.toList_append, over_append]
  exact ⟨⟨⟨⟨⟨⟨⟨⟨(Date.over_text _).time, by decide⟩, htwo _⟩, by decide⟩, htwo _⟩, by decide⟩,
    htwo _⟩, over_fractionText _⟩, by decide⟩

end GraphCopy
