import GraphCopy.Proofs.Calendar.Civil
import GraphCopy.Proofs.Text.Alphabet

/-!
# Dates and points in time are told by their texts

Month and day have two digits, so the year is what stands before them. Its
digits may be padded, but padding does not change the number. A point in time
is split at the letter between date and time; the time of day has a fixed width,
and the width of the fraction tells its unit.
-/

namespace GraphCopy

open Text

theorem twoDigits_toList (n : Nat) :
    (twoDigits n).toList = List.replicate (if n < 10 then 1 else 0) '0' ++ (toString n).toList := by
  rw [twoDigits, String.toList_append]
  split <;> rfl

theorem twoDigits_injective {m n : Nat} (h : (twoDigits m).toList = (twoDigits n).toList) : m = n := by
  rw [← ofDigitChars_padded (if m < 10 then 1 else 0) m, ← twoDigits_toList, h, twoDigits_toList,
    ofDigitChars_padded]

theorem length_twoDigits {n : Nat} (hn : n < 100) : (twoDigits n).toList.length = 2 := by
  have hone : (toString n).toList.length ≤ 1 ↔ n < 10 := by
    rw [toList_toString]
    exact Nat.length_toDigits_le_iff (by omega) (by omega)
  have htwo := length_toString_le (k := 2) (by omega) (show n < 10 ^ 2 by omega)
  have hpos : 0 < (toString n).toList.length := by
    rw [toList_toString]
    exact Nat.length_toDigits_pos
  rw [twoDigits_toList, List.length_append, List.length_replicate]
  split <;> omega

theorem yearText_toList (y : Int) : (yearText y).toList =
    (if 0 ≤ y ∧ y ≤ 9999 then [] else [if y < 0 then '-' else '+']) ++
      (List.replicate (4 - (toString y.natAbs).length) '0' ++ (toString y.natAbs).toList) := by
  unfold yearText
  dsimp only
  split
  · simp
  · split <;> simp

theorem yearText_injective {y y' : Int} (h : (yearText y).toList = (yearText y').toList) : y = y' := by
  have hsign : ∀ y : Int, Over (fun c => !c.isDigit)
      (if 0 ≤ y ∧ y ≤ 9999 then [] else [if y < 0 then '-' else '+']) := by
    intro y
    split
    · decide
    · split <;> decide
  have hdigits : ∀ k n : Nat, ∀ c ∈ (List.replicate k '0' ++ (toString n).toList).head?,
      (!c.isDigit) = false := by
    intro k n c hc
    have hover : Over Char.isDigit (List.replicate k '0' ++ (toString n).toList) :=
      over_append.mpr ⟨over_replicate k, over_toString n⟩
    simp [hover c (List.mem_of_mem_head? hc)]
  rw [yearText_toList, yearText_toList] at h
  obtain ⟨hs, hds⟩ := (hsign y).append_inj (hsign y') (hdigits _ _) (hdigits _ _) h
  have habs : y.natAbs = y'.natAbs := by
    rw [← ofDigitChars_padded (4 - (toString y.natAbs).length) y.natAbs, hds, ofDigitChars_padded]
  have hneg : y < 0 ↔ y' < 0 := by
    by_cases hplain : 0 ≤ y ∧ y ≤ 9999
    · by_cases hplain' : 0 ≤ y' ∧ y' ≤ 9999
      · omega
      · simp [hplain, hplain'] at hs
    · by_cases hplain' : 0 ≤ y' ∧ y' ≤ 9999
      · simp [hplain, hplain'] at hs
      · rw [if_neg hplain, if_neg hplain', List.singleton_inj] at hs
        by_cases hy : y < 0
        · by_cases hy' : y' < 0
          · exact ⟨fun _ => hy', fun _ => hy⟩
          · rw [if_pos hy, if_neg hy'] at hs
            exact absurd hs (by decide)
        · by_cases hy' : y' < 0
          · rw [if_neg hy, if_pos hy'] at hs
            exact absurd hs (by decide)
          · exact ⟨fun h => absurd h hy, fun h => absurd h hy'⟩
  omega

namespace Date

theorem month_lt (d : Date) : d.month < 100 := by
  obtain ⟨-, -, -, h, -⟩ := d.valid
  omega

theorem day_lt (d : Date) : d.day < 100 := by
  obtain ⟨-, -, -, -, -, h⟩ := d.valid
  have hmonth : daysInMonth d.year d.month ≤ 31 := by
    unfold daysInMonth
    split
    · split <;> omega
    · split <;> omega
  omega

theorem civil_of_ofDays? {n : Int} {d : Date} (h : ofDays? n = some d) :
    civil n = (d.year, d.month, d.day) := by
  simp only [ofDays?, of?] at h
  split at h
  · cases h
    rfl
  · cases h

theorem text_injective {d d' : Date} (h : d.text.toList = d'.text.toList) : d = d' := by
  simp only [text, String.toList_append, List.append_assoc] at h
  obtain ⟨hyear, hrest⟩ := List.append_inj' h (by
    simp only [List.length_append, length_twoDigits d.month_lt, length_twoDigits d.day_lt,
      length_twoDigits d'.month_lt, length_twoDigits d'.day_lt])
  obtain ⟨hmonth, hday⟩ := List.append_inj (List.append_cancel_left hrest)
    ((length_twoDigits d.month_lt).trans (length_twoDigits d'.month_lt).symm)
  have hy := yearText_injective hyear
  have hm := twoDigits_injective hmonth
  have hd := twoDigits_injective (List.append_cancel_left hday)
  cases d
  cases d'
  simp_all

end Date

namespace Timestamp

theorem padded_injective {width m n : Nat} (h : (padded width m).toList = (padded width n).toList) :
    m = n := by
  simp only [padded, String.toList_append, String.toList_ofList] at h
  rw [← ofDigitChars_padded (width - (toString m).length) m, h, ofDigitChars_padded]

theorem length_padded {width n : Nat} (hw : 0 < width) (hn : n < 10 ^ width) :
    (padded width n).toList.length = width := by
  have hle := length_toString_le hw hn
  have hlen : (toString n).length = (toString n).toList.length := (String.length_toList).symm
  simp only [padded, String.toList_append, String.toList_ofList, List.length_append,
    List.length_replicate, hlen]
  omega

theorem fractionText_cases {nanos : Nat} (h : nanos < 1000000000) :
    (nanos = 0 ∧ fractionText nanos = "") ∨
      ∃ width unit n, 0 < width ∧ (width, unit) ∈ [(3, 1000000), (6, 1000), (9, 1)] ∧ n < 10 ^ width ∧
        nanos = unit * n ∧ fractionText nanos = "." ++ padded width n := by
  unfold fractionText
  by_cases h₀ : nanos = 0
  · exact .inl ⟨h₀, if_pos h₀⟩
  · right
    rw [if_neg h₀]
    by_cases h₃ : nanos % 1000000 = 0
    · exact ⟨3, 1000000, nanos / 1000000, by omega, by simp, by omega, by omega, if_pos h₃⟩
    · rw [if_neg h₃]
      by_cases h₆ : nanos % 1000 = 0
      · exact ⟨6, 1000, nanos / 1000, by omega, by simp, by omega, by omega, if_pos h₆⟩
      · exact ⟨9, 1, nanos, by omega, by simp, by omega, by omega, if_neg h₆⟩

theorem fractionText_injective {m n : Nat} (hm : m < 1000000000) (hn : n < 1000000000)
    (h : (fractionText m).toList = (fractionText n).toList) : m = n := by
  rcases fractionText_cases hm with ⟨rfl, htext⟩ | ⟨w, u, k, hw, hwu, hk, rfl, htext⟩
  · rcases fractionText_cases hn with ⟨rfl, -⟩ | ⟨w', u', k', -, -, -, -, htext'⟩
    · rfl
    · rw [htext, htext'] at h
      simp at h
  · rcases fractionText_cases hn with ⟨rfl, htext'⟩ | ⟨w', u', k', hw', hwu', hk', rfl, htext'⟩
    · rw [htext, htext'] at h
      simp at h
    · rw [htext, htext', String.toList_append, String.toList_append] at h
      have hpadded := List.append_cancel_left h
      obtain rfl : w = w' := by rw [← length_padded hw hk, hpadded, length_padded hw' hk']
      obtain rfl := padded_injective hpadded
      have hunit : u = u' := by
        simp only [List.mem_cons, Prod.mk.injEq, List.not_mem_nil, or_false] at hwu hwu'
        omega
      rw [hunit]

theorem text_injective {t t' : Timestamp} (h : t.text.toList = t'.text.toList) : t = t' := by
  have hdate : ∀ t : Timestamp, ∃ d, Date.ofDays? (t.seconds / 86400) = some d :=
    fun t => Option.isSome_iff_exists.mp t.valid.1
  obtain ⟨d, hd⟩ := hdate t
  obtain ⟨d', hd'⟩ := hdate t'
  have hnanos := t.valid.2
  have hnanos' := t'.valid.2
  simp only [text, hd, hd', Option.getD_some, String.toList_append, List.append_assoc] at h
  have hmark : ∀ {cs : List Char}, ∀ c ∈ ("T".toList ++ cs).head?, isSigned c = false := by
    rintro cs c hc
    cases hc
    rfl
  obtain ⟨hday, hrest⟩ := d.over_text.append_inj d'.over_text hmark hmark h
  obtain ⟨hhour, hrest⟩ := List.append_inj (List.append_cancel_left hrest)
    ((length_twoDigits (by omega)).trans (length_twoDigits (by omega)).symm)
  obtain ⟨hminute, hrest⟩ := List.append_inj (List.append_cancel_left hrest)
    ((length_twoDigits (by omega)).trans (length_twoDigits (by omega)).symm)
  obtain ⟨hsecond, hrest⟩ := List.append_inj (List.append_cancel_left hrest)
    ((length_twoDigits (by split <;> omega)).trans (length_twoDigits (by split <;> omega)).symm)
  have hfraction := fractionText_injective (by split <;> omega) (by split <;> omega)
    (List.append_cancel_right hrest)
  have hhour := twoDigits_injective hhour
  have hminute := twoDigits_injective hminute
  have hsecond := twoDigits_injective hsecond
  have hdays : t.seconds / 86400 = t'.seconds / 86400 := by
    apply Date.civil_injective
    rw [Date.civil_of_ofDays? hd, Date.civil_of_ofDays? hd', Date.text_injective hday]
  -- only a leap second is shown as second sixty
  have hleap : 1000000000 ≤ t.nanos ↔ 1000000000 ≤ t'.nanos := by
    constructor
    · intro hl
      have hlast := hnanos.2 hl
      rw [if_pos hl] at hsecond
      split at hsecond <;> omega
    · intro hl
      have hlast := hnanos'.2 hl
      rw [if_pos hl] at hsecond
      split at hsecond <;> omega
  simp only [hleap, Nat.add_right_cancel_iff] at hsecond hfraction
  have hnanosEq : t.nanos = t'.nanos := by
    split at hfraction <;> omega
  have hseconds : t.seconds = t'.seconds := by omega
  cases t
  cases t'
  simp_all

end Timestamp

end GraphCopy
