import GraphCopy.Calendar.Timestamp

/-!
# The calendar names each day once

Within the period of 400 years, a day lies in a century, in a group of four
years of the century, and in a year of the group; only the last year of a group
has a leap day, and only the last century ends with a whole group. `Date.days`
counts the days back from year, month and day, so the date of a day tells the
day.
-/

namespace GraphCopy.Date

def yearOfPeriod (day : Nat) : Nat := (day - day / 1460 + day / 36524 - day / 146096) / 365

def startOfYear (year : Nat) : Nat := 365 * year + year / 4 - year / 100

def days (date : Int × Nat × Nat) : Int :=
  let (y, m, d) := date
  let year := if m ≤ 2 then y - 1 else y
  let month := if m ≤ 2 then m + 9 else m - 3
  year / 400 * 146097 + (startOfYear (year % 400).toNat + ((153 * month + 2) / 5 + (d - 1)) : Nat) - 719468

/-- A day of the period by its century, group of four years, year of the group, and day of that
year. -/
theorem exists_period_day {day : Nat} (h : day ≤ 146096) :
    ∃ c u v k, day = 36524 * c + 1461 * u + 365 * v + k ∧ c ≤ 3 ∧ u ≤ 24 ∧ v ≤ 3 ∧
      k ≤ 364 + v / 3 ∧ (c ≤ 2 → 1461 * u + 365 * v + k < 36524) := by
  obtain ⟨c, r, rfl, hc, hr⟩ : ∃ c r, day = 36524 * c + r ∧ c ≤ 3 ∧ r ≤ 36524 ∧
      (c ≤ 2 → r < 36524) := by
    by_cases hlast : day = 146096
    · exact ⟨3, 36524, by omega, by omega, by omega, by omega⟩
    · exact ⟨day / 36524, day % 36524, by omega, by omega, by omega, by omega⟩
  obtain ⟨u, w, rfl, hu, hw⟩ : ∃ u w, r = 1461 * u + w ∧ u ≤ 24 ∧ w ≤ 1460 :=
    ⟨r / 1461, r % 1461, by omega, by omega, by omega⟩
  by_cases hlast : w = 1460
  · exact ⟨c, u, 3, 365, by omega, by omega, by omega, by omega, by omega, by omega⟩
  · exact ⟨c, u, w / 365, w % 365, by omega, by omega, by omega, by omega, by omega, by omega⟩

section PeriodDay

variable {c u v k : Nat}

theorem yearOfPeriod_eq (hc : c ≤ 3) (hu : u ≤ 24) (hv : v ≤ 3) (hk : k ≤ 364 + v / 3)
    (hcentury : c ≤ 2 → 1461 * u + 365 * v + k < 36524) :
    yearOfPeriod (36524 * c + 1461 * u + 365 * v + k) = 100 * c + 4 * u + v := by
  have hgroups : (36524 * c + 1461 * u + 365 * v + k) / 1460 =
      25 * c + u + (24 * c + u + 365 * v + k) / 1460 := by
    omega
  have hcenturies : (36524 * c + 1461 * u + 365 * v + k) / 36524 =
      c + (36524 * c + 1461 * u + 365 * v + k) / 146096 := by
    by_cases hlast : 1461 * u + 365 * v + k < 36524
    · have h₁ : (36524 * c + 1461 * u + 365 * v + k) / 36524 = c := by omega
      have h₂ : (36524 * c + 1461 * u + 365 * v + k) / 146096 = 0 := by omega
      rw [h₁, h₂]
      rfl
    · obtain rfl : c = 3 := by omega
      omega
  -- the leap day of the last year is taken off exactly when it is there
  have hleap : (24 * c + u + 365 * v + k) / 1460 ≤ k ∧
      k - (24 * c + u + 365 * v + k) / 1460 < 365 := by
    by_cases hfull : 24 * c + u + 365 * v + k < 1460
    · rw [Nat.div_eq_of_lt hfull]
      omega
    · have hone : (24 * c + u + 365 * v + k) / 1460 = 1 :=
        Nat.div_eq_of_lt_le (by omega) (by omega)
      rw [hone]
      omega
  rw [yearOfPeriod, hgroups, hcenturies]
  generalize (24 * c + u + 365 * v + k) / 1460 = leap at hleap
  generalize (36524 * c + 1461 * u + 365 * v + k) / 146096 = last
  obtain ⟨j, rfl⟩ := Nat.exists_eq_add_of_le hleap.1
  rw [Nat.add_sub_cancel_left] at hleap
  have hsum : 36524 * c + 1461 * u + 365 * v + (leap + j) =
      (25 * c + u + leap) + (36499 * c + 1460 * u + 365 * v + j) := by
    omega
  have hwhole : 36499 * c + 1460 * u + 365 * v + j + c = j + 365 * (100 * c + 4 * u + v) := by omega
  rw [hsum, Nat.add_sub_cancel_left, ← Nat.add_assoc, Nat.add_sub_cancel, hwhole,
    Nat.add_mul_div_left _ _ (by omega), Nat.div_eq_of_lt hleap.2, Nat.zero_add]

theorem startOfYear_eq (hu : u ≤ 24) (hv : v ≤ 3) :
    startOfYear (100 * c + 4 * u + v) = 36524 * c + 1461 * u + 365 * v := by
  unfold startOfYear
  omega

end PeriodDay

theorem days_civil (n : Int) : days (civil n) = n := by
  have hperiod : ((n + 719468) % 146097).toNat ≤ 146096 := by omega
  have hn : n + 719468 = (n + 719468) / 146097 * 146097 + ((n + 719468) % 146097).toNat := by omega
  have hcivil : civil n =
      let day := ((n + 719468) % 146097).toNat
      let inYear := day - startOfYear (yearOfPeriod day)
      let month := (5 * inYear + 2) / 153
      let m := if month < 10 then month + 3 else month - 9
      ((n + 719468) / 146097 * 400 + yearOfPeriod day + (if m ≤ 2 then 1 else 0), m,
        inYear - (153 * month + 2) / 5 + 1) := rfl
  generalize (n + 719468) / 146097 = era at hn hcivil
  generalize ((n + 719468) % 146097).toNat = day at hperiod hn hcivil
  obtain ⟨c, u, v, k, rfl, hc, hu, hv, hk, hcentury⟩ := exists_period_day hperiod
  simp only [yearOfPeriod_eq hc hu hv hk hcentury, startOfYear_eq hu hv, Nat.add_sub_cancel_left]
    at hcivil
  have hyear : 100 * c + 4 * u + v < 400 := by omega
  have hstart := startOfYear_eq (c := c) hu hv
  generalize 100 * c + 4 * u + v = year at hcivil hyear hstart
  have hmonth : (5 * k + 2) / 153 ≤ 11 := by omega
  have hday : (153 * ((5 * k + 2) / 153) + 2) / 5 ≤ k := by omega
  generalize (5 * k + 2) / 153 = month at hcivil hmonth hday
  have hback : ∀ y : Int, y = era * 400 + year → y / 400 = era ∧ (y % 400).toNat = year := by
    rintro y rfl
    omega
  rw [hcivil]
  by_cases hm : month < 10
  · have hlate : ¬ month + 3 ≤ 2 := by omega
    obtain ⟨hera, hyears⟩ := hback (era * 400 + year + 0) (by omega)
    simp only [days, if_pos hm, if_neg hlate, hera, hyears, hstart]
    omega
  · have hearly : month - 9 ≤ 2 := by omega
    obtain ⟨hera, hyears⟩ := hback (era * 400 + year + 1 - 1) (by omega)
    simp only [days, if_neg hm, if_pos hearly, hera, hyears, hstart]
    omega

theorem civil_injective {n n' : Int} (h : civil n = civil n') : n = n' := by
  rw [← days_civil n, h, days_civil]

end GraphCopy.Date
