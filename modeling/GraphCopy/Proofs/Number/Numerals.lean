import GraphCopy.Number.FloatNumeral
import GraphCopy.Proofs.Text.Alphabet
import Mathlib.Algebra.Order.Field.Power
import Mathlib.Data.Rat.Cast.Order
import Mathlib.Tactic.Ring

/-!
# Numerals are read back

The layouts of decimals, with the point in place or with an exponent, are read
as the same number. So the text of a decimal tells its value.
-/

namespace GraphCopy

open Text

def FloatNumeral.value (n : FloatNumeral) : ℚ := natOfDigits n.digits * 10 ^ n.exponent

def DecimalDigits.value (d : DecimalDigits) : ℚ := d.digits * 10 ^ d.exponent

def Decimal.value (d : Decimal) : ℚ := d.digits * 10 ^ (-d.scale)

theorem lt_pow_decimalLength (n : Nat) : n < 10 ^ decimalLength n :=
  (Nat.length_toDigits_le_iff (by omega) Nat.length_toDigits_pos).mp (Nat.le_refl _)

theorem pow_decimalLength_le {n : Nat} (hn : n ≠ 0) : 10 ^ (decimalLength n - 1) ≤ n := by
  by_cases hone : decimalLength n - 1 = 0
  · rw [hone]
    omega
  · refine Nat.le_of_not_lt fun hlt => ?_
    have hle : decimalLength n ≤ decimalLength n - 1 :=
      (Nat.length_toDigits_le_iff (by omega) (by omega)).mpr hlt
    omega

section Reading

variable {w p ds k : List Char} {e : Int} {c : Char}

def digitsOf (cs : List Char) : List Nat := cs.map fun c => c.toNat - 48

theorem natOfDigits_digitsOf (ds : List Char) :
    natOfDigits (digitsOf ds) = Nat.ofDigitChars 10 ds 0 := by
  have hfold : ∀ init, (digitsOf ds).foldl (fun acc d => acc * 10 + d) init =
      Nat.ofDigitChars 10 ds init := by
    induction ds with
    | nil => exact fun _ => rfl
    | cons c ds ih =>
      intro init
      rw [digitsOf, List.map_cons, List.foldl_cons, ← digitsOf, ih, Nat.ofDigitChars_cons, Nat.mul_comm]
      rfl
  exact hfold 0

theorem digitValue?_of_isDigit (h : c.isDigit = true) : digitValue? c = some (c.toNat - 48) := by
  rw [Char.isDigit, Bool.and_eq_true, decide_eq_true_eq, decide_eq_true_eq] at h
  exact if_pos h

theorem digitValue?_of_not_isDigit (h : c.isDigit = false) : digitValue? c = none := by
  rw [Char.isDigit, Bool.and_eq_false_iff, decide_eq_false_iff_not, decide_eq_false_iff_not] at h
  exact if_neg fun hc => h.elim (· hc.1) (· hc.2)

theorem takeDigits_append (hds : Over Char.isDigit ds) (hk : ∀ c ∈ k.head?, c.isDigit = false) :
    takeDigits (ds ++ k) = (digitsOf ds, k) := by
  induction ds with
  | nil =>
    cases k with
    | nil => rfl
    | cons c k => simp [takeDigits, digitsOf, digitValue?_of_not_isDigit (hk c rfl)]
  | cons c ds ih =>
    obtain ⟨hc, hds⟩ := over_cons.mp hds
    simp only [List.cons_append, takeDigits, digitValue?_of_isDigit hc, ih hds]
    rfl

theorem takeDigits_all (hds : Over Char.isDigit ds) : takeDigits ds = (digitsOf ds, []) := by
  simpa using takeDigits_append (k := []) hds (by simp)

theorem exponentPart?_mark (hc : c = 'e' ∨ c = 'E') (hds : Over Char.isDigit ds) (hne : ds ≠ []) :
    exponentPart? (c :: ds) = some (Nat.ofDigitChars 10 ds 0 : Int) ∧
      exponentPart? (c :: '+' :: ds) = some (Nat.ofDigitChars 10 ds 0 : Int) ∧
      exponentPart? (c :: '-' :: ds) = some (-(Nat.ofDigitChars 10 ds 0 : Int)) := by
  obtain ⟨d, ds, rfl⟩ := List.exists_cons_of_ne_nil hne
  have htake := takeDigits_all hds
  have hvalue := natOfDigits_digitsOf (d :: ds)
  have hd : ∀ c : Char, c.isDigit = false → d ≠ c := by
    rintro c hc rfl
    rw [(over_cons.mp hds).1] at hc
    cases hc
  rw [digitsOf, List.map_cons] at htake hvalue
  refine ⟨?_, ?_, ?_⟩
  · rw [exponentPart?, if_pos hc]
    · simp [htake, hvalue]
    · exact fun r h => hd '-' (by decide) (List.cons.inj h).1
    · exact fun r h => hd '+' (by decide) (List.cons.inj h).1
  · simp [exponentPart?, hc, htake, hvalue]
  · simp [exponentPart?, hc, htake, hvalue]

theorem exponentPart?_int (hc : c = 'e' ∨ c = 'E') (e : Int) :
    exponentPart? (c :: (toString e).toList) = some e := by
  obtain ⟨hplain, -, hminus⟩ := exponentPart?_mark hc (over_toString e.natAbs) (toString_ne_nil _)
  rw [ofDigitChars_toString] at hplain hminus
  rw [toList_toString_int]
  split
  · rw [List.singleton_append, hminus]
    congr 1
    omega
  · rw [List.nil_append, hplain]
    congr 1
    omega

theorem exponentPart?_nil : exponentPart? [] = some 0 := rfl

def Reads (cs : List Char) (x : ℚ) : Prop := (FloatNumeral.read? cs).map FloatNumeral.value = some x

theorem Reads.unique {cs : List Char} {x x' : ℚ} (h : Reads cs x) (h' : Reads cs x') : x = x' :=
  Option.some.inj (h.symm.trans h')

theorem Reads.ne_cons {cs : List Char} {x : ℚ} (h : Reads cs x) (rest : List Char) : cs ≠ '-' :: rest := by
  rintro rfl
  cases h

theorem reads_whole (hw : Over Char.isDigit w) (hne : w ≠ [])
    (hk : ∀ c ∈ k.head?, c.isDigit = false ∧ c ≠ '.') (he : exponentPart? k = some e) :
    Reads (w ++ k) (Nat.ofDigitChars 10 w 0 * 10 ^ e) := by
  obtain ⟨d, w, rfl⟩ := List.exists_cons_of_ne_nil hne
  have hpoint : ∀ r, k ≠ '.' :: r := by
    rintro r rfl
    exact (hk '.' rfl).2 rfl
  have hread : FloatNumeral.read? (d :: w ++ k) = some ⟨digitsOf (d :: w), e⟩ := by
    rw [FloatNumeral.read?, takeDigits_append hw fun c hc => (hk c hc).1]
    dsimp only
    split
    · next r => exact absurd rfl (hpoint r)
    · simp [digitsOf, he]
  rw [Reads, hread, Option.map_some, FloatNumeral.value, natOfDigits_digitsOf]

theorem reads_point (hw : Over Char.isDigit w) (hne : w ≠ []) (hp : Over Char.isDigit p)
    (hk : ∀ c ∈ k.head?, c.isDigit = false) (he : exponentPart? k = some e) :
    Reads (w ++ '.' :: (p ++ k)) (Nat.ofDigitChars 10 (w ++ p) 0 * 10 ^ (e - p.length)) := by
  obtain ⟨d, w, rfl⟩ := List.exists_cons_of_ne_nil hne
  have hread : FloatNumeral.read? (d :: w ++ '.' :: (p ++ k)) =
      some ⟨digitsOf (d :: w ++ p), e - p.length⟩ := by
    rw [FloatNumeral.read?, takeDigits_append hw (by simp)]
    simp [takeDigits_append hp hk, digitsOf, he]
  rw [Reads, hread, Option.map_some, FloatNumeral.value, natOfDigits_digitsOf]

end Reading

section Layouts

variable (n : Nat) (k : Nat)

theorem reads_natural : Reads ((toString n).toList ++ List.replicate k '0') (n * 10 ^ (k : Int)) := by
  have hreads := reads_whole (k := []) (over_append.mpr ⟨over_toString n, over_replicate k⟩)
    (by simp) (by simp) exponentPart?_nil
  rw [Nat.ofDigitChars_append, Nat.ofDigitChars_replicate_zero, ofDigitChars_toString,
    List.append_nil] at hreads
  have hvalue : (n * 10 ^ (k : Int) : ℚ) = (10 ^ k * n : Nat) * 10 ^ (0 : Int) := by
    push_cast
    rw [zpow_natCast]
    ring
  rwa [hvalue]

theorem reads_integral :
    Reads ((toString n).toList ++ List.replicate k '0' ++ ['.', '0']) (n * 10 ^ (k : Int)) := by
  have hreads := reads_point (p := ['0']) (k := [])
    (over_append.mpr ⟨over_toString n, over_replicate k⟩) (by simp) (by decide) (by simp)
    exponentPart?_nil
  have hnumber : Nat.ofDigitChars 10 ((toString n).toList ++ List.replicate k '0' ++ ['0']) 0 =
      10 ^ (k + 1) * n := by
    rw [List.append_assoc, ← List.replicate_succ', Nat.ofDigitChars_append,
      Nat.ofDigitChars_replicate_zero, ofDigitChars_toString]
  have hvalue : (n * 10 ^ (k : Int) : ℚ) = (10 ^ (k + 1) * n : Nat) * 10 ^ ((0 : Int) - 1) := by
    push_cast
    rw [zpow_natCast, pow_succ]
    norm_num
    ring
  rw [hnumber] at hreads
  rw [hvalue]
  simpa using hreads

theorem reads_split (hk : k < (toString n).toList.length) :
    Reads ((toString n).toList.take ((toString n).toList.length - k) ++
      '.' :: (toString n).toList.drop ((toString n).toList.length - k)) (n * 10 ^ (-k : Int)) := by
  have hds := over_toString n
  have hreads := reads_point (k := [])
    (w := (toString n).toList.take ((toString n).toList.length - k))
    (p := (toString n).toList.drop ((toString n).toList.length - k))
    (fun c hc => hds c (List.mem_of_mem_take hc))
    (fun h => (List.take_eq_nil_iff.mp h).elim (by omega) (toString_ne_nil n))
    (fun c hc => hds c (List.mem_of_mem_drop hc)) (by simp) exponentPart?_nil
  have hplaces :
      (0 : Int) - ((toString n).toList.length - ((toString n).toList.length - k) : Nat) = -k := by
    omega
  rwa [List.take_append_drop, ofDigitChars_toString, List.length_drop, hplaces, List.append_nil]
    at hreads

theorem reads_fraction (hk : (toString n).toList.length ≤ k) :
    Reads ('0' :: '.' :: (List.replicate (k - (toString n).toList.length) '0' ++ (toString n).toList))
      (n * 10 ^ (-k : Int)) := by
  have hreads := reads_point (w := ['0']) (k := []) (by decide) (by simp)
    (over_append.mpr ⟨over_replicate (k - (toString n).toList.length), over_toString n⟩) (by simp)
    exponentPart?_nil
  have hplaces : (0 : Int) - (k - (toString n).toList.length + (toString n).toList.length : Nat) = -k := by
    omega
  rw [Nat.ofDigitChars_append, show Nat.ofDigitChars 10 ['0'] 0 = 0 by decide, ofDigitChars_padded,
    List.length_append, List.length_replicate, hplaces, List.append_nil, List.singleton_append] at hreads
  exact hreads

end Layouts

namespace DecimalDigits

variable (d : DecimalDigits)

theorem reads_positional : Reads d.positional.toList d.value := by
  have hlen : (toString d.digits).length = (toString d.digits).toList.length :=
    String.length_toList.symm
  unfold positional
  dsimp only
  rw [hlen, value]
  split
  · next he =>
    have hreads := reads_integral d.digits d.exponent.toNat
    rw [Int.toNat_of_nonneg he] at hreads
    simpa [zeros] using hreads
  · next he =>
    have hplaces : (-((-d.exponent).toNat : Int)) = d.exponent := by omega
    split
    · next hk =>
      have hreads := reads_split d.digits _ hk
      rw [hplaces] at hreads
      simpa using hreads
    · next hk =>
      have hreads := reads_fraction d.digits _ (Nat.le_of_not_lt hk)
      rw [hplaces] at hreads
      simpa [zeros] using hreads

theorem reads_scientific {mark : String} (hmark : mark = "e" ∨ mark = "E") :
    Reads (d.scientific mark).toList d.value := by
  obtain ⟨m, hm, hme⟩ : ∃ m, mark.toList = [m] ∧ (m = 'e' ∨ m = 'E') := by
    rcases hmark with rfl | rfl
    · exact ⟨'e', rfl, .inl rfl⟩
    · exact ⟨'E', rfl, .inr rfl⟩
  have hmdigit : m.isDigit = false ∧ m ≠ '.' := by rcases hme with rfl | rfl <;> decide
  have hds := over_toString d.digits
  have hne := toString_ne_nil d.digits
  have hnumber := ofDigitChars_toString d.digits
  simp only [scientific, String.toList_append, String.toList_ofList, hm, value]
  generalize (toString d.digits).toList = ds at hds hne hnumber ⊢
  obtain ⟨c, ds, rfl⟩ := List.exists_cons_of_ne_nil hne
  obtain ⟨hc, hds⟩ := over_cons.mp hds
  have hexponent := exponentPart?_int hme (d.exponent + (ds.length : Nat))
  simp only [List.take_succ_cons, List.take_zero, List.drop_succ_cons, List.drop_zero,
    List.length_cons, Nat.add_sub_cancel]
  cases ds with
  | nil =>
    have hreads := reads_whole (w := [c]) (over_cons.mpr ⟨hc, hds⟩) (by simp)
      (by simpa using hmdigit) hexponent
    rw [hnumber] at hreads
    simpa using hreads
  | cons c' ds =>
    have hreads := reads_point (w := [c]) (p := c' :: ds) (over_cons.mpr ⟨hc, by simp [Over]⟩)
      (by simp) hds (by simpa using hmdigit.1) hexponent
    rw [show [c] ++ c' :: ds = c :: c' :: ds from rfl, hnumber] at hreads
    simpa using hreads

end DecimalDigits

theorem sign_append_inj {neg neg' : Prop} [Decidable neg] [Decidable neg'] {s s' : String} {x x' : ℚ}
    (hs : Reads s.toList x) (hs' : Reads s'.toList x')
    (h : (if neg then "-" else "") ++ s = (if neg' then "-" else "") ++ s') :
    (neg ↔ neg') ∧ x = x' := by
  have hlist := congrArg String.toList h
  rw [String.toList_append, String.toList_append] at hlist
  by_cases hneg : neg
  · by_cases hneg' : neg'
    · rw [if_pos hneg, if_pos hneg'] at hlist
      have htail := List.append_cancel_left hlist
      exact ⟨by simp [hneg, hneg'], hs.unique (htail ▸ hs')⟩
    · rw [if_pos hneg, if_neg hneg'] at hlist
      exact absurd hlist.symm (hs'.ne_cons _)
  · by_cases hneg' : neg'
    · rw [if_neg hneg, if_pos hneg'] at hlist
      exact absurd hlist (hs.ne_cons _)
    · rw [if_neg hneg, if_neg hneg'] at hlist
      have htail := List.append_cancel_left hlist
      exact ⟨by simp [hneg, hneg'], hs.unique (htail ▸ hs')⟩

namespace Decimal

variable (d : Decimal)

/-- The text of a decimal is its sign and a numeral for its magnitude. -/
theorem text_reads : ∃ s : String, d.text = (if d.digits < 0 then "-" else "") ++ s ∧
    Reads s.toList (d.digits.natAbs * 10 ^ (-d.scale)) := by
  unfold text
  by_cases h₀ : d.digits = 0
  · refine ⟨"0", by simp [h₀], ?_⟩
    have hreads := reads_natural 0 0
    simpa [h₀] using hreads
  · rw [if_neg h₀]
    dsimp only
    split
    · exact ⟨_, rfl, DecimalDigits.reads_scientific _ (.inr rfl)⟩
    · split
      · next hs =>
        refine ⟨toString d.digits.natAbs ++ "e+" ++ toString (-d.scale),
          by simp only [String.append_assoc], ?_⟩
        obtain ⟨-, hplus, -⟩ := exponentPart?_mark (.inl rfl) (over_toString (-d.scale).natAbs)
          (toString_ne_nil _)
        have hreads := reads_whole (over_toString d.digits.natAbs) (toString_ne_nil _)
          (by simp) hplus
        rw [ofDigitChars_toString, ofDigitChars_toString,
          Int.natAbs_of_nonneg (by omega : 0 ≤ -d.scale)] at hreads
        have hexponent : (toString (-d.scale)).toList = (toString (-d.scale).natAbs).toList := by
          rw [toList_toString_int, if_neg (by omega), List.nil_append]
        simp only [String.toList_append, hexponent, show "e+".toList = ['e', '+'] from rfl]
        simpa only [List.append_assoc, List.cons_append, List.nil_append] using hreads
      · split
        · next hs =>
          refine ⟨toString d.digits.natAbs ++ zeros (-d.scale).toNat, String.append_assoc .., ?_⟩
          have hreads := reads_natural d.digits.natAbs (-d.scale).toNat
          rw [Int.toNat_of_nonneg (by omega)] at hreads
          simpa [zeros] using hreads
        · exact ⟨_, rfl, DecimalDigits.reads_positional _⟩

end Decimal

end GraphCopy
