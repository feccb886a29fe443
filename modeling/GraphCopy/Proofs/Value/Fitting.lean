import GraphCopy.Proofs.Number.Numerals
import GraphCopy.Proofs.Value.Storing

/-!
# What was read fits again

A storage takes back what was read from it, also when the scalar was made anew
or the object was replaced by one of its type. For the widest integers this
goes through the text of a decimal, which is a numeral not above the limit.
-/

namespace GraphCopy

theorem le_ofDigitChars (cs : List Char) (acc : Nat) : acc ≤ Nat.ofDigitChars 10 cs acc := by
  induction cs generalizing acc with
  | nil => exact le_rfl
  | cons c cs ih =>
    rw [Nat.ofDigitChars_cons]
    have h := ih (10 * acc + (c.toNat - '0'.toNat))
    omega

theorem readDigits_of_le {limit acc : Nat} {cs : List Char} (hcs : ∀ c ∈ cs, c.isDigit = true)
    (hle : Nat.ofDigitChars 10 cs acc ≤ limit) :
    readDigits limit acc cs = .ok (Nat.ofDigitChars 10 cs acc) := by
  induction cs generalizing acc with
  | nil => rfl
  | cons c cs ih =>
    have hstep : acc * 10 + (c.toNat - 48) = 10 * acc + (c.toNat - '0'.toNat) := by
      rw [Nat.mul_comm]
      rfl
    rw [Nat.ofDigitChars_cons] at hle ⊢
    have hacc := (le_ofDigitChars cs _).trans hle
    simp only [readDigits, digitValue?_of_isDigit (hcs c (by simp)), hstep]
    rw [if_neg hacc.not_gt]
    exact ih (fun d hd => hcs d (by simp [hd])) hle

theorem readNumeral_of_le {limit n : Nat} (hn : n ≤ limit) : readNumeral limit (toString n) = .ok n := by
  have hdigits : ∀ c ∈ Nat.toDigits 10 n, c.isDigit = true :=
    fun c hc => Nat.isDigit_of_mem_toDigits (by omega) (by omega) hc
  have hread : readDigits limit 0 (Nat.toDigits 10 n) = .ok (Nat.ofDigitChars 10 (Nat.toDigits 10 n) 0) :=
    readDigits_of_le hdigits (by rwa [Nat.ofDigitChars_ten_toDigits])
  rw [Nat.ofDigitChars_ten_toDigits] at hread
  unfold readNumeral
  rw [Nat.toString_eq_ofList_toDigits, String.toList_ofList]
  split
  · next hnil => exact absurd hnil (Nat.toDigits_ne_nil)
  · exact hread

namespace IntType

variable {t : IntType} {n : Int}

theorem store_of_range (hn : t.least ≤ n ∧ n ≤ t.greatest) : t.store n = .ok (.int n) := by
  unfold store
  rw [if_neg (by omega), if_neg (by omega)]

theorem isWide_of_not_range (hn : t.least ≤ n ∧ n ≤ t.greatest)
    (h : ¬ (i64.least ≤ n ∧ n ≤ i64.greatest)) : t.isWide = true := by
  cases t <;> simp only [least, greatest, Nat.pow_eq] at hn h <;> first | rfl | omega

theorem storeDecimal_of_range (hn : 0 ≤ n) (hle : n ≤ t.greatest) :
    t.storeDecimal ⟨n, 0⟩ = .ok (.int n) := by
  have hread : readNumeral t.greatest.toNat (toString n.natAbs) = .ok n.natAbs :=
    readNumeral_of_le (by omega)
  simp only [storeDecimal, Decimal.text_natural hn, hread, Int.natAbs_of_nonneg hn]

end IntType

inductive Value.Replaces : Value → Value → Prop
  | plain {v w} (hv : v.object? = none) (hvw : v.Alike w) : Replaces w v
  | object {r k} (hk : k.type = r.type) : Replaces (.object k) (.object r)

theorem Cell.store_int {path : TypeId → String} {t : IntType} {n : Int} {p : Place} {w : Value}
    (hn : t.least ≤ n ∧ n ≤ t.greatest) (hw : (Value.ofInt p n).Alike w) :
    (Cell.int t).store path w = .ok (.int n) := by
  by_cases hr : IntType.i64.least ≤ n ∧ n ≤ IntType.i64.greatest
  · rw [Value.ofInt, if_pos hr] at hw
    cases hw.eq_of_madeAt fun _ => rfl
    rw [store, Int64.toInt_ofInt_of_range hr, IntType.store_of_range hn]
  · rw [Value.ofInt, if_neg hr] at hw
    cases w with
    | decimal x =>
      have hx : x.content = ⟨n, 0⟩ := by simpa [Value.Alike, Value.madeAt] using hw.symm
      rw [store, hx, IntType.isWide_of_not_range hn hr, if_pos rfl]
      exact IntType.storeDecimal_of_range (IntType.nonneg_of_not_range hn hr) hn.2
    | _ => cases hw

theorem Cell.store_of_replaces {path : TypeId → String} {c : Cell} {d : Datum} {p : Place} {w : Value}
    (hd : c.Holds d) (hw : w.Replaces (d.read p)) : ∃ d', c.store path w = .ok d' := by
  generalize hv : d.read p = v at hw
  cases hw with
  | @object r k hk =>
    cases d with
    | object q =>
      cases hv
      cases c with
      | object => exact ⟨_, rfl⟩
      | handle t =>
        have hrt : r.type = t := hd
        exact ⟨_, if_pos (hk.trans hrt)⟩
      | _ => cases hd
    | int n =>
      simp only [Datum.read, Value.ofInt] at hv
      split at hv <;> cases hv
    | _ => cases hv
  | plain hobj hvw =>
    subst hv
    cases d with
    | int n =>
      cases c with
      | int t => exact ⟨_, Cell.store_int hd hvw⟩
      | _ => cases hd
    | object q => cases hobj
    | _ =>
      cases c <;> first
      | exact False.elim hd
      | cases w <;> first
        | exact ⟨_, rfl⟩
        | cases hvw

/-- A storage takes what may replace the content that it held. -/
theorem Storage.store_of_replaces {path : TypeId → String} {s : Storage} {slot : Slot} {p : Place}
    {w : Value} (hs : s.Holds slot) (hw : w.Replaces (slot.read p)) :
    ∃ slot', s.store path w = .ok slot' := by
  have hcell : ∀ (c : Cell) d, c.Holds d → w.Replaces (d.read p) →
      ∃ slot', (c.store path w).map Slot.datum = .ok slot' := by
    intro c d hd hw
    obtain ⟨d', hd'⟩ : ∃ d', c.store path w = .ok d' := Cell.store_of_replaces hd hw
    exact ⟨.datum d', by rw [hd']; rfl⟩
  cases s with
  | value => exact ⟨_, rfl⟩
  | required c =>
    cases slot with
    | datum d => exact hcell c d hs hw
    | _ => cases hs
  | optional c =>
    cases slot with
    | value v => cases hs
    | missing =>
      have hnull : w = .null := by
        generalize hv : Slot.missing.read p = v at hw
        cases hw with
        | plain hobj hvw =>
          subst hv
          exact hvw.eq_of_madeAt fun _ => rfl
        | object => cases hv
      exact ⟨.missing, by rw [hnull]; rfl⟩
    | datum d =>
      obtain ⟨slot', hslot'⟩ := hcell c d hs hw
      by_cases hnull : w = .null
      · exact ⟨.missing, by rw [hnull]; rfl⟩
      · exact ⟨slot', (store_optional_eq hnull).trans hslot'⟩

end GraphCopy
