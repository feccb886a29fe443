import GraphCopy.Value.Storage

/-!
# What is stored is read back

A value that was read from a slot and is stored in a slot of the same storage
reads there as it did before: the same kind of scalar with the same content,
made anew perhaps. Objects are stored as they are.

Integers beyond 64 signed bits pass through the text of a decimal on the way.
-/

namespace GraphCopy

/-- The same value, if it does not matter where and when a shared scalar was made. -/
def Value.Alike (v w : Value) : Prop := v.madeAt .initial = w.madeAt .initial

namespace Value

variable {u v w : Value}

theorem Alike.refl (v : Value) : v.Alike v := rfl

theorem Alike.symm (h : v.Alike w) : w.Alike v := Eq.symm h

theorem Alike.trans (h₁ : u.Alike v) (h₂ : v.Alike w) : u.Alike w := Eq.trans h₁ h₂

instance (v w : Value) : Decidable (v.Alike w) := inferInstanceAs (Decidable (_ = _))

theorem Alike.congr {α : Type} {f : Value → α} (hf : ∀ u, f (u.madeAt .initial) = f u)
    (h : v.Alike w) : f v = f w := by
  rw [← hf v, ← hf w, h]

theorem Alike.key_eq (h : v.Alike w) : v.key = w.key := h.congr fun u => by cases u <;> rfl

theorem Alike.object?_eq (h : v.Alike w) : v.object? = w.object? :=
  h.congr fun u => by cases u <;> rfl

theorem Alike.eq_of_madeAt (hv : ∀ p, v.madeAt p = v) (h : v.Alike w) : w = v := by
  have hw : v = w.madeAt .initial := by rw [← h, hv]
  have hback : ∀ u : Value, ∃ p, (u.madeAt .initial).madeAt p = u := by
    intro u
    cases u with
    | text t => exact ⟨t.place, rfl⟩
    | decimal d => exact ⟨d.place, rfl⟩
    | uri u => exact ⟨u.place, rfl⟩
    | _ => exact ⟨.initial, rfl⟩
  obtain ⟨p, hp⟩ := hback w
  rw [← hp, ← hw, hv]

end Value

theorem readDigits_eq {limit acc n : Nat} {cs : List Char} (h : readDigits limit acc cs = .ok n) :
    n = Nat.ofDigitChars 10 cs acc := by
  induction cs generalizing acc with
  | nil =>
    cases h
    rfl
  | cons c cs ih =>
    simp only [readDigits] at h
    split at h
    · cases h
    · rename_i d hd
      have hdc : d = c.toNat - 48 := by
        unfold digitValue? at hd
        split at hd
        · exact (Option.some.inj hd).symm
        · cases hd
      split at h
      · cases h
      · rw [ih h, Nat.ofDigitChars_cons, hdc, Nat.mul_comm]
        rfl

theorem readNumeral_toString {limit n m : Nat} (h : readNumeral limit (toString n) = .ok m) :
    m = n := by
  unfold readNumeral at h
  rw [Nat.toString_eq_ofList_toDigits, String.toList_ofList] at h
  split at h
  · cases h
  · rw [readDigits_eq h, Nat.ofDigitChars_ten_toDigits]

theorem Decimal.text_natural {n : Int} (hn : 0 ≤ n) : Decimal.text ⟨n, 0⟩ = toString n.natAbs := by
  by_cases h0 : n = 0
  · subst h0
    rfl
  · have hneg : ¬ n < 0 := by omega
    have hlen : ¬ ((n.natAbs.repr.length : Int) + 5 < 0) := by omega
    simp [text, h0, hneg, hlen, zeros]

theorem Int64.toInt_ofInt_of_range {n : Int} (h : IntType.i64.least ≤ n ∧ n ≤ IntType.i64.greatest) :
    (Int64.ofInt n).toInt = n := by
  have hl : IntType.i64.least = -2 ^ 63 := rfl
  have hg : IntType.i64.greatest = 2 ^ 63 - 1 := rfl
  exact Int64.toInt_ofInt_of_le (by omega) (by omega)

theorem IntType.store_ok {t : IntType} {n : Int} {d : Datum} (h : t.store n = .ok d) : d = .int n := by
  unfold IntType.store at h
  split at h
  · cases h
  · split at h
    · cases h
    · exact (Except.ok.inj h).symm

theorem IntType.storeDecimal_ok {t : IntType} {n : Int} {d : Datum} (hn : 0 ≤ n)
    (h : t.storeDecimal ⟨n, 0⟩ = .ok d) : d = .int n := by
  unfold IntType.storeDecimal at h
  rw [Decimal.text_natural hn] at h
  split at h
  · rename_i m hm
    have hmn := readNumeral_toString hm
    rw [← Except.ok.inj h, hmn, Int.natAbs_of_nonneg hn]
  · cases h

theorem IntType.nonneg_of_not_range {t : IntType} {n : Int} (hn : t.least ≤ n ∧ n ≤ t.greatest)
    (h : ¬ (IntType.i64.least ≤ n ∧ n ≤ IntType.i64.greatest)) : 0 ≤ n := by
  cases t <;> simp only [IntType.least, IntType.greatest, Nat.pow_eq] at hn h <;> omega

theorem Slot.read_alike (slot : Slot) (p q : Place) : (slot.read p).Alike (slot.read q) := by
  cases slot with
  | datum d =>
    cases d with
    | int n =>
      simp only [Slot.read, Datum.read, Value.ofInt]
      split <;> rfl
    | _ => rfl
  | missing => rfl
  | value v => rfl

theorem Datum.read_ne_null (d : Datum) (p : Place) : d.read p ≠ .null := by
  cases d with
  | int n =>
    rw [read, Value.ofInt]
    split <;> simp
  | _ => simp [read]

theorem Storage.declared_of_object {s : Storage} {slot : Slot} {p : Place} {r : Ref}
    (hs : s.Holds slot) (hr : slot.read p = .object r) :
    s.declared = .dynamic ∨ s.declared = .object r.type := by
  have hcell : ∀ (c : Cell) d, c.Holds d → d.read p = .object r →
      c.declared = .dynamic ∨ c.declared = .object r.type := by
    intro c d hc hd
    cases d with
    | object k =>
      cases hd
      cases c with
      | object => exact .inl rfl
      | handle t =>
        cases hc
        exact .inr rfl
      | _ => cases hc
    | int n =>
      simp only [Datum.read, Value.ofInt] at hd
      split at hd <;> cases hd
    | _ => cases hd
  cases s with
  | value => exact .inl rfl
  | required c =>
    cases slot with
    | datum d => exact hcell c d hs hr
    | _ => cases hs
  | optional c =>
    cases slot with
    | datum d => exact hcell c d hs hr
    | missing => cases hr
    | value v => cases hs

/-- What is stored is read back, unless the cell rounds it or keeps only a number. -/
theorem Cell.read_of_store {path : TypeId → String} {c : Cell} {w : Value} {d : Datum} {p : Place}
    (hint : ∀ t, c ≠ .int t) (hsingle : c ≠ .single) (hstore : c.store path w = .ok d) :
    w.Alike (d.read p) := by
  cases c with
  | int t => exact absurd rfl (hint t)
  | single => exact absurd rfl hsingle
  | handle t =>
    cases w with
    | object r =>
      simp only [store] at hstore
      split at hstore
      · cases hstore
        rfl
      · cases hstore
    | _ => cases hstore
  | _ =>
    cases w <;> cases hstore
    rfl

theorem Cell.read_store_int {path : TypeId → String} {t : IntType} {n : Int} {d : Datum} {p q : Place}
    {w : Value} (hn : t.least ≤ n ∧ n ≤ t.greatest) (hw : (Value.ofInt p n).Alike w)
    (hstore : (Cell.int t).store path w = .ok d) : (Value.ofInt p n).Alike (d.read q) := by
  suffices hd : d = .int n from hd ▸ Slot.read_alike (.datum (.int n)) p q
  by_cases hr : IntType.i64.least ≤ n ∧ n ≤ IntType.i64.greatest
  · rw [Value.ofInt, if_pos hr] at hw
    cases hw.eq_of_madeAt fun _ => rfl
    rw [IntType.store_ok hstore, Int64.toInt_ofInt_of_range hr]
  · rw [Value.ofInt, if_neg hr] at hw
    cases w with
    | decimal x =>
      have hx : x.content = ⟨n, 0⟩ := by simpa [Value.Alike, Value.madeAt] using hw.symm
      simp only [store, hx] at hstore
      split at hstore
      · exact IntType.storeDecimal_ok (IntType.nonneg_of_not_range hn hr) hstore
      · cases hstore
    | _ => cases hw

theorem Cell.read_store {path : TypeId → String} {c : Cell} {d d' : Datum} {p q : Place} {w : Value}
    (hd : c.Holds d) (hw : (d.read p).Alike w) (hstore : c.store path w = .ok d') :
    (d.read p).Alike (d'.read q) := by
  by_cases hint : ∃ t, c = .int t
  · obtain ⟨t, rfl⟩ := hint
    cases d with
    | int n => exact read_store_int hd hw hstore
    | _ => cases hd
  · by_cases hsingle : c = .single
    · subst hsingle
      cases d with
      | float x =>
        cases hw.eq_of_madeAt fun _ => rfl
        cases hstore
        exact congrArg Value.float (Eq.symm hd)
      | _ => cases hd
    · exact hw.trans (read_of_store (not_exists.mp hint) hsingle hstore)

theorem Storage.store_required {path : TypeId → String} {c : Cell} {w : Value} {slot : Slot}
    (h : (Storage.required c).store path w = .ok slot) :
    ∃ d, c.store path w = .ok d ∧ slot = .datum d := by
  simp only [store] at h
  cases hd : c.store path w with
  | error e =>
    rw [hd] at h
    cases h
  | ok d =>
    rw [hd] at h
    exact ⟨d, rfl, (Except.ok.inj h).symm⟩

theorem Storage.store_optional_eq {path : TypeId → String} {c : Cell} {w : Value} (h : w ≠ .null) :
    (Storage.optional c).store path w = (Storage.required c).store path w := by
  cases w with
  | null => exact absurd rfl h
  | _ => rfl

theorem Storage.store_optional {path : TypeId → String} {c : Cell} {w : Value} {slot : Slot}
    (h : (Storage.optional c).store path w = .ok slot) :
    (w = .null ∧ slot = .missing) ∨ ∃ d, c.store path w = .ok d ∧ slot = .datum d := by
  by_cases hw : w = .null
  · subst hw
    exact .inl ⟨rfl, (Except.ok.inj h).symm⟩
  · exact .inr (store_required ((store_optional_eq hw).symm.trans h))

theorem Storage.read_store {path : TypeId → String} {s : Storage} {slot slot' : Slot} {p q : Place}
    {w : Value} (hs : s.Holds slot) (hw : (slot.read p).Alike w)
    (hstore : s.store path w = .ok slot') : (slot.read p).Alike (slot'.read q) := by
  cases s with
  | required c =>
    obtain ⟨d', hd', rfl⟩ := store_required hstore
    cases slot with
    | datum d => exact Cell.read_store hs hw hd'
    | _ => cases hs
  | optional c =>
    cases slot with
    | datum d =>
      rcases store_optional hstore with ⟨rfl, -⟩ | ⟨d', hd', rfl⟩
      · exact absurd (hw.symm.eq_of_madeAt fun _ => rfl) (d.read_ne_null p)
      · exact Cell.read_store hs hw hd'
    | missing =>
      cases hw.eq_of_madeAt fun _ => rfl
      cases hstore
      rfl
    | value v => cases hs
  | value =>
    cases hstore
    exact hw

theorem Storage.read_store_object {path : TypeId → String} {s : Storage} {slot : Slot} {k : Ref}
    {p : Place} (hstore : s.store path (.object k) = .ok slot) : slot.read p = .object k := by
  have hcell : ∀ (c : Cell) d, c.store path (.object k) = .ok d → d.read p = .object k := by
    intro c d hd
    have hint : ∀ t, c ≠ .int t := by
      rintro t rfl
      cases hd
    have hsingle : c ≠ .single := by
      rintro rfl
      cases hd
    exact (Cell.read_of_store hint hsingle hd).eq_of_madeAt fun _ => rfl
  cases s with
  | required c =>
    obtain ⟨d, hd, rfl⟩ := store_required hstore
    exact hcell c d hd
  | optional c =>
    rcases store_optional hstore with ⟨hnull, -⟩ | ⟨d, hd, rfl⟩
    · cases hnull
    · exact hcell c d hd
  | value =>
    cases hstore
    rfl

end GraphCopy
