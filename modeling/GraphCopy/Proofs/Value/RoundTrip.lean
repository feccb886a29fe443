import GraphCopy.Proofs.Number.Narrowing
import GraphCopy.Proofs.Value.Fitting
import GraphCopy.Proofs.Value.Shown

/-!
# Storages and values

Content that is read and stored again is the content that it was. A value that
is stored and read again is the value that it was, but for two forms of content
that cannot tell: a cell of the shorter floating point format keeps the
rounding, and a cell for the widest integers keeps the number of a decimal. So
what was read can always be written back, and that changes nothing.
-/

namespace GraphCopy

open Text

section Numerals

variable {limit acc n : Nat} {cs : List Char} {d : Decimal}

theorem over_of_readDigits (h : readDigits limit acc cs = .ok n) : Over Char.isDigit cs := by
  induction cs generalizing acc with
  | nil => exact fun _ hc => absurd hc (by simp)
  | cons c cs ih =>
    rw [readDigits] at h
    cases hc : c.isDigit with
    | false =>
      rw [digitValue?_of_not_isDigit hc] at h
      cases h
    | true =>
      rw [digitValue?_of_isDigit hc] at h
      dsimp only at h
      split at h
      · cases h
      · exact over_cons.mpr ⟨hc, ih h⟩

theorem reads_of_readNumeral {s : String} (h : readNumeral limit s = .ok n) :
    Reads s.toList n ∧ n ≤ limit := by
  have hread : readDigits limit 0 s.toList = .ok n ∧ s.toList ≠ [] := by
    unfold readNumeral at h
    split at h
    · cases h
    · next hne => exact ⟨h, hne⟩
  have hreads := reads_whole (k := []) (over_of_readDigits hread.1) hread.2 (by simp)
    exponentPart?_nil
  rw [List.append_nil, zpow_zero, mul_one, ← readDigits_eq hread.1] at hreads
  exact ⟨hreads, readDigits_le (Nat.zero_le _) hread.1⟩

theorem Decimal.value_of_readNumeral (h : readNumeral limit d.text = .ok n) : d.value = n := by
  obtain ⟨s, htext, hs⟩ := d.text_reads
  obtain ⟨hreads, -⟩ := reads_of_readNumeral h
  rw [htext, String.toList_append] at hreads
  by_cases hneg : d.digits < 0
  · rw [if_pos hneg] at hreads
    exact absurd rfl (hreads.ne_cons _)
  · rw [if_neg hneg] at hreads
    rw [← hs.unique hreads, value, Nat.cast_natAbs, abs_of_nonneg (Int.not_lt.mp hneg)]

end Numerals

section Cells

variable {path : TypeId → String} {t : IntType} {c : Cell} {d : Datum} {v w : Value} {p : Place}

theorem Value.Alike.equals (h : v.Alike w) : v.Equals w :=
  equals_of_scalarText h.object?_eq (h.congr fun u => by cases u <;> rfl)
    (h.congr fun u => by cases u <;> rfl)

def Cell.Returns : Cell → Value → Value → Prop
  | .single, .float x, w => w = .float x.toSingle
  | .int _, .decimal d, w =>
    (∃ i : Int64, (i.toInt : ℚ) = d.content.value ∧ w = .int i) ∨
      (∀ i : Int64, (i.toInt : ℚ) ≠ d.content.value) ∧ Value.Equals (.decimal d) w
  | _, v, w => v.Equals w

theorem IntType.zero_range (t : IntType) : t.least ≤ 0 ∧ 0 ≤ t.greatest := by
  cases t <;> decide

theorem IntType.storeDecimal_value {x : Decimal} (h : t.storeDecimal x = .ok d) :
    ∃ n : Nat, d = .int n ∧ x.value = n ∧ (n : Int) ≤ t.greatest := by
  unfold IntType.storeDecimal at h
  split at h
  · next n hn =>
    have hle := (reads_of_readNumeral hn).2
    have hzero := t.zero_range
    exact ⟨n, (Except.ok.inj h).symm, Decimal.value_of_readNumeral hn, by omega⟩
  · cases h

theorem IntType.range_of_store {n : Int} (h : t.store n = .ok d) :
    t.least ≤ n ∧ n ≤ t.greatest := by
  unfold IntType.store at h
  split at h
  · cases h
  · split at h
    · cases h
    · omega

theorem Int64.toInt_range (i : Int64) :
    IntType.i64.least ≤ i.toInt ∧ i.toInt ≤ IntType.i64.greatest := by
  have hl : IntType.i64.least = -2 ^ 63 := rfl
  have hg : IntType.i64.greatest = 2 ^ 63 - 1 := rfl
  have hlow := i.le_toInt
  have hhigh := i.toInt_lt
  omega

theorem Value.ofInt_toInt (p : Place) (i : Int64) : Value.ofInt p i.toInt = .int i := by
  rw [Value.ofInt, if_pos (Int64.toInt_range i), Int64.ofInt_toInt]

theorem Cell.holds_of_store (h : c.store path v = .ok d) : c.Holds d := by
  cases c with
  | int t =>
    cases v with
    | int i =>
      have hrange := IntType.range_of_store h
      obtain rfl := IntType.store_ok h
      exact hrange
    | decimal x =>
      simp only [store] at h
      split at h
      · obtain ⟨n, rfl, -, hle⟩ := IntType.storeDecimal_value h
        exact ⟨t.zero_range.1.trans n.cast_nonneg, hle⟩
      · cases h
    | _ => cases h
  | single =>
    cases v with
    | float x =>
      cases h
      exact x.toSingle_toSingle
    | _ => cases h
  | handle t =>
    cases v with
    | object r =>
      simp only [store] at h
      split at h
      · next hr =>
        cases h
        exact hr
      · cases h
    | _ => cases h
  | _ =>
    cases v <;> first
      | cases h
        trivial
      | cases h

theorem Cell.returns_decimal {x : Shared Decimal} {n : Nat} (hn : x.content.value = n) (p : Place) :
    (Cell.int t).Returns (.decimal x) (Value.ofInt p n) := by
  by_cases hr : IntType.i64.least ≤ (n : Int) ∧ (n : Int) ≤ IntType.i64.greatest
  · refine .inl ⟨Int64.ofInt n, ?_, if_pos hr⟩
    rw [Int64.toInt_ofInt_of_range hr, hn, Int.cast_natCast]
  · refine .inr ⟨fun i hi => hr ?_, ?_⟩
    · have hin : i.toInt = n := by
        rw [hn] at hi
        exact_mod_cast hi
      rw [← hin]
      exact Int64.toInt_range i
    · rw [Value.ofInt, if_neg hr]
      refine ⟨rfl, .inl (Decimal.numEq_iff.mpr ?_)⟩
      rw [hn, Decimal.value]
      simp

/-- A cell returns the value that it took, or else what its form of content keeps of it. -/
theorem Cell.returns_of_store (h : c.store path v = .ok d) (p : Place) :
    c.Returns v (d.read p) := by
  cases c with
  | int t =>
    cases v with
    | int i =>
      obtain rfl := IntType.store_ok h
      have hread : (Datum.int i.toInt).read p = .int i := Value.ofInt_toInt p i
      rw [hread]
      exact (Value.Alike.refl _).equals
    | decimal x =>
      simp only [store] at h
      split at h
      · obtain ⟨n, rfl, hn, -⟩ := IntType.storeDecimal_value h
        exact returns_decimal hn p
      · cases h
    | _ => cases h
  | single =>
    cases v with
    | float x =>
      cases h
      rfl
    | _ => cases h
  | _ => exact (read_of_store (by simp) (by simp) h).equals

theorem Cell.store_read (h : c.Holds d) (p : Place) : c.store path (d.read p) = .ok d := by
  cases d with
  | int n =>
    cases c with
    | int t => exact store_int h (Value.Alike.refl _)
    | _ => cases h
  | float x =>
    cases c with
    | single => exact congrArg (Except.ok ∘ Datum.float) h
    | double => rfl
    | _ => cases h
  | object r =>
    cases c with
    | object => rfl
    | handle t => exact if_pos h
    | _ => cases h
  | _ =>
    cases c <;> first
      | rfl
      | cases h

end Cells

namespace Storage

variable {path : TypeId → String} {s : Storage} {slot : Slot} {v : Value}

def Returns : Storage → Value → Value → Prop
  | .required c, v, w => c.Returns v w
  | .optional c, v, w => c.Returns v w
  | .value, v, w => v.Equals w

theorem store_read (h : s.Holds slot) (p : Place) : s.store path (slot.read p) = .ok slot := by
  have hcell : ∀ {c : Cell} {d}, c.Holds d →
      (required c).store path (d.read p) = .ok (.datum d) := by
    intro c d hd
    have hstore : c.store path (d.read p) = .ok d := Cell.store_read hd p
    rw [store, hstore]
    rfl
  cases s with
  | value =>
    cases slot with
    | value v => rfl
    | _ => cases h
  | required c =>
    cases slot with
    | datum d => exact hcell h
    | _ => cases h
  | optional c =>
    cases slot with
    | datum d => exact (store_optional_eq (d.read_ne_null p)).trans (hcell h)
    | missing => rfl
    | value v => cases h

theorem holds_of_store (h : s.store path v = .ok slot) : s.Holds slot := by
  cases s with
  | value =>
    cases h
    trivial
  | required c =>
    obtain ⟨d, hd, rfl⟩ := store_required h
    exact Cell.holds_of_store hd
  | optional c =>
    rcases store_optional h with ⟨-, rfl⟩ | ⟨d, hd, rfl⟩
    · trivial
    · exact Cell.holds_of_store hd

theorem returns_of_store (h : s.store path v = .ok slot) (p : Place) :
    s.Returns v (slot.read p) := by
  cases s with
  | value =>
    cases h
    exact (Value.Alike.refl v).equals
  | required c =>
    obtain ⟨d, hd, rfl⟩ := store_required h
    exact Cell.returns_of_store hd p
  | optional c =>
    rcases store_optional h with ⟨rfl, rfl⟩ | ⟨d, hd, rfl⟩
    · have hnull : Value.null.Equals .null := (Value.Alike.refl _).equals
      cases c <;> exact hnull
    · exact Cell.returns_of_store hd p

/-- Content and values are turned into one another and back, as far as the content can tell. -/
theorem store_read_round_trip (path : TypeId → String) (s : Storage) :
    (∀ slot, s.Holds slot → ∀ p, s.store path (slot.read p) = .ok slot) ∧
      ∀ v slot, s.store path v = .ok slot → s.Holds slot ∧
        ∀ p, s.Returns v (slot.read p) ∧ s.store path (slot.read p) = .ok slot := by
  refine ⟨fun slot h p => store_read h p, fun v slot h => ?_⟩
  have hholds : s.Holds slot := holds_of_store h
  exact ⟨hholds, fun p => ⟨returns_of_store h p, store_read hholds p⟩⟩

/-- A decimal beyond 64 signed bits that was written with zeros comes back as it is, a small one as an
integer, and a number of the longer format comes back rounded. -/
theorem store_read_round_trip_forms :
    let path := fun _ => ""
    let wide := required (.int .u64)
    let narrow := optional .single
    let large := Value.decimal ⟨⟨10 ^ 10, -9⟩, .initial⟩
    let small := Value.decimal ⟨⟨12, -1⟩, .initial⟩
    let tenth := Value.float ⟨0x3fb999999999999a⟩
    wide.store path large = .ok (.datum (.int (10 ^ 19))) ∧
      wide.Returns large (.ofInt .initial (10 ^ 19)) ∧
      wide.store path small = .ok (.datum (.int 120)) ∧
      wide.Returns small (.int 120) ∧
      narrow.store path tenth = .ok (.datum (.float ⟨0x3fb99999a0000000⟩)) ∧
      narrow.Holds (.datum (.float ⟨0x3fb99999a0000000⟩)) ∧
      narrow.store path (.float ⟨0x3fb99999a0000000⟩) = .ok (.datum (.float ⟨0x3fb99999a0000000⟩)) := by
  intro path wide narrow large small tenth
  have hlarge : wide.store path large = .ok (.datum (.int (10 ^ 19))) := by decide +kernel
  have hsmall : wide.store path small = .ok (.datum (.int 120)) := by decide +kernel
  have htenth : narrow.store path tenth = .ok (.datum (.float ⟨0x3fb99999a0000000⟩)) := by
    decide +kernel
  obtain ⟨hholds, hback⟩ := (store_read_round_trip path narrow).2 _ _ htenth
  exact ⟨hlarge, (((store_read_round_trip path wide).2 _ _ hlarge).2 .initial).1,
    hsmall, (((store_read_round_trip path wide).2 _ _ hsmall).2 .initial).1,
    htenth, hholds, (hback .initial).2⟩

end Storage

end GraphCopy
