import GraphCopy.Proofs.Number.Denoted
import GraphCopy.Proofs.Number.Reduced
import GraphCopy.Value
import Mathlib.Logic.Relation

/-!
# Three equalities of values

Sets and maps tell values apart by their keys. Two values have one key if they
are scalars of one kind with one content, floating point numbers by their bits
and decimals by the number that they denote, or if they are the same object.

Identity and having one key are equivalences, since each compares what a
function gives. The very same values have one key, and values of one key are
equal by value, except for what is no number, which does not equal itself.
Values that are equal have one key, except for the zeros of either sign. Only
floating point numbers make the difference: they are equal by value when they
denote the same number, and have one key when they have the same bits.
-/

namespace GraphCopy.Value

variable {v w : Value}

def SameKey : Value → Value → Prop
  | null, null => True
  | bool a, bool b => a = b
  | int a, int b => a = b
  | float x, float y => x.bits = y.bits
  | char a, char b => a = b
  | text a, text b => a.content = b.content
  | decimal a, decimal b => a.content.value = b.content.value
  | timestamp a, timestamp b => a = b
  | date a, date b => a = b
  | uri a, uri b => a.content = b.content
  | object a, object b => a.address = b.address
  | _, _ => False

theorem key_eq_iff : v.key = w.key ↔ v.SameKey w := by
  cases v with
  | decimal d =>
    cases w with
    | decimal d' =>
      rw [key, key, SameKey, Key.decimal.injEq, ← Decimal.numEq_iff, Decimal.numEq, beq_iff_eq]
    | _ => simp [key, SameKey]
  | _ => cases w <;> simp [key, SameKey]

/-- What identity compares: the address of an object, else the value with the place where it was made. -/
def identity : Value → Value ⊕ Nat
  | object r => .inr r.address
  | v => .inl v

theorem same_iff : v.same w = true ↔ v.identity = w.identity := by
  cases v <;> cases w <;> simp [same, eqv, identity, Ref.ptrEq, Binary64.bits_eq_iff]

theorem key_eq_of_same (h : v.same w = true) : v.key = w.key := by
  rw [same_iff] at h
  cases v <;> cases w <;> simp_all [identity, key]

theorem eqv_iff_key_eq (hv : ∀ x, v ≠ .float x) : v.eqv w = true ↔ v.key = w.key := by
  cases v with
  | float x => exact absurd rfl (hv x)
  | _ => cases w <;> simp [eqv, key, Ref.ptrEq, Decimal.numEq]

/-- Values of one key are equal, except that what is no number does not equal itself. -/
theorem eqv_iff_of_key_eq (h : v.key = w.key) : v.eqv w = true ↔
    ¬ ∃ x : Binary64, v = .float x ∧ w = .float x ∧ x.isNaN = true := by
  by_cases hv : ∃ x, v = .float x
  · obtain ⟨x, rfl⟩ := hv
    obtain rfl : w = .float x := by
      cases w with
      | float y => simpa [key, Binary64.bits_eq_iff, eq_comm] using h
      | _ => cases h
    simp [eqv, Binary64.numEq_iff]
  · push Not at hv
    refine iff_of_true ((eqv_iff_key_eq hv).mpr h) ?_
    rintro ⟨x, rfl, -⟩
    exact hv x rfl

theorem key_eq_iff_of_eqv (h : v.eqv w = true) : v.key = w.key ↔
    ¬ ∃ x y : Binary64, v = .float x ∧ w = .float y ∧ x.isZero = true ∧ y.isZero = true ∧
      x.negative ≠ y.negative := by
  by_cases hv : ∃ x, v = .float x
  · obtain ⟨x, rfl⟩ := hv
    cases w with
    | float y =>
      -- equal floating point numbers have the same bits or are zeros
      obtain ⟨-, -, hxy⟩ := Binary64.numEq_iff.mp h
      rw [key, key, Key.float.injEq, Binary64.bits_eq_iff]
      constructor
      · rintro rfl ⟨_, _, ⟨⟩, ⟨⟩, -, -, hne⟩
        exact hne rfl
      · intro hzeros
        rcases hxy with rfl | ⟨hx, hy⟩
        · rfl
        · by_contra hne
          exact hzeros ⟨x, y, rfl, rfl, hx, hy, fun hneg => hne (Binary64.eq_of_isZero hx hy hneg)⟩
    | _ => cases h
  · push Not at hv
    refine iff_of_true ((eqv_iff_key_eq hv).mp h) ?_
    rintro ⟨x, -, rfl, -⟩
    exact hv x rfl

/-- The equalities are ordered. Identity and having one key are equivalences, and the very same values
have one key. Values of one key are equal by value, unless both are the same bits of what is no number;
and equal values have one key, unless they are the two zeros. Floating point numbers are equal by value
when they denote the same number; what has one key, decimals of one value for instance, is listed by
`SameKey`. -/
theorem same_key_eqv_ordered :
    Equivalence (fun a b : Value => a.same b = true) ∧
    Equivalence (fun a b : Value => a.key = b.key) ∧
    (∀ a b : Value, a.same b = true → a.key = b.key) ∧
    (∀ a b : Value, a.key = b.key → (a.eqv b = true ↔
      ¬ ∃ x : Binary64, a = .float x ∧ b = .float x ∧ x.isNaN = true)) ∧
    (∀ a b : Value, a.eqv b = true → (a.key = b.key ↔
      ¬ ∃ x y : Binary64, a = .float x ∧ b = .float y ∧ x.isZero = true ∧ y.isZero = true ∧
        x.negative ≠ y.negative)) ∧
    (∀ x y : Binary64, (float x).eqv (.float y) = true ↔
      ∃ n, x.number? = some n ∧ y.number? = some n) ∧
    ∀ a b : Value, a.key = b.key ↔ a.SameKey b := by
  refine ⟨?_, eq_equivalence.comap key, fun a b => key_eq_of_same, fun a b => eqv_iff_of_key_eq,
    fun a b => key_eq_iff_of_eqv, fun x y => Binary64.numEq_iff_number?, fun a b => key_eq_iff⟩
  simp only [same_iff]
  exact eq_equivalence.comap identity

/-- A text and a decimal made elsewhere are not the same but have one key, the bits that are no number
have one key with themselves but are not equal, and the zeros are equal but have two keys. -/
theorem same_key_eqv_apart :
    let text (place : Place) : Value := .text ⟨"a", place⟩
    let one (zeros : Nat) : Value := .decimal ⟨⟨Nat.pow 10 zeros, zeros⟩, .initial⟩
    let nan : Value := .float .nan
    let minusZero : Value := .float (.negated .zero)
    ((text .initial).same (text ⟨7, 0⟩) = false ∧ (text .initial).eqv (text ⟨7, 0⟩) = true) ∧
    ((one 0).same (one 2) = false ∧ (one 0).key = (one 2).key ∧ (one 0).eqv (one 2) = true) ∧
    (nan.same nan = true ∧ nan.key = nan.key ∧ nan.eqv nan = false) ∧
    minusZero.eqv (.float .zero) = true ∧ minusZero.key ≠ (float .zero).key := by
  intro text one nan minusZero
  obtain ⟨hsame, -, hfiner, hequal, hone, -, hcontent⟩ := same_key_eqv_ordered
  have hscales : (one 0).key = (one 2).key := by decide
  have hplaces : (text .initial).key = (text ⟨7, 0⟩).key := (hcontent _ _).mpr rfl
  have hzeros : minusZero.eqv (.float .zero) = true := by decide
  refine ⟨⟨by decide, (hequal _ _ hplaces).mpr (by rintro ⟨x, ⟨⟩, -⟩)⟩,
    ⟨by decide, hscales, (hequal _ _ hscales).mpr (by rintro ⟨x, ⟨⟩, -⟩)⟩,
    ⟨hsame.refl nan, hfiner _ _ (hsame.refl nan), ?_⟩, hzeros, fun h => ?_⟩
  · rw [← Bool.not_eq_true, hequal nan nan rfl, not_not]
    exact ⟨.nan, rfl, rfl, by decide⟩
  · exact (hone _ _ hzeros).mp h ⟨.negated .zero, .zero, rfl, rfl, by decide, by decide, by decide⟩

end GraphCopy.Value
