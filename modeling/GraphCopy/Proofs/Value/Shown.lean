import GraphCopy.Proofs.Calendar.Written
import GraphCopy.Proofs.Number.FloatText
import GraphCopy.Proofs.Number.Reduced
import GraphCopy.Proofs.Text.Quoting

/-!
# Scalars are told by their texts

Two scalars of one kind with one text are equal in value.
-/

namespace GraphCopy

open Text

theorem Text.toString_int_injective {m n : Int} (h : (toString m).toList = (toString n).toList) :
    m = n := by
  have hreads : ∀ n : Nat, Reads (toString n).toList (n * 10 ^ (0 : Int)) := fun n => by
    simpa using reads_natural n 0
  have hsplit : ∀ n : Int, toString n = (if n < 0 then "-" else "") ++ toString n.natAbs := by
    intro n
    rw [← String.toList_inj, toList_toString_int, String.toList_append]
    split <;> rfl
  have htext := String.toList_inj.mp h
  rw [hsplit m, hsplit n] at htext
  obtain ⟨hsign, habs⟩ := sign_append_inj (hreads _) (hreads _) htext
  rw [zpow_zero, mul_one, mul_one, Nat.cast_inj] at habs
  omega

theorem Uri.text_injective {u u' : Uri} (h : u.text = u'.text) : u = u' := by
  cases u
  cases u'
  cases h
  rfl

theorem Text.quoted_injective {s s' : String} (h : quoted s = quoted s') : s = s' := by
  have hchars := congrArg (· ++ []) (String.ofList_injective h)
  exact String.toList_inj.mp (quotedChars_append_inj (.inl rfl) hchars).1

theorem Text.quotedChar_injective {c c' : Char} (h : quotedChar c = quotedChar c') : c = c' := by
  have hchars := congrArg (· ++ []) (String.ofList_injective h)
  exact List.singleton_inj.mp (quotedChars_append_inj (.inr rfl) hchars).1

namespace Value

variable {v w : Value}

def isNaN : Value → Bool
  | float x => x.isNaN
  | _ => false

/-- Of one kind and equal in value, where what is no number equals its like. -/
def Equals (v w : Value) : Prop :=
  v.scalarKind? = w.scalarKind? ∧ (v.eqv w = true ∨ v.isNaN = true ∧ w.isNaN = true)

theorem eqv_bool {b b' : Bool} (h : (bool b).scalarText = (bool b').scalarText) :
    (bool b).eqv (bool b') = true := by
  have heq : b = b' := by
    cases b <;> cases b' <;> first | rfl | exact absurd h (by decide)
  simp [eqv, heq]

theorem eqv_int {i j : Int64} (h : (int i).scalarText = (int j).scalarText) :
    (int i).eqv (int j) = true := by
  have heq := Int64.toInt_inj.mp (toString_int_injective (congrArg String.toList h))
  simp [eqv, heq]

theorem equals_float {x y : Binary64} (h : (float x).scalarText = (float y).scalarText) :
    (float x).eqv (float y) = true ∨ x.isNaN = true ∧ y.isNaN = true := by
  by_cases hnan : x.isNaN = true ∧ y.isNaN = true
  · exact .inr hnan
  · obtain rfl := (Binary64.eq_or_isNaN_of_text_eq h).resolve_right hnan
    exact .inl (by simpa [eqv, Binary64.numEq] using hnan)

theorem eqv_decimal {d d' : Shared Decimal} (h : (decimal d).scalarText = (decimal d').scalarText) :
    (decimal d).eqv (decimal d') = true := by
  have hlist := congrArg String.toList h
  simp only [scalarText, String.toList_append] at hlist
  exact Decimal.numEq_of_text_eq (String.toList_inj.mp (List.append_cancel_right hlist))

theorem eqv_uri {u u' : Shared Uri} (h : (uri u).scalarText = (uri u').scalarText) :
    (uri u).eqv (uri u') = true := by
  have hlist := congrArg String.toList h
  simp only [scalarText, String.toList_append] at hlist
  have heq := String.toList_inj.mp (List.append_cancel_left (List.append_cancel_right hlist))
  simpa [eqv] using Uri.text_injective heq

theorem equals_of_scalarText (hobject : v.object? = w.object?)
    (hkind : v.scalarKind? = w.scalarKind?) (htext : v.scalarText = w.scalarText) : v.Equals w := by
  refine ⟨hkind, ?_⟩
  cases v with
  | null =>
    cases w with
    | null => exact .inl rfl
    | object r => cases hobject
    | _ => cases hkind
  | object r =>
    cases w with
    | object q =>
      cases hobject
      exact .inl (by simp [eqv, Ref.ptrEq])
    | _ => cases hobject
  | bool b =>
    cases w with
    | bool b' => exact .inl (eqv_bool htext)
    | _ => cases hkind
  | int i =>
    cases w with
    | int j => exact .inl (eqv_int htext)
    | _ => cases hkind
  | float x =>
    cases w with
    | float y => exact equals_float htext
    | _ => cases hkind
  | char c =>
    cases w with
    | char c' => exact .inl (by simp [eqv, quotedChar_injective htext])
    | _ => cases hkind
  | text t =>
    cases w with
    | text t' => exact .inl (by simp [eqv, quoted_injective htext])
    | _ => cases hkind
  | decimal d =>
    cases w with
    | decimal d' => exact .inl (eqv_decimal htext)
    | _ => cases hkind
  | timestamp t =>
    cases w with
    | timestamp t' => exact .inl (by simp [eqv, Timestamp.text_injective (congrArg String.toList htext)])
    | _ => cases hkind
  | date d =>
    cases w with
    | date d' => exact .inl (by simp [eqv, Date.text_injective (congrArg String.toList htext)])
    | _ => cases hkind
  | uri u =>
    cases w with
    | uri u' => exact .inl (eqv_uri htext)
    | _ => cases hkind

end Value

end GraphCopy
