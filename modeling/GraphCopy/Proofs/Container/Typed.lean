import GraphCopy.Container.FixedArray
import Mathlib.Data.List.Basic

/-!
# Arrays stay well typed

An array is made without items, or from values that its component type accepts.
From then on it changes by writes only, and a write that is refused leaves it as
it is. So it keeps the component type and the length that it was made with, and
every item is null or accepted.

`set_eq_ok` says all that a write does; what one write keeps, any sequence of
writes keeps.
-/

namespace GraphCopy

theorem Declared.admits_iff {d : Declared} {v : Value} :
    d.admits v = true ↔ v = .null ∨ d.accepts v = true := by
  cases v <;> simp [admits, Value.isNull]

namespace FixedArray

structure Typed (component : Declared) (n : Nat) (a : FixedArray) : Prop where
  component : a.component = component
  length : a.length = n
  wellTyped : a.WellTyped

inductive New (component : Declared) : Nat → FixedArray → Prop
  | blank (n : Nat) : New component n (.blank component n)
  | ofValues {items a} (h : ofValues component items = .ok a) : New component items.length a

def write (a : FixedArray) (request : Nat × Value) : FixedArray :=
  (a.set request.1 request.2).toOption.getD a

def writes (a : FixedArray) (requests : List (Nat × Value)) : FixedArray := requests.foldl write a

variable {component : Declared} {n i : Nat} {a b : FixedArray} {v : Value} {items : List Value}

theorem ofValues_eq_ok :
    ofValues component items = .ok a ↔
      (∀ v ∈ items, component.admits v = true) ∧ a = ⟨component, items⟩ := by
  unfold ofValues
  cases hfind : items.find? fun v => !component.admits v with
  | none =>
    have hall : ∀ v ∈ items, component.admits v = true := by simpa using hfind
    rw [and_iff_right hall, Except.ok.injEq, eq_comm]
  | some bad =>
    have hbad : component.admits bad = false := by simpa using List.find?_some hfind
    simp only [reduceCtorEq, false_iff, not_and]
    intro hall
    rw [hall bad (List.mem_of_find?_eq_some hfind)] at hbad
    cases hbad

/-- A write is carried out if and only if the component type has room for the value and the index is in
range; it changes the item at the index. -/
theorem set_eq_ok :
    a.set i v = .ok b ↔
      a.component.admits v = true ∧ i < a.length ∧ b = { a with items := a.items.set i v } := by
  unfold set length
  cases hadmit : a.component.admits v with
  | false => simp
  | true =>
    by_cases hi : i < a.items.length
    · simp [hi, eq_comm]
    · simp [hi]

theorem exists_set_eq_ok :
    (∃ b, a.set i v = .ok b) ↔ (v = .null ∨ a.component.accepts v = true) ∧ i < a.length := by
  simp only [set_eq_ok, Declared.admits_iff]
  exact ⟨fun ⟨_, hv, hi, _⟩ => ⟨hv, hi⟩, fun ⟨hv, hi⟩ => ⟨_, hv, hi, rfl⟩⟩

theorem get?_of_set (h : a.set i v = .ok b) :
    b.get? i = some v ∧ ∀ j ≠ i, b.get? j = a.get? j := by
  obtain ⟨-, hi, rfl⟩ := set_eq_ok.mp h
  exact ⟨List.getElem?_set_self hi, fun j hj => List.getElem?_set_ne (Ne.symm hj)⟩

theorem write_of_accepted (h : a.set i v = .ok b) : a.write (i, v) = b := by
  simp only [write, h]
  rfl

theorem write_of_refused {e : ArrayError} (h : a.set i v = .error e) : a.write (i, v) = a := by
  simp only [write, h]
  rfl

theorem New.typed (h : New component n a) : a.Typed component n := by
  cases h with
  | blank => exact ⟨rfl, List.length_replicate, wellTyped_blank component n⟩
  | ofValues h =>
    obtain ⟨hall, rfl⟩ := ofValues_eq_ok.mp h
    exact ⟨rfl, rfl, hall⟩

theorem WellTyped.set (ha : a.WellTyped) (h : a.set i v = .ok b) : b.WellTyped := by
  obtain ⟨hv, -, rfl⟩ := set_eq_ok.mp h
  intro u hu
  rcases List.mem_or_eq_of_mem_set hu with hu | rfl
  · exact ha u hu
  · exact hv

theorem Typed.set (ha : a.Typed component n) (h : a.set i v = .ok b) : b.Typed component n :=
  ⟨(set_component h).trans ha.component, (set_length h).trans ha.length, ha.wellTyped.set h⟩

theorem Typed.write (ha : a.Typed component n) (request : Nat × Value) :
    (a.write request).Typed component n := by
  obtain ⟨i, v⟩ := request
  cases h : a.set i v with
  | error e => rwa [write_of_refused h]
  | ok b =>
    rw [write_of_accepted h]
    exact ha.set h

theorem Typed.writes (ha : a.Typed component n) (requests : List (Nat × Value)) :
    (a.writes requests).Typed component n := by
  induction requests generalizing a with
  | nil => exact ha
  | cons request rest ih => exact ih (ha.write request)

end FixedArray
end GraphCopy
