import GraphCopy.Value

/-!
# Arrays

A sequence of fixed length whose items are null or accepted by the declared
component type. `WellTyped` says so; every way to make or change an array
checks it.
-/

namespace GraphCopy

structure FixedArray where
  component : Declared
  items : List Value
deriving DecidableEq

inductive ArrayError
  | notAccepted (kind : String)
  | outOfBounds (index length : Nat)
deriving DecidableEq, Repr

def ArrayError.message : ArrayError → String
  | .notAccepted kind => "component type does not accept " ++ kind
  | .outOfBounds index length =>
    "index " ++ toString index ++ " out of bounds for length " ++ toString length

/-- Whether an array of this component type has room for the value; null fits everywhere. -/
def Declared.admits (component : Declared) (v : Value) : Bool :=
  v.isNull || component.accepts v

namespace FixedArray

def WellTyped (a : FixedArray) : Prop := ∀ v ∈ a.items, a.component.admits v = true

def blank (component : Declared) (length : Nat) : FixedArray :=
  ⟨component, List.replicate length .null⟩

def ofValues (component : Declared) (items : List Value) : Except ArrayError FixedArray :=
  match items.find? (fun v => !component.admits v) with
  | some bad => .error (.notAccepted bad.kindName)
  | none => .ok ⟨component, items⟩

def length (a : FixedArray) : Nat := a.items.length

def get? (a : FixedArray) (index : Nat) : Option Value := a.items[index]?

def set (a : FixedArray) (index : Nat) (v : Value) : Except ArrayError FixedArray :=
  if !a.component.admits v then .error (.notAccepted v.kindName)
  else if index < a.items.length then .ok { a with items := a.items.set index v }
  else .error (.outOfBounds index a.items.length)

theorem wellTyped_blank (component : Declared) (n : Nat) : (blank component n).WellTyped := by
  intro v hv
  simp only [blank, List.mem_replicate] at hv
  simp [Declared.admits, hv.2, Value.isNull]

theorem set_component {a b : FixedArray} {i : Nat} {v : Value} (h : a.set i v = .ok b) :
    b.component = a.component := by
  unfold set at h
  split at h
  · simp at h
  · split at h
    · simp only [Except.ok.injEq] at h; subst h; rfl
    · simp at h

theorem set_length {a b : FixedArray} {i : Nat} {v : Value} (h : a.set i v = .ok b) :
    b.length = a.length := by
  unfold set at h
  split at h
  · simp at h
  · split at h
    · simp only [Except.ok.injEq] at h; subst h; simp [length]
    · simp at h

end FixedArray
end GraphCopy
