import GraphCopy.Types

/-!
# Records

The fields of a record read and write one slot each. An accessor checks first
that the object is of the type it was made for. A constant of the type has no
slot: it reads as a fixed value and cannot be written. An accessor may be made to fail, which it
does only on objects of its type.
-/

namespace GraphCopy

structure Owner where
  type : TypeId
  name : String

def Owner.slots? (owner : Owner) (o : Object) : Except String (List Slot) :=
  if o.type = owner.type then .ok o.slots else .error ("expected " ++ owner.name)

def Field.ofSlot (owner : Owner) (path : TypeId → String) (name : String) (i : Nat)
    (storage : Storage) : Field where
  name := name
  declared := storage.declared
  constant := false
  typeLevel := false
  get o tick :=
    match owner.slots? o with
    | .error e => .error e
    | .ok slots =>
      match slots[i]? with
      | some slot => .ok (slot.read ⟨tick, i⟩)
      | none => .error ("expected " ++ owner.name)
  set o v :=
    match owner.slots? o with
    | .error e => .error e
    | .ok slots =>
      if i < slots.length then
        match storage.store path v with
        | .ok slot => .ok (o.withSlot i slot)
        | .error e => .error e.message
      else .error ("expected " ++ owner.name)

def Field.typeLevelConstant (owner : Owner) (name : String) (declared : Declared) (content : Value) :
    Field where
  name := name
  declared := declared
  constant := true
  typeLevel := true
  get o tick := (owner.slots? o).map fun _ => content.madeAt ⟨tick, 0⟩
  set _ _ := .error "field is read only"

/-- The accessors of a field, made to fail with the given texts on objects of the owner's type. A
constant of the type is never written, so it has no such failure. -/
def Field.failing (owner : Owner) (getError setError : Option String) (f : Field) : Field where
  name := f.name
  declared := f.declared
  constant := f.constant
  typeLevel := f.typeLevel
  get o tick :=
    match owner.slots? o, getError with
    | .error e, _ => .error e
    | .ok _, some e => .error e
    | .ok _, none => f.get o tick
  set o v :=
    match owner.slots? o, setError with
    | .error e, _ => .error e
    | .ok _, some e => .error e
    | .ok _, none => f.set o v

/-- The slots of a new record, with their default content; the place of the slot at position `i` has
offset `i`. A storage without a default starts as null. -/
def defaultSlots (tick : Nat) (storages : List Storage) : List Slot :=
  storages.mapIdx fun i s => (s.default? ⟨tick, i⟩).getD (.value .null)

theorem Field.failing_none_get {owner : Owner} {f : Field} {o : Object} {tick : Nat}
    (h : o.type = owner.type) : (f.failing owner none none).get o tick = f.get o tick := by
  simp [Field.failing, Owner.slots?, h]

theorem Field.ofSlot_set_type {owner : Owner} {path : TypeId → String} {name : String} {i : Nat}
    {s : Storage} {o o' : Object} {v : Value}
    (h : (Field.ofSlot owner path name i s).set o v = .ok o') : o'.type = o.type := by
  simp only [Field.ofSlot] at h
  split at h
  · simp at h
  · split at h
    · split at h
      · simp only [Except.ok.injEq] at h; subst h; exact Object.type_withSlot ..
      · simp at h
    · simp at h

end GraphCopy
