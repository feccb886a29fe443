import GraphCopy.Types.Record

/-!
# Types described by data

A specification lists the fields of a type and says which constructors and
capabilities it has; `Specs.types` is the table of types that the
specifications describe. Instances of a type that is a collection or a map own
a list of items: a collection shows the keys, a map shows keys and values, and
both may refuse more than a given number of them.
-/

namespace GraphCopy

structure FieldSpec where
  name : String
  storage : Storage
  constant : Bool
  typeLevel : Bool
  typeConstant : Option Value
  getError : Option String
  setError : Option String

def FieldSpec.plain (name : String) (storage : Storage) : FieldSpec :=
  { name, storage, constant := false, typeLevel := false, typeConstant := none, getError := none
    setError := none }

inductive MakeSpec
  | none
  | blank
  /-- An empty list, which is of another type. -/
  | list

inductive CopySpec
  | none
  | shallow
  /-- A copy constructor that never yields a copy. -/
  | refusing

inductive RoundTripSpec
  | none
  | blank
  | list
  | failing (text : String)
  /-- The slots survive, but those at the given positions start anew; a floating point number that is
  not finite is lost on the way. -/
  | slots (skipped : List Nat)

structure TypeSpec where
  name : String
  path : String
  kind : TypeKind
  extensible : Bool
  fields : List FieldSpec
  construct : MakeSpec
  copy : CopySpec
  roundTrip : RoundTripSpec
  selfClone : Bool
  collection : Bool
  map : Bool
  emptyLike : Option TypeId
  pushLimit : Option Nat

def TypeSpec.bare (name path : String) : TypeSpec :=
  { name, path, kind := .record, extensible := false, fields := [], construct := .none, copy := .none
    roundTrip := .none, selfClone := false, collection := false, map := false, emptyLike := none
    pushLimit := none }

def TypeSpec.storages (s : TypeSpec) : List Storage :=
  s.fields.filterMap fun f => if f.typeConstant.isSome then none else some f.storage

def TypeSpec.blank (s : TypeSpec) (index tick : Nat) : Object :=
  .host index (defaultSlots tick s.storages) []

structure Specs where
  hosts : List TypeSpec
  containerPath : String

namespace Specs

def path (specs : Specs) : TypeId → String
  | .array => specs.containerPath ++ "Array"
  | .list => specs.containerPath ++ "List"
  | .set => specs.containerPath ++ "Set"
  | .map => specs.containerPath ++ "Map"
  | .host i => ((specs.hosts[i]?).map TypeSpec.path).getD "Undefined"

def blank (specs : Specs) : TypeId → Nat → Object
  | .array, _ => .array (.blank .dynamic 0)
  | .list, _ => .list []
  | .set, _ => .set .empty
  | .map, _ => .map .empty
  | .host i, tick =>
    match specs.hosts[i]? with
    | some s => s.blank i tick
    | none => .host i [] []

end Specs

def FieldSpec.field (f : FieldSpec) (owner : Owner) (path : TypeId → String) (slot : Nat) : Field :=
  match f.typeConstant with
  | some v =>
    let constant := Field.typeLevelConstant owner f.name f.storage.declared v
    { constant with get := (constant.failing owner f.getError none).get }
  | none =>
    let field := Field.ofSlot owner path f.name slot f.storage
    { field.failing owner f.getError f.setError with
      constant := f.constant, typeLevel := f.typeLevel }

def fieldsFrom (owner : Owner) (path : TypeId → String) : Nat → List FieldSpec → List Field
  | _, [] => []
  | slot, f :: fs =>
    f.field owner path slot ::
      fieldsFrom owner path (if f.typeConstant.isSome then slot else slot + 1) fs

def pushItem (limit : Option Nat) (o : Object) (k v : Value) : Except String Object :=
  match limit with
  | some n =>
    if n ≤ o.items.length then .error ("capacity " ++ toString n ++ " exceeded")
    else .ok (o.withItems (o.items ++ [(k, v)]))
  | none => .ok (o.withItems (o.items ++ [(k, v)]))

def Binary64.isFinite (x : Binary64) : Bool := !x.isNaN && !x.isInfinite

def Slot.isLost : Slot → Bool
  | .datum (.float x) => !x.isFinite
  | _ => false

namespace TypeSpec

def slotRoundTrip (s : TypeSpec) (skipped : List Nat) (tick : Nat) (o : Object) :
    Except String Object :=
  let fresh := defaultSlots tick s.storages
  let slots := o.slots.mapIdx fun i slot =>
    if skipped.contains i then (fresh[i]?).getD slot else slot
  if slots.any Slot.isLost then .error "invalid type: null, expected f64"
  else
    match o with
    | .host i _ items => .ok (.host i slots items)
    | o => .ok o

def descriptor (s : TypeSpec) (path : TypeId → String) (index : Nat) : Descriptor where
  name := s.name
  type := .host index
  kind := s.kind
  extensible := s.extensible
  fields := fieldsFrom ⟨.host index, s.name⟩ path 0 s.fields
  construct := match s.construct with
    | .none => none
    | .blank => some (s.blank index)
    | .list => some fun _ => .list []
  copyConstruct := match s.copy with
    | .none => none
    | .shallow => some some
    | .refusing => some fun _ => none
  roundTrip := match s.roundTrip with
    | .none => none
    | .blank => some fun tick _ => .ok (s.blank index tick)
    | .list => some fun _ _ => .ok (.list [])
    | .failing text => some fun _ _ => .error text
    | .slots skipped => some (s.slotRoundTrip skipped)

def emptied (s : TypeSpec) (specs : Specs) (tick : Nat) (o : Object) : Object :=
  match s.emptyLike with
  | some t => specs.blank t tick
  | none => o.withItems []

def info (s : TypeSpec) (specs : Specs) (index : Nat) : TypeInfo where
  descriptor := s.descriptor specs.path index
  path := s.path
  selfClone := if s.selfClone then some id else none
  collection :=
    if s.collection then
      some
        { elements := fun o => o.items.map Prod.fst
          emptyLike := s.emptied specs
          push := fun o v => pushItem s.pushLimit o v .null }
    else none
  map :=
    if s.map then
      some
        { entries := Object.items
          emptyLike := s.emptied specs
          insert := pushItem s.pushLimit }
    else none

end TypeSpec

def Specs.types (specs : Specs) : Types where
  hosts := specs.hosts.mapIdx fun i s => s.info specs i
  containerPath := specs.containerPath

theorem Specs.describe_host (specs : Specs) {i : Nat} {s : TypeSpec} (hi : specs.hosts[i]? = some s) :
    specs.types.describe (.host i) = s.descriptor specs.path i := by
  simp [Types.describe, Types.info, Specs.types, hi, TypeSpec.info]

theorem Specs.describe_host_type (specs : Specs) (i : Nat) :
    (specs.types.describe (.host i)).type = .host i := by
  cases hi : specs.hosts[i]? with
  | some s => rw [specs.describe_host hi]; rfl
  | none => simp [Types.describe, Types.info, Specs.types, hi, TypeInfo.bare]

end GraphCopy
