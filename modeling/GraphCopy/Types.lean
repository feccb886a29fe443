import GraphCopy.Heap

/-!
# Types of objects

A type is described by its fields and constructors and by the capabilities of
its instances: copying themselves, being a collection, being a map. A table of
types gives every type its description; the four containers are described
here, the types of the host program by the table.
-/

namespace GraphCopy

inductive TypeKind
  | record
  | array
  | collection
  | map
  | unstructured
deriving DecidableEq, Repr

def TypeKind.name : TypeKind → String
  | .record => "Record"
  | .array => "Array"
  | .collection => "Collection"
  | .map => "Map"
  | .unstructured => "Opaque"

structure Field where
  name : String
  declared : Declared
  constant : Bool
  typeLevel : Bool
  get : Object → Nat → Except String Value
  set : Object → Value → Except String Object

def Field.isInstanceState (f : Field) : Bool := !(f.constant && f.typeLevel)

/-- What is known of a type without an instance. A constructor yields the content of a new object,
made at a moment; so does copying, which may yield nothing, and a round trip through a serialized
form, which may fail. -/
structure Descriptor where
  name : String
  type : TypeId
  kind : TypeKind
  extensible : Bool
  fields : List Field
  construct : Option (Nat → Object)
  copyConstruct : Option (Object → Option Object)
  roundTrip : Option (Nat → Object → Except String Object)

def Descriptor.instanceFields (d : Descriptor) : List Field := d.fields.filter Field.isInstanceState

def Descriptor.field? (d : Descriptor) (name : String) : Option Field :=
  d.fields.find? fun f => f.name == name

structure Collection where
  elements : Object → List Value
  emptyLike : Nat → Object → Object
  push : Object → Value → Except String Object

structure KeyedCollection where
  entries : Object → List (Value × Value)
  emptyLike : Nat → Object → Object
  insert : Object → Value → Value → Except String Object

structure TypeInfo where
  descriptor : Descriptor
  path : String
  selfClone : Option (Object → Object)
  collection : Option Collection
  map : Option KeyedCollection

def TypeInfo.name (t : TypeInfo) : String := t.descriptor.name

def TypeInfo.bare (name path : String) (type : TypeId) : TypeInfo where
  descriptor :=
    { name, type, kind := .record, extensible := false, fields := []
      construct := none, copyConstruct := none, roundTrip := none }
  path := path
  selfClone := none
  collection := none
  map := none

def TypeInfo.container (name path : String) (type : TypeId) (kind : TypeKind)
    (construct : Option (Nat → Object)) : TypeInfo :=
  let bare := TypeInfo.bare name (path ++ name) type
  { bare with descriptor := { bare.descriptor with kind, construct } }

def Collection.ofLists : Collection where
  elements := Object.listItems
  emptyLike _ _ := .list []
  push o v := .ok (match o with
    | .list items => .list (items ++ [v])
    | o => o)

def Collection.ofSets : Collection where
  elements
    | .set s => s.members
    | _ => []
  emptyLike _ _ := .set .empty
  push o v := .ok (match o with
    | .set s => .set (s.insert v).1
    | o => o)

def KeyedCollection.ofMaps : KeyedCollection where
  entries
    | .map m => m.entries
    | _ => []
  emptyLike _ _ := .map .empty
  insert o k v := .ok (match o with
    | .map m => .map (m.insert k v).1
    | o => o)

structure Types where
  hosts : List TypeInfo
  containerPath : String

namespace Types

def info (types : Types) : TypeId → TypeInfo
  | .array => .container "Array" types.containerPath .array .array none
  | .list =>
    { TypeInfo.container "List" types.containerPath .list .collection (some fun _ => .list []) with
      collection := some .ofLists }
  | .set =>
    { TypeInfo.container "Set" types.containerPath .set .collection (some fun _ => .set .empty) with
      collection := some .ofSets }
  | .map =>
    { TypeInfo.container "Map" types.containerPath .map .map (some fun _ => .map .empty) with
      map := some .ofMaps }
  | .host i => (types.hosts[i]?).getD (.bare "Undefined" "Undefined" (.host i))

def describe (types : Types) (t : TypeId) : Descriptor := (types.info t).descriptor

def name (types : Types) (t : TypeId) : String := (types.info t).name

end Types

def Declared.text (types : Types) : Declared → String
  | .scalar k => "Scalar:" ++ k.name
  | .object t => "Object:" ++ types.name t
  | .dynamic => "Dynamic"

end GraphCopy
