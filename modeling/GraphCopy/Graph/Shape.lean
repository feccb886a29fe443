import GraphCopy.Types

/-!
# What an object shows

An object shows its items, its entries or its fields: arrays and collections
show a sequence, maps show entries, and everything else the fields that hold
its state. A field that cannot be read shows nothing.
-/

namespace GraphCopy

inductive Shape
  | sequence (items : List Value)
  | entries (es : List (Value × Value))
  | record (fields : List (String × Option Value))

def Shape.values : Shape → List Value
  | .sequence items => items
  | .entries es => es.flatMap fun e => [e.1, e.2]
  | .record fields => fields.filterMap Prod.snd

def Descriptor.readings (d : Descriptor) (o : Object) : List (String × Except String Value) :=
  d.instanceFields.map fun f => (f.name, f.get o 0)

def shapeOf (types : Types) (d : Descriptor) (o : Object) : Shape :=
  match o.array? with
  | some a => .sequence a.items
  | none =>
    match (types.info o.type).collection with
    | some c => .sequence (c.elements o)
    | none =>
      match (types.info o.type).map with
      | some m => .entries (m.entries o)
      | none => .record ((d.readings o).map fun f => (f.1, f.2.toOption))

def Heap.shape (types : Types) (d : Descriptor) (h : Heap) (r : Ref) : Shape :=
  match h.get? r with
  | some o => shapeOf types d o
  | none => .record []

end GraphCopy
