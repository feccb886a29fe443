import GraphCopy.Graph.Shape

/-!
# Surveying a graph

A survey lists everything that is reachable from a value, breadth first in the
order of first meeting, with the content of each object: an array with its
component type, else the elements of a collection, else the entries of a map;
and besides the fields of the instance.
-/

namespace GraphCopy

inductive Content
  | array (component : Declared) (items : List Value)
  | elements (items : List Value)
  | entries (es : List (Value × Value))
  | none

def Content.values : Content → List Value
  | .array _ items => items
  | .elements items => items
  | .entries es => es.flatMap fun e => [e.1, e.2]
  | .none => []

structure Survey where
  ref : Ref
  typeName : String
  content : Content
  fields : List (String × Except String Value)

def Survey.values (s : Survey) : List Value :=
  s.content.values ++ s.fields.filterMap fun f => f.2.toOption

def contentOf (types : Types) (o : Object) : Content :=
  match o with
  | .array a => .array a.component a.items
  | o =>
    match (types.info o.type).collection with
    | some c => .elements (c.elements o)
    | none =>
      match (types.info o.type).map with
      | some m => .entries (m.entries o)
      | none => .none

def Heap.surveyRef (types : Types) (h : Heap) (r : Ref) : Survey :=
  match h.get? r with
  | some o => ⟨r, types.name r.type, contentOf types o, (types.describe r.type).readings o⟩
  | none => ⟨r, types.name r.type, .none, []⟩

def newRefs (met : List Nat) : List Value → List Ref
  | [] => []
  | .object r :: vs =>
    if met.contains r.address then newRefs met vs else r :: newRefs (r.address :: met) vs
  | _ :: vs => newRefs met vs

def Heap.surveyFrom (types : Types) (h : Heap) : Nat → List Ref → List Nat → List Survey
  | 0, _, _ => []
  | _, [], _ => []
  | fuel + 1, r :: queue, met =>
    let s := h.surveyRef types r
    let next := newRefs met s.values
    s :: surveyFrom types h fuel (queue ++ next) (met ++ next.map Ref.address)

/-- Everything reachable from a value; each object of the heap comes at most once. -/
def Heap.survey (types : Types) (h : Heap) (v : Value) : List Survey :=
  let start := newRefs [] [v]
  h.surveyFrom types (h.size + 1) start (start.map Ref.address)

end GraphCopy
