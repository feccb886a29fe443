import GraphCopy.Copy.Script
import GraphCopy.Types

/-!
# Strategies

A strategy says for which objects it is meant, how the shell of a copy comes
about and how the shell is filled. The built-in strategies share objects of
immutable types, copy arrays item by item, let objects copy themselves, and
copy collections and maps into new empty ones.

A registry keeps strategies in order; the first that is meant for an object is
used.
-/

namespace GraphCopy

inductive Guard
  | immutableType
  | holds (p : Types → Heap → Ref → Bool)

structure Strategy where
  name : String
  guard : Guard
  shell : Types → Heap → Nat → Ref → Except CopyError Shell
  fill : Types → Ref → Ref → Script

def Strategy.leaf (name : String) (guard : Guard)
    (shell : Types → Heap → Nat → Ref → Except CopyError Shell) : Strategy :=
  { name, guard, shell, fill := fun _ _ _ => .done }

namespace Strategy

def immutable : Strategy := .leaf "immutable" .immutableType fun _ _ _ source => .ok (.existing source)

def arrayAt (h : Heap) (r : Ref) : Option FixedArray :=
  if r.type = .array then (h.get? r).bind Object.array? else none

/-- Below an array every error but the depth limit is reported for the array. -/
def arrayFailure : CopyError → CopyError
  | .depthExceeded limit => .depthExceeded limit
  | e => .instantiation "Array" e.message

def setItem (index : Nat) (v : Value) : Object → Except CopyError Object
  | .array a =>
    match a.set index v with
    | .ok a => .ok (.array a)
    | .error e => .error (.instantiation "Array" e.message)
  | _ => .error (.instantiation "Array" "clone is not an array")

def fillItem (target : Ref) (index : Nat) (next : Script) : Except CopyError Value → Script
  | .ok c => .edit target (setItem index c) next
  | .error e => .fail (arrayFailure e)

def array : Strategy where
  name := "array"
  guard := .holds fun _ _ r => r.type == .array
  shell _ h _ source :=
    match arrayAt h source with
    | some a => .ok (.fresh (.array (.blank a.component a.length)))
    | none => .error (.instantiation "Array" "source is not an array")
  fill _ source target := .look fun h _ =>
    match arrayAt h source with
    | none => .fail (.instantiation "Array" "source is not an array")
    | some a =>
      Script.each (fun item rest => .copy item.1 (fillItem target item.2 rest)) a.items.zipIdx

def selfClone : Strategy :=
  .leaf "self-clone" (.holds fun types _ r => (types.info r.type).selfClone.isSome)
    fun types h _ source =>
      match (types.info source.type).selfClone, h.get? source with
      | some copy, some o => .ok (.fresh (copy o))
      | _, _ => .error (.instantiation (types.name source.type) "lost its self clone capability")

def collection : Strategy where
  name := "collection"
  guard := .holds fun types _ r => (types.info r.type).collection.isSome
  shell types h tick source :=
    match (types.info source.type).collection, h.get? source with
    | some c, some o => .ok (.fresh (c.emptyLike tick o))
    | _, _ => .error (.instantiation (types.name source.type) "not a collection")
  fill types source target := .look fun h _ =>
    let name := types.name source.type
    let elements := match (types.info source.type).collection, h.get? source with
      | some c, some o => c.elements o
      | _, _ => []
    Script.each (fun v rest => .copyOrFail v fun copy =>
      .edit target (fun o =>
        match (types.info target.type).collection with
        | none => .error (.instantiation name "empty copy is not a collection")
        | some c => (c.push o copy).mapError (.instantiation name)) rest) elements

def map : Strategy where
  name := "map"
  guard := .holds fun types _ r => (types.info r.type).map.isSome
  shell types h tick source :=
    match (types.info source.type).map, h.get? source with
    | some m, some o => .ok (.fresh (m.emptyLike tick o))
    | _, _ => .error (.instantiation (types.name source.type) "not a map")
  fill types source target := .look fun h _ =>
    let name := types.name source.type
    let entries := match (types.info source.type).map, h.get? source with
      | some m, some o => m.entries o
      | _, _ => []
    Script.each (fun e rest => .copyOrFail e.1 fun key => .copyOrFail e.2 fun value =>
      .edit target (fun o =>
        match (types.info target.type).map with
        | none => .error (.instantiation name "empty copy is not a map")
        | some m => (m.insert o key value).mapError (.instantiation name)) rest) entries

end Strategy

inductive Priority
  | first
  | last
  | before (name : String)
  | after (name : String)
deriving DecidableEq, Repr

abbrev Registry := List Strategy

namespace Registry

def position? (r : Registry) (name : String) : Option Nat := r.findIdx? fun s => s.name == name

/-- Where a strategy of this priority is inserted; next to a missing one means last. -/
def place (r : Registry) : Priority → Nat
  | .first => 0
  | .last => r.length
  | .before name => (r.position? name).getD r.length
  | .after name => ((r.position? name).map (· + 1)).getD r.length

def register (r : Registry) (s : Strategy) (p : Priority) : Registry :=
  r.take (r.place p) ++ s :: r.drop (r.place p)

def names (r : Registry) : List String := r.map Strategy.name

def builtin : Registry :=
  [.immutable, .array, .selfClone, .collection, .map]

end Registry
end GraphCopy
