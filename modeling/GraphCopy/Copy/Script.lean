import GraphCopy.Types

/-!
# Filling a copy

Copying an object has two phases. First a shell is produced and recorded as
the copy of its source; then a script fills it. A script is a tree of steps: it
looks at the heap, looks up the description of a type, makes or changes an
object, or asks for the copy of a value and goes on with the answer, which may
be an error. It cannot record copies itself.
-/

namespace GraphCopy

inductive CopyError
  | instantiation (typeName cause : String)
  | fieldAccess (typeName field cause : String)
  | depthExceeded (limit : Nat)
deriving DecidableEq, Repr

def CopyError.message : CopyError → String
  | .instantiation typeName cause => "Cannot instantiate " ++ typeName ++ ": " ++ cause
  | .fieldAccess typeName field cause =>
    "Cannot access field " ++ field ++ " of " ++ typeName ++ ": " ++ cause
  | .depthExceeded limit => "Clone depth limit of " ++ toString limit ++ " exceeded"

inductive Script
  | done
  | fail (e : CopyError)
  /-- Looks at the heap, at a new moment of its clock. -/
  | look (next : Heap → Nat → Script)
  | describe (t : TypeId) (next : Descriptor → Script)
  | make (o : Object) (next : Ref → Script)
  | put (target : Ref) (o : Object) (next : Script)
  | copy (v : Value) (next : Except CopyError Value → Script)

namespace Script

def copyOrFail (v : Value) (next : Value → Script) : Script :=
  .copy v fun
    | .ok c => next c
    | .error e => .fail e

def edit (target : Ref) (change : Object → Except CopyError Object) (next : Script) : Script :=
  .look fun h _ =>
    match h.get? target with
    | none => next
    | some o =>
      match change o with
      | .ok o' => .put target o' next
      | .error e => .fail e

def each {α : Type} (step : α → Script → Script) : List α → Script
  | [] => .done
  | a :: rest => step a (each step rest)

end Script

/-- The shell of a copy: an object that exists already, or the content of a new one. Other objects may
be made before it, for the shell to refer to. -/
inductive Shell
  | existing (r : Ref)
  | fresh (o : Object)
  | part (o : Object) (next : Ref → Shell)

end GraphCopy
