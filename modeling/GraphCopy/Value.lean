import GraphCopy.Number.Decimal
import GraphCopy.Number.Binary64
import GraphCopy.Calendar.Timestamp
import GraphCopy.Uri

/-!
# Values

A value is null, a scalar or a reference to an object of the heap. Texts,
decimals and resource identifiers are shared: beside its content such a scalar
has the place where it was made, so that a shared scalar can be told from an
equal one made elsewhere.

There are three notions of equality. `Value.same` is identity, `Value.key` is
what sets and maps go by, and `Value.eqv` compares scalars by value, floating
point numbers by the rules of arithmetic.

A slot or the component of an array declares a type, and `Declared.accepts` says
which values may be stored under it.
-/

namespace GraphCopy

inductive TypeId
  | array
  | list
  | set
  | map
  | host (index : Nat)
deriving DecidableEq, Repr, Inhabited

/-- A reference to an object. The address alone is its identity; the type is kept beside it, so that
it is known without looking at the object. -/
structure Ref where
  type : TypeId
  address : Nat
deriving DecidableEq, Repr, Inhabited

def Ref.ptrEq (a b : Ref) : Bool := a.address == b.address

structure Place where
  tick : Nat
  offset : Nat
deriving DecidableEq, Repr

def Place.initial : Place := ⟨0, 0⟩

structure Shared (α : Type) where
  content : α
  place : Place
deriving DecidableEq

inductive Value
  | null
  | bool (b : Bool)
  | int (i : Int64)
  | float (x : Binary64)
  | char (c : Char)
  | text (t : Shared String)
  | decimal (d : Shared Decimal)
  | timestamp (t : Timestamp)
  | date (d : Date)
  | uri (u : Shared Uri)
  | object (r : Ref)
deriving DecidableEq

instance : Inhabited Value := ⟨.null⟩

inductive ScalarKind
  | bool
  | int
  | float
  | char
  | text
  | decimal
  | timestamp
  | date
  | uri
deriving DecidableEq, Repr

def ScalarKind.name : ScalarKind → String
  | .bool => "Bool"
  | .int => "Int"
  | .float => "Float"
  | .char => "Char"
  | .text => "Text"
  | .decimal => "Decimal"
  | .timestamp => "Timestamp"
  | .date => "Date"
  | .uri => "Uri"

namespace Value

def madeAt (place : Place) : Value → Value
  | text t => .text { t with place }
  | decimal d => .decimal { d with place }
  | uri u => .uri { u with place }
  | v => v

def isNull : Value → Bool
  | null => true
  | _ => false

def scalarKind? : Value → Option ScalarKind
  | null => none
  | bool _ => some .bool
  | int _ => some .int
  | float _ => some .float
  | char _ => some .char
  | text _ => some .text
  | decimal _ => some .decimal
  | timestamp _ => some .timestamp
  | date _ => some .date
  | uri _ => some .uri
  | object _ => none

def kindName (v : Value) : String :=
  match v.scalarKind? with
  | some k => k.name
  | none => if v.isNull then "Null" else "Object"

def object? : Value → Option Ref
  | object r => some r
  | _ => none

def int? : Value → Option Int64
  | int i => some i
  | _ => none

def text? : Value → Option String
  | text t => some t.content
  | _ => none

def eqv : Value → Value → Bool
  | null, null => true
  | bool a, bool b => a == b
  | int a, int b => a == b
  | float a, float b => a.numEq b
  | char a, char b => a == b
  | text a, text b => a.content == b.content
  | decimal a, decimal b => a.content.numEq b.content
  | timestamp a, timestamp b => a == b
  | date a, date b => a == b
  | uri a, uri b => a.content == b.content
  | object a, object b => a.ptrEq b
  | _, _ => false

/-- Identity: the very same object or shared scalar, or equal plain scalars; floating point numbers
by their bits. -/
def same : Value → Value → Bool
  | object a, object b => a.ptrEq b
  | float a, float b => a.bits == b.bits
  | text a, text b => a == b
  | decimal a, decimal b => a == b
  | uri a, uri b => a == b
  | a, b => a.eqv b

end Value

/-- What sets and maps tell values apart by: scalars by value, floating point numbers by their bits,
decimals by the number, objects by identity. -/
inductive Key
  | null
  | bool (b : Bool)
  | int (i : Int64)
  | float (bits : UInt64)
  | char (c : Char)
  | text (s : String)
  | decimal (reduced : Decimal)
  | timestamp (t : Timestamp)
  | date (d : Date)
  | uri (u : Uri)
  | object (address : Nat)
deriving DecidableEq

def Value.key : Value → Key
  | .null => .null
  | .bool b => .bool b
  | .int i => .int i
  | .float x => .float x.bits
  | .char c => .char c
  | .text t => .text t.content
  | .decimal d => .decimal d.content.reduced
  | .timestamp t => .timestamp t
  | .date d => .date d
  | .uri u => .uri u.content
  | .object r => .object r.address

theorem Value.key_object {a b : Ref} :
    (Value.object a).key = (Value.object b).key ↔ a.ptrEq b = true := by
  simp [Value.key, Ref.ptrEq]

theorem Value.scalarKind?_eq_none {v : Value} :
    v.scalarKind? = none ↔ v = .null ∨ ∃ r, v = .object r := by
  cases v <;> simp [Value.scalarKind?]

inductive Declared
  | scalar (k : ScalarKind)
  | object (t : TypeId)
  | dynamic
deriving DecidableEq, Repr

/-- A scalar type takes scalars of its kind, an object type takes null and objects of that type, and
the dynamic type takes everything. -/
def Declared.accepts : Declared → Value → Bool
  | .dynamic, _ => true
  | .scalar k, v => v.scalarKind? == some k
  | .object _, .null => true
  | .object t, .object r => r.type == t
  | .object _, _ => false

theorem Declared.accepts_scalar {k : ScalarKind} {v : Value} :
    (Declared.scalar k).accepts v = true ↔ v.scalarKind? = some k := by
  simp [Declared.accepts]

theorem Declared.accepts_object {t : TypeId} {v : Value} :
    (Declared.object t).accepts v = true ↔ v = .null ∨ ∃ r, v = .object r ∧ r.type = t := by
  cases v <;> simp [Declared.accepts]

end GraphCopy
