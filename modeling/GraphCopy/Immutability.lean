import GraphCopy.Types.Cache

/-!
# Which types are shared

A type is immutable, and its objects are shared rather than copied, when it is
marked, when a rule says so, or by its structure: a record that is not open for
extension and whose declared field types are all immutable. Scalars are
immutable, the dynamic type is not. A type that is met again while it is being
evaluated counts as mutable there.

Verdicts are kept until a mark or a rule is added.
-/

namespace GraphCopy

abbrev Rule := Descriptor → Bool

namespace Rule

def named (name : String) : Rule := fun d => d.name == name
def nameStarts (start : String) : Rule := fun d => start.toList.isPrefixOf d.name.toList
def ofKind (kind : TypeKind) : Rule := fun d => d.kind == kind
def hasField (name : String) : Rule := fun d => d.fields.any fun f => f.name == name
def maxFields (n : Nat) : Rule := fun d => d.fields.length ≤ n
def always (b : Bool) : Rule := fun _ => b

end Rule

structure SharingRules where
  marked : List TypeId
  rules : List Rule

abbrev Verdicts := List (TypeId × Bool)

structure Knowledge where
  cache : DescriptorCache
  verdicts : Verdicts

def Knowledge.empty : Knowledge := ⟨.empty, []⟩

def Knowledge.describe (types : Types) (t : TypeId) (k : Knowledge) : Descriptor × Knowledge :=
  let (d, cache) := k.cache.lookup types t
  (d, { k with cache })

namespace SharingRules

def plain : SharingRules := ⟨[], []⟩

def mark (s : SharingRules) (t : TypeId) : SharingRules :=
  if s.marked.contains t then s else { s with marked := t :: s.marked }

def addRule (s : SharingRules) (r : Rule) : SharingRules := { s with rules := s.rules ++ [r] }

def grants (s : SharingRules) (d : Descriptor) : Bool :=
  s.marked.contains d.type || s.rules.any fun rule => rule d

def evaluateDeclared (types : Types) (ask : Descriptor → Knowledge → Bool × Knowledge) :
    Declared → Knowledge → Bool × Knowledge
  | .scalar _, k => (true, k)
  | .dynamic, k => (false, k)
  | .object t, k => let (d, k) := k.describe types t; ask d k

def evaluateFields (types : Types) (ask : Descriptor → Knowledge → Bool × Knowledge) :
    List Field → Knowledge → Bool × Knowledge
  | [], k => (true, k)
  | f :: fs, k =>
    match evaluateDeclared types ask f.declared k with
    | (true, k) => evaluateFields types ask fs k
    | (false, k) => (false, k)

/-- The verdict on a type while the types of `pending` are being evaluated. -/
def evaluate (types : Types) (s : SharingRules) :
    Nat → List TypeId → Descriptor → Knowledge → Bool × Knowledge
  | 0, _, _, k => (false, k)
  | fuel + 1, pending, d, k =>
    match k.verdicts.lookup d.type with
    | some verdict => (verdict, k)
    | none =>
      if pending.contains d.type then (false, k)
      else
        let (verdict, k) :=
          if s.grants d then (true, k)
          else if d.kind == .record && !d.extensible then
            evaluateFields types (evaluate types s fuel (d.type :: pending)) d.fields k
          else (false, k)
        (verdict, { k with verdicts := (d.type, verdict) :: k.verdicts })

def nesting (types : Types) : Nat := types.hosts.length + 2

def isImmutable (types : Types) (s : SharingRules) (d : Descriptor) (k : Knowledge) :
    Bool × Knowledge :=
  evaluate types s (nesting types) [] d k

def isImmutableDeclared (types : Types) (s : SharingRules) (t : Declared) (k : Knowledge) :
    Bool × Knowledge :=
  evaluateDeclared types (evaluate types s (nesting types) []) t k

def isImmutableRef (types : Types) (s : SharingRules) (r : Ref) (k : Knowledge) :
    Bool × Knowledge :=
  let (d, k) := k.describe types r.type
  isImmutable types s d k

def isImmutableValue (types : Types) (s : SharingRules) : Value → Knowledge → Bool × Knowledge
  | .object r, k => isImmutableRef types s r k
  | _, k => (true, k)

/-- A type is immutable for a history-free reason: the least set of types closed under marks, rules and
the structure of records. -/
inductive Immutable (types : Types) (s : SharingRules) : Descriptor → Prop
  | granted {d} (h : s.grants d = true) : Immutable types s d
  | structural {d} (hk : d.kind = .record) (he : d.extensible = false)
      (hd : ∀ f ∈ d.fields, f.declared ≠ .dynamic)
      (hf : ∀ f ∈ d.fields, ∀ t, f.declared = .object t → Immutable types s (types.describe t)) :
      Immutable types s d

end SharingRules
end GraphCopy
