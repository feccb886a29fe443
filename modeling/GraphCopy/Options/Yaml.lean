import GraphCopy.Options.Yaml.Node

/-!
# Options in YAML

The only document is a mapping, whose entries assign options. The keys of every
mapping are texts, numbers or truth values. A text without a document assigns
nothing.
-/

namespace GraphCopy.Yaml

def Node.name? : Node → Option String
  | .text s => some s
  | .integer n => some (toString n)
  | .flag b => some (toString b)
  | .real s => some s
  | _ => none

mutual

def Node.value? : Node → Option OptionValue
  | .null => some .null
  | .unreadable => some .null
  | .flag b => some (.flag b)
  | .integer n => some (.integer n)
  | .real s => (Binary64.ofText? s).map .real
  | .text s => some (.text s)
  | .sequence items => if areConvertible items then some .compound else none
  | .mapping entries => if arePairsConvertible entries then some .compound else none

def areConvertible : List Node → Bool
  | [] => true
  | n :: ns => n.value?.isSome && areConvertible ns

def arePairsConvertible : List (Node × Node) → Bool
  | [] => true
  | (k, v) :: es => k.name?.isSome && v.value?.isSome && arePairsConvertible es

end

def assignment? (e : Node × Node) : Option Assignment := do
  pure ⟨← e.1.name?, ← e.2.value?⟩

def assignments? (s : String) : Option (List Assignment) := do
  match ← documents? s with
  | [] => pure []
  | [.mapping entries] => entries.mapM assignment?
  | _ => none

end GraphCopy.Yaml
