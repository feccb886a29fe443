import GraphCopy.Copy.Cloner
import GraphCopy.Types.Spec

/-!
# Strategies of the host

Ready-made parts for strategies beside the built-in ones: conditions on the
source, shells, and ways to fill a shell from the elements or the fields of
the source.
-/

namespace GraphCopy

namespace Guard

def always (b : Bool) : Guard := .holds fun _ _ _ => b
def ofType (t : TypeId) : Guard := .holds fun _ _ r => r.type == t
def named (name : String) : Guard := .holds fun types _ r => types.name r.type == name

def fieldStarts (field start : String) : Guard := .holds fun types h r =>
  match h.get? r with
  | none => false
  | some o => (types.describe r.type).fields.any fun f =>
    f.name == field &&
      match f.get o 0 with
      | .ok (.text t) => start.toList.isPrefixOf t.content.toList
      | _ => false

end Guard

inductive ShellSpec
  | itself
  | blank (t : TypeId)
  | failing (e : CopyError)

def ShellSpec.shell (specs : Specs) :
    ShellSpec → Types → Heap → Nat → Ref → Except CopyError Shell
  | .itself, _, _, _, source => .ok (.existing source)
  | .blank t, _, _, tick, _ => .ok (.fresh (specs.blank t tick))
  | .failing e, _, _, _, _ => .error e

inductive FillSpec
  | nothing
  | failing (e : CopyError)
  | elements
  /-- Pushes the copy of each element that is not null. -/
  | nonNull
  /-- Pushes the elements themselves. -/
  | share
  /-- Copies each field into the field of the same description. -/
  | fields
  /-- Asks for the copy of the source again. -/
  | again

def containedIn? (types : Types) (o : Object) : Option (List Value) :=
  match o.array? with
  | some a => some a.items
  | none =>
    match (types.info o.type).collection with
    | some c => some (c.elements o)
    | none => ((types.info o.type).map).map fun m => (m.entries o).flatMap fun e => [e.1, e.2]

def pushOnto (types : Types) (target : Ref) (v : Value) (next : Script) : Script :=
  let name := types.name target.type
  .edit target (fun o =>
    match (types.info target.type).collection with
    | none => .error (.instantiation name "cannot fill")
    | some c => (c.push o v).mapError (.instantiation name)) next

/-- Pushes the elements of a source one after the other, as `step` says. The elements of an object that
contains nothing are those of its fields that can be read. -/
def fillElements (types : Types) (source : Ref) (step : Value → Script → Script) : Script :=
  .look fun h tick =>
    match h.get? source with
    | none => .done
    | some o =>
      match containedIn? types o with
      | some vs => Script.each step vs
      | none => .describe o.type fun d =>
        Script.each step (d.instanceFields.filterMap fun f => (f.get o tick).toOption)

def FillSpec.fill : FillSpec → Types → Ref → Ref → Script
  | .nothing, _, _, _ => .done
  | .failing e, _, _, _ => .fail e
  | .elements, types, source, target =>
    fillElements types source fun v rest =>
      .copyOrFail v fun c => pushOnto types target c rest
  | .nonNull, types, source, target =>
    fillElements types source fun v rest =>
      if v.isNull then rest else .copyOrFail v fun c => pushOnto types target c rest
  | .share, types, source, target =>
    fillElements types source fun v rest => pushOnto types target v rest
  | .fields, _, source, target =>
    .describe source.type fun d =>
      Script.each (Setting.copyField "Fill" source target) d.instanceFields
  | .again, _, source, _ => .copy (.object source) fun _ => .done

def Strategy.custom (specs : Specs) (name : String) (guard : Guard) (shell : ShellSpec)
    (fill : FillSpec) : Strategy :=
  { name, guard, shell := shell.shell specs, fill := fill.fill }

end GraphCopy
