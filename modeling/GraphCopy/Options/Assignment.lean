import GraphCopy.Number.FloatNumeral

/-!
# Options of a cloner

A cloner may copy through a serialized form when a type has no constructor, may
share the source when there is no way to make an instance, and may bound the
number of objects that are in the course of being copied at a time.

Every source of options yields assignments of names to values, and a later
assignment to a name takes the place of an earlier one. Only then is the value
of each option converted. A name may be a path that continues with `.name` or
`[index]`; the option at its root then gets a compound value, which no option
can have.
-/

namespace GraphCopy

structure CopyOptions where
  serializationFallback : Bool
  shareSource : Bool
  maxDepth : Option Nat
deriving DecidableEq, Repr

namespace CopyOptions

def standard : CopyOptions := ⟨true, false, none⟩

def strict : CopyOptions := ⟨false, false, none⟩

end CopyOptions

inductive OptionValue
  | null
  | flag (b : Bool)
  | integer (n : Int)
  | real (x : Binary64)
  | text (s : String)
  | compound
deriving DecidableEq

structure Assignment where
  name : String
  value : OptionValue

def lowered (s : String) : String := String.ofList (lowerAscii s.toList)

def wordFlag? (s : String) : Option Bool :=
  if s = "true" ∨ s = "on" ∨ s = "yes" then some true
  else if s = "false" ∨ s = "off" ∨ s = "no" then some false
  else none

def largestSize : Nat := Nat.pow 2 64 - 1

def sizeOfText? (s : String) : Option Nat :=
  let digits := match s.toList with
    | '+' :: cs => String.ofList cs
    | _ => s
  (readNumeral largestSize digits).toOption

def Binary64.toSize (x : Binary64) : Nat :=
  if x.isNaN || x.negative then 0
  else if x.isInfinite then largestSize
  else min x.roundedMagnitude largestSize

namespace OptionValue

def flag? : OptionValue → Option Bool
  | .flag b => some b
  | .integer n => some (n != 0)
  | .real x => some (!x.isZero)
  | .text s =>
    let word := lowered s
    if word = "1" then some true else if word = "0" then some false else wordFlag? word
  | .null => none
  | .compound => none

def size? : OptionValue → Option Nat
  | .flag b => some b.toNat
  | .integer n => if 0 ≤ n ∧ n ≤ largestSize then some n.toNat else none
  | .real x => some x.toSize
  | .text s =>
    match wordFlag? (lowered s) with
    | some b => some b.toNat
    | none => sizeOfText? s
  | .null => none
  | .compound => none

def sizeOrNull? : OptionValue → Option (Option Nat)
  | .null => some none
  | v => v.size?.map some

end OptionValue

def isNameChar (c : Char) : Bool :=
  ('a' ≤ c && c ≤ 'z') || ('A' ≤ c && c ≤ 'Z') || ('0' ≤ c && c ≤ '9') || c == '_' || c == '-'

def isInlineBlank (c : Char) : Bool := c == ' ' || c == '\t'

def isIndex (cs : List Char) : Bool :=
  let cs := ((cs.dropWhile isInlineBlank).reverse.dropWhile isInlineBlank).reverse
  let (limit, digits) := match cs with
    | '-' :: cs => (Nat.pow 2 63, cs)
    | cs => (Nat.pow 2 63 - 1, cs)
  (readNumeral limit (String.ofList digits)).toOption.isSome

def arePathSteps : Nat → List Char → Bool
  | _, [] => true
  | 0, _ => false
  | fuel + 1, '.' :: cs =>
    !(cs.takeWhile isNameChar).isEmpty && arePathSteps fuel (cs.dropWhile isNameChar)
  | fuel + 1, '[' :: cs =>
    match cs.dropWhile (· != ']') with
    | ']' :: rest => isIndex (cs.takeWhile (· != ']')) && arePathSteps fuel rest
    | _ => false
  | _ + 1, _ => false

/-- An assignment to a path gives the option at its root a compound value. -/
def Assignment.atRoot (a : Assignment) : Assignment :=
  let cs := a.name.toList
  let root := cs.takeWhile isNameChar
  let steps := cs.dropWhile isNameChar
  if !root.isEmpty && !steps.isEmpty && arePathSteps steps.length steps then
    ⟨String.ofList root, .compound⟩
  else a

def assigned? (as : List Assignment) (name : String) : Option OptionValue :=
  ((as.map Assignment.atRoot).reverse.find? fun a => a.name == name).map Assignment.value

def assignedOr {α : Type} (as : List Assignment) (name : String) (convert : OptionValue → Option α)
    (standard : α) : Option α :=
  match assigned? as name with
  | some v => convert v
  | none => some standard

def CopyOptions.ofAssignments? (as : List Assignment) : Option CopyOptions := do
  let standard := CopyOptions.standard
  pure
    { serializationFallback :=
        ← assignedOr as "serialization_fallback" OptionValue.flag? standard.serializationFallback
      shareSource := ← assignedOr as "return_original" OptionValue.flag? standard.shareSource
      maxDepth := ← assignedOr as "max_depth" OptionValue.sizeOrNull? standard.maxDepth }

end GraphCopy
