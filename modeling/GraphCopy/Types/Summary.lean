import GraphCopy.Types
import GraphCopy.Text.Quoted

/-!
# Summaries for diagnosis

Short texts about arrays and descriptions of types. A declared object type has
no short text, so neither has anything that mentions one.
-/

namespace GraphCopy

def Declared.summary? : Declared → Option String
  | .scalar k => some ("Scalar(" ++ k.name ++ ")")
  | .object _ => none
  | .dynamic => some "Dynamic"

def FixedArray.summary? (a : FixedArray) : Option String :=
  a.component.summary?.map fun c => "Array(" ++ c ++ "; " ++ toString a.length ++ ")"

def boolText (b : Bool) : String := if b then "true" else "false"

def braced (name : String) (parts : List (String × String)) : String :=
  name ++ " \x7b " ++ String.intercalate ", " (parts.map fun p => p.1 ++ ": " ++ p.2) ++ " \x7d"

def bracketed (parts : List String) : String := "[" ++ String.intercalate ", " parts ++ "]"

def Field.summary? (f : Field) : Option String :=
  f.declared.summary?.map fun declared =>
    braced "FieldDescriptor"
      [("name", Text.quoted f.name), ("declared", declared), ("constant", boolText f.constant),
       ("type_level", boolText f.typeLevel)]

def Descriptor.summary? (d : Descriptor) : Option String :=
  (d.fields.mapM Field.summary?).map fun fields =>
    braced "TypeDescriptor"
      [("name", Text.quoted d.name), ("kind", d.kind.name), ("extensible", boolText d.extensible),
       ("fields", bracketed fields), ("construct", boolText d.construct.isSome),
       ("copy_construct", boolText d.copyConstruct.isSome),
       ("serde", boolText d.roundTrip.isSome)]

def TypeKind.ofName? (name : String) : Option TypeKind :=
  [TypeKind.record, .array, .collection, .map, .unstructured].find? fun k => k.name == name

end GraphCopy
