import GraphCopy.Options.Assignment

/-!
# Options from the environment

Variables whose names begin with the name of the program and an underscore, in
any case, assign the option that the rest of the name names in lower case. The
text of a variable is a truth value, an integer or a floating point number if it
reads as one.
-/

namespace GraphCopy

/-- Lower case as far as it can yield ASCII letters: the Kelvin sign becomes a `k`. -/
def lowerName (s : String) : String :=
  String.ofList (s.toList.map fun c => if c = '\u212a' then 'k' else c.toLower)

def integerOfText? (s : String) : Option Int :=
  match s.toList with
  | '-' :: cs => (readNumeral (Nat.pow 2 63) (String.ofList cs)).toOption.map fun n => -(n : Int)
  | '+' :: cs => (readNumeral (Nat.pow 2 63 - 1) (String.ofList cs)).toOption.map fun n => (n : Int)
  | _ => (readNumeral (Nat.pow 2 63 - 1) s).toOption.map fun n => (n : Int)

def OptionValue.ofVariable (s : String) : OptionValue :=
  if lowered s = "true" then .flag true
  else if lowered s = "false" then .flag false
  else
    match integerOfText? s with
    | some n => .integer n
    | none =>
      match Binary64.ofText? s with
      | some x => .real x
      | none => .text s

def assignmentOf? (program : String) (v : String × String) : Option Assignment :=
  let name := (lowerName v.1).toList
  let start := program.toList ++ ['_']
  if start.isPrefixOf name then
    some ⟨String.ofList (name.drop start.length), .ofVariable v.2⟩
  else none

def assignmentsOfEnvironment (program : String) (vars : List (String × String)) : List Assignment :=
  vars.filterMap (assignmentOf? program)

end GraphCopy
