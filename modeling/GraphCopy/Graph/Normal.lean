/-!
# Renumbering identities in a text

An identity token is `@0x` with at least one lower-case hexadecimal digit, and
extends over all the digits that follow. `normalize` replaces the digits of
each token by the order in which they first appear in the text.
-/

namespace GraphCopy

def isHexDigit (c : Char) : Bool := ('0' ≤ c && c ≤ '9') || ('a' ≤ c && c ≤ 'f')

inductive Segment
  | char (c : Char)
  | token (digits : List Char)
deriving DecidableEq

namespace Segment

def chars : Segment → List Char
  | char c => [c]
  | token ds => '@' :: '0' :: 'x' :: ds

def leadingDigits : List Segment → List Char
  | char c :: rest => if isHexDigit c then c :: leadingDigits rest else []
  | _ => []

def afterDigits : List Segment → List Segment
  | char c :: rest => if isHexDigit c then afterDigits rest else char c :: rest
  | rest => rest

def attach (c : Char) : List Segment → List Segment
  | char '0' :: char 'x' :: rest =>
    if c = '@' ∧ leadingDigits rest ≠ [] then token (leadingDigits rest) :: afterDigits rest
    else char c :: char '0' :: char 'x' :: rest
  | rest => char c :: rest

def read (cs : List Char) : List Segment := cs.foldr attach []

def write (ss : List Segment) : List Char := ss.flatMap chars

/-- The place of a token among those that have appeared, and all that have appeared then. -/
def ordinal (seen : List (List Char)) (digits : List Char) : Nat × List (List Char) :=
  match seen.idxOf? digits with
  | some i => (i + 1, seen)
  | none => (seen.length + 1, seen ++ [digits])

def renumberFrom (seen : List (List Char)) : List Segment → List Char
  | [] => []
  | char c :: rest => c :: renumberFrom seen rest
  | token ds :: rest =>
    let (n, seen) := ordinal seen ds
    '@' :: (toString n).toList ++ renumberFrom seen rest

end Segment

def normalize (s : String) : String :=
  String.ofList (Segment.renumberFrom [] (Segment.read s.toList))

end GraphCopy
