import GraphCopy.Number.Decimal

/-!
# Reading floating point numerals

The grammar is an optional sign, then `inf`, `infinity` or `nan` in any case,
or digits with an optional point and an optional exponent; at least one digit
stands before the exponent. The value is the nearest binary64 number.
-/

namespace GraphCopy

structure FloatNumeral where
  digits : List Nat
  exponent : Int

def takeDigits : List Char → List Nat × List Char
  | [] => ([], [])
  | c :: cs =>
    match digitValue? c with
    | some d => let (ds, rest) := takeDigits cs; (d :: ds, rest)
    | none => ([], c :: cs)

def exponentPart? : List Char → Option Int
  | [] => some 0
  | c :: cs =>
    if c = 'e' ∨ c = 'E' then
      let (neg, cs) := match cs with
        | '-' :: r => (true, r)
        | '+' :: r => (false, r)
        | r => (false, r)
      match takeDigits cs with
      | ([], _) => none
      | (ds, []) => some (if neg then -(natOfDigits ds : Int) else natOfDigits ds)
      | _ => none
    else none

def FloatNumeral.read? (cs : List Char) : Option FloatNumeral :=
  let (whole, rest) := takeDigits cs
  let (part, rest) := match rest with
    | '.' :: r => takeDigits r
    | r => ([], r)
  if whole.isEmpty && part.isEmpty then none
  else (exponentPart? rest).map fun e => ⟨whole ++ part, e - part.length⟩

/-- The number that `ofRatio` gives for a numeral. Beyond four hundred places on either side of the range
the answer no longer depends on the digits. -/
def FloatNumeral.roundedBy (ofRatio : Bool → Nat → Nat → Binary64) (neg : Bool) (n : FloatNumeral) :
    Binary64 :=
  let m := natOfDigits n.digits
  let size := (decimalLength m : Int) + n.exponent
  if m = 0 then Binary64.ofParts neg 0 0
  else if 400 < size then Binary64.infinity neg
  else if size < -400 then Binary64.ofParts neg 0 0
  else ofRatio neg (m * Nat.pow 10 n.exponent.toNat) (Nat.pow 10 (-n.exponent).toNat)

def FloatNumeral.nearest (neg : Bool) (n : FloatNumeral) : Binary64 :=
  n.roundedBy Binary64.ofRatio neg

def FloatNumeral.nearestSingle (neg : Bool) (n : FloatNumeral) : Binary64 :=
  n.roundedBy Binary64.singleOfRatio neg

def lowerAscii (cs : List Char) : List Char := cs.map Char.toLower

def Binary64.ofText? (s : String) : Option Binary64 :=
  let (neg, cs) := match s.toList with
    | '-' :: r => (true, r)
    | '+' :: r => (false, r)
    | r => (false, r)
  let word := String.ofList (lowerAscii cs)
  if word = "inf" ∨ word = "infinity" then some (Binary64.infinity neg)
  else if word = "nan" then
    some (if neg then ⟨0xfff8000000000000⟩ else Binary64.nan)
  else (FloatNumeral.read? cs).map (FloatNumeral.nearest neg)

end GraphCopy
