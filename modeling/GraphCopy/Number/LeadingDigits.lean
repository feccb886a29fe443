import GraphCopy.Number.FloatNumeral

/-!
# Numerals read by their leading digits

A quick reading of a numeral keeps the leading digits that 64 bits can hold and
multiplies or divides by a power of ten, with a rounding at each step. Its
answer can differ in the last bits from the nearest number, which
`FloatNumeral.nearest` gives. A numeral that is too large is refused.
-/

namespace GraphCopy

/-- Appends digits to a significand until 64 bits can no longer hold it, and counts the digits that
are left over. -/
def appendDigits (significand : Nat) : List Nat → Nat × Nat
  | [] => (significand, 0)
  | d :: ds =>
    if significand * 10 + d < Nat.pow 2 64 then appendDigits (significand * 10 + d) ds
    else (significand, ds.length + 1)

namespace Binary64

def product (x y : Binary64) : Binary64 :=
  ofScaled false (x.significand * y.significand) (x.exponent + y.exponent)

def quotient (x y : Binary64) : Binary64 :=
  let e := x.exponent - y.exponent
  ofRatio false (x.significand * Nat.pow 2 e.toNat) (y.significand * Nat.pow 2 (-e).toNat)

def powerOfTen (n : Nat) : Binary64 := ofRatio false (Nat.pow 10 n) 1

/-- Divides by a power of ten. Powers beyond the range of finite numbers take two steps, of which the
second leaves zero if the first is not enough. -/
def overPowerOfTen (x : Binary64) (n : Nat) : Binary64 :=
  if n ≤ 308 then x.quotient (powerOfTen n)
  else if n ≤ 616 then (x.quotient (powerOfTen 308)).quotient (powerOfTen (n - 308))
  else zero

def timesPowerOfTen? (x : Binary64) (n : Nat) : Option Binary64 :=
  if x.isZero then some x
  else if 308 < n then none
  else
    let p := x.product (powerOfTen n)
    if p.isInfinite then none else some p

def scaled? (significand : Nat) (exponent : Int) : Option Binary64 :=
  let x := ofScaled false significand 0
  if 0 ≤ exponent then x.timesPowerOfTen? exponent.toNat
  else some (x.overPowerOfTen (-exponent).toNat)

end Binary64

def readLeading? (cs : List Char) : Option Binary64 := do
  let (whole, rest) := takeDigits cs
  let (part, rest) := match rest with
    | '.' :: r => takeDigits r
    | r => ([], r)
  let e ← exponentPart? rest
  let (significand, beyond) := appendDigits 0 whole
  let (significand, dropped) := appendDigits significand part
  Binary64.scaled? significand (e + beyond - (part.length - dropped : Nat))

end GraphCopy
