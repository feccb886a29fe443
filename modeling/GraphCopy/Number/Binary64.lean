/-!
# Binary64 numbers by their bits

A floating point number is kept as its 64 bits, and every operation is exact
integer arithmetic on the sign, the significand and the exponent. A finite
number is `significand * 2 ^ exponent` with its sign. `scale2` moves a
magnitude between grids of powers of two and rounds a half to the even
neighbour; `ofScaled` and `toSingle` are built on it, and `ofRatio` and
`singleOfRatio` round a ratio in the same way.
-/

namespace GraphCopy

structure Binary64 where
  bits : UInt64
deriving DecidableEq, Repr, Inhabited

def divHalfEven (num den : Nat) : Nat :=
  let q := num / den
  let r := num % den
  if 2 * r < den then q
  else if den < 2 * r then q + 1
  else if q % 2 = 0 then q else q + 1

def bitLength (n : Nat) : Nat := if n = 0 then 0 else Nat.log2 n + 1

def scale2 (m : Nat) (q t : Int) : Nat :=
  if t ≤ q then m * Nat.pow 2 (q - t).toNat else divHalfEven m (Nat.pow 2 (t - q).toNat)

theorem divHalfEven_one (n : Nat) : divHalfEven n 1 = n := by
  simp [divHalfEven, Nat.mod_one]

theorem scale2_self (m : Nat) (q : Int) : scale2 m q q = m := by
  simp [scale2]

namespace Binary64

def fractionSpan : Nat := Nat.pow 2 52
def exponentSpan : Nat := Nat.pow 2 11

def negative (x : Binary64) : Bool := Nat.pow 2 63 ≤ x.bits.toNat
def biasedExponent (x : Binary64) : Nat := x.bits.toNat / fractionSpan % exponentSpan
def fraction (x : Binary64) : Nat := x.bits.toNat % fractionSpan

def isNaN (x : Binary64) : Bool := x.biasedExponent == 2047 && x.fraction != 0
def isInfinite (x : Binary64) : Bool := x.biasedExponent == 2047 && x.fraction == 0
def isZero (x : Binary64) : Bool := x.biasedExponent == 0 && x.fraction == 0

def significand (x : Binary64) : Nat :=
  if x.biasedExponent = 0 then x.fraction else x.fraction + fractionSpan

def exponent (x : Binary64) : Int :=
  if x.biasedExponent = 0 then -1074 else (x.biasedExponent : Int) - 1075

def numEq (x y : Binary64) : Bool :=
  !x.isNaN && !y.isNaN && (x.bits == y.bits || (x.isZero && y.isZero))

def nan : Binary64 := ⟨0x7ff8000000000000⟩
def zero : Binary64 := ⟨0⟩

def ofParts (neg : Bool) (biased fraction : Nat) : Binary64 :=
  ⟨UInt64.ofNat ((if neg then Nat.pow 2 63 else 0) + biased * fractionSpan + fraction)⟩

def negated (x : Binary64) : Binary64 := ofParts (!x.negative) x.biasedExponent x.fraction

def infinity (neg : Bool) : Binary64 := ofParts neg 2047 0

/-- The number `m * 2 ^ q` for a significand of at most 53 bits on the grid of
finite numbers; beyond the largest finite number it is infinite. -/
def ofGrid (neg : Bool) (m : Nat) (q : Int) : Binary64 :=
  if m < fractionSpan then ofParts neg 0 m
  else
    let biased := (q + 1075).toNat
    if 2047 ≤ biased then infinity neg else ofParts neg biased (m - fractionSpan)

/-- The unit in the last place for a magnitude in `[2 ^ (e - 1), 2 ^ e)`. -/
def unitFor (e : Int) : Int := max (e - 53) (-1074)

def carry (neg : Bool) (m : Nat) (t : Int) : Binary64 :=
  if m = Nat.pow 2 53 then ofGrid neg (Nat.pow 2 52) (t + 1) else ofGrid neg m t

/-- The number nearest to `m * 2 ^ q`, ties to even. -/
def ofScaled (neg : Bool) (m : Nat) (q : Int) : Binary64 :=
  let t := unitFor (q + bitLength m)
  carry neg (scale2 m q t) t

def ratioLength (num den : Nat) : Int :=
  let guess : Int := (bitLength num : Int) - bitLength den
  let below :=
    if 0 ≤ guess then num < den * Nat.pow 2 guess.toNat else num * Nat.pow 2 (-guess).toNat < den
  if below then guess else guess + 1

def ratioInUnits (num den : Nat) (t : Int) : Nat :=
  if 0 ≤ t then divHalfEven num (den * Nat.pow 2 t.toNat)
  else divHalfEven (num * Nat.pow 2 (-t).toNat) den

def ofRatio (neg : Bool) (num den : Nat) : Binary64 :=
  if num = 0 then ofParts neg 0 0
  else
    let t := unitFor (ratioLength num den)
    carry neg (ratioInUnits num den t) t

def singleUnitFor (e : Int) : Int := max (e - 24) (-149)

def ofSingleGrid (neg : Bool) (m : Nat) (t : Int) : Binary64 :=
  if Nat.pow 2 24 ≤ m && 104 ≤ t then infinity neg
  else if 105 ≤ t then infinity neg
  else ofScaled neg m t

def singleOfRatio (neg : Bool) (num den : Nat) : Binary64 :=
  if num = 0 then ofParts neg 0 0
  else
    let t := singleUnitFor (ratioLength num den)
    ofSingleGrid neg (ratioInUnits num den t) t

/-- Rounded to the nearest binary32 number, which is again a binary64 number. A NaN
becomes the quiet NaN of its sign with the leading bits of its payload. -/
def toSingle (x : Binary64) : Binary64 :=
  if x.isNaN then
    ofParts x.negative 2047 (x.fraction / Nat.pow 2 29 * Nat.pow 2 29 ||| Nat.pow 2 51)
  else if x.isInfinite then x
  else
    let t := singleUnitFor (x.exponent + bitLength x.significand)
    ofSingleGrid x.negative (scale2 x.significand x.exponent t) t

def roundedMagnitude (x : Binary64) : Nat :=
  if 0 ≤ x.exponent then x.significand * Nat.pow 2 x.exponent.toNat
  else
    let d := Nat.pow 2 (-x.exponent).toNat
    (2 * x.significand + d) / (2 * d)

end Binary64
end GraphCopy
