import GraphCopy.Number.Shortest

/-!
# Decimal numbers

A decimal is `digits * 10 ^ (-scale)` as it was given; trailing zeros are kept
and shown. Two decimals are numerically equal when their reduced forms agree,
where the reduced form has no trailing zero among its digits and zero has
scale zero.
-/

namespace GraphCopy

structure Decimal where
  digits : Int
  scale : Int
deriving DecidableEq, Repr, Inhabited

namespace Decimal

def reduceBy : Nat → Decimal → Decimal
  | 0, d => d
  | fuel + 1, d =>
    if d.digits % 10 = 0 then reduceBy fuel ⟨d.digits / 10, d.scale - 1⟩ else d

def reduced (d : Decimal) : Decimal :=
  if d.digits = 0 then ⟨0, 0⟩ else reduceBy (decimalLength d.digits.natAbs) d

def numEq (a b : Decimal) : Bool := a.reduced == b.reduced

def ofNat (n : Nat) : Decimal := ⟨n, 0⟩

/-- Digits with the point in place while it needs at most five leading zeros; a
smaller number has one digit before the point and an exponent, and more than fifteen zeros after
the digits are written as an exponent too. -/
def text (d : Decimal) : String :=
  if d.digits = 0 then "0"
  else
    let sign := if d.digits < 0 then "-" else ""
    let ds := toString d.digits.natAbs
    let n : Int := ds.length
    if n + 5 < d.scale then
      sign ++ (DecimalDigits.mk d.digits.natAbs (-d.scale)).scientific "E"
    else if d.scale < -15 then sign ++ ds ++ "e+" ++ toString (-d.scale)
    else if d.scale ≤ 0 then sign ++ ds ++ zeros (-d.scale).toNat
    else sign ++ (DecimalDigits.mk d.digits.natAbs (-d.scale)).positional

end Decimal

inductive NumeralError
  | invalidDigit
  | tooLarge
deriving DecidableEq, Repr

def NumeralError.message : NumeralError → String
  | .invalidDigit => "invalid digit found in string"
  | .tooLarge => "number too large to fit in target type"

def digitValue? (c : Char) : Option Nat :=
  if '0' ≤ c ∧ c ≤ '9' then some (c.toNat - 48) else none

def natOfDigits (ds : List Nat) : Nat := ds.foldl (fun acc d => acc * 10 + d) 0

/-- Reads digits from the left up to a limit; the first character at which this goes wrong decides
the error. -/
def readDigits (limit : Nat) : Nat → List Char → Except NumeralError Nat
  | acc, [] => .ok acc
  | acc, c :: cs =>
    match digitValue? c with
    | none => .error .invalidDigit
    | some d => if limit < acc * 10 + d then .error .tooLarge else readDigits limit (acc * 10 + d) cs

def readNumeral (limit : Nat) (s : String) : Except NumeralError Nat :=
  match s.toList with
  | [] => .error .invalidDigit
  | cs => readDigits limit 0 cs

theorem readDigits_le {limit acc n : Nat} {cs : List Char} (hacc : acc ≤ limit)
    (h : readDigits limit acc cs = .ok n) : n ≤ limit := by
  induction cs generalizing acc with
  | nil => simp [readDigits] at h; omega
  | cons c cs ih =>
    simp only [readDigits] at h
    split at h
    · simp at h
    · split at h
      · simp at h
      · exact ih (by omega) h

end GraphCopy
