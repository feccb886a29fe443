import GraphCopy.Number.Binary64

/-!
# The fewest decimal digits that read back

`shortest` finds, for a positive finite number, the least count of decimal
digits with which some decimal still rounds to that number, and of those
decimals the nearest one; an exact tie goes up. The search tests on each
decimal grid the two neighbours of the number in exact integer arithmetic.
`Binary64.text` lays the digits out: positional between `1e-4` and `1e16`, with
an exponent outside.
-/

namespace GraphCopy

structure DecimalDigits where
  digits : Nat
  exponent : Int
deriving DecidableEq, Repr

/-- The reals that round to a number, over one denominator: `low ≤ x * den ≤ high`, the ends
belonging to it when `closed`. `point` is the number itself. -/
structure RoundingInterval where
  low : Nat
  point : Nat
  high : Nat
  den : Nat
  closed : Bool

def roundingInterval (m : Nat) (q : Int) : RoundingInterval :=
  let up := Nat.pow 2 q.toNat
  let down := 4 * Nat.pow 2 (-q).toNat
  { low := (4 * m - if m = Nat.pow 2 52 then 1 else 2) * up
    point := 4 * m * up
    high := (4 * m + 2) * up
    den := down
    closed := m % 2 = 0 }

def RoundingInterval.contains (i : RoundingInterval) (d : Nat) (e : Int) : Bool :=
  let x := d * Nat.pow 10 e.toNat * i.den
  let s := Nat.pow 10 (-e).toNat
  if i.closed then i.low * s ≤ x && x ≤ i.high * s else i.low * s < x && x < i.high * s

/-- The neighbour of the number on the grid `10 ^ e` that reads back: of two the nearer one, the
upper one in a tie. -/
def RoundingInterval.onGrid? (i : RoundingInterval) (e : Int) : Option DecimalDigits :=
  let num := i.point * Nat.pow 10 (-e).toNat
  let den := i.den * Nat.pow 10 e.toNat
  let below := num / den
  let rest := num % den
  let lowHit := i.contains below e && below != 0
  let highHit := i.contains (below + 1) e
  if lowHit && (!highHit || 2 * rest < den) then some ⟨below, e⟩
  else if highHit then some ⟨below + 1, e⟩
  else none

def RoundingInterval.search (i : RoundingInterval) : Nat → Int → Option DecimalDigits
  | 0, _ => none
  | n + 1, e =>
    match i.onGrid? e with
    | some d => some d
    | none => i.search n (e - 1)

def decimalLength (n : Nat) : Nat := (Nat.toDigits 10 n).length

def DecimalDigits.trim (d : DecimalDigits) : DecimalDigits :=
  go (decimalLength d.digits) d
where
  go : Nat → DecimalDigits → DecimalDigits
    | 0, d => d
    | n + 1, d =>
      if d.digits % 10 = 0 && d.digits != 0 then go n ⟨d.digits / 10, d.exponent + 1⟩ else d

/-- The shortest decimal for `m * 2 ^ q`, which is positive. The search starts one grid above the
leading digit of the number; on the grid of its seventeenth digit there is always a hit. -/
def shortest (m : Nat) (q : Int) : DecimalDigits :=
  let i := roundingInterval m q
  let top : Int := (decimalLength (i.point / i.den) : Int)
  let top := if i.point / i.den = 0 then
      2 - (decimalLength (i.den / i.point) : Int)
    else top
  match i.search 20 top with
  | some d => d.trim
  | none => ⟨m, 0⟩

def zeros (n : Nat) : String := String.ofList (List.replicate n '0')

def DecimalDigits.positional (d : DecimalDigits) : String :=
  let ds := toString d.digits
  let n := ds.length
  if 0 ≤ d.exponent then ds ++ zeros d.exponent.toNat ++ ".0"
  else
    let k := (-d.exponent).toNat
    if k < n then
      String.ofList (ds.toList.take (n - k)) ++ "." ++ String.ofList (ds.toList.drop (n - k))
    else "0." ++ zeros (k - n) ++ ds

def DecimalDigits.scientific (d : DecimalDigits) (mark : String) : String :=
  let ds := (toString d.digits).toList
  let e := d.exponent + (ds.length - 1 : Nat)
  let tail := ds.drop 1
  String.ofList (ds.take 1) ++ (if tail.isEmpty then "" else "." ++ String.ofList tail)
    ++ mark ++ toString e

/-- Whether a number of this size is written positionally: from `1e-4` up to below `1e16`. -/
def DecimalDigits.isPlain (d : DecimalDigits) : Bool :=
  let e := d.exponent + (decimalLength d.digits : Int)
  decide (-3 ≤ e) && decide (e ≤ 16)

def Binary64.text (x : Binary64) : String :=
  if x.isNaN then "NaN"
  else
    let sign := if x.negative then "-" else ""
    if x.isInfinite then sign ++ "inf"
    else if x.isZero then sign ++ "0.0"
    else
      let d := shortest x.significand x.exponent
      sign ++ (if d.isPlain then d.positional else d.scientific "e")

end GraphCopy
