import GraphCopy.Number.LeadingDigits

/-!
# Reading JSON

The strict grammar: no comments, no trailing commas, no unescaped controls in
strings, no lone surrogates, and nothing but white space after the value.
Numbers keep their text, so that integers can be told from other numbers, and
have to be finite as floating point numbers.
Arrays and objects nest at most 127 deep.
-/

namespace GraphCopy

inductive Json
  | null
  | bool (b : Bool)
  | number (text : String)
  | string (s : String)
  | array (items : List Json)
  | object (members : List (String × Json))

namespace Json

def skipBlank : List Char → List Char
  | c :: cs => if c = ' ' ∨ c = '\t' ∨ c = '\n' ∨ c = '\r' then skipBlank cs else c :: cs
  | [] => []

def isDigit (c : Char) : Bool := '0' ≤ c && c ≤ '9'

def hexValue? (c : Char) : Option Nat :=
  if '0' ≤ c ∧ c ≤ '9' then some (c.toNat - 48)
  else if 'a' ≤ c ∧ c ≤ 'f' then some (c.toNat - 87)
  else if 'A' ≤ c ∧ c ≤ 'F' then some (c.toNat - 55)
  else none

def hex4? : List Char → Option (Nat × List Char)
  | a :: b :: c :: d :: rest => do
    let a ← hexValue? a
    let b ← hexValue? b
    let c ← hexValue? c
    let d ← hexValue? d
    pure (((a * 16 + b) * 16 + c) * 16 + d, rest)
  | _ => none

def unicodeEscape? (cs : List Char) : Option (Char × List Char) := do
  let (n, rest) ← hex4? cs
  if 0xD800 ≤ n ∧ n ≤ 0xDBFF then
    match rest with
    | '\\' :: 'u' :: rest => do
      let (m, rest) ← hex4? rest
      if 0xDC00 ≤ m ∧ m ≤ 0xDFFF then
        pure (Char.ofNat (0x10000 + (n - 0xD800) * 0x400 + (m - 0xDC00)), rest)
      else none
    | _ => none
  else if 0xDC00 ≤ n ∧ n ≤ 0xDFFF then none
  else pure (Char.ofNat n, rest)

def simpleEscape? : Char → Option Char
  | '"' => some '"'
  | '\\' => some '\\'
  | '/' => some '/'
  | 'b' => some '\x08'
  | 'f' => some '\x0c'
  | 'n' => some '\n'
  | 'r' => some '\r'
  | 't' => some '\t'
  | _ => none

def stringRest? : Nat → List Char → List Char → Option (String × List Char)
  | 0, _, _ => none
  | fuel + 1, acc, cs =>
    match cs with
    | '"' :: rest => some (String.ofList acc.reverse, rest)
    | '\\' :: 'u' :: rest =>
      match unicodeEscape? rest with
      | some (c, rest) => stringRest? fuel (c :: acc) rest
      | none => none
    | '\\' :: c :: rest =>
      match simpleEscape? c with
      | some c => stringRest? fuel (c :: acc) rest
      | none => none
    | c :: rest => if c.toNat < 0x20 then none else stringRest? fuel (c :: acc) rest
    | [] => none

def string? (cs : List Char) : Option (String × List Char) := stringRest? (cs.length + 1) [] cs

def digits? (cs : List Char) : Option (List Char × List Char) :=
  match cs.takeWhile isDigit with
  | [] => none
  | ds => some (ds, cs.dropWhile isDigit)

def whole? : List Char → Option (List Char × List Char)
  | '0' :: rest => if (rest.head?.map isDigit).getD false then none else some (['0'], rest)
  | cs => digits? cs

def fraction? : List Char → Option (List Char × List Char)
  | '.' :: rest => (digits? rest).map fun (ds, rest) => ('.' :: ds, rest)
  | cs => some ([], cs)

def exponent? : List Char → Option (List Char × List Char)
  | c :: rest =>
    if c = 'e' ∨ c = 'E' then
      match rest with
      | '+' :: rest => (digits? rest).map fun (ds, rest) => (c :: '+' :: ds, rest)
      | '-' :: rest => (digits? rest).map fun (ds, rest) => (c :: '-' :: ds, rest)
      | rest => (digits? rest).map fun (ds, rest) => (c :: ds, rest)
    else some ([], c :: rest)
  | [] => some ([], [])

def unsigned? (cs : List Char) : Option (List Char × List Char) := do
  let (w, cs) ← whole? cs
  let (f, cs) ← fraction? cs
  let (e, cs) ← exponent? cs
  pure (w ++ f ++ e, cs)

/-- A number too large for a finite floating point number has an exponent or very many digits. -/
def isFinite (unsigned : List Char) : Bool :=
  (unsigned.length < 280 && !unsigned.any fun c => c == 'e' || c == 'E')
    || (readLeading? unsigned).isSome

def number? (cs : List Char) : Option (Json × List Char) := do
  let (minus, cs) := match cs with
    | '-' :: cs => (['-'], cs)
    | cs => ([], cs)
  let (text, rest) ← unsigned? cs
  if isFinite text then pure (.number (String.ofList (minus ++ text)), rest) else none

mutual

def value? : Nat → Nat → List Char → Option (Json × List Char)
  | 0, _, _ => none
  | fuel + 1, depth, cs =>
    match skipBlank cs with
    | 'n' :: 'u' :: 'l' :: 'l' :: rest => some (.null, rest)
    | 't' :: 'r' :: 'u' :: 'e' :: rest => some (.bool true, rest)
    | 'f' :: 'a' :: 'l' :: 's' :: 'e' :: rest => some (.bool false, rest)
    | '"' :: rest => (string? rest).map fun (s, rest) => (.string s, rest)
    | '[' :: rest =>
      if depth = 0 then none
      else
        match skipBlank rest with
        | ']' :: rest => some (.array [], rest)
        | rest => (items? fuel (depth - 1) rest).map fun (xs, rest) => (.array xs, rest)
    | '\x7b' :: rest =>
      if depth = 0 then none
      else
        match skipBlank rest with
        | '\x7d' :: rest => some (.object [], rest)
        | rest => (members? fuel (depth - 1) rest).map fun (ms, rest) => (.object ms, rest)
    | cs => number? cs

def items? : Nat → Nat → List Char → Option (List Json × List Char)
  | 0, _, _ => none
  | fuel + 1, depth, cs =>
    match value? fuel depth cs with
    | none => none
    | some (v, rest) =>
      match skipBlank rest with
      | ']' :: rest => some ([v], rest)
      | ',' :: rest => (items? fuel depth rest).map fun (vs, rest) => (v :: vs, rest)
      | _ => none

def members? : Nat → Nat → List Char → Option (List (String × Json) × List Char)
  | 0, _, _ => none
  | fuel + 1, depth, cs =>
    match skipBlank cs with
    | '"' :: rest =>
      match string? rest with
      | none => none
      | some (k, rest) =>
        match skipBlank rest with
        | ':' :: rest =>
          match value? fuel depth rest with
          | none => none
          | some (v, rest) =>
            match skipBlank rest with
            | '\x7d' :: rest => some ([(k, v)], rest)
            | ',' :: rest => (members? fuel depth rest).map fun (ms, rest) => ((k, v) :: ms, rest)
            | _ => none
        | _ => none
    | _ => none

end

def parse? (s : String) : Option Json :=
  let cs := s.toList
  match value? (2 * cs.length + 2) 127 cs with
  | some (v, rest) => if (skipBlank rest).isEmpty then some v else none
  | none => none

def get? (j : Json) (name : String) : Option Json :=
  match j with
  | .object ms => (ms.reverse.find? fun m => m.1 == name).map Prod.snd
  | _ => none

def int? : Json → Option Int
  | .number t =>
    match t.toList with
    | ['-', '0'] => none
    | '-' :: cs => (cs.mapM digitValue?).map fun ds => -(natOfDigits ds : Int)
    | cs => (cs.mapM digitValue?).map fun ds => (natOfDigits ds : Int)
  | _ => none

def real? : Json → Option Binary64
  | .number t =>
    match t.toList with
    | '-' :: cs => (readLeading? cs).map Binary64.negated
    | cs => readLeading? cs
  | _ => none

def nat? (j : Json) : Option Nat :=
  match j.int? with
  | some n => if 0 ≤ n ∧ n < Nat.pow 2 64 then some n.toNat else none
  | none => none

def str? : Json → Option String
  | .string s => some s
  | _ => none

def bool? : Json → Option Bool
  | .bool b => some b
  | _ => none

def list? : Json → Option (List Json)
  | .array xs => some xs
  | _ => none

end Json
end GraphCopy
