import GraphCopy.Options.Assignment
import GraphCopy.Text.Json
import GraphCopy.Text.NameChar

/-!
# Options in JSON and JSON5

In JSON the document is an object whose members assign options.

JSON5 is JSON with comments, trailing commas, unquoted keys, single quotes,
hexadecimal integers, signs, and points at either end of a number.

An integer is kept if 64 bits with a sign can hold it; one that 64 bits without
a sign could just hold is an error, and so it goes with 128 bits; what is
beyond becomes a floating point number.
-/

namespace GraphCopy

/-- A number is an integer if it is written as one and 64 bits, with a sign or without, can hold it. -/
def OptionValue.ofJson : Json → OptionValue
  | .null => .null
  | .bool b => .flag b
  | .string s => .text s
  | .array _ => .compound
  | .object _ => .compound
  | j@(.number _) =>
    let real := OptionValue.real (j.real?.getD .zero)
    match j.int? with
    | some n => if -Nat.pow 2 63 ≤ n ∧ n < Nat.pow 2 64 then .integer n else real
    | none => real

def Json.assignments? (s : String) : Option (List Assignment) :=
  match Json.parse? s with
  | some (.object ms) => some (ms.map fun m => ⟨m.1, .ofJson m.2⟩)
  | _ => none

namespace Json5

def isBreak (c : Char) : Bool := c == '\n' || c == '\r' || c == '\u2028' || c == '\u2029'

def isSpace (c : Char) : Bool :=
  let n := c.toNat
  (9 ≤ n && n ≤ 13) || n == 0x20 || n == 0xa0 || n == 0xfeff || n == 0x1680
    || (0x2000 ≤ n && n ≤ 0x200a) || n == 0x2028 || n == 0x2029 || n == 0x202f || n == 0x205f
    || n == 0x3000

def afterComment? : List Char → Option (List Char)
  | '*' :: '/' :: cs => some cs
  | _ :: cs => afterComment? cs
  | [] => none

def skip : Nat → List Char → List Char
  | 0, cs => cs
  | fuel + 1, cs =>
    match cs with
    | '/' :: '/' :: rest => skip fuel (rest.dropWhile fun c => !isBreak c)
    | '/' :: '*' :: rest =>
      match afterComment? rest with
      | some rest => skip fuel rest
      | none => cs
    | c :: rest => if isSpace c then skip fuel rest else cs
    | [] => []

def blank (cs : List Char) : List Char := skip (cs.length + 1) cs

def escaped (c : Char) : Char :=
  match c with
  | 'b' => '\x08'
  | 'f' => '\x0c'
  | 'n' => '\n'
  | 'r' => '\r'
  | 't' => '\t'
  | 'v' => '\x0b'
  | c => c

def stringRest? (quote : Char) : Nat → List Char → List Char → Option (String × List Char)
  | 0, _, _ => none
  | fuel + 1, acc, cs =>
    match cs with
    | '\\' :: 'u' :: rest =>
      match Json.unicodeEscape? rest with
      | some (c, rest) => stringRest? quote fuel (c :: acc) rest
      | none => none
    | '\\' :: 'x' :: a :: b :: rest =>
      match Json.hexValue? a, Json.hexValue? b with
      | some a, some b => stringRest? quote fuel (Char.ofNat (a * 16 + b) :: acc) rest
      | _, _ => none
    | '\\' :: '\r' :: '\n' :: rest => stringRest? quote fuel acc rest
    | '\\' :: '0' :: rest =>
      if (rest.head?.map Json.isDigit).getD false then none
      else stringRest? quote fuel ('\x00' :: acc) rest
    | '\\' :: c :: rest =>
      if isBreak c then stringRest? quote fuel acc rest
      else if c == 'x' || ('1' ≤ c && c ≤ '9') then none
      else stringRest? quote fuel (escaped c :: acc) rest
    | c :: rest =>
      if c = quote then some (String.ofList acc.reverse, rest)
      else if c == '\n' || c == '\r' then none
      else stringRest? quote fuel (c :: acc) rest
    | [] => none

def isNameStart (c : Char) : Bool := c == '$' || c == '_' || Text.isLetter c

def isNamePart (c : Char) : Bool :=
  isNameStart c || Text.isContinuing c || c == '\u200c' || c == '\u200d'

def nameChar? : List Char → Option (Char × List Char)
  | '\\' :: 'u' :: cs => Json.unicodeEscape? cs
  | '\\' :: _ => none
  | c :: cs => some (c, cs)
  | [] => none

def nameRest? : Nat → List Char → List Char → Option (String × List Char)
  | 0, _, _ => none
  | fuel + 1, acc, cs =>
    match nameChar? cs with
    | some (c, rest) =>
      if isNamePart c then nameRest? fuel (c :: acc) rest
      else if cs.head? == some '\\' then none
      else some (String.ofList acc.reverse, cs)
    | none => if cs.isEmpty then some (String.ofList acc.reverse, []) else none

def key? (cs : List Char) : Option (String × List Char) :=
  match cs with
  | '"' :: rest => stringRest? '"' (rest.length + 1) [] rest
  | '\'' :: rest => stringRest? '\'' (rest.length + 1) [] rest
  | cs =>
    match nameChar? cs with
    | some (c, rest) => if isNameStart c then nameRest? (rest.length + 1) [c] rest else none
    | none => none

def integer? (n : Int) : Option OptionValue :=
  if -Nat.pow 2 127 ≤ n ∧ n < Nat.pow 2 63 then some (.integer n)
  else if Nat.pow 2 64 ≤ n ∧ n < Nat.pow 2 127 then some (.integer n)
  else none

def number? (cs : List Char) : Option OptionValue :=
  let (neg, unsigned) := match cs with
    | '-' :: cs => (true, cs)
    | '+' :: cs => (false, cs)
    | cs => (false, cs)
  let signed (n : Nat) : Int := if neg then -n else n
  let hex (ds : List Char) : Option OptionValue := do
    let ds ← ds.mapM Json.hexValue?
    if ds.isEmpty then none else integer? (signed (ds.foldl (fun n d => n * 16 + d) 0))
  match unsigned with
  | '0' :: 'x' :: ds => hex ds
  | '0' :: 'X' :: ds => hex ds
  | ['I', 'n', 'f', 'i', 'n', 'i', 't', 'y'] => some (.real (.infinity neg))
  | ['N', 'a', 'N'] => some (.real .nan)
  | unsigned => do
    let leadingZero := match unsigned with
      | '0' :: c :: _ => Json.isDigit c
      | _ => false
    if leadingZero then none
    let real := OptionValue.real ((← FloatNumeral.read? unsigned).nearest neg)
    if unsigned.all Json.isDigit then
      let n := signed (natOfDigits (← unsigned.mapM digitValue?))
      if n < -Nat.pow 2 127 ∨ Nat.pow 2 128 ≤ n then pure real else integer? n
    else pure real

def isWordChar (c : Char) : Bool := isNamePart c || c == '+' || c == '-' || c == '.'

def word? (cs : List Char) : Option (OptionValue × List Char) :=
  let word := cs.takeWhile isWordChar
  let value : Option OptionValue := match String.ofList word with
    | "null" => some .null
    | "true" => some (.flag true)
    | "false" => some (.flag false)
    | _ => number? word
  value.map fun v => (v, cs.dropWhile isWordChar)

mutual

def value? : Nat → List Char → Option (OptionValue × List Char)
  | 0, _ => none
  | fuel + 1, cs =>
    match cs with
    | '"' :: _ => (key? cs).map fun (s, rest) => (.text s, rest)
    | '\'' :: _ => (key? cs).map fun (s, rest) => (.text s, rest)
    | '[' :: rest => (items? fuel (blank rest)).map fun rest => (.compound, rest)
    | '\x7b' :: rest => (members? fuel (blank rest)).map fun (_, rest) => (.compound, rest)
    | cs => word? cs

def items? : Nat → List Char → Option (List Char)
  | 0, _ => none
  | fuel + 1, cs =>
    match cs with
    | ']' :: rest => some rest
    | cs =>
      match value? fuel cs with
      | none => none
      | some (_, rest) =>
        match blank rest with
        | ',' :: rest => items? fuel (blank rest)
        | ']' :: rest => some rest
        | _ => none

def members? : Nat → List Char → Option (List Assignment × List Char)
  | 0, _ => none
  | fuel + 1, cs =>
    match cs with
    | '\x7d' :: rest => some ([], rest)
    | cs =>
      match key? cs with
      | none => none
      | some (k, rest) =>
        match blank rest with
        | ':' :: rest =>
          match value? fuel (blank rest) with
          | none => none
          | some (v, rest) =>
            match blank rest with
            | ',' :: rest => (members? fuel (blank rest)).map fun (ms, rest) => (⟨k, v⟩ :: ms, rest)
            | '\x7d' :: rest => some ([⟨k, v⟩], rest)
            | _ => none
        | _ => none

end

def assignments? (s : String) : Option (List Assignment) :=
  match blank s.toList with
  | '\x7b' :: rest =>
    match members? (2 * rest.length + 2) (blank rest) with
    | some (ms, rest) => if (blank rest).isEmpty then some ms else none
    | none => none
  | _ => none

end Json5
end GraphCopy
