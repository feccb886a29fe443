import GraphCopy.Options.Assignment
import GraphCopy.Text.Json
import GraphCopy.Text.NameChar

/-!
# Options in RON

The document is a struct `Name(field: value, …)`, whose name may be missing, or
a map. Values are numbers, truth values, texts, characters, bytes, `Some(value)`
and `None`, the unit `()`, lists, tuples, maps and structs; a name alone is a
unit, and a name before a tuple or a struct says nothing. The keys of every map
have to be texts.

A number without a point is read as an integer first and as a floating point
number if that fails.
-/

namespace GraphCopy.Ron

def isSpace (c : Char) : Bool :=
  let n := c.toNat
  (9 ≤ n && n ≤ 13) || n == 0x20 || n == 0x85 || n == 0x200e || n == 0x200f || n == 0x2028
    || n == 0x2029

def afterComment? (level : Nat) : List Char → Option (List Char)
  | '/' :: '*' :: cs => afterComment? (level + 1) cs
  | '*' :: '/' :: cs => if level ≤ 1 then some cs else afterComment? (level - 1) cs
  | _ :: cs => afterComment? level cs
  | [] => none

def skipBy? : Nat → List Char → Option (List Char)
  | 0, cs => some cs
  | fuel + 1, cs =>
    match cs with
    | '/' :: '/' :: rest => skipBy? fuel (rest.dropWhile (· != '\n'))
    | '/' :: '*' :: rest =>
      match afterComment? 1 rest with
      | some rest => skipBy? fuel rest
      | none => none
    | c :: rest => if isSpace c then skipBy? fuel rest else some cs
    | [] => some []

def skip? (cs : List Char) : Option (List Char) := skipBy? (cs.length + 1) cs

/-! ## Names -/

def isRawPart (c : Char) : Bool :=
  Text.continuesIdentifier c || c == '.' || c == '+' || c == '-'

def startsQuoted : List Char → Bool
  | 'r' :: '"' :: _ => true
  | 'r' :: '#' :: '"' :: _ => true
  | 'r' :: '#' :: '#' :: _ => true
  | 'b' :: '"' :: _ => true
  | 'b' :: '\'' :: _ => true
  | 'b' :: 'r' :: '"' :: _ => true
  | 'b' :: 'r' :: '#' :: _ => true
  | _ => false

def name? (cs : List Char) : Option (String × List Char) :=
  if startsQuoted cs then none
  else
    match cs with
    | 'r' :: '#' :: rest =>
      match rest.takeWhile isRawPart with
      | [] => none
      | name => some (String.ofList name, rest.dropWhile isRawPart)
    | c :: _ =>
      let rest := cs.dropWhile Text.continuesIdentifier
      if (c == '_' || Text.startsIdentifier c) && !(rest.head?.map isRawPart).getD false then
        some (String.ofList (cs.takeWhile Text.continuesIdentifier), rest)
      else none
    | [] => none

def afterWord? (word : String) (cs : List Char) : Option (List Char) :=
  let rest := cs.drop word.length
  if word.toList.isPrefixOf cs && !(rest.head?.map Text.continuesIdentifier).getD false then some rest
  else none

def afterWordOf? (words : List String) (cs : List Char) : Option (List Char) :=
  words.findSome? fun w => afterWord? w cs

/-! ## Texts -/

def byte? : List Char → Option (Nat × List Char)
  | a :: b :: rest => do pure ((← Json.hexValue? a) * 16 + (← Json.hexValue? b), rest)
  | _ => none

def textOfBytes? (bytes : List Nat) : Option String :=
  String.fromUTF8? (ByteArray.mk (bytes.map UInt8.ofNat).toArray)

def encodedChar? : Nat → List Nat → List Char → Option (Char × List Char)
  | more, bytes, cs =>
    match (textOfBytes? bytes).map String.toList with
    | some [c] => some (c, cs)
    | _ =>
      match more, cs with
      | more + 1, '\\' :: 'x' :: cs =>
        match byte? cs with
        | some (b, cs) => encodedChar? more (bytes ++ [b]) cs
        | none => none
      | _, _ => none

def codePoint? : List Char → Option (Char × List Char)
  | '\x7b' :: cs => do
    let ds ← (cs.takeWhile (· != '\x7d')).mapM Json.hexValue?
    let n := ds.foldl (fun n d => n * 16 + d) 0
    if ds.isEmpty || 6 < ds.length then none
    match cs.dropWhile (· != '\x7d') with
    | _ :: rest =>
      if n < 0xD800 ∨ (0xDFFF < n ∧ n < 0x110000) then pure (Char.ofNat n, rest) else none
    | [] => none
  | _ => none

def simpleEscape? : Char → Option Char
  | '\'' => some '\''
  | '"' => some '"'
  | '\\' => some '\\'
  | 'n' => some '\n'
  | 'r' => some '\r'
  | 't' => some '\t'
  | '0' => some '\x00'
  | _ => none

def escape? : List Char → Option (Char × List Char)
  | 'x' :: cs => do
    let (b, cs) ← byte? cs
    encodedChar? 3 [b] cs
  | 'u' :: cs => codePoint? cs
  | c :: cs => (simpleEscape? c).map (·, cs)
  | [] => none

def escapedByte? : List Char → Option (Nat × List Char)
  | 'x' :: cs => byte? cs
  | c :: cs => (simpleEscape? c).map fun c => (c.toNat, cs)
  | [] => none

def continuedLine? : List Char → Option (List Char)
  | '\n' :: cs => some (cs.dropWhile isSpace)
  | '\r' :: '\n' :: cs => some (cs.dropWhile isSpace)
  | _ => none

def quotedRest? {α : Type} (plain : Char → List α) (escape? : List Char → Option (α × List Char)) :
    Nat → List α → List Char → Option (List α × List Char)
  | 0, _, _ => none
  | fuel + 1, acc, cs =>
    match cs with
    | '"' :: rest => some (acc.reverse, rest)
    | '\\' :: rest =>
      match continuedLine? rest with
      | some rest => quotedRest? plain escape? fuel acc rest
      | none =>
        match escape? rest with
        | some (a, rest) => quotedRest? plain escape? fuel (a :: acc) rest
        | none => none
    | c :: rest => quotedRest? plain escape? fuel ((plain c).reverse ++ acc) rest
    | [] => none

def raw? (cs : List Char) : Option (List Char × List Char) :=
  let hashes := cs.takeWhile (· == '#')
  let rec go : List Char → List Char → Option (List Char × List Char)
    | acc, '"' :: rest =>
      if hashes.isPrefixOf rest then some (acc.reverse, rest.drop hashes.length)
      else go ('"' :: acc) rest
    | acc, c :: rest => go (c :: acc) rest
    | _, [] => none
  match cs.dropWhile (· == '#') with
  | '"' :: rest => go [] rest
  | _ => none

def bytesOf (c : Char) : List Nat := (String.singleton c).toUTF8.toList.map UInt8.toNat

/-! ## Numbers -/

def isIntegerChar (c : Char) : Bool := (Json.hexValue? c).isSome || c == '_'

def isRealChar (c : Char) : Bool :=
  Json.isDigit c || c == 'e' || c == 'E' || c == '.' || c == '+' || c == '-' || c == '_'

inductive IntegerReading
  | read (n : Int) (rest : List Char)
  | stopped (rest : List Char)

def digits (base : Nat) (low high : Int) (neg : Bool) (all : List Char) :
    Int → List Char → IntegerReading
  | n, [] => .read n all
  | n, '_' :: cs => digits base low high neg all n cs
  | n, c :: cs =>
    match Json.hexValue? c with
    | none => .stopped all
    | some d =>
      let scaled := n * base
      let next := if neg then scaled - d else scaled + d
      if high < scaled ∨ scaled < low then .stopped all
      else if base ≤ d then .stopped (c :: cs ++ all)
      else if high < next ∨ next < low then .stopped all
      else digits base low high neg all next cs

def integerIn (low high : Int) (neg : Bool) (cs : List Char) : IntegerReading :=
  let (base, cs) : Nat × List Char := match cs with
    | '0' :: 'b' :: cs => (2, cs)
    | '0' :: 'o' :: cs => (8, cs)
    | '0' :: 'x' :: cs => (16, cs)
    | cs => (10, cs)
  match cs.takeWhile isIntegerChar with
  | [] => .stopped cs
  | '_' :: _ => .stopped cs
  | ds => digits base low high neg (cs.dropWhile isIntegerChar) 0 ds

def signedRange (bits : Nat) : Int × Int := (-Nat.pow 2 (bits - 1), Nat.pow 2 (bits - 1) - 1)

def unsignedRange (bits : Nat) : Int × Int := (0, Nat.pow 2 bits - 1)

def suffixes : List (String × Int × Int) :=
  [("i8", signedRange 8), ("i16", signedRange 16), ("i32", signedRange 32), ("i64", signedRange 64),
   ("u8", unsignedRange 8), ("u16", unsignedRange 16), ("u32", unsignedRange 32),
   ("u64", unsignedRange 64)]

def takeInteger (cs : List Char) : List Char × List Char :=
  match cs with
  | '0' :: 'o' :: rest => ('0' :: 'o' :: rest.takeWhile isIntegerChar, rest.dropWhile isIntegerChar)
  | '0' :: 'x' :: rest => ('0' :: 'x' :: rest.takeWhile isIntegerChar, rest.dropWhile isIntegerChar)
  | cs => (cs.takeWhile isIntegerChar, cs.dropWhile isIntegerChar)

/-- An integer with an optional sign and an optional suffix. Without a suffix it has 64 bits, with a
sign only if it is negative. -/
def integer (cs : List Char) : IntegerReading :=
  let (neg, cs) := match cs with
    | '-' :: cs => (true, cs)
    | '+' :: cs => (false, cs)
    | cs => (false, cs)
  let (ds, rest) := takeInteger cs
  let suffix := suffixes.findSome? fun s => (afterWord? s.1 rest).map (s.2, ·)
  match suffix with
  | some ((low, high), afterSuffix) =>
    match integerIn low high neg ds with
    | .read n _ => .read n afterSuffix
    | .stopped [] => .stopped afterSuffix
    | .stopped left => .stopped (left ++ rest)
  | none =>
    let (low, high) := if neg then signedRange 64 else unsignedRange 64
    integerIn low high neg cs

def ungrouped? (allowed : Bool) : List Char → Option (List Char)
  | [] => some []
  | '_' :: cs => if allowed then ungrouped? allowed cs else none
  | c :: cs =>
    let allowed :=
      if c == '.' then false else allowed || Json.isDigit c || c == 'e' || c == 'E'
    (ungrouped? allowed cs).map (c :: ·)

def specialReal? (cs : List Char) : Option (Binary64 × List Char) :=
  let words : List (String × Binary64) :=
    [("inf", .infinity false), ("+inf", .infinity false), ("-inf", .infinity true),
     ("NaN", .nan), ("+NaN", .nan), ("-NaN", .nan)]
  words.findSome? fun w => (afterWordOf? [w.1, w.1 ++ "f32", w.1 ++ "f64"] cs).map (w.2, ·)

def real? (cs : List Char) : Option (Binary64 × List Char) :=
  match specialReal? cs with
  | some found => some found
  | none => do
    let text ← ungrouped? false (cs.takeWhile isRealChar)
    let rest := cs.dropWhile isRealChar
    let (neg, unsigned) := match text with
      | '-' :: cs => (true, cs)
      | '+' :: cs => (false, cs)
      | cs => (false, cs)
    let n ← FloatNumeral.read? unsigned
    match afterWord? "f32" rest, afterWord? "f64" rest with
    | some rest, _ => pure (n.nearestSingle neg, rest)
    | none, some rest => pure (n.nearest neg, rest)
    | none, none => pure (n.nearest neg, rest)

def looksReal (cs : List Char) : Bool :=
  let unsigned := match cs with
    | '-' :: cs => cs
    | '+' :: cs => cs
    | cs => cs
  (unsigned.takeWhile isIntegerChar).length < (unsigned.takeWhile isRealChar).length

/-- A number. If an integer cannot be read, a floating point number has to reach at least as far. -/
def number? (cs : List Char) : Option (OptionValue × List Char) :=
  let asReal := (real? cs).map fun (x, rest) => (OptionValue.real x, rest)
  if looksReal cs then asReal
  else
    match integer cs with
    | .read n rest => some (.integer n, rest)
    | .stopped left => asReal.filter fun found => found.2.length ≤ left.length

/-! ## Values -/

inductive Datum
  | leaf (v : OptionValue)
  | bytes (bs : List Nat)
  | table (members : List Assignment)
  /-- A value within `Some`, which says nothing unless it is a key. -/
  | present (d : Datum)

def Datum.value : Datum → OptionValue
  | .leaf v => v
  | .bytes _ => .compound
  | .table _ => .compound
  | .present d => d.value

def Datum.members? : Datum → Option (List Assignment)
  | .table ms => some ms
  | .present d => d.members?
  | _ => none

def Datum.key? : Datum → Option String
  | .leaf (.text s) => some s
  | .bytes bs => textOfBytes? bs
  | _ => none

def quoted? (cs : List Char) : Option (Datum × List Char) :=
  let text (found : List Char × List Char) : Datum × List Char :=
    (.leaf (.text (String.ofList found.1)), found.2)
  let chars (rest : List Char) := quotedRest? (fun c => [c]) escape? (rest.length + 1) [] rest
  match cs with
  | '"' :: rest => (chars rest).map text
  | 'r' :: rest => (raw? rest).map text
  | '\'' :: '\\' :: rest =>
    match escape? rest with
    | some (c, '\'' :: rest) => some (text ([c], rest))
    | _ => none
  | '\'' :: c :: '\'' :: rest => some (text ([c], rest))
  | 'b' :: '\'' :: '\\' :: rest =>
    match escapedByte? rest with
    | some (b, '\'' :: rest) => some (.leaf (.integer b), rest)
    | _ => none
  | 'b' :: '\'' :: c :: '\'' :: rest =>
    if c.toNat < 128 then some (.leaf (.integer c.toNat), rest) else none
  | 'b' :: '"' :: rest =>
    (quotedRest? bytesOf escapedByte? (rest.length + 1) [] rest).map fun (bs, rest) =>
      (.bytes bs, rest)
  | 'b' :: 'r' :: rest => (raw? rest).map fun (cs, rest) => (.bytes (cs.flatMap bytesOf), rest)
  | _ => none

/-- Whether the fields of a struct follow an opening bracket, and not the items of a tuple. -/
def hasFields (cs : List Char) : Bool :=
  match (skip? cs).bind name? with
  | some (_, rest) => ((skip? rest).bind List.head?) == some ':'
  | none => false

def more? (close : Char) (cs : List Char) : Option (Bool × List Char) := do
  match ← skip? cs with
  | ',' :: cs => pure (true, ← skip? cs)
  | c :: cs => if c = close then pure (false, c :: cs) else none
  | [] => none

mutual

def value? : Nat → Nat → List Char → Option (Datum × List Char)
  | 0, _, _ => none
  | fuel + 1, room, cs =>
    match afterWord? "true" cs, afterWord? "false" cs, afterWord? "None" cs, afterWord? "Some" cs with
    | some rest, _, _, _ => some (.leaf (.flag true), rest)
    | _, some rest, _, _ => some (.leaf (.flag false), rest)
    | _, _, some rest, _ => some (.leaf .null, rest)
    | _, _, _, some rest =>
      match room, skip? rest with
      | room + 1, some ('(' :: rest) =>
        match (skip? rest).bind (value? fuel room) with
        | some (d, rest) =>
          match more? ')' rest with
          | some (_, ')' :: rest) => some (.present d, rest)
          | _ => none
        | none => none
      | _, _ => none
    | none, none, none, none =>
      match cs with
      | '(' :: ')' :: rest => some (.leaf .null, rest)
      | cs =>
        match afterWordOf? ["inf", "inff32", "inff64"] cs, afterWordOf? ["NaN", "NaNf32", "NaNf64"] cs with
        | some rest, _ => some (.leaf (.real (.infinity false)), rest)
        | none, some rest => some (.leaf (.real .nan), rest)
        | none, none =>
          match name? cs with
          | some (_, rest) =>
            match skip? rest with
            | some ('(' :: rest) => struct? fuel room rest
            | some rest => some (.leaf .null, rest)
            | none => none
          | none =>
            match cs with
            | '(' :: rest => struct? fuel room rest
            | '[' :: rest => list? fuel room ']' rest
            | '\x7b' :: rest =>
              match room, skip? rest with
              | room + 1, some rest =>
                (members? fuel room '\x7d' rest).map fun (ms, rest) => (.table ms, rest)
              | _, _ => none
            | cs =>
              match quoted? cs with
              | some found => some found
              | none => (number? cs).map fun (v, rest) => (.leaf v, rest)

def struct? : Nat → Nat → List Char → Option (Datum × List Char)
  | 0, _, _ => none
  | fuel + 1, room, cs =>
    if hasFields cs then
      match room, skip? cs with
      | room + 1, some rest =>
        (members? fuel room ')' rest).map fun (ms, rest) => (.table ms, rest)
      | _, _ => none
    else list? fuel room ')' cs

def list? : Nat → Nat → Char → List Char → Option (Datum × List Char)
  | 0, _, _, _ => none
  | fuel + 1, room, close, cs =>
    match room, skip? cs with
    | room + 1, some rest =>
      (items? fuel room close rest).map fun rest => (.leaf .compound, rest)
    | _, _ => none

def items? : Nat → Nat → Char → List Char → Option (List Char)
  | 0, _, _, _ => none
  | fuel + 1, room, close, cs =>
    match cs, room with
    | [], _ => none
    | c :: rest, room =>
      if c = close then some rest
      else
        match room with
        | 0 => none
        | below + 1 =>
          match value? fuel below (c :: rest) with
          | none => none
          | some (_, rest) =>
            match more? close rest with
            | some (_, rest) => items? fuel room close rest
            | none => none

def members? : Nat → Nat → Char → List Char → Option (List Assignment × List Char)
  | 0, _, _, _ => none
  | fuel + 1, room, close, cs =>
    match cs, room with
    | [], _ => none
    | c :: rest, room =>
      if c = close then some ([], rest)
      else
        match room with
        | 0 => none
        | below + 1 =>
          let key : Option (String × List Char) :=
            if close = ')' then name? (c :: rest)
            else
              match value? fuel below (c :: rest) with
              | some (d, rest) => d.key?.map (·, rest)
              | none => none
          match key with
          | none => none
          | some (k, rest) =>
            match skip? rest with
            | some (':' :: rest) =>
              match (skip? rest).bind (value? fuel below) with
              | none => none
              | some (d, rest) =>
                match more? close rest with
                | none => none
                | some (_, rest) =>
                  (members? fuel room close rest).map fun (ms, rest) => (⟨k, d.value⟩ :: ms, rest)
            | _ => none

end

/-! ## Documents -/

def extensions : List String :=
  ["unwrap_newtypes", "implicit_some", "unwrap_variant_newtypes", "explicit_struct_names"]

def afterAll? : List String → List Char → Option (List Char)
  | [], cs => some cs
  | w :: ws, cs =>
    if w.toList.isPrefixOf cs then (skip? (cs.drop w.length)).bind (afterAll? ws) else none

def extensionNames? : Nat → List Char → Option (List Char)
  | 0, _ => none
  | fuel + 1, cs => do
    let (name, rest) ← name? cs
    if !extensions.contains name then none
    match ← skip? rest with
    | ',' :: rest => do
      let rest ← skip? rest
      if rest.head? == some ')' then pure rest else extensionNames? fuel rest
    | rest => pure rest

def afterAttributes? : Nat → List Char → Option (List Char)
  | 0, _ => none
  | fuel + 1, cs => do
    match ← skip? cs with
    | '#' :: cs => do
      let cs ← afterAll? ["#", "!", "[", "enable", "("] ('#' :: cs)
      let cs ← extensionNames? (cs.length + 1) cs
      afterAttributes? fuel (← afterAll? [")", "]"] cs)
    | cs => pure cs

def deepest : Nat := 128

def assignments? (s : String) : Option (List Assignment) := do
  let cs := s.toList
  let cs ← afterAttributes? (cs.length + 1) cs
  let (d, rest) ← value? (4 * cs.length + 4) deepest cs
  if (← skip? rest).isEmpty then d.members? else none

end GraphCopy.Ron
