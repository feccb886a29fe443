import GraphCopy.Options.Assignment
import GraphCopy.Text.Json
import GraphCopy.Text.CharSet

/-!
# Options in INI files

Lines `key = value` or `key: value`, comments and sections. Every value is a
text. Only what stands before the first section assigns options; a section
makes a compound value of its name.

A comment begins a line. A line that begins with a blank is read as a key, and
a key goes on over line breaks until the mark of its value; if it has none, the
rest of the text is passed over.
-/

namespace GraphCopy.Ini

def isLineBreak (c : Char) : Bool := c == '\n' || c == '\r'

def trimEnd (cs : List Char) : List Char := (cs.reverse.dropWhile Text.isBlank).reverse

def trim (cs : List Char) : List Char := trimEnd (cs.dropWhile Text.isBlank)

structure Spot where
  lineStart : Bool
  rest : List Char

def skipBlank (lineStart : Bool) : List Char → Spot
  | [] => ⟨lineStart, []⟩
  | c :: cs =>
    if Text.isBlank c && !(lineStart && isInlineBlank c) then skipBlank (c == '\n') cs
    else ⟨lineStart, c :: cs⟩

def escaped (c : Char) : Char :=
  match c with
  | '0' => '\x00'
  | 'a' => '\x07'
  | 'b' => '\x08'
  | 't' => '\t'
  | 'r' => '\r'
  | 'n' => '\n'
  | c => c

/-- Four characters that are to be the digits of a code point, where an escaped line break counts as
one; with them the last character taken. -/
def fourDigits (last : Char) : Nat → List Char → Except Spot (List Char × Char × List Char)
  | 0, cs => .ok ([], last, cs)
  | _ + 1, [] => .error ⟨false, []⟩
  | n + 1, '\\' :: '\n' :: cs =>
    (fourDigits '\n' n cs).map fun (ds, last, cs) => ('\\' :: ds, last, cs)
  | _ + 1, '\\' :: cs => .error ⟨false, cs.tail⟩
  | n + 1, c :: cs => (fourDigits c n cs).map fun (ds, last, cs) => (c :: ds, last, cs)

def codePoint? (ds : List Char) : Option Char := do
  let ds := match ds with
    | '+' :: ds => ds
    | ds => ds
  let n := (← ds.mapM Json.hexValue?).foldl (fun n d => n * 16 + d) 0
  if 0xD800 ≤ n ∧ n ≤ 0xDFFF then none else pure (Char.ofNat n)

/-- Reads characters and escapes up to one at which `stop` holds, or up to the end of the text where
that is allowed. A failure tells where reading may go on. -/
def readUntil (stop : Char → Bool) (orEnd : Bool) :
    Nat → List Char → List Char → Except Spot (List Char × List Char)
  | 0, _, _ => .error ⟨false, []⟩
  | _ + 1, acc, [] => if orEnd then .ok (acc.reverse, []) else .error ⟨false, []⟩
  | fuel + 1, acc, c :: cs =>
    if stop c then .ok (acc.reverse, c :: cs)
    else if c = '\\' then
      match cs with
      | [] => readUntil stop orEnd fuel ('\\' :: acc) []
      | '\n' :: cs => readUntil stop orEnd fuel acc cs
      | 'x' :: cs =>
        match fourDigits 'x' 4 cs with
        | .error spot => .error spot
        | .ok (ds, last, cs) =>
          match codePoint? ds with
          | some c => readUntil stop orEnd fuel (c :: acc) cs
          | none => .error ⟨last == '\n', cs⟩
      | c :: cs => readUntil stop orEnd fuel (escaped c :: acc) cs
    else readUntil stop orEnd fuel (c :: acc) cs

def textUntil (stop : Char → Bool) (orEnd : Bool) (cs : List Char) :
    Except Spot (List Char × List Char) :=
  readUntil stop orEnd (cs.length + 1) [] cs

def value? : Nat → Bool → List Char → List Char → Option (List Char × List Char)
  | 0, _, _, _ => none
  | fuel + 1, isWhole, acc, cs =>
    let quoted (quote : Char) (rest : List Char) := do
      let (part, rest) ← (textUntil (· == quote) false rest).toOption
      value? fuel false (acc ++ part) rest.tail
    match cs with
    | '"' :: rest => quoted '"' rest
    | '\'' :: rest => quoted '\'' rest
    | cs => do
      let (part, rest) ← (textUntil isLineBreak true cs).toOption
      pure (acc ++ (if isWhole then trim part else trimEnd part), rest)

def endsKey (c : Char) : Bool := c == '=' || c == ':'

def items? : Nat → Bool → List Char → Spot → Option (List Assignment)
  | 0, _, _, _ => none
  | fuel + 1, inSection, key, spot =>
    let spot := skipBlank spot.lineStart spot.rest
    match spot.rest with
    | [] => some []
    | '[' :: cs => do
      let (name, rest) ← (textUntil (· == ']') false cs).toOption
      let others ← items? fuel true key ⟨false, rest.tail⟩
      pure (⟨String.ofList (trim name), .compound⟩ :: others)
    | c :: cs =>
      if c = ';' ∨ c = '#' then
        if spot.lineStart then
          items? fuel inSection key ⟨true, (cs.dropWhile (· != '\n')).tail⟩
        else none
      else if endsKey c then
        if key.isEmpty then none
        else do
          let cs := cs.dropWhile fun c => Text.isBlank c && !isLineBreak c
          let (value, rest) ← value? (cs.length + 1) true [] cs
          let others ← items? fuel inSection [] ⟨false, rest⟩
          pure (if inSection then others
            else ⟨String.ofList key, .text (String.ofList value)⟩ :: others)
      else
        match textUntil endsKey false (c :: cs) with
        | .ok (key, rest) => items? fuel inSection (trim key) ⟨false, rest⟩
        | .error next => if isInlineBlank c then items? fuel inSection key next else none

def assignments? (s : String) : Option (List Assignment) :=
  let cs := s.toList
  items? (cs.length + 1) false [] ⟨true, cs⟩

end GraphCopy.Ini
