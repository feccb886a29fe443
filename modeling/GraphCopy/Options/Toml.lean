import GraphCopy.Options.Assignment
import GraphCopy.Calendar.Date
import GraphCopy.Text.Json

/-!
# Options in TOML

A reader of TOML documents. Only the top level of a document assigns options,
but the whole document has to be well formed: no key is given twice, and a
table is opened by one header only.
-/

namespace GraphCopy.Toml

abbrev Reader (α : Type) := List Char → Option (α × List Char)

def skipInline (cs : List Char) : List Char := cs.dropWhile isInlineBlank

def isTextChar (c : Char) : Bool := c == '\t' || (0x20 ≤ c.toNat && c.toNat != 0x7f)

def afterComment? (cs : List Char) : Option (List Char) :=
  match cs.dropWhile isTextChar with
  | [] => some []
  | '\n' :: cs => some ('\n' :: cs)
  | '\r' :: '\n' :: cs => some ('\n' :: cs)
  | _ => none

def lineEnd? (cs : List Char) : Option (List Char) := do
  let cs ← match skipInline cs with
    | '#' :: cs => afterComment? cs
    | cs => some cs
  match cs with
  | [] => some []
  | '\n' :: cs => some cs
  | '\r' :: '\n' :: cs => some cs
  | _ => none

def skipLines? : Nat → List Char → Option (List Char)
  | 0, cs => some cs
  | fuel + 1, cs =>
    match skipInline cs with
    | '\n' :: cs => skipLines? fuel cs
    | '\r' :: '\n' :: cs => skipLines? fuel cs
    | '#' :: cs =>
      match afterComment? cs with
      | some cs => skipLines? fuel cs
      | none => none
    | cs => some cs

def afterLines? (cs : List Char) : Option (List Char) := skipLines? (cs.length + 1) cs

def codePoint? (count : Nat) (cs : List Char) : Option (Char × List Char) := do
  let ds := cs.take count
  if ds.length != count then none
  let n ← ds.foldlM (fun n c => (Json.hexValue? c).map (n * 16 + ·)) 0
  if n < 0xD800 ∨ (0xDFFF < n ∧ n < 0x110000) then pure (Char.ofNat n, cs.drop count) else none

def escape? : Reader Char
  | 'b' :: cs => some ('\x08', cs)
  | 't' :: cs => some ('\t', cs)
  | 'n' :: cs => some ('\n', cs)
  | 'f' :: cs => some ('\x0c', cs)
  | 'r' :: cs => some ('\r', cs)
  | 'e' :: cs => some ('\x1b', cs)
  | '"' :: cs => some ('"', cs)
  | '\\' :: cs => some ('\\', cs)
  | 'x' :: cs => codePoint? 2 cs
  | 'u' :: cs => codePoint? 4 cs
  | 'U' :: cs => codePoint? 8 cs
  | _ => none

def basicRest? : Nat → List Char → Reader String
  | 0, _, _ => none
  | _ + 1, acc, '"' :: cs => some (String.ofList acc.reverse, cs)
  | fuel + 1, acc, '\\' :: cs => do
    let (c, cs) ← escape? cs
    basicRest? fuel (c :: acc) cs
  | fuel + 1, acc, c :: cs => if isTextChar c then basicRest? fuel (c :: acc) cs else none
  | _, _, [] => none

def literalRest? (cs : List Char) : Option (String × List Char) :=
  let body := cs.takeWhile (· != '\'')
  match cs.dropWhile (· != '\'') with
  | _ :: rest => if body.all isTextChar then some (String.ofList body, rest) else none
  | [] => none

def continueLine? (cs : List Char) : Option (List Char) :=
  match skipInline cs with
  | '\n' :: _ => some (cs.dropWhile fun c => isInlineBlank c || c == '\n' || c == '\r')
  | '\r' :: '\n' :: _ => some (cs.dropWhile fun c => isInlineBlank c || c == '\n' || c == '\r')
  | _ => none

def multiRest? (quote : Char) (escapes : Bool) : Nat → List Char → Reader String
  | 0, _, _ => none
  | fuel + 1, acc, cs =>
    match cs with
    | [] => none
    | c :: rest =>
      if c = quote then
        let run := cs.takeWhile (· == quote)
        if run.length < 3 then multiRest? quote escapes fuel (c :: acc) rest
        else if 5 < run.length then none
        else
          some (String.ofList (acc.reverse ++ run.drop 3), cs.dropWhile (· == quote))
      else if escapes && c = '\\' then
        match continueLine? rest with
        | some rest => multiRest? quote escapes fuel acc rest
        | none => do
          let (c, rest) ← escape? rest
          multiRest? quote escapes fuel (c :: acc) rest
      else if isTextChar c || c = '\n' || (c = '\r' && rest.head? == some '\n') then
        multiRest? quote escapes fuel (c :: acc) rest
      else none

def dropFirstBreak : List Char → List Char
  | '\n' :: cs => cs
  | '\r' :: '\n' :: cs => cs
  | cs => cs

def string? : Reader String
  | '"' :: '"' :: '"' :: cs => multiRest? '"' true (cs.length + 1) [] (dropFirstBreak cs)
  | '\'' :: '\'' :: '\'' :: cs => multiRest? '\'' false (cs.length + 1) [] (dropFirstBreak cs)
  | '"' :: cs => basicRest? (cs.length + 1) [] cs
  | '\'' :: cs => literalRest? cs
  | _ => none

def keyPart? (cs : List Char) : Option (String × List Char) :=
  match cs with
  | '"' :: '"' :: '"' :: _ => none
  | '\'' :: '\'' :: '\'' :: _ => none
  | '"' :: cs => basicRest? (cs.length + 1) [] cs
  | '\'' :: cs => literalRest? cs
  | cs =>
    match cs.takeWhile isNameChar with
    | [] => none
    | name => some (String.ofList name, cs.dropWhile isNameChar)

def keyParts? : Nat → Reader (List String)
  | 0, _ => none
  | room + 1, cs => do
    let (part, cs) ← keyPart? (skipInline cs)
    match skipInline cs with
    | '.' :: cs => do
      let (parts, cs) ← keyParts? room cs
      pure (part :: parts, cs)
    | cs => pure ([part], cs)

def deepest : Nat := 80

def key? : Reader (List String) := keyParts? deepest

def groupedDigits? (isDigit : Char → Bool) (cs : List Char) : Option (List Char) :=
  let rec go : Bool → List Char → Option (List Char)
    | afterDigit, [] => if afterDigit then some [] else none
    | afterDigit, c :: cs =>
      if isDigit c then (go true cs).map (c :: ·)
      else if c = '_' && afterDigit && (cs.head?.map isDigit).getD false then go false cs
      else none
  go false cs

def radixInteger? (base : Nat) (isDigit : Char → Bool) (cs : List Char) : Option OptionValue := do
  let ds ← (← groupedDigits? isDigit cs).mapM Json.hexValue?
  let n := ds.foldl (fun n d => n * base + d) 0
  if n < Nat.pow 2 63 then pure (.integer n) else none

def decimalInteger? (neg : Bool) (cs : List Char) : Option OptionValue := do
  let ds ← groupedDigits? Json.isDigit cs
  match ds with
  | '0' :: _ :: _ => none
  | ds => do
    let n : Int := natOfDigits (← ds.mapM digitValue?)
    let n := if neg then -n else n
    if -Nat.pow 2 63 ≤ n ∧ n < Nat.pow 2 63 then pure (.integer n) else none

def real? (neg : Bool) (cs : List Char) : Option OptionValue := do
  let isMark (c : Char) : Bool := c == '.' || c == 'e' || c == 'E'
  let whole ← groupedDigits? Json.isDigit (cs.takeWhile fun c => !isMark c)
  if 1 < whole.length && whole.head? == some '0' then none
  let (part, rest) ← match cs.dropWhile fun c => !isMark c with
    | '.' :: rest => do
      let ds ← groupedDigits? Json.isDigit (rest.takeWhile fun c => !isMark c)
      pure (ds, rest.dropWhile fun c => !isMark c)
    | rest => if rest.isEmpty then none else pure ([], rest)
  let exponent ← match rest with
    | [] => some []
    | '.' :: _ => none
    | _ :: '-' :: ds => (groupedDigits? Json.isDigit ds).map fun ds => 'e' :: '-' :: ds
    | _ :: '+' :: ds => (groupedDigits? Json.isDigit ds).map ('e' :: ·)
    | _ :: ds => (groupedDigits? Json.isDigit ds).map ('e' :: ·)
  let x := (← FloatNumeral.read? (whole ++ '.' :: part ++ exponent)).nearest neg
  if x.isInfinite then none else pure (.real x)

def field? (count low high : Nat) (cs : List Char) : Option (Nat × List Char) := do
  let ds ← (cs.take count).mapM digitValue?
  let n := natOfDigits ds
  if ds.length = count ∧ low ≤ n ∧ n ≤ high then pure (n, cs.drop count) else none

def expect? (c : Char) : List Char → Option (List Char)
  | d :: cs => if c = d then some cs else none
  | [] => none

def date? (cs : List Char) : Option (List Char) := do
  let (y, cs) ← field? 4 0 9999 cs
  let (m, cs) ← field? 2 1 12 (← expect? '-' cs)
  let (_, cs) ← field? 2 1 (daysInMonth y m) (← expect? '-' cs)
  pure cs

def time? (cs : List Char) : Option (List Char) := do
  let (_, cs) ← field? 2 0 23 cs
  let (_, cs) ← field? 2 0 59 (← expect? ':' cs)
  match cs with
  | ':' :: cs => do
    let (_, cs) ← field? 2 0 60 cs
    match cs with
    | '.' :: cs =>
      if (cs.takeWhile Json.isDigit).isEmpty then none else pure (cs.dropWhile Json.isDigit)
    | cs => pure cs
  | cs => pure cs

def offset? (cs : List Char) : Option (List Char) :=
  match cs with
  | [] => some []
  | [c] => if c = 'Z' ∨ c = 'z' then some [] else none
  | c :: cs =>
    if c = '+' ∨ c = '-' then do
      let (_, cs) ← field? 2 0 23 cs
      let (_, cs) ← field? 2 0 59 (← expect? ':' cs)
      pure cs
    else none

def isMoment (cs : List Char) : Bool :=
  match date? cs with
  | some [] => true
  | some (sep :: rest) =>
    (sep == 'T' || sep == 't' || sep == ' ') && ((time? rest).bind offset?) == some []
  | none => time? cs == some []

def word? (cs : List Char) : Option OptionValue :=
  let (neg, unsigned) := match cs with
    | '-' :: cs => (true, cs)
    | '+' :: cs => (false, cs)
    | cs => (false, cs)
  let w := String.ofList cs
  let u := String.ofList unsigned
  if w = "true" then some (.flag true)
  else if w = "false" then some (.flag false)
  else if u = "inf" then some (.real (.infinity neg))
  else if u = "nan" then some (.real .nan)
  else if isMoment cs then some (.text w)
  else
    match cs with
    | '0' :: 'x' :: ds => radixInteger? 16 (fun c => (Json.hexValue? c).isSome) ds
    | '0' :: 'o' :: ds => radixInteger? 8 (fun c => '0' ≤ c && c ≤ '7') ds
    | '0' :: 'b' :: ds => radixInteger? 2 (fun c => c == '0' || c == '1') ds
    | _ => (decimalInteger? neg unsigned).orElse fun _ => real? neg unsigned

def isWordChar (c : Char) : Bool := isNameChar c || c == '+' || c == '.' || c == ':'

/-- Takes the characters of a word; one blank may stand between a date and a time. -/
def takeWord (cs : List Char) : List Char × List Char :=
  let word := cs.takeWhile isWordChar
  let rest := cs.dropWhile isWordChar
  match rest with
  | ' ' :: d :: _ =>
    if date? word == some [] && Json.isDigit d then
      (word ++ ' ' :: rest.tail.takeWhile isWordChar, rest.tail.dropWhile isWordChar)
    else (word, rest)
  | _ => (word, rest)

inductive Node
  | value (v : OptionValue)
  /-- A table; `implied` unless a header opened it, and `dotted` if a key with points made it. -/
  | table (implied dotted : Bool) (entries : List (String × Node))
  /-- An array of tables, by the entries of its last one. -/
  | tables (last : List (String × Node))

abbrev Table := List (String × Node)

def replace (t : Table) (k : String) (n : Node) : Table :=
  t.map fun e => if e.1 == k then (k, n) else e

/-- Assigns a value under a key with points. The tables on the way, save those of arrays, and the table
that gets the value have to be implied. -/
def assign? : Table → List String → OptionValue → Option Table
  | _, [], _ => none
  | t, [k], v => if (t.lookup k).isSome then none else some (t ++ [(k, .value v)])
  | t, k :: ks, v =>
    match t.lookup k with
    | none => (assign? [] ks v).map fun inner => t ++ [(k, .table true true inner)]
    | some (.table implied dotted inner) =>
      if implied then
        (assign? inner ks v).map fun inner => replace t k (.table implied dotted inner)
      else none
    | some (.tables inner) =>
      if 1 < ks.length then (assign? inner ks v).map fun inner => replace t k (.tables inner)
      else none
    | some (.value _) => none

def onPath? (last : Option Node → Option Node) : Table → List String → Option Table
  | _, [] => none
  | t, [k] =>
    match t.lookup k with
    | none => (last none).map fun n => t ++ [(k, n)]
    | some n => (last (some n)).map fun n => replace t k n
  | t, k :: ks =>
    match t.lookup k with
    | none => (onPath? last [] ks).map fun inner => t ++ [(k, .table true false inner)]
    | some (.table implied dotted inner) =>
      (onPath? last inner ks).map fun inner => replace t k (.table implied dotted inner)
    | some (.tables inner) => (onPath? last inner ks).map fun inner => replace t k (.tables inner)
    | some (.value _) => none

def openTable : Option Node → Option Node
  | none => some (.table false false [])
  | some (.table true false inner) => some (.table false false inner)
  | _ => none

def openNext : Option Node → Option Node
  | none => some (.tables [])
  | some (.tables _) => some (.tables [])
  | _ => none

def assignIn? (ks : List String) (v : OptionValue) : Option Node → Option Node
  | some (.table implied dotted t) => (assign? t ks v).map fun t => .table implied dotted t
  | some (.tables t) => (assign? t ks v).map fun t => .tables t
  | _ => none

mutual

def value? : Nat → Nat → Reader OptionValue
  | 0, _, _ => none
  | fuel + 1, room, cs =>
    match cs with
    | '"' :: _ => (string? cs).map fun (s, cs) => (.text s, cs)
    | '\'' :: _ => (string? cs).map fun (s, cs) => (.text s, cs)
    | '[' :: rest =>
      if room = 0 then none else (items? fuel (room - 1) rest).map fun rest => (.compound, rest)
    | '\x7b' :: rest =>
      if room = 0 then none
      else (members? fuel (room - 1) [] rest).map fun rest => (.compound, rest)
    | cs =>
      let (word, rest) := takeWord cs
      (word? word).map fun v => (v, rest)

def items? : Nat → Nat → List Char → Option (List Char)
  | 0, _, _ => none
  | fuel + 1, room, cs =>
    match afterLines? cs with
    | none => none
    | some (']' :: rest) => some rest
    | some cs =>
      match value? fuel room cs with
      | none => none
      | some (_, rest) =>
        match afterLines? rest with
        | some (',' :: rest) => items? fuel room rest
        | some (']' :: rest) => some rest
        | _ => none

def members? : Nat → Nat → Table → List Char → Option (List Char)
  | 0, _, _, _ => none
  | fuel + 1, room, t, cs =>
    match afterLines? cs with
    | none => none
    | some ('\x7d' :: rest) => some rest
    | some cs =>
      match key? cs with
      | some (ks, '=' :: rest) =>
        match value? fuel room (skipInline rest) with
        | none => none
        | some (v, rest) =>
          match assign? t ks v with
          | none => none
          | some t =>
            match afterLines? rest with
            | some (',' :: rest) => members? fuel room t rest
            | some ('\x7d' :: rest) => some rest
            | _ => none
      | _ => none

end

structure Document where
  content : Table
  current : List String

def Document.set? (d : Document) (ks : List String) (v : OptionValue) : Option Document :=
  match d.current with
  | [] => (assign? d.content ks v).map fun t => { d with content := t }
  | path => (onPath? (assignIn? ks v) d.content path).map fun t => { d with content := t }

def Document.open? (d : Document) (change : Option Node → Option Node) (path : List String) :
    Option Document :=
  (onPath? change d.content path).map fun t => ⟨t, path⟩

def document? : Nat → Document → List Char → Option Document
  | 0, _, _ => none
  | fuel + 1, d, cs =>
    match afterLines? cs with
    | none => none
    | some [] => some d
    | some ('[' :: '[' :: rest) =>
      match key? rest with
      | some (path, ']' :: ']' :: rest) => do
        document? fuel (← d.open? openNext path) (← lineEnd? rest)
      | _ => none
    | some ('[' :: rest) =>
      match key? rest with
      | some (path, ']' :: rest) => do
        document? fuel (← d.open? openTable path) (← lineEnd? rest)
      | _ => none
    | some cs =>
      match key? cs with
      | some (ks, '=' :: rest) => do
        let (v, rest) ← value? (rest.length + 1) deepest (skipInline rest)
        document? fuel (← d.set? ks v) (← lineEnd? rest)
      | _ => none

def assignmentOf (e : String × Node) : Assignment :=
  match e.2 with
  | .value v => ⟨e.1, v⟩
  | _ => ⟨e.1, .compound⟩

def assignments? (s : String) : Option (List Assignment) :=
  let cs := match s.toList with
    | '\ufeff' :: cs => cs
    | cs => cs
  (document? (cs.length + 1) ⟨[], []⟩ cs).map fun d => d.content.map assignmentOf

end GraphCopy.Toml
