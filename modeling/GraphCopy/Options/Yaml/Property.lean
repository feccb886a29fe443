import GraphCopy.Options.Yaml.Cursor
import GraphCopy.Text.Json

/-!
# Tags, anchors and directives in YAML

A tag is a handle with a suffix, of which either may be empty. A directive
before a document tells the version or what a handle of tags stands for; other
directives count as one for the empty handle.
-/

namespace GraphCopy.Yaml

def isWordChar (c : Char) : Bool :=
  ('a' ≤ c && c ≤ 'z') || ('A' ≤ c && c ≤ 'Z') || ('0' ≤ c && c ≤ '9') || c == '_' || c == '-'

def isUriChar (c : Char) : Bool := isWordChar c || "#;/?:@&=+$,.!~*'()[]%".toList.contains c

def isTagChar (c : Char) : Bool := isUriChar c && !isFlowMark c && c != '!'

def isAnchorChar (c : Char) : Bool := !isSeparator c && !isFlowMark c && c != '\ufeff'

structure Tag where
  handle : String
  suffix : String
deriving DecidableEq

inductive Directive
  | version
  | tag (handle start : String)
deriving DecidableEq

def escapedByte? (c : Cursor) : Option (Nat × Cursor) := do
  if c.char != '%' then none
  pure ((← Json.hexValue? (c.ahead 1)) * 16 + (← Json.hexValue? (c.ahead 2)), c.takeMany 3)

def byteCount? (b : Nat) : Option Nat :=
  if b < 0x80 then some 1
  else if 0xC0 ≤ b ∧ b < 0xE0 then some 2
  else if 0xE0 ≤ b ∧ b < 0xF0 then some 3
  else if 0xF0 ≤ b ∧ b < 0xF8 then some 4
  else none

def furtherBytes? : Nat → Nat → Cursor → Option (Nat × Cursor)
  | 0, n, c => some (n, c)
  | count + 1, n, c =>
    match escapedByte? c with
    | some (b, c) => if 0x80 ≤ b ∧ b < 0xC0 then furtherBytes? count (n * 256 + b) c else none
    | none => none

def escapedChar? (c : Cursor) : Option (Char × Cursor) := do
  let (b, c) ← escapedByte? c
  let (n, c) ← furtherBytes? ((← byteCount? b) - 1) b c
  if n < 0xD800 ∨ (0xDFFF < n ∧ n < 0x110000) then pure (Char.ofNat n, c) else none

def uriWhile? (p : Char → Bool) : Nat → List Char → Cursor → Option (List Char × Cursor)
  | 0, _, _ => none
  | fuel + 1, acc, c =>
    if c.char = '%' then
      match escapedChar? c with
      | some (e, c) => uriWhile? p fuel (e :: acc) c
      | none => none
    else if p c.char then uriWhile? p fuel (c.char :: acc) c.take
    else some (acc.reverse, c)

def uri? (p : Char → Bool) (c : Cursor) : Option (List Char × Cursor) :=
  uriWhile? p (c.rest.length + 1) [] c

def handle? (c : Cursor) : Option (List Char × Cursor) :=
  if c.char != '!' then none
  else
    let (word, c) := c.take.takeWhile isWordChar
    if c.char = '!' then some ('!' :: word ++ ['!'], c.take) else some ('!' :: word, c)

def isClosed (handle : List Char) : Bool := 2 ≤ handle.length && handle.getLast? == some '!'

def verbatimTag? (c : Cursor) : Option (Tag × Cursor) := do
  let (suffix, c) ← uri? isUriChar (c.takeMany 2)
  if c.char = '>' then pure (⟨"", String.ofList suffix⟩, c.take) else none

/-- A tag by its handle and its suffix. A word without a mark after it belongs to the suffix, and the
mark alone is a suffix without a handle. -/
def shortTag? (c : Cursor) : Option (Tag × Cursor) := do
  let (handle, c) ← handle? c
  let (suffix, c) ← uri? isTagChar c
  if isClosed handle then
    if suffix.isEmpty then none else pure (⟨String.ofList handle, String.ofList suffix⟩, c)
  else
    let suffix := handle.drop 1 ++ suffix
    if suffix.isEmpty then pure (⟨"", "!"⟩, c) else pure (⟨"!", String.ofList suffix⟩, c)

def tag? (inFlow : Bool) (c : Cursor) : Option (Tag × Cursor) := do
  let (tag, c) ← if c.ahead 1 == '<' then verbatimTag? c else shortTag? c
  if isSeparator c.char || (inFlow && isFlowMark c.char) then pure (tag, c) else none

def anchorName? (c : Cursor) : Option (String × Cursor) :=
  match c.take.takeWhile isAnchorChar with
  | ([], _) => none
  | (name, c) => some (String.ofList name, c)

def afterVersionNumber? (c : Cursor) : Option Cursor :=
  let (ds, c) := c.takeWhile fun d => (digitValue? d).isSome
  if ds.isEmpty || 9 < ds.length then none else some c

def versionDirective? (c : Cursor) : Option (Directive × Cursor) := do
  let c ← afterVersionNumber? c.passBlanks
  if c.char != '.' then none
  pure (.version, ← afterVersionNumber? c.take)

def tagStart? (c : Cursor) : Option (List Char × Cursor) :=
  if c.char = '!' then (uri? isUriChar c.take).map fun (cs, c) => ('!' :: cs, c)
  else if isTagChar c.char then uri? isUriChar c
  else none

def tagDirective? (c : Cursor) : Option (Directive × Cursor) := do
  let (handle, c) ← handle? c.passBlanks
  if handle != ['!'] && !isClosed handle then none
  let (start, c) ← tagStart? c.passBlanks
  if isSeparator c.char then pure (.tag (String.ofList handle) (String.ofList start), c) else none

def directive? (c : Cursor) : Option (Directive × Cursor) := do
  let (name, c) := c.take.takeWhile isWordChar
  if name.isEmpty || !isSeparator c.char then none
  let (directive, c) ← match String.ofList name with
    | "YAML" => versionDirective? c
    | "TAG" => tagDirective? c
    | _ => some (.tag "" "", c.passComment)
  let c := (← c.toContent? true).cursor
  if isLineEnd c.char then pure (directive, c.passBreak) else none

end GraphCopy.Yaml
