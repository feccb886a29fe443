import GraphCopy.Options.Yaml.Scalar
import GraphCopy.Options.Yaml.Property

/-!
# Tokens of a YAML text

Indentation opens and closes block collections. A key is known to be one only
when the mark of its value comes, so the token of a possible key, and the
opening of its mapping, are put before it later. In a flow sequence the mark of
a value opens a mapping with a single pair.
-/

namespace GraphCopy.Yaml

inductive Token
  | directive (d : Directive)
  | documentStart
  | documentEnd
  | blockSequence
  | blockMapping
  | blockEnd
  | flowSequence
  | flowSequenceEnd
  | flowMapping
  | flowMappingEnd
  | blockEntry
  | flowEntry
  | key
  | value
  | alias (name : String)
  | anchor (name : String)
  | tag (t : Tag)
  | scalar (plain : Bool) (text : String)
deriving DecidableEq

structure KeyCandidate where
  possible : Bool
  /-- No other thing than a key can stand here. -/
  required : Bool
  token : Nat
  index : Nat
  line : Nat
  column : Nat

/-- The indentation outside of a nested one, which is that of a block, or one column more to keep the
content of a pair apart from its key. -/
structure Level where
  outer : Int
  isBlock : Bool

structure Lexing where
  cursor : Cursor
  tokens : Array Token
  keyAllowed : Bool
  candidate : KeyCandidate
  /-- The candidates outside of each open flow collection. -/
  outer : List KeyCandidate
  indent : Int
  levels : List Level
  /-- Where the mark of a value may stand close to it. -/
  closeValueAt : Nat
  /-- A flow mapping has been opened that its sequence does not imply. -/
  inMapping : Bool
  /-- For each open flow sequence, whether a mapping of a single pair is open in it. -/
  inPair : List Bool

namespace Lexing

def noCandidate : KeyCandidate := ⟨false, false, 0, 0, 0, 0⟩

def start (s : String) : Lexing :=
  { cursor := .start s, tokens := #[], keyAllowed := true, candidate := noCandidate, outer := []
    indent := -1, levels := [], closeValueAt := 0, inMapping := false, inPair := [] }

def inFlow (s : Lexing) : Bool := !s.outer.isEmpty

def emit (s : Lexing) (t : Token) : Lexing := { s with tokens := s.tokens.push t }

def emitAt (s : Lexing) (i : Nat) (t : Token) : Lexing :=
  { s with tokens := s.tokens.insertIdxIfInBounds i t }

def allowKey (s : Lexing) (b : Bool) : Lexing := { s with keyAllowed := b }

/-! ## Indentation -/

def atBlock (s : Lexing) : Bool := (s.levels.head?.map Level.isBlock).getD false

def unindent (s : Lexing) (column : Int) : Lexing :=
  if s.inFlow then s
  else
    let rec go (indent : Int) (tokens : Array Token) : List Level → Lexing
      | [] => { s with indent, tokens, levels := [] }
      | l :: ls =>
        if column < indent then go l.outer (if l.isBlock then tokens.push .blockEnd else tokens) ls
        else { s with indent, tokens, levels := l :: ls }
    go s.indent s.tokens s.levels

def leavePairs (s : Lexing) : Lexing :=
  let rec go (indent : Int) : List Level → Lexing
    | [] => { s with indent, levels := [] }
    | l :: ls => if l.isBlock then { s with indent, levels := l :: ls } else go l.outer ls
  go s.indent s.levels

def indentTo (s : Lexing) (column position : Nat) (t : Token) : Lexing :=
  if s.inFlow then s
  else
    let s : Lexing := match s.levels with
      | l :: ls =>
        if s.indent ≤ column && !l.isBlock then { s with indent := l.outer, levels := ls } else s
      | [] => s
    if s.indent < column then
      { s.emitAt position t with indent := column, levels := ⟨s.indent, true⟩ :: s.levels }
    else s

def indentByOne (s : Lexing) : Lexing :=
  if !s.inFlow && s.atBlock then
    { s with indent := s.indent + 1, levels := ⟨s.indent, false⟩ :: s.levels }
  else s

/-! ## Keys -/

def noteCandidate (s : Lexing) : Lexing :=
  if s.keyAllowed then
    let c := s.cursor
    { s with candidate :=
        { possible := true, required := !s.inFlow && s.indent == c.column && s.atBlock
          token := s.tokens.size, index := c.index, line := c.line, column := c.column } }
  else s

def dropCandidate? (s : Lexing) : Option Lexing :=
  if s.candidate.possible && s.candidate.required then none
  else some { s with candidate := { s.candidate with possible := false } }

def expireCandidate? (s : Lexing) : Option Lexing :=
  let k := s.candidate
  if k.possible && !s.inFlow && (k.line < s.cursor.line || k.index + 1024 < s.cursor.index) then
    s.dropCandidate?
  else some s

/-! ## White space -/

/-- Passes over white space and comments before a token. A new line may begin with a key outside of flow
collections. Tabs do not indent blocks. -/
def toToken? : Nat → Lexing → Option Lexing
  | 0, s => some s
  | fuel + 1, s =>
    let c := s.cursor
    if c.char = '\t' && !s.levels.isEmpty && c.leading && c.column < s.indent then
      match c.toContent? true with
      | some p => if isLineEnd p.cursor.char then toToken? fuel { s with cursor := p.cursor } else none
      | none => none
    else if isInlineBlank c.char then toToken? fuel { s with cursor := c.pass }
    else if isBreak c.char then
      toToken? fuel { s with cursor := c.passBreak, keyAllowed := s.keyAllowed || !s.inFlow }
    else if c.char = '#' then toToken? fuel { s with cursor := c.passComment }
    else some s

def beforeToken? (s : Lexing) : Option Lexing := toToken? (s.cursor.rest.length + 1) s

def passLine? (s : Lexing) : Option Lexing :=
  (s.cursor.toContent? true).map fun p => { s with cursor := p.cursor }

def afterKeyMark? : Nat → Bool → Lexing → Option Lexing
  | 0, _, _ => none
  | fuel + 1, found, s =>
    let c := s.cursor
    if c.char = ' ' then afterKeyMark? fuel true { s with cursor := c.pass }
    else if isBreak c.char then
      afterKeyMark? fuel true { s with cursor := c.passBreak, keyAllowed := s.keyAllowed || !s.inFlow }
    else if c.char = '#' then afterKeyMark? fuel found { s with cursor := c.passComment }
    else if found && c.char != '\t' then some s
    else none

/-! ## Documents -/

def leaveDocument? (s : Lexing) : Option Lexing :=
  (s.unindent (-1)).dropCandidate?.map (·.allowKey false)

def finish? (s : Lexing) : Option Lexing :=
  if (s.candidate :: s.outer).any fun k => k.possible && k.required then none
  else some (s.unindent (-1))

def documentMark? (s : Lexing) (t : Token) : Option Lexing :=
  s.leaveDocument?.map fun s => { s with cursor := s.cursor.takeMany 3 }.emit t

def documentEnd? (s : Lexing) : Option Lexing := do
  let s ← (← s.documentMark? .documentEnd).passLine?
  if isLineEnd s.cursor.char then pure s else none

def directive? (s : Lexing) : Option Lexing := do
  let s ← s.leaveDocument?
  let (d, c) ← Yaml.directive? s.cursor
  pure ({ s with cursor := c }.emit (.directive d))

/-! ## Collections -/

/-- Closes the pair that is open in the innermost flow sequence, if there is one. -/
def endPair (s : Lexing) : Lexing :=
  match s.inPair with
  | true :: outer => { s with inMapping := false, inPair := false :: outer }.emit .flowMappingEnd
  | _ => s

def deepestFlow : Nat := 255

def openFlow? (s : Lexing) (t : Token) : Option Lexing := do
  let s := s.noteCandidate.indentByOne
  if deepestFlow ≤ s.outer.length then none
  let s := { s with candidate := noCandidate, outer := s.candidate :: s.outer, keyAllowed := true
                    cursor := s.cursor.take }
  let s := if t = .flowMapping then { s with inMapping := true }
    else { s with inPair := false :: s.inPair }
  (← s.passLine?).emit t

def closeFlow? (s : Lexing) (t : Token) : Option Lexing := do
  let s ← s.dropCandidate?
  let s := match s.outer with
    | k :: ks => { s with candidate := k, outer := ks }
    | [] => s
  let s := s.allowKey false
  let s := if t = .flowSequenceEnd then let s := s.endPair; { s with inPair := s.inPair.tail } else s
  let s ← { s with cursor := s.cursor.take }.passLine?
  let s := if s.inFlow then { s with closeValueAt := s.cursor.index } else s
  s.emit t

def flowEntry? (s : Lexing) : Option Lexing := do
  let s := ((← s.dropCandidate?).allowKey true).endPair
  (← { s with cursor := s.cursor.take }.passLine?).emit .flowEntry

def blockEntry? (s : Lexing) : Option Lexing := do
  if s.inFlow || !s.keyAllowed then none
  let column := s.cursor.column
  let s := { s with cursor := s.cursor.take }
  let s := s.indentTo column s.tokens.size .blockSequence
  let p ← s.cursor.toContent? true
  if p.tab && p.cursor.char == '-' && isSeparator (p.cursor.ahead 1) then none
  let s := { s with cursor := (← p.cursor.toContent? false).cursor }
  let s := if isBreak s.cursor.char || isFlowMark s.cursor.char then s.indentByOne else s
  ((← s.dropCandidate?).allowKey true).emit .blockEntry

def keyMark? (s : Lexing) : Option Lexing := do
  let s ← if s.inFlow then some { s with inMapping := true }
    else if s.keyAllowed then some (s.indentTo s.cursor.column s.tokens.size .blockMapping)
    else none
  let s := (← s.dropCandidate?).allowKey !s.inFlow
  let s := { s with cursor := s.cursor.take }
  (← afterKeyMark? (s.cursor.rest.length + 2) false s).emit .key

def valueMark? (s : Lexing) : Option Lexing := do
  let k := s.candidate
  let mark := s.cursor
  let opensPair := !s.inPair.isEmpty && !s.inMapping
  let s := if opensPair then { s with inPair := true :: s.inPair.tail } else s
  let s := { s with cursor := mark.take }
  let s ← if s.cursor.char = '\t' then do
      let p ← s.cursor.toContent? true
      if !p.space && (p.cursor.char == '-' || isWordChar p.cursor.char) then none
      some { s with cursor := p.cursor }
    else some s
  let s ←
    if k.possible then
      if opensPair && k.line < mark.line then none
      else
        let s := s.emitAt k.token .key
        let s := if opensPair then s.emitAt k.token .flowMapping else s
        let s := (s.indentTo k.column k.token .blockMapping).indentByOne
        some ({ s with candidate := { s.candidate with possible := false } }.allowKey false)
    else
      let s := if opensPair then s.emit .flowMapping else s
      if s.inFlow then some (s.allowKey false)
      else if s.keyAllowed then
        some ((s.indentTo mark.column s.tokens.size .blockMapping).indentByOne.allowKey true)
      else none
  s.emit .value

def closeValueMark? (s : Lexing) : Option Lexing :=
  let next := s.cursor.ahead 1
  if s.cursor.index != s.closeValueAt && (next == '[' || next == '\x7b') then none else s.valueMark?

/-! ## Contents -/

def anchor? (s : Lexing) (token : String → Token) : Option Lexing := do
  let s := s.noteCandidate.allowKey false
  let (name, c) ← anchorName? s.cursor
  pure ({ s with cursor := c }.emit (token name))

def tag? (s : Lexing) : Option Lexing := do
  let s := s.noteCandidate.allowKey false
  let (t, c) ← Yaml.tag? s.inFlow s.cursor
  pure ({ s with cursor := c }.emit (.tag t))

def blockScalar? (s : Lexing) : Option Lexing := do
  let s := (s.noteCandidate.allowKey true).leavePairs
  let (text, c) ← block? s.indent s.cursor
  pure ({ s with cursor := c }.emit (.scalar false text))

def quotedScalar? (s : Lexing) : Option Lexing := do
  let s := s.noteCandidate.allowKey false
  let (text, c) ← quoted? s.indent s.inFlow s.cursor
  let s ← { s with cursor := c }.beforeToken?
  pure ({ s with closeValueAt := s.cursor.index }.emit (.scalar false text))

def plainScalar? (s : Lexing) : Option Lexing := do
  let s := (s.noteCandidate.allowKey false).leavePairs
  let (text, c) ← plain? (s.indent + 1) s.inFlow s.cursor
  pure ({ s with cursor := c, keyAllowed := c.leading }.emit (.scalar true text))

/-! ## All tokens -/

def content? (s : Lexing) : Option Lexing :=
  let c := s.cursor
  let setApart := isSeparator (c.ahead 1)
  match c.char with
  | '[' => s.openFlow? .flowSequence
  | '\x7b' => s.openFlow? .flowMapping
  | ']' => s.closeFlow? .flowSequenceEnd
  | '\x7d' => s.closeFlow? .flowMappingEnd
  | ',' => s.flowEntry?
  | '-' => if setApart then s.blockEntry? else s.plainScalar?
  | '?' => if setApart then s.keyMark? else s.plainScalar?
  | ':' =>
    if setApart then s.valueMark?
    else if s.inFlow && (isFlowMark (c.ahead 1) || c.index == s.closeValueAt) then s.closeValueMark?
    else s.plainScalar?
  | '*' => s.anchor? .alias
  | '&' => s.anchor? .anchor
  | '!' => s.tag?
  | '|' => if s.inFlow then s.plainScalar? else s.blockScalar?
  | '>' => if s.inFlow then s.plainScalar? else s.blockScalar?
  | '\'' => s.quotedScalar?
  | '"' => s.quotedScalar?
  | '%' => none
  | '@' => none
  | '\x60' => none
  | _ => s.plainScalar?

def all? : Nat → Lexing → Option Lexing
  | 0, _ => none
  | fuel + 1, s =>
    match s.beforeToken?.bind expireCandidate? with
    | none => none
    | some s =>
      let s := s.unindent s.cursor.column
      let c := s.cursor
      if c.char = endMark then s.finish?
      else
        let next :=
          if c.column = 0 && c.char = '%' then s.directive?
          else if c.isMark '-' then s.documentMark? .documentStart
          else if c.isMark '.' then s.documentEnd?
          else if c.column < s.indent then none
          else s.content?
        match next with
        | some s => all? fuel s
        | none => none

end Lexing

def tokens? (s : String) : Option (List Token) :=
  let start := Lexing.start s
  (start.all? (start.cursor.rest.length + 2)).map fun s => s.tokens.toList

end GraphCopy.Yaml
