import GraphCopy.Options.Yaml.Cursor
import GraphCopy.Text.Json

/-!
# Scalars in YAML

A scalar is plain, quoted or a block. Line breaks within a plain or quoted
scalar are folded: a single one becomes a blank, of several the first is
dropped. Scalars go on over lines as long as these are indented enough.
-/

namespace GraphCopy.Yaml

structure Reading where
  chars : List Char
  cursor : Cursor

namespace Reading

def text (r : Reading) : String := String.ofList r.chars.reverse

def push (r : Reading) (c : Char) : Reading := { r with chars := c :: r.chars }

def append (r : Reading) (cs : List Char) : Reading := { r with chars := cs.reverse ++ r.chars }

def breaks (r : Reading) (n : Nat) : Reading := r.append (List.replicate n '\n')

end Reading

structure Gap where
  blanks : List Char
  broken : Bool
  more : Nat

namespace Gap

def none : Gap := ⟨[], false, 0⟩

def folded (g : Gap) : List Char :=
  if g.broken && g.more = 0 then [' '] else List.replicate g.more '\n'

end Gap

/-! ## Quoted scalars -/

def simpleEscape? : Char → Option Char
  | '0' => some '\x00'
  | 'a' => some '\x07'
  | 'b' => some '\x08'
  | 't' => some '\t'
  | '\t' => some '\t'
  | 'n' => some '\n'
  | 'v' => some '\x0b'
  | 'f' => some '\x0c'
  | 'r' => some '\r'
  | 'e' => some '\x1b'
  | ' ' => some ' '
  | '"' => some '"'
  | '/' => some '/'
  | '\\' => some '\\'
  | 'N' => some '\u0085'
  | '_' => some '\u00a0'
  | 'L' => some '\u2028'
  | 'P' => some '\u2029'
  | _ => none

def digitCount? : Char → Option Nat
  | 'x' => some 2
  | 'u' => some 4
  | 'U' => some 8
  | _ => none

def escape? (r : Reading) : Option Reading :=
  let c := r.cursor.take
  match simpleEscape? c.char, digitCount? c.char with
  | some e, _ => some ({ r with cursor := c.take }.push e)
  | none, some count => do
    let c := c.take
    let ds := c.rest.take count
    let n := (← ds.mapM Json.hexValue?).foldl (fun n d => n * 16 + d) 0
    if ds.length = count ∧ (n < 0xD800 ∨ (0xDFFF < n ∧ n < 0x110000)) then
      pure ({ r with cursor := c.takeMany count }.push (Char.ofNat n))
    else Option.none
  | none, none => Option.none

def quotedRun? (quote : Char) : Nat → Reading → Option (Bool × Reading)
  | 0, _ => none
  | fuel + 1, r =>
    let c := r.cursor.char
    if isSeparator c then some (false, r)
    else if c = quote then
      if quote = '\'' && r.cursor.ahead 1 == '\'' then
        quotedRun? quote fuel ({ r with cursor := r.cursor.takeMany 2 }.push '\'')
      else some (false, r)
    else if c = '\\' && quote = '"' then
      if isBreak (r.cursor.ahead 1) then some (true, { r with cursor := r.cursor.take.passBreak })
      else
        match escape? r with
        | some r => quotedRun? quote fuel r
        | none => none
    else quotedRun? quote fuel ({ r with cursor := r.cursor.take }.push c)

def quotedGap? (indent : Int) : Nat → Bool → Gap → Cursor → Option (Bool × Gap × Cursor)
  | 0, _, _, _ => none
  | fuel + 1, begun, g, c =>
    if isInlineBlank c.char then
      if begun then
        if c.char = '\t' && c.column < indent then none else quotedGap? indent fuel true g c.pass
      else quotedGap? indent fuel false { g with blanks := g.blanks ++ [c.char] } c.pass
    else if isBreak c.char then
      if begun then quotedGap? indent fuel true { g with more := g.more + 1 } c.passBreak
      else quotedGap? indent fuel true { g with blanks := [], broken := true } c.passBreak
    else some (begun, g, c)

def quotedRest? (indent : Int) (quote : Char) : Nat → Reading → Option Reading
  | 0, _ => none
  | fuel + 1, r =>
    let c := r.cursor
    if c.isDocumentMark || c.char == endMark || c.column < indent then none
    else
      match quotedRun? quote (c.rest.length + 1) r with
      | none => none
      | some (begun, r) =>
        if r.cursor.char = quote then some r
        else
          match quotedGap? indent (r.cursor.rest.length + 1) begun .none r.cursor with
          | none => none
          | some (begun, g, c) =>
            let r := { r with cursor := c }
            quotedRest? indent quote fuel (r.append (if begun then g.folded else g.blanks))

def quoted? (indent : Int) (inFlow : Bool) (start : Cursor) : Option (String × Cursor) := do
  let r ← quotedRest? indent start.char (start.rest.length + 2) ⟨[], start.take⟩
  let c := (← r.cursor.take.toContent? true).cursor
  let fits :=
    if c.char = ':' then inFlow || start.line == c.line
    else isLineEnd c.char || (inFlow && (c.char == ',' || c.char == ']' || c.char == '\x7d'))
  if fits then pure (r.text, c) else none

/-! ## Plain scalars -/

def isPlain (inFlow : Bool) (c : Cursor) : Bool :=
  if isSeparator c.char then false
  else if c.char = ':' then !(isSeparator (c.ahead 1) || (inFlow && isFlowMark (c.ahead 1)))
  else !(inFlow && isFlowMark c.char)

def plainRun (inFlow : Bool) : Nat → Reading → Reading
  | 0, r => r
  | fuel + 1, r =>
    if isPlain inFlow r.cursor then
      plainRun inFlow fuel ({ r with cursor := r.cursor.take }.push r.cursor.char)
    else r

/-- Passes over white space in a plain scalar. A tab may stand in the indentation of empty lines only. -/
def plainGap? (indent : Int) : Nat → Gap → Cursor → Option (Gap × Cursor)
  | 0, _, _ => none
  | fuel + 1, g, c =>
    if isInlineBlank c.char then
      if !c.leading then plainGap? indent fuel { g with blanks := g.blanks ++ [c.char] } c.pass
      else if c.char = '\t' && c.column < indent then
        match c.toContent? true with
        | some p => if isLineEnd p.cursor.char then plainGap? indent fuel g p.cursor else none
        | none => none
      else plainGap? indent fuel g c.pass
    else if isBreak c.char then
      if c.leading then plainGap? indent fuel { g with more := g.more + 1 } c.passBreak
      else plainGap? indent fuel { g with blanks := [], broken := true } c.passBreak
    else some (g, c)

def plainRest? (indent : Int) (inFlow : Bool) : Nat → Gap → Reading → Option Reading
  | 0, _, _ => none
  | fuel + 1, g, r =>
    let c := r.cursor
    if c.isDocumentMark || c.char == '#' then some r
    else if inFlow && c.char == '-' && isFlowMark (c.ahead 1) then none
    else
      let (g, r) :=
        if isPlain inFlow c then
          let joined := r.append (if c.leading then g.folded else g.blanks)
          (Gap.none, plainRun inFlow (c.rest.length + 1) joined)
        else (g, r)
      if !isSpace r.cursor.char then some r
      else
        match plainGap? indent (r.cursor.rest.length + 1) g r.cursor with
        | none => none
        | some (g, c) =>
          let r := { r with cursor := c }
          if !inFlow && c.column < indent then some r else plainRest? indent inFlow fuel g r

def plain? (indent : Int) (inFlow : Bool) (start : Cursor) : Option (String × Cursor) := do
  if inFlow && start.column < indent then none
  let r ← plainRest? indent inFlow (start.rest.length + 1) .none ⟨[], start⟩
  if r.chars.isEmpty then none else pure (r.text, r.cursor)

/-! ## Block scalars -/

inductive Chomping
  | strip
  | clip
  | keep
deriving DecidableEq

def passIndent (indent : Nat) : Nat → Nat → Cursor → Nat × Cursor
  | 0, n, c => (n, c)
  | fuel + 1, n, c =>
    if c.column < indent && c.char == ' ' then passIndent indent fuel n c.pass
    else if isBreak c.char then passIndent indent fuel (n + 1) c.passBreak
    else (n, c)

def passFirstIndent : Nat → Nat → Nat → Cursor → Nat × Nat × Cursor
  | 0, widest, n, c => (widest, n, c)
  | fuel + 1, widest, n, c =>
    if c.char = ' ' then passFirstIndent fuel widest n c.pass
    else
      let widest := max widest c.column
      if isBreak c.char then passFirstIndent fuel widest (n + 1) c.passBreak else (widest, n, c)

/-- A block that is being read: whether a line break is pending and how many follow it, and whether the
last line began with a blank. -/
structure BlockReading where
  reading : Reading
  broken : Bool
  more : Nat
  blankLine : Bool

/-- Reads the lines of a block. In a folded block a line break between lines that do not begin with a
blank is folded. -/
def blockLines (literal : Bool) (indent : Nat) : Nat → BlockReading → BlockReading
  | 0, b => b
  | fuel + 1, b =>
    let c := b.reading.cursor
    if c.column != indent || c.char == endMark || (indent == 0 && c.isMark '.') then b
    else
      let blank := isInlineBlank c.char
      let r :=
        if !literal && b.broken && !b.blankLine && !blank then
          b.reading.append (Gap.folded ⟨[], true, b.more⟩)
        else b.reading.breaks ((if b.broken then 1 else 0) + b.more)
      let line := c.rest.takeWhile fun d => !isBreak d
      let r := { r.append line with cursor := Cursor.takeMany line.length c }
      if r.cursor.char == endMark then ⟨r, false, 0, blank⟩
      else
        let next := r.cursor.passBreak
        let (more, next) := passIndent indent (next.rest.length + 1) 0 next
        blockLines literal indent fuel ⟨{ r with cursor := next }, true, more, blank⟩

def blockMarks? (c : Cursor) : Option (Chomping × Nat × Cursor) :=
  let chomping (c : Cursor) : Option (Chomping × Cursor) :=
    if c.char = '+' then some (.keep, c.take)
    else if c.char = '-' then some (.strip, c.take)
    else none
  let width (c : Cursor) : Option (Nat × Cursor) :=
    match digitValue? c.char with
    | some 0 => none
    | some d => some (d, c.take)
    | none => some (0, c)
  match chomping c with
  | some (ch, c) => (width c).map fun (w, c) => (ch, w, c)
  | none =>
    match width c with
    | none => none
    | some (0, c) => some (.clip, 0, c)
    | some (w, c) =>
      match chomping c with
      | some (ch, c) => some (ch, w, c)
      | none => some (.clip, w, c)

def block? (indent : Int) (start : Cursor) : Option (String × Cursor) := do
  let literal := start.char == '|'
  let (chomping, width, c) ← blockMarks? start.take
  let c := (← c.toContent? true).cursor
  if !isLineEnd c.char then none
  let c := c.passBreak
  if c.char = '\t' then none
  let fuel := c.rest.length + 1
  let (own, more, c) : Nat × Nat × Cursor :=
    if 0 < width then
      let own := if 0 ≤ indent then indent.toNat + width else width
      (own, passIndent own fuel 0 c)
    else
      let (widest, more, c) := passFirstIndent fuel 0 0 c
      let own := max widest (indent + 1).toNat
      (if 0 < indent then max own 1 else own, more, c)
  if c.char == endMark then
    let text :=
      if chomping = .strip || c.line == start.line then ""
      else if chomping = .keep && 0 < more then String.ofList (List.replicate more '\n')
      else "\n"
    pure (text, c)
  else if c.column < own && indent < c.column then none
  else
    let b := blockLines literal own (c.rest.length + 1) ⟨⟨[], c⟩, false, more, false⟩
    let c := b.reading.cursor
    let r := b.reading
    let r := if chomping = .strip then r
      else
        let r := r.breaks (if b.broken then 1 else 0)
        if c.char == endMark && max own 1 ≤ c.column then r.push '\n' else r
    let r := if chomping = .keep then r.breaks b.more else r
    pure (r.text, c)

end GraphCopy.Yaml
