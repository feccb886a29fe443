import GraphCopy.Options.Assignment

/-!
# Positions in a YAML text

A cursor knows what follows it, its line and column, and whether only blanks
stand before it on its line. A text ends at its end or at its first NUL.
-/

namespace GraphCopy.Yaml

def endMark : Char := '\x00'

def isBreak (c : Char) : Bool := c == '\n' || c == '\r'
def isLineEnd (c : Char) : Bool := isBreak c || c == endMark
def isSpace (c : Char) : Bool := isInlineBlank c || isBreak c
def isSeparator (c : Char) : Bool := isInlineBlank c || isLineEnd c
def isFlowMark (c : Char) : Bool := c == ',' || c == '[' || c == ']' || c == '\x7b' || c == '\x7d'

structure Cursor where
  rest : List Char
  index : Nat
  line : Nat
  column : Nat
  /-- Only blanks stand before the cursor on its line. -/
  leading : Bool

namespace Cursor

def start (s : String) : Cursor := ⟨s.toList.takeWhile (· != endMark), 0, 0, 0, true⟩

def char (c : Cursor) : Char := c.rest.headD endMark

def ahead (c : Cursor) (n : Nat) : Char := c.rest.getD n endMark

def pass (c : Cursor) : Cursor :=
  { c with rest := c.rest.tail, index := c.index + 1, column := c.column + 1 }

def take (c : Cursor) : Cursor := { c.pass with leading := false }

def takeMany : Nat → Cursor → Cursor
  | 0, c => c
  | n + 1, c => takeMany n c.take

def passBreak (c : Cursor) : Cursor :=
  match c.rest with
  | '\r' :: '\n' :: rest => ⟨rest, c.index + 2, c.line + 1, 0, true⟩
  | b :: rest => if isBreak b then ⟨rest, c.index + 1, c.line + 1, 0, true⟩ else c
  | [] => c

def takeWhile (p : Char → Bool) (c : Cursor) : List Char × Cursor :=
  let taken := c.rest.takeWhile p
  (taken, takeMany taken.length c)

def passComment (c : Cursor) : Cursor := (c.takeWhile fun d => !isBreak d).2

def passBlanks (c : Cursor) : Cursor :=
  let n := (c.rest.takeWhile isInlineBlank).length
  { c with rest := c.rest.drop n, index := c.index + n, column := c.column + n }

def isMark (mark : Char) (c : Cursor) : Bool :=
  c.column == 0 && c.ahead 0 == mark && c.ahead 1 == mark && c.ahead 2 == mark
    && isSeparator (c.ahead 3)

def isDocumentMark (c : Cursor) : Bool := c.isMark '-' || c.isMark '.'

end Cursor

structure Passed where
  tab : Bool
  space : Bool
  cursor : Cursor

/-- Passes over blanks and a comment; tabs count only if `tabs` is set. A comment needs a blank before
it. -/
def Passed.more? (tabs : Bool) : Nat → Passed → Option Passed
  | 0, p => some p
  | fuel + 1, p =>
    match p.cursor.char with
    | ' ' => more? tabs fuel { p with space := true, cursor := p.cursor.pass }
    | '\t' => if tabs then more? tabs fuel { p with tab := true, cursor := p.cursor.pass } else some p
    | '#' => if p.tab || p.space then some { p with cursor := p.cursor.passComment } else none
    | _ => some p

def Cursor.toContent? (tabs : Bool) (c : Cursor) : Option Passed :=
  Passed.more? tabs (c.rest.length + 1) ⟨false, false, c⟩

end GraphCopy.Yaml
