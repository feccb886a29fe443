import GraphCopy.Text.CharSet

/-!
# Quoted characters and texts

A text is shown between quotes. The backslash and the quote in use are
escaped, four controls have short escapes, and any other character that cannot
be shown, or that would attach to the one before it, is written as its code
point in hexadecimal.
-/

namespace GraphCopy.Text

def hexDigit (n : Nat) : Char := if n < 10 then Char.ofNat (48 + n) else Char.ofNat (87 + n)

def hexDigitsBy : Nat → Nat → List Char
  | 0, _ => []
  | fuel + 1, n => if n < 16 then [hexDigit n] else hexDigitsBy fuel (n / 16) ++ [hexDigit (n % 16)]

def hexDigits (n : Nat) : List Char := hexDigitsBy (n + 1) n

def escaped (quote : Char) (c : Char) : List Char :=
  if c = '\x00' then ['\\', '0']
  else if c = '\t' then ['\\', 't']
  else if c = '\r' then ['\\', 'r']
  else if c = '\n' then ['\\', 'n']
  else if c = '\\' then ['\\', '\\']
  else if c = quote then ['\\', quote]
  else if isExtending c || isUnprintable c then '\\' :: 'u' :: '\x7b' :: hexDigits c.toNat ++ ['\x7d']
  else [c]

def quotedChars (quote : Char) (cs : List Char) : List Char :=
  quote :: cs.flatMap (escaped quote) ++ [quote]

def quoted (s : String) : String := String.ofList (quotedChars '"' s.toList)

def quotedChar (c : Char) : String := String.ofList (quotedChars '\'' [c])

end GraphCopy.Text
