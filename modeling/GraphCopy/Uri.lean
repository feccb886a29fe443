import GraphCopy.Text.CharSet

/-!
# Identifiers of resources

A scheme, a colon and anything without white space. The scheme is a letter
followed by letters, digits, `+`, `.` and `-`, all ASCII.
-/

namespace GraphCopy

def isAsciiLetter (c : Char) : Bool := ('a' ≤ c && c ≤ 'z') || ('A' ≤ c && c ≤ 'Z')

def isSchemeChar (c : Char) : Bool :=
  isAsciiLetter c || ('0' ≤ c && c ≤ '9') || c == '+' || c == '.' || c == '-'

/-- Scheme characters up to a colon, then no white space. -/
def schemeRest : List Char → Bool
  | [] => false
  | c :: cs => if c = ':' then cs.all (fun x => !Text.isBlank x) else isSchemeChar c && schemeRest cs

def isUriChars : List Char → Bool
  | [] => false
  | c :: cs => isAsciiLetter c && schemeRest cs

structure Uri where
  text : String
  valid : isUriChars text.toList = true
deriving DecidableEq

def Uri.parse? (s : String) : Option Uri :=
  if h : isUriChars s.toList = true then some ⟨s, h⟩ else none

theorem Uri.parse?_isSome {s : String} : (Uri.parse? s).isSome = isUriChars s.toList := by
  unfold Uri.parse?
  split <;> simp_all

end GraphCopy
