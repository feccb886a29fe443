import GraphCopy.Graph.Shape
import GraphCopy.Graph.Normal
import GraphCopy.Immutability
import GraphCopy.Text.Quoted

/-!
# Rendering a graph of objects

A graph is written as one text. Every object is written with its content where
it is met first, and as a back reference later. Mutable objects carry an
identity token; immutable ones, which a graph may share with its copy, carry
the ordinal of their first visit.
-/

namespace GraphCopy

inductive Piece
  | plain (s : String)
  | identity (address : Nat)
deriving DecidableEq

/-- Identity tokens lie far above the numbers that are likely to stand in a text. -/
def addressBase : Nat := 0x5a17000000000000

def Piece.text : Piece → String
  | .plain s => s
  | .identity a => "@0x" ++ String.ofList (Text.hexDigits (addressBase + 16 * a))

def Value.scalarText : Value → String
  | .null => "null"
  | .bool b => if b then "true" else "false"
  | .int i => toString i.toInt
  | .float x => x.text
  | .char c => Text.quotedChar c
  | .text t => Text.quoted t.content
  | .decimal d => d.content.text ++ "d"
  | .timestamp t => t.text
  | .date d => d.text
  | .uri u => "<" ++ u.content.text ++ ">"
  | .object _ => ""

structure Tour where
  seen : List Nat
  known : Knowledge

structure Scene where
  types : Types
  sharing : SharingRules
  heap : Heap

abbrev Rendering := List Piece × Tour

namespace Rendering

def sequence (one : Value → Tour → Rendering) (sep : String) : List Value → Tour → Rendering
  | [], t => ([], t)
  | [v], t => one v t
  | v :: vs, t =>
    let (p, t) := one v t
    let (ps, t) := sequence one sep vs t
    (p ++ .plain sep :: ps, t)

def entry (one : Value → Tour → Rendering) (e : Value × Value) (t : Tour) : Rendering :=
  let (k, t) := one e.1 t
  let (v, t) := one e.2 t
  (k ++ .plain " => " :: v, t)

def entries (one : Value → Tour → Rendering) : List (Value × Value) → Tour → Rendering
  | [], t => ([], t)
  | [e], t => entry one e t
  | e :: es, t =>
    let (p, t) := entry one e t
    let (ps, t) := entries one es t
    (p ++ .plain ", " :: ps, t)

def field (one : Value → Tour → Rendering) (f : String × Option Value) (t : Tour) : Rendering :=
  match f.2 with
  | some v =>
    let (p, t) := one v t
    (.plain (f.1 ++ ": ") :: p, t)
  | none => ([.plain (f.1 ++ ": <unreadable>")], t)

def fields (one : Value → Tour → Rendering) : List (String × Option Value) → Tour → Rendering
  | [], t => ([], t)
  | [f], t => field one f t
  | f :: fs, t =>
    let (p, t) := field one f t
    let (ps, t) := fields one fs t
    (p ++ .plain ", " :: ps, t)

def shape (one : Value → Tour → Rendering) : Shape → Tour → Rendering
  | .sequence items, t =>
    let (p, t) := sequence one ", " items t
    (.plain "[" :: p ++ [.plain "]"], t)
  | .entries es, t =>
    let (p, t) := entries one es t
    (.plain "\x7b" :: p ++ [.plain "\x7d"], t)
  | .record fs, t =>
    let (p, t) := fields one fs t
    (.plain "\x7b" :: p ++ [.plain "\x7d"], t)

end Rendering

namespace Scene

def label (d : Descriptor) (immutable : Bool) (r : Ref) (i : Nat) : List Piece :=
  if immutable then [.plain (d.name ++ "#" ++ toString (i + 1))]
  else [.plain d.name, .identity r.address]

def renderRef (s : Scene) (one : Value → Tour → Rendering) (r : Ref) (t : Tour) : Rendering :=
  let (d, known) := t.known.describe s.types r.type
  let (immutable, known) := s.sharing.isImmutable s.types d known
  match t.seen.idxOf? r.address with
  | some i => (label d immutable r i ++ [.plain "^"], ⟨t.seen, known⟩)
  | none =>
    let (p, t') := Rendering.shape one (s.heap.shape s.types d r) ⟨t.seen ++ [r.address], known⟩
    (label d immutable r t.seen.length ++ p, t')

def renderWithin (s : Scene) : Nat → Value → Tour → Rendering
  | 0, .object _, t => ([], t)
  | fuel + 1, .object r, t => s.renderRef (s.renderWithin fuel) r t
  | _, v, t => ([.plain v.scalarText], t)

def renderPieces (s : Scene) (v : Value) (known : Knowledge) : List Piece × Knowledge :=
  let (p, t) := s.renderWithin (s.heap.size + 2) v ⟨[], known⟩
  (p, t.known)

def render (s : Scene) (v : Value) (known : Knowledge) : String × Knowledge :=
  let (p, known) := s.renderPieces v known
  (String.join (p.map Piece.text), known)

/-- Whether two graphs have the same shape, scalars and sharing, judged by their texts with the
identities renumbered. -/
def deepEquals (s : Scene) (a b : Value) (known : Knowledge) : Bool × Knowledge :=
  let (x, known) := s.render a known
  let (y, known) := s.render b known
  (normalize x == normalize y, known)

end Scene
end GraphCopy
