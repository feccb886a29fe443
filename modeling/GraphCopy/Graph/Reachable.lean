import GraphCopy.Graph.Render

/-!
# Mutable objects in reach

`mutableObjects` walks over everything that is reachable from a value, through
immutable objects too, and collects the mutable objects. Two graphs are
distinct when they have no mutable object in common.
-/

namespace GraphCopy

structure Walk where
  seen : List Nat
  found : List Nat
  known : Knowledge

namespace Scene

def isNew (seen : List Nat) : Value → Bool
  | .object r => !seen.contains r.address
  | _ => false

def visit (s : Scene) (r : Ref) (w : Walk) : List Value × Walk :=
  let (d, known) := w.known.describe s.types r.type
  let (immutable, known) := s.sharing.isImmutable s.types d known
  ((s.heap.shape s.types d r).values,
    { seen := r.address :: w.seen
      found := if immutable then w.found else r.address :: w.found
      known })

def walk (s : Scene) : Nat → List Value → Walk → Walk
  | 0, _, w => w
  | fuel + 1, pending, w =>
    match pending.dropWhile fun v => !isNew w.seen v with
    | .object r :: rest =>
      let (next, w) := s.visit r w
      walk s fuel (next.reverse ++ rest) w
    | _ => w

/-- The addresses of the mutable objects in reach. Each object of the heap is visited at most once. -/
def mutableObjects (s : Scene) (v : Value) (known : Knowledge) : List Nat × Knowledge :=
  let w := s.walk (s.heap.size + 1) [v] ⟨[], [], known⟩
  (w.found, w.known)

def referenceDistinct (s : Scene) (a b : Value) (known : Knowledge) : Bool × Knowledge :=
  let (theirs, known) := s.mutableObjects b known
  let (ours, known) := s.mutableObjects a known
  (ours.all fun x => !theirs.contains x, known)

end Scene
end GraphCopy
