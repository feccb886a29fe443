import GraphCopy.Value

/-!
# Sets in order of insertion

The members in order of first insertion, and beside them the keys by which a
member is found again. A value with the key of a member is not inserted again,
so each key is represented by its first value.
-/

namespace GraphCopy

structure OrderedSet where
  members : List Value
  index : List Key
deriving DecidableEq

namespace OrderedSet

def empty : OrderedSet := ⟨[], []⟩

def contains (s : OrderedSet) (v : Value) : Bool := s.index.contains v.key

/-- The set after the insertion, and whether the value was new. -/
def insert (s : OrderedSet) (v : Value) : OrderedSet × Bool :=
  if s.contains v then (s, false)
  else (⟨s.members ++ [v], v.key :: s.index⟩, true)

def ofList (vs : List Value) : OrderedSet := vs.foldl (fun s v => (s.insert v).1) empty

def size (s : OrderedSet) : Nat := s.members.length

theorem insert_of_contains {s : OrderedSet} {v : Value} (h : s.contains v = true) :
    s.insert v = (s, false) := by
  simp [insert, h]

theorem insert_of_new {s : OrderedSet} {v : Value} (h : s.contains v = false) :
    s.insert v = (⟨s.members ++ [v], v.key :: s.index⟩, true) := by
  simp [insert, h]

end OrderedSet
end GraphCopy
