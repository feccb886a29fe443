import GraphCopy.Value

/-!
# Maps in order of insertion

The entries in order of first insertion, and an index from each key to the
position of its entry. Inserting under a known key replaces the value and
keeps the key that came first.
-/

namespace GraphCopy

structure OrderedMap where
  entries : List (Value × Value)
  index : List (Key × Nat)
deriving DecidableEq

namespace OrderedMap

def empty : OrderedMap := ⟨[], []⟩

def position? (m : OrderedMap) (k : Value) : Option Nat := m.index.lookup k.key

def get? (m : OrderedMap) (k : Value) : Option Value :=
  match m.position? k with
  | some i => (m.entries[i]?).map Prod.snd
  | none => none

/-- The map after the insertion, and the value that was replaced. -/
def insert (m : OrderedMap) (k v : Value) : OrderedMap × Option Value :=
  match m.position? k with
  | some i =>
    ({ m with entries := m.entries.modify i fun e => (e.1, v) }, (m.entries[i]?).map Prod.snd)
  | none => (⟨m.entries ++ [(k, v)], (k.key, m.entries.length) :: m.index⟩, none)

def ofList (es : List (Value × Value)) : OrderedMap :=
  es.foldl (fun m e => (m.insert e.1 e.2).1) empty

def keys (m : OrderedMap) : List Value := m.entries.map Prod.fst

def size (m : OrderedMap) : Nat := m.entries.length

end OrderedMap
end GraphCopy
