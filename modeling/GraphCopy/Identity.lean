import GraphCopy.Value

/-!
# What has been copied

During one copy the identity of every source that was begun is mapped to its
copy. A source is known by its type and its address.
-/

namespace GraphCopy

structure Memo where
  kept : List (Ref × Ref)
deriving DecidableEq

namespace Memo

def empty : Memo := ⟨[]⟩

def get? (m : Memo) (source : Ref) : Option Ref := m.kept.lookup source

def put (m : Memo) (source copy : Ref) : Memo :=
  ⟨(source, copy) :: m.kept.filter fun e => e.1 != source⟩

def contains (m : Memo) (source : Ref) : Bool := (m.get? source).isSome

def size (m : Memo) : Nat := m.kept.length

def isEmpty (m : Memo) : Bool := m.kept.isEmpty

theorem get?_put_self (m : Memo) (source copy : Ref) :
    (m.put source copy).get? source = some copy := by
  simp [get?, put]

theorem get?_put_ne (m : Memo) {source other : Ref} (copy : Ref) (h : other ≠ source) :
    (m.put source copy).get? other = m.get? other := by
  have hb : (other == source) = false := by simpa using h
  simp only [get?, put, List.lookup_cons, hb]
  induction m.kept with
  | nil => rfl
  | cons e es ih =>
    obtain ⟨r, k⟩ := e
    by_cases hr : r = source
    · simp [hr, List.lookup_cons, hb, ih]
    · simp only [ne_eq, hr, not_false_eq_true, bne_iff_ne, List.filter_cons_of_pos, List.lookup_cons]
      rw [ih]

theorem get?_put (m : Memo) (source copy r : Ref) :
    (m.put source copy).get? r = if r = source then some copy else m.get? r := by
  by_cases hr : r = source
  · rw [if_pos hr, hr, get?_put_self]
  · rw [if_neg hr, get?_put_ne m copy hr]

end Memo
end GraphCopy
