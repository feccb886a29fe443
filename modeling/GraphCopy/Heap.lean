import GraphCopy.Container.FixedArray
import GraphCopy.Container.OrderedSet
import GraphCopy.Container.OrderedMap
import GraphCopy.Value.Storage

/-!
# The heap

Objects live in a heap that only grows: a new object gets the next address,
and an object is changed in place. The clock of the heap counts the moments at
which shared scalars can be made; a moment is never used twice, and moment zero is over from the
start.
-/

namespace GraphCopy

/-- The content of an object. An object of a host type has slots and, if its type can hold any, items:
pairs of a key and a value. -/
inductive Object
  | array (a : FixedArray)
  | list (items : List Value)
  | set (s : OrderedSet)
  | map (m : OrderedMap)
  | host (index : Nat) (slots : List Slot) (items : List (Value × Value))
deriving DecidableEq

namespace Object

def type : Object → TypeId
  | array _ => .array
  | list _ => .list
  | set _ => .set
  | map _ => .map
  | host i _ _ => .host i

def array? : Object → Option FixedArray
  | array a => some a
  | _ => none

def listItems : Object → List Value
  | list items => items
  | _ => []

def slots : Object → List Slot
  | host _ s _ => s
  | _ => []

def items : Object → List (Value × Value)
  | host _ _ items => items
  | _ => []

def withItems (items : List (Value × Value)) : Object → Object
  | host i s _ => host i s items
  | o => o

def withSlot (i : Nat) (slot : Slot) : Object → Object
  | host n s items => host n (s.set i slot) items
  | o => o

theorem type_withItems (items : List (Value × Value)) (o : Object) :
    (o.withItems items).type = o.type := by
  cases o <;> rfl

theorem type_withSlot (i : Nat) (slot : Slot) (o : Object) : (o.withSlot i slot).type = o.type := by
  cases o <;> rfl

theorem slots_withSlot (i : Nat) (slot : Slot) (o : Object) :
    (o.withSlot i slot).slots = o.slots.set i slot := by
  cases o <;> rfl

end Object

structure Heap where
  objects : Array Object
  clock : Nat
deriving DecidableEq

namespace Heap

def empty : Heap := ⟨#[], 1⟩

def size (h : Heap) : Nat := h.objects.size

def get? (h : Heap) (r : Ref) : Option Object := h.objects[r.address]?

def alloc (h : Heap) (o : Object) : Ref × Heap :=
  (⟨o.type, h.objects.size⟩, { h with objects := h.objects.push o })

def put (h : Heap) (r : Ref) (o : Object) : Heap :=
  { h with objects := h.objects.setIfInBounds r.address o }

def tick (h : Heap) : Heap := { h with clock := h.clock + 1 }

theorem get?_alloc (h : Heap) (o : Object) : (h.alloc o).2.get? (h.alloc o).1 = some o := by
  simp [alloc, get?]

theorem get?_alloc_of_lt {h : Heap} {o : Object} {r : Ref} (hr : r.address < h.size) :
    (h.alloc o).2.get? r = h.get? r := by
  simp only [alloc, get?, size] at *
  rw [Array.getElem?_push_lt hr, Array.getElem?_eq_getElem hr]

theorem get?_put_self {h : Heap} {o : Object} {r : Ref} (hr : r.address < h.size) :
    (h.put r o).get? r = some o := by
  simp only [put, get?, size] at *
  simp [hr]

theorem get?_put_ne {h : Heap} {o : Object} {r s : Ref} (hrs : r.address ≠ s.address) :
    (h.put r o).get? s = h.get? s := by
  simp [put, get?, Array.getElem?_setIfInBounds_ne hrs]

theorem size_alloc (h : Heap) (o : Object) : (h.alloc o).2.size = h.size + 1 := by
  simp [alloc, size]

theorem size_put (h : Heap) (r : Ref) (o : Object) : (h.put r o).size = h.size := by
  simp [put, size]

theorem get?_eq_none {h : Heap} {r : Ref} : h.get? r = none ↔ h.size ≤ r.address := by
  simp [get?, size]

end Heap
end GraphCopy
