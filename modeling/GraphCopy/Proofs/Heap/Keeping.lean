import GraphCopy.Heap
import Mathlib.Data.Finset.Card
import Mathlib.Data.List.Basic

/-!
# What a heap keeps

`Heap.Keeps bound h h'` says that on the way from `h` to `h'` nothing below
the address `bound` was changed and nothing went away. New objects are always
allowed, changes only at or above the bound.
-/

namespace GraphCopy

namespace Object

variable {o : Object}

theorem exists_array (ho : o.type = .array) : ∃ a, o = .array a := by
  cases o with
  | array a => exact ⟨a, rfl⟩
  | _ => cases ho

theorem exists_list (ho : o.type = .list) : ∃ items, o = .list items := by
  cases o with
  | list items => exact ⟨items, rfl⟩
  | _ => cases ho

theorem exists_set (ho : o.type = .set) : ∃ s, o = .set s := by
  cases o with
  | set s => exact ⟨s, rfl⟩
  | _ => cases ho

theorem exists_map (ho : o.type = .map) : ∃ m, o = .map m := by
  cases o with
  | map m => exact ⟨m, rfl⟩
  | _ => cases ho

theorem exists_host {i : Nat} (ho : o.type = .host i) : ∃ slots items, o = .host i slots items := by
  cases o with
  | host j slots items =>
    cases ho
    exact ⟨slots, items, rfl⟩
  | _ => cases ho

theorem eq_array_of_array? {a : FixedArray} (ho : o.array? = some a) : o = .array a := by
  cases o with
  | array b =>
    cases ho
    rfl
  | _ => cases ho

theorem array?_of_ne (ho : o.type ≠ .array) : o.array? = none := by
  cases o with
  | array a => exact absurd rfl ho
  | _ => rfl

theorem array?_of_host {i : Nat} (ho : o.type = .host i) : o.array? = none :=
  array?_of_ne (by simp [ho])

end Object

namespace Heap

def Has (h : Heap) (r : Ref) : Prop := ∃ o, h.get? r = some o ∧ o.type = r.type

def Holds (h : Heap) (v : Value) : Prop := ∀ r, v = .object r → h.Has r

instance (h : Heap) (r : Ref) : Decidable (h.Has r) :=
  decidable_of_iff ((h.get? r).map Object.type = some r.type) (by simp [Has])

instance (h : Heap) : (v : Value) → Decidable (h.Holds v)
  | .object r => decidable_of_iff (h.Has r) (by simp [Holds])
  | .null | .bool _ | .int _ | .float _ | .char _ | .text _ | .decimal _ | .timestamp _ | .date _
  | .uri _ => .isTrue (by simp [Holds])

structure Keeps (bound : Nat) (h h' : Heap) : Prop where
  size_le : h.size ≤ h'.size
  get?_eq : ∀ r : Ref, r.address < bound → h'.get? r = h.get? r

variable {h h' h'' : Heap} {bound : Nat} {r : Ref} {o : Object}

theorem address_lt_of_get? (hr : h.get? r = some o) : r.address < h.size := by
  by_contra hlt
  have hn : h.get? r = none := get?_eq_none.mpr (by omega)
  rw [hn] at hr
  cases hr

theorem Has.address_lt (hr : h.Has r) : r.address < h.size := by
  obtain ⟨o, ho, -⟩ := hr
  exact address_lt_of_get? ho

theorem get?_congr {q : Ref} (ha : q.address = r.address) : h.get? q = h.get? r := by
  simp [get?, ha]

theorem Has.eq_of_address_eq {q : Ref} (hq : h.Has q) (hr : h.Has r)
    (ha : q.address = r.address) : q = r := by
  obtain ⟨o, ho, hot⟩ := hq
  obtain ⟨o', ho', hot'⟩ := hr
  rw [get?_congr ha, ho'] at ho
  cases ho
  cases q
  cases r
  simp_all

theorem holds_object (hr : h.Has r) : h.Holds (.object r) := by
  rintro q hq
  cases hq
  exact hr

theorem Keeps.refl (bound : Nat) (h : Heap) : h.Keeps bound h := ⟨le_rfl, fun _ _ => rfl⟩

theorem Keeps.trans (h₁ : h.Keeps bound h') (h₂ : h'.Keeps bound h'') : h.Keeps bound h'' :=
  ⟨h₁.size_le.trans h₂.size_le, fun r hr => (h₂.get?_eq r hr).trans (h₁.get?_eq r hr)⟩

theorem Keeps.mono {b : Nat} (hk : h.Keeps bound h') (hb : b ≤ bound) : h.Keeps b h' :=
  ⟨hk.size_le, fun r hr => hk.get?_eq r (hr.trans_le hb)⟩

theorem keeps_tick (bound : Nat) (h : Heap) : h.Keeps bound h.tick := ⟨le_rfl, fun _ _ => rfl⟩

theorem keeps_alloc (hb : bound ≤ h.size) (o : Object) : h.Keeps bound (h.alloc o).2 := by
  refine ⟨?_, fun r hr => get?_alloc_of_lt (hr.trans_le hb)⟩
  rw [size_alloc]
  omega

theorem keeps_put {target : Ref} (hb : bound ≤ target.address) (o : Object) :
    h.Keeps bound (h.put target o) := by
  refine ⟨(size_put h target o).ge, fun r hr => get?_put_ne ?_⟩
  omega

theorem Keeps.get?_eq_some (hk : h.Keeps h.size h') (hr : h.get? r = some o) :
    h'.get? r = some o := by
  rw [hk.get?_eq r (address_lt_of_get? hr), hr]

theorem Keeps.has (hk : h.Keeps h.size h') (hr : h.Has r) : h'.Has r := by
  obtain ⟨o, ho, hot⟩ := hr
  exact ⟨o, hk.get?_eq_some ho, hot⟩

theorem has_alloc (h : Heap) (o : Object) : (h.alloc o).2.Has (h.alloc o).1 :=
  ⟨o, get?_alloc h o, rfl⟩

def refs (h : Heap) : List Ref := h.objects.toList.mapIdx fun i o => ⟨o.type, i⟩

theorem mem_refs : r ∈ h.refs ↔ h.Has r := by
  simp only [refs, List.mem_mapIdx, Has, get?]
  constructor
  · rintro ⟨i, hi, rfl⟩
    simp only [Array.length_toList] at hi
    exact ⟨h.objects[i], by simp [hi], by simp⟩
  · rintro ⟨o, ho, hot⟩
    obtain ⟨hi, hio⟩ := Array.getElem?_eq_some_iff.mp ho
    refine ⟨r.address, by simpa using hi, ?_⟩
    simp only [Array.getElem_toList, hio, hot]

theorem card_refs_le (h : Heap) : h.refs.toFinset.card ≤ h.size :=
  (List.toFinset_card_le h.refs).trans_eq (by simp [refs, size])

end Heap
end GraphCopy
