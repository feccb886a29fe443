import GraphCopy.Heap
import Mathlib.Data.List.Nodup
import Mathlib.Data.List.Perm.Basic

/-!
# The indices of sets and maps

A set keeps the keys of its members beside them, a map the position of the
entry of each key. The index is right if it holds just these; insertion keeps
it so, whether the key is new or not, and where it is right the questions that
a set and a map answer through it are answered by their members and entries.
-/

namespace GraphCopy

structure OrderedSet.WellIndexed (s : OrderedSet) : Prop where
  distinct : (s.members.map Value.key).Nodup
  index_perm : s.index.Perm (s.members.map Value.key)

/-- The index leads from a key to the position of its entry, and from nothing else to anywhere. -/
def OrderedMap.WellIndexed (m : OrderedMap) : Prop :=
  ∀ key i, m.index.lookup key = some i ↔ (m.entries[i]?).map (fun e => e.1.key) = some key

def Object.WellIndexed : Object → Prop
  | .set s => s.WellIndexed
  | .map m => m.WellIndexed
  | _ => True

def Heap.WellIndexed (h : Heap) : Prop := ∀ o ∈ h.objects.toList, o.WellIndexed

namespace OrderedSet

variable {s : OrderedSet} {v : Value}

theorem wellIndexed_empty : empty.WellIndexed := ⟨List.nodup_nil, .nil⟩

theorem WellIndexed.contains_iff (hs : s.WellIndexed) :
    s.contains v = true ↔ ∃ u ∈ s.members, u.key = v.key := by
  rw [contains, List.contains_iff_mem, hs.index_perm.mem_iff, List.mem_map]

theorem WellIndexed.insert (hs : s.WellIndexed) (v : Value) : (s.insert v).1.WellIndexed := by
  cases hv : s.contains v with
  | true =>
    rw [insert_of_contains hv]
    exact hs
  | false =>
    rw [insert_of_new hv]
    have hnew : v.key ∉ s.members.map Value.key := by
      rw [← hs.index_perm.mem_iff]
      simpa [contains] using hv
    have hperm : (v.key :: s.index).Perm ((s.members ++ [v]).map Value.key) := by
      rw [List.map_append]
      exact (hs.index_perm.cons v.key).trans (List.perm_append_singleton _ _).symm
    refine ⟨?_, hperm⟩
    rw [← hperm.nodup_iff, List.nodup_cons, hs.index_perm.mem_iff, hs.index_perm.nodup_iff]
    exact ⟨hnew, hs.distinct⟩

theorem wellIndexed_ofList (vs : List Value) : (ofList vs).WellIndexed := by
  have hfold : ∀ s : OrderedSet, s.WellIndexed →
      (vs.foldl (fun s v => (s.insert v).1) s).WellIndexed := by
    induction vs with
    | nil => exact fun s hs => hs
    | cons v vs ih => exact fun s hs => ih _ (hs.insert v)
  exact hfold empty wellIndexed_empty

end OrderedSet

namespace OrderedMap

variable {m : OrderedMap} {k v : Value}

theorem wellIndexed_empty : empty.WellIndexed := by
  intro key i
  simp [empty]

theorem insert_of_new (hk : m.position? k = none) :
    (m.insert k v).1 = ⟨m.entries ++ [(k, v)], (k.key, m.entries.length) :: m.index⟩ := by
  simp [insert, hk]

theorem WellIndexed.position_eq_none (hm : m.WellIndexed) :
    m.position? k = none ↔ ∀ e ∈ m.entries, e.1.key ≠ k.key := by
  rw [position?, Option.eq_none_iff_forall_ne_some]
  constructor
  · intro hnone e he hek
    obtain ⟨i, hi⟩ := List.getElem?_of_mem he
    exact hnone i ((hm k.key i).mpr (by rw [hi, Option.map_some, hek]))
  · intro hne i hi
    obtain ⟨e, he, hek⟩ := Option.map_eq_some_iff.mp ((hm k.key i).mp hi)
    exact hne e (List.mem_of_getElem? he) hek

theorem WellIndexed.get?_eq_some (hm : m.WellIndexed) {x : Value} :
    m.get? k = some x ↔
    ∃ (i : Nat) (e : Value × Value), m.entries[i]? = some e ∧ e.1.key = k.key ∧ e.2 = x := by
  rw [get?]
  constructor
  · intro hx
    cases hi : m.position? k with
    | none =>
      rw [hi] at hx
      cases hx
    | some i =>
      simp only [hi] at hx
      obtain ⟨e, he, hek⟩ := Option.map_eq_some_iff.mp ((hm k.key i).mp hi)
      obtain ⟨e', he', hex⟩ := Option.map_eq_some_iff.mp hx
      obtain rfl : e = e' := Option.some.inj (he.symm.trans he')
      exact ⟨i, e, he, hek, hex⟩
  · rintro ⟨i, e, he, hek, rfl⟩
    have hi : m.position? k = some i := (hm k.key i).mpr (by rw [he, Option.map_some, hek])
    simp only [hi, he, Option.map_some]

theorem WellIndexed.distinct (hm : m.WellIndexed) : (m.keys.map Value.key).Nodup := by
  rw [keys, List.map_map, List.nodup_iff_injective_get]
  intro i j hij
  have hlookup : ∀ n : Fin (m.entries.map (Value.key ∘ Prod.fst)).length,
      m.index.lookup ((m.entries.map (Value.key ∘ Prod.fst)).get n) = some n.val := by
    intro n
    rw [hm, List.get_eq_getElem, List.getElem_map, Function.comp,
      List.getElem?_eq_getElem (by simpa using n.isLt), Option.map_some]
  have hi := hlookup i
  rw [hij, hlookup j] at hi
  exact Fin.ext (Option.some.inj hi).symm

theorem WellIndexed.insert (hm : m.WellIndexed) (k v : Value) : (m.insert k v).1.WellIndexed := by
  intro key j
  cases hk : m.position? k with
  | some i =>
    -- the entry keeps the key that it has
    simp only [OrderedMap.insert, hk, hm key j, List.getElem?_modify]
    split_ifs <;> simp [Option.map_map, Function.comp_def]
  | none =>
    have hne := hm.position_eq_none.mp hk
    rw [insert_of_new hk, List.lookup_cons]
    cases hkey : key == k.key with
    | true =>
      obtain rfl : key = k.key := by simpa using hkey
      simp only [Option.some.injEq]
      constructor
      · rintro rfl
        simp
      · intro hj
        obtain ⟨e, he, hek⟩ := Option.map_eq_some_iff.mp hj
        rw [List.getElem?_append] at he
        split_ifs at he with hlt
        · exact absurd hek (hne e (List.mem_of_getElem? he))
        · have hzero := (List.getElem?_eq_some_iff.mp he).1
          rw [List.length_singleton] at hzero
          omega
    | false =>
      have hkk : key ≠ k.key := by simpa using hkey
      dsimp only
      rw [hm key j, List.getElem?_append]
      split_ifs with hlt
      · rfl
      · have hnone : m.entries[j]? = none := List.getElem?_eq_none (Nat.le_of_not_lt hlt)
        rw [hnone]
        cases hlast : [(k, v)][j - m.entries.length]? with
        | none => rfl
        | some e =>
          obtain rfl := List.mem_singleton.mp (List.mem_of_getElem? hlast)
          simp [Ne.symm hkk]

theorem wellIndexed_ofList (es : List (Value × Value)) : (ofList es).WellIndexed := by
  have hfold : ∀ m : OrderedMap, m.WellIndexed →
      (es.foldl (fun m e => (m.insert e.1 e.2).1) m).WellIndexed := by
    induction es with
    | nil => exact fun m hm => hm
    | cons e es ih => exact fun m hm => ih _ (hm.insert e.1 e.2)
  exact hfold empty wellIndexed_empty

end OrderedMap
end GraphCopy
