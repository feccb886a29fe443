import GraphCopy.Proofs.Container.Index
import GraphCopy.Proofs.Value.Equality
import GraphCopy.Types
import Mathlib.Data.Finset.Card
import Mathlib.Data.List.Induction

/-!
# Runs of insertions

What a map holds after any sequence of insertions: under each key the value
that came last, and the keys in the order in which they came first, each as it
came first. A set holds the values of different keys that came first, in that
order. One insertion is described for any map or set whose index is right, a
run of them by induction on its end.
-/

namespace List

variable {α κ : Type*} [DecidableEq κ]

theorem eraseDupsBy_append_singleton (f : α → κ) (as : List α) (b : α) :
    (as ++ [b]).eraseDupsBy (fun x y => f x == f y) =
      if f b ∈ as.map f then as.eraseDupsBy (fun x y => f x == f y)
      else as.eraseDupsBy (fun x y => f x == f y) ++ [b] := by
  induction hn : as.length using Nat.strong_induction_on generalizing as with
  | _ n ih =>
    cases as with
    | nil => simp [eraseDupsBy_cons]
    | cons a as =>
      have hlen : (as.filter fun x => (f x == f a) = false).length < n := by
        rw [← hn, length_cons, Nat.lt_succ_iff]
        exact length_filter_le _ as
      have hrest := ih _ hlen _ rfl
      rw [cons_append, eraseDupsBy_cons, eraseDupsBy_cons, filter_append]
      by_cases hab : f b = f a
      · simp [hab]
      · have hlast : [b].filter (fun x => decide ((f x == f a) = false)) = [b] := by simp [hab]
        have hmem : f b ∈ (as.filter fun x => (f x == f a) = false).map f ↔ f b ∈ (a :: as).map f := by
          simp only [mem_map, mem_filter, mem_cons]
          constructor
          · rintro ⟨x, ⟨hx, -⟩, hxb⟩
            exact ⟨x, .inr hx, hxb⟩
          · rintro ⟨x, rfl | hx, hxb⟩
            · exact absurd hxb.symm hab
            · exact ⟨x, ⟨hx, by simp [hxb, hab]⟩, hxb⟩
        rw [hlast, hrest]
        simp only [hmem]
        split <;> rfl

theorem mem_map_eraseDupsBy (f : α → κ) (as : List α) (c : κ) :
    c ∈ (as.eraseDupsBy fun x y => f x == f y).map f ↔ c ∈ as.map f := by
  induction as using reverseRecOn with
  | nil => rfl
  | append_singleton as b ih =>
    rw [eraseDupsBy_append_singleton, map_append, mem_append]
    split
    · next hb =>
      rw [ih, or_iff_left_of_imp]
      intro hc
      rwa [mem_singleton.mp hc]
    · rw [map_append, mem_append, ih]

theorem eraseDupsBy_key_sublist (f : α → κ) (as : List α) :
    (as.eraseDupsBy fun x y => f x == f y) <+ as := by
  induction as using reverseRecOn with
  | nil => exact .slnil
  | append_singleton as b ih =>
    rw [eraseDupsBy_append_singleton]
    split
    · exact ih.trans (sublist_append_left as [b])
    · exact ih.append (.refl [b])

/-- The element that stays for a key is the first one of the key. -/
theorem find?_eraseDupsBy (f : α → κ) (as : List α) (c : κ) :
    (as.eraseDupsBy fun x y => f x == f y).find? (fun x => f x == c) = as.find? fun x => f x == c := by
  induction as using reverseRecOn with
  | nil => rfl
  | append_singleton as b ih =>
    rw [eraseDupsBy_append_singleton, find?_append]
    split
    · next hb =>
      rw [ih]
      by_cases hc : f b = c
      · -- an earlier element of the key is found
        obtain ⟨a, ha, hab⟩ := mem_map.mp hb
        have hsome : (as.find? fun x => f x == c).isSome = true :=
          find?_isSome.mpr ⟨a, ha, by simpa using hab.trans hc⟩
        obtain ⟨x, hx⟩ := Option.isSome_iff_exists.mp hsome
        rw [hx, Option.some_or]
      · rw [find?_singleton, if_neg (by simpa using hc), Option.or_none]
    · rw [find?_append, ih]

end List

namespace GraphCopy

/-- The first value of each key, in the order in which they come. -/
def Value.firsts (vs : List Value) : List Value := vs.eraseDupsBy fun a b => a.key == b.key

namespace OrderedSet

variable {s : OrderedSet}

theorem insert_snd (s : OrderedSet) (v : Value) : (s.insert v).2 = !s.contains v := by
  rw [insert]
  cases s.contains v <;> rfl

theorem WellIndexed.members_insert (hs : s.WellIndexed) (v : Value) :
    (s.insert v).1.members =
      if v.key ∈ s.members.map Value.key then s.members else s.members ++ [v] := by
  have hmem : v.key ∈ s.members.map Value.key ↔ s.contains v = true := by
    rw [hs.contains_iff, List.mem_map]
  cases hv : s.contains v with
  | true => rw [if_pos (hmem.mpr hv), insert_of_contains hv]
  | false => rw [if_neg fun h => by simp [hmem.mp h] at hv, insert_of_new hv]

theorem WellIndexed.size_eq (hs : s.WellIndexed) :
    s.size = (s.members.map Value.key).toFinset.card := by
  rw [List.toFinset_card_of_nodup hs.distinct, List.length_map, size]

theorem ofList_append_singleton (vs : List Value) (v : Value) :
    ofList (vs ++ [v]) = ((ofList vs).insert v).1 := by
  rw [ofList, List.foldl_append]
  rfl

theorem members_ofList (vs : List Value) : (ofList vs).members = Value.firsts vs := by
  induction vs using List.reverseRecOn with
  | nil => rfl
  | append_singleton vs v ih =>
    rw [ofList_append_singleton, (wellIndexed_ofList vs).members_insert, ih, Value.firsts, Value.firsts,
      List.eraseDupsBy_append_singleton]
    simp only [List.mem_map_eraseDupsBy]

theorem mem_keys_ofList (vs : List Value) (key : Key) :
    key ∈ (ofList vs).members.map Value.key ↔ key ∈ vs.map Value.key := by
  rw [members_ofList, Value.firsts, List.mem_map_eraseDupsBy]

theorem contains_ofList (vs : List Value) (q : Value) :
    (ofList vs).contains q = true ↔ ∃ u ∈ vs, u.key = q.key := by
  rw [(wellIndexed_ofList vs).contains_iff, ← List.mem_map, mem_keys_ofList, List.mem_map]

/-- The set refines a set in order of insertion. After any run of insertions, the members have different
keys and the index holds just these; a value is contained if one of its key was inserted; and the members
are those that came first under their keys, in that order, as many as there are keys. The next insertion,
also one that goes through the capability, is of a new member if no value of its key came before. -/
theorem ofList_represents (vs : List Value) :
    let s := ofList vs
    (s.members.map Value.key).Nodup ∧
    (s.index.Nodup ∧ ∀ key, key ∈ s.index ↔ ∃ m ∈ s.members, m.key = key) ∧
    (∀ q, s.contains q = true ↔ ∃ u ∈ vs, u.key = q.key) ∧
    s.members = Value.firsts vs ∧
    (s.members.Sublist vs ∧
      ∀ q : Value, (s.members.find? fun m => m.key == q.key) = vs.find? fun u => u.key == q.key) ∧
    s.size = (vs.map Value.key).toFinset.card ∧
    (∀ v, ((s.insert v).2 = true ↔ ∀ u ∈ vs, u.key ≠ v.key) ∧ (s.insert v).1 = ofList (vs ++ [v]) ∧
      Collection.ofSets.push (.set s) v = .ok (.set (s.insert v).1)) ∧
    ∀ a b : Value, a.key = b.key ↔ a.SameKey b := by
  intro s
  have hs : s.WellIndexed := wellIndexed_ofList vs
  have hmembers : s.members = Value.firsts vs := members_ofList vs
  refine ⟨hs.distinct, ⟨hs.index_perm.nodup_iff.mpr hs.distinct, fun key => ?_⟩, contains_ofList vs,
    hmembers, ⟨?_, fun q => ?_⟩, ?_, fun v => ⟨?_, (ofList_append_singleton vs v).symm, rfl⟩,
    fun a b => Value.key_eq_iff⟩
  · rw [hs.index_perm.mem_iff, List.mem_map]
  · rw [hmembers]
    exact List.eraseDupsBy_key_sublist Value.key vs
  · rw [hmembers]
    exact List.find?_eraseDupsBy Value.key vs q.key
  · have hkeys : (s.members.map Value.key).toFinset = (vs.map Value.key).toFinset :=
      Finset.ext fun key => by rw [List.mem_toFinset, List.mem_toFinset, mem_keys_ofList]
    rw [hs.size_eq, hkeys]
  · rw [insert_snd, Bool.not_eq_true', ← Bool.not_eq_true, contains_ofList]
    push Not
    rfl

/-- A decimal of another scale, a text made elsewhere and the same bits of a number that is none are no
new members, the other zero is one. -/
theorem ofList_represents_scales :
    let one (zeros : Nat) : Value := .decimal ⟨⟨Nat.pow 10 zeros, zeros⟩, .initial⟩
    let nan : Value := .float ⟨0x7ff8000000000000⟩
    let minusZero : Value := .float (.negated .zero)
    let text (place : Place) : Value := .text ⟨"a", place⟩
    let vs := [one 1, nan, text .initial, .float .zero, one 2, nan, minusZero, text ⟨7, 0⟩]
    let s := ofList vs
    s.members = [one 1, nan, text .initial, .float .zero, minusZero] ∧ s.size = 5 ∧
      s.contains (one 0) = true ∧ (s.insert (one 0)).2 = false ∧ (s.insert (.int 0)).2 = true := by
  intro one nan minusZero text vs s
  obtain ⟨-, -, hcontains, hmembers, -, hsize, hinsert, -⟩ := ofList_represents vs
  refine ⟨hmembers.trans (by decide), hsize.trans (by decide), (hcontains _).mpr (by decide), ?_,
    (hinsert _).1.mpr (by decide)⟩
  rw [← Bool.not_eq_true, (hinsert _).1]
  decide

end OrderedSet

namespace OrderedMap

variable {m : OrderedMap} {k v q : Value} {i : Nat}

theorem position?_congr (h : k.key = q.key) : m.position? k = m.position? q := by
  rw [position?, position?, h]

theorem WellIndexed.getElem?_position (hm : m.WellIndexed) (hi : m.position? k = some i) :
    ∃ e, m.entries[i]? = some e ∧ e.1.key = k.key :=
  Option.map_eq_some_iff.mp ((hm k.key i).mp hi)

theorem insert_of_known (hi : m.position? k = some i) :
    (m.insert k v).1 = { m with entries := m.entries.modify i fun e => (e.1, v) } := by
  simp [insert, hi]

theorem insert_snd (m : OrderedMap) (k v : Value) : (m.insert k v).2 = m.get? k := by
  rw [insert, get?]
  cases m.position? k <;> rfl

theorem WellIndexed.get?_insert (hm : m.WellIndexed) (k v q : Value) :
    (m.insert k v).1.get? q = if k.key = q.key then some v else m.get? q := by
  cases hk : m.position? k with
  | some i =>
    obtain ⟨e, he, hek⟩ := hm.getElem?_position hk
    have hpos : ∀ q, (m.insert k v).1.position? q = m.position? q := by
      intro q
      rw [insert_of_known hk, position?, position?]
    rw [get?, get?, hpos, insert_of_known hk]
    split_ifs with hkq
    · simp [← position?_congr hkq, hk, he]
    · cases hq : m.position? q with
      | none => rfl
      | some j =>
        -- different keys lie at different positions
        have hij : i ≠ j := by
          rintro rfl
          obtain ⟨e', he', hek'⟩ := hm.getElem?_position hq
          obtain rfl : e = e' := Option.some.inj (he.symm.trans he')
          exact hkq (hek.symm.trans hek')
        simp [hij]
  | none =>
    split_ifs with hkq
    · rw [get?, insert_of_new hk, position?, List.lookup_cons]
      simp [hkq]
    · have hne : (q.key == k.key) = false := by simpa using Ne.symm hkq
      have hpos : (m.insert k v).1.position? q = m.position? q := by
        rw [insert_of_new hk, position?, List.lookup_cons, hne]
        rfl
      rw [get?, get?, hpos, insert_of_new hk]
      cases hq : m.position? q with
      | none => rfl
      | some j =>
        obtain ⟨e, he, -⟩ := hm.getElem?_position hq
        simp [List.getElem?_append_left (List.getElem?_eq_some_iff.mp he).1]

theorem WellIndexed.keys_insert (hm : m.WellIndexed) (k v : Value) :
    (m.insert k v).1.keys = if k.key ∈ m.keys.map Value.key then m.keys else m.keys ++ [k] := by
  have hmem : k.key ∈ m.keys.map Value.key ↔ m.position? k ≠ none := by
    rw [Ne, hm.position_eq_none]
    simp [keys]
  cases hk : m.position? k with
  | some i =>
    rw [if_pos (hmem.mpr (by simp [hk])), insert_of_known hk, keys, keys]
    apply List.ext_getElem?
    intro j
    simp only [List.getElem?_map, List.getElem?_modify, Option.map_eq_map, Option.map_map]
    congr 1
    funext e
    simp only [Function.comp]
    split_ifs <;> rfl
  | none =>
    rw [insert_of_new hk, if_neg fun h => hmem.mp h hk]
    simp [keys]

theorem WellIndexed.get?_of_mem (hm : m.WellIndexed) {e : Value × Value} (he : e ∈ m.entries) :
    m.get? e.1 = some e.2 := by
  obtain ⟨i, hi⟩ := List.getElem?_of_mem he
  exact hm.get?_eq_some.mpr ⟨i, e, hi, rfl, rfl⟩

theorem ofList_append_singleton (es : List (Value × Value)) (e : Value × Value) :
    ofList (es ++ [e]) = ((ofList es).insert e.1 e.2).1 := by
  rw [ofList, List.foldl_append]
  rfl

theorem get?_ofList (es : List (Value × Value)) (q : Value) :
    (ofList es).get? q = (es.findRev? fun e => e.1.key == q.key).map Prod.snd := by
  induction es using List.reverseRecOn with
  | nil => rfl
  | append_singleton es e ih =>
    rw [ofList_append_singleton, (wellIndexed_ofList es).get?_insert, ih]
    rw [List.findRev?_eq_find?_reverse, List.findRev?_eq_find?_reverse, List.reverse_append]
    by_cases hk : e.1.key = q.key
    · simp [hk]
    · simp [hk]

theorem keys_ofList (es : List (Value × Value)) : (ofList es).keys = Value.firsts (es.map Prod.fst) := by
  induction es using List.reverseRecOn with
  | nil => rfl
  | append_singleton es e ih =>
    rw [ofList_append_singleton, (wellIndexed_ofList es).keys_insert, ih, List.map_append,
      List.map_singleton, Value.firsts, Value.firsts, List.eraseDupsBy_append_singleton]
    simp only [List.mem_map_eraseDupsBy]

/-- The map refines a finite map in order of insertion. After any run of insertions, the index leads
from each key to its one entry, so that no position lies outside of the entries; a lookup finds the
value that came last under a key; and the keys are those that came first, in that order. The next
insertion, also one that goes through the capability, answers with what a lookup found before it. -/
theorem ofList_refines (es : List (Value × Value)) :
    let m := ofList es
    (m.keys.map Value.key).Nodup ∧
    (∀ key i, m.index.lookup key = some i ↔ (m.keys[i]?).map Value.key = some key) ∧
    (∀ q i, m.position? q = some i → i < m.entries.length) ∧
    (∀ q, m.get? q = (es.findRev? fun e => e.1.key == q.key).map Prod.snd) ∧
    (∀ e ∈ m.entries, m.get? e.1 = some e.2) ∧
    m.keys = Value.firsts (es.map Prod.fst) ∧
    (∀ k v, (m.insert k v).2 = m.get? k ∧ (m.insert k v).1 = ofList (es ++ [(k, v)]) ∧
      KeyedCollection.ofMaps.insert (.map m) k v = .ok (.map (m.insert k v).1)) ∧
    ∀ a b : Value, a.key = b.key ↔ a.SameKey b := by
  intro m
  have hm : m.WellIndexed := wellIndexed_ofList es
  refine ⟨hm.distinct, fun key i => ?_, fun q i hi => ?_, get?_ofList es, fun e => hm.get?_of_mem,
    keys_ofList es, fun k v => ⟨insert_snd m k v, (ofList_append_singleton es (k, v)).symm, rfl⟩,
    fun a b => Value.key_eq_iff⟩
  · rw [hm key i, keys, List.getElem?_map, Option.map_map]
    rfl
  · obtain ⟨e, he, -⟩ := hm.getElem?_position hi
    exact (List.getElem?_eq_some_iff.mp he).1

theorem ofList_joins_scales :
    let one (zeros : Nat) : Value := .decimal ⟨⟨Nat.pow 10 zeros, zeros⟩, .initial⟩
    let minusZero : Value := .float (.negated .zero)
    let es := [(one 1, .int 1), (.float .zero, .int 2), (minusZero, .int 3), (one 2, .int 4)]
    let m := ofList es
    m.keys = [one 1, .float .zero, minusZero] ∧ m.get? (one 0) = some (.int 4) ∧
      (minusZero, .int 3) ∈ m.entries ∧ m.get? minusZero = some (.int 3) ∧
      (m.insert (.float .zero) .null).2 = some (.int 2) := by
  intro one minusZero es m
  obtain ⟨-, -, -, hget, hentry, hkeys, hinsert, -⟩ := ofList_refines es
  have hmem : (minusZero, .int 3) ∈ m.entries := by decide
  refine ⟨?_, ?_, hmem, hentry _ hmem, ?_⟩
  · rw [hkeys]
    decide
  · rw [hget]
    decide
  · rw [(hinsert _ _).1, hget]
    decide

end OrderedMap
end GraphCopy
