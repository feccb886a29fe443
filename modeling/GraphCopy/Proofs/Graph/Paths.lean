import GraphCopy.Proofs.Graph.Related

/-!
# Paths

A path leads from a value to another one, from each object to one of the
values that it shows. Its trail are the objects that it goes through, without
the value that it leads to.

Changes above a heap make no difference to where a path leads in it, and
shapes that are related lead to related values.
-/

theorem List.Forall₂.exists_getElem? {α β : Type*} {R : α → β → Prop} {xs : List α} {ys : List β}
    (h : List.Forall₂ R xs ys) {i : Nat} {x : α} (hx : xs[i]? = some x) :
    ∃ y, ys[i]? = some y ∧ R x y := by
  induction h generalizing i with
  | nil => cases hx
  | cons hab _ ih =>
    cases i with
    | zero =>
      cases hx
      exact ⟨_, rfl, hab⟩
    | succ i => exact ih hx

namespace GraphCopy

inductive Edge
  | item (index : Nat)
  | key (index : Nat)
  | value (index : Nat)
  | field (index : Nat)
deriving DecidableEq, Repr

namespace Shape

def at? : Shape → Edge → Option Value
  | .sequence vs, .item i => vs[i]?
  | .entries es, .key i => (es[i]?).map Prod.fst
  | .entries es, .value i => (es[i]?).map Prod.snd
  | .record fs, .field i => (fs[i]?).bind Prod.snd
  | _, _ => none

variable {s t : Shape} {e : Edge} {v : Value} {R : Value → Value → Prop}

theorem mem_values_of_at? (h : s.at? e = some v) : v ∈ s.values := by
  cases s <;> cases e <;> simp only [at?, reduceCtorEq] at h
  · exact List.mem_of_getElem? h
  · obtain ⟨entry, hentry, rfl⟩ := Option.map_eq_some_iff.mp h
    exact List.mem_flatMap.mpr ⟨entry, List.mem_of_getElem? hentry, by simp⟩
  · obtain ⟨entry, hentry, rfl⟩ := Option.map_eq_some_iff.mp h
    exact List.mem_flatMap.mpr ⟨entry, List.mem_of_getElem? hentry, by simp⟩
  · obtain ⟨field, hfield, hv⟩ := Option.bind_eq_some_iff.mp h
    exact List.mem_filterMap.mpr ⟨field, List.mem_of_getElem? hfield, hv⟩

theorem Related.exists_at? (h : s.Related R t) (hv : s.at? e = some v) :
    ∃ w, t.at? e = some w ∧ R v w := by
  cases h with
  | sequence h =>
    cases e with
    | item i => exact h.exists_getElem? hv
    | _ => cases hv
  | entries h =>
    cases e with
    | key i =>
      obtain ⟨entry, hentry, rfl⟩ := Option.map_eq_some_iff.mp hv
      obtain ⟨entry', hentry', hR⟩ := h.exists_getElem? hentry
      exact ⟨_, Option.map_eq_some_iff.mpr ⟨entry', hentry', rfl⟩, hR.1⟩
    | value i =>
      obtain ⟨entry, hentry, rfl⟩ := Option.map_eq_some_iff.mp hv
      obtain ⟨entry', hentry', hR⟩ := h.exists_getElem? hentry
      exact ⟨_, Option.map_eq_some_iff.mpr ⟨entry', hentry', rfl⟩, hR.2⟩
    | _ => cases hv
  | record h =>
    cases e with
    | field i =>
      obtain ⟨⟨name, u⟩, hfield, rfl⟩ := Option.bind_eq_some_iff.mp hv
      obtain ⟨⟨name', u'⟩, hfield', -, hR⟩ := h.exists_getElem? hfield
      cases hR with
      | some hR => exact ⟨_, Option.bind_eq_some_iff.mpr ⟨_, hfield', rfl⟩, hR⟩
    | _ => cases hv

end Shape

namespace Heap

def next? (types : Types) (h : Heap) (e : Edge) : Value → Option Value
  | .object r => (h.shape types (types.describe r.type) r).at? e
  | _ => none

def follow (types : Types) (h : Heap) : List Edge → Value → Option Value
  | [], v => some v
  | e :: path, v => (h.next? types e v).bind (h.follow types path)

def trail (types : Types) (h : Heap) : List Edge → Value → List Ref
  | e :: path, .object r =>
    r :: ((h.next? types e (.object r)).map (h.trail types path)).getD []
  | _, _ => []

variable {types : Types} {h h' : Heap} {e : Edge} {path : List Edge} {u v : Value} {r : Ref}

theorem exists_object_of_next? (hu : h.next? types e v = some u) : ∃ r, v = .object r := by
  cases v with
  | object r => exact ⟨r, rfl⟩
  | _ => cases hu

theorem mem_shown_of_next? (hu : h.next? types e (.object r) = some u) : u ∈ h.shown types r :=
  Shape.mem_values_of_at? hu

theorem trail_cons (hu : h.next? types e (.object r) = some u) :
    h.trail types (e :: path) (.object r) = r :: h.trail types path u := by
  simp only [trail, hu, Option.map_some, Option.getD_some]

theorem Keeps.next?_eq (hk : h.Keeps h.size h') (hr : h.Has r) :
    h'.next? types e (.object r) = h.next? types e (.object r) := by
  simp only [next?, hk.shape_eq hr]

theorem Keeps.follow_eq (hk : h.Keeps h.size h') (hc : types.ClosedOn h) (hv : h.Holds v) :
    h'.follow types path v = h.follow types path v := by
  induction path generalizing v with
  | nil => rfl
  | cons e path ih =>
    cases v with
    | object r =>
      have hr := hv r rfl
      simp only [follow, hk.next?_eq hr]
      cases hu : h.next? types e (.object r) with
      | none => rfl
      | some u => exact ih (holds_of_mem_shown hc hr (mem_shown_of_next? hu))
    | _ => rfl

end Heap
end GraphCopy
