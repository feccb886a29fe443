import GraphCopy.Graph.Reachable
import GraphCopy.Proofs.Sharing.Verdict
import GraphCopy.Proofs.Types.Records

/-!
# What is in reach

A value reaches an object by steps from an object to the values that it shows.
Whatever is in reach exists, changes above a heap do not matter to what is in
reach in it, and below an immutable record there are only immutable ones.

The walk over a graph collects nothing but mutable objects in reach.
-/

namespace GraphCopy

def Heap.shown (types : Types) (h : Heap) (r : Ref) : List Value :=
  (h.shape types (types.describe r.type) r).values

inductive Heap.Reaches (types : Types) (h : Heap) (v : Value) : Ref → Prop
  | root {r : Ref} (hv : v = .object r) : Reaches types h v r
  | step {q r : Ref} (hq : Reaches types h v q) (hr : .object r ∈ h.shown types q) :
      Reaches types h v r

namespace Heap

variable {types : Types} {h h' : Heap} {v : Value} {r q : Ref}

theorem shown_array {a : FixedArray} (hr : h.get? r = some (.array a)) :
    h.shown types r = a.items := by
  simp [shown, shape, hr, shapeOf, Object.array?, Shape.values]

theorem shown_collection {o : Object} {c : Collection} (hr : h.get? r = some o)
    (ho : o.type ≠ .array) (hc : (types.info o.type).collection = some c) :
    h.shown types r = c.elements o := by
  simp [shown, shape, hr, shapeOf, Object.array?_of_ne ho, hc, Shape.values]

theorem shown_map {o : Object} {m : KeyedCollection} (hr : h.get? r = some o) (ho : o.type ≠ .array)
    (hc : (types.info o.type).collection = none) (hm : (types.info o.type).map = some m) :
    h.shown types r = (m.entries o).flatMap fun e => [e.1, e.2] := by
  simp [shown, shape, hr, shapeOf, Object.array?_of_ne ho, hc, hm, Shape.values]

theorem Reaches.closed {S : Ref → Prop} (hroot : ∀ r, v = .object r → S r)
    (hstep : ∀ q, S q → ∀ r, .object r ∈ h.shown types q → S r) (hr : h.Reaches types v r) : S r := by
  induction hr with
  | root hv => exact hroot _ hv
  | step _ hr ih => exact hstep _ ih _ hr

theorem holds_of_mem_shown (hc : types.ClosedOn h) (hq : h.Has q) (hv : v ∈ h.shown types q) :
    h.Holds v := by
  obtain ⟨o, ho, hot⟩ := hq
  simp only [shown, shape, ho, shapeOf, ← hot] at hv
  cases harr : o.array? with
  | some a =>
    obtain rfl := Object.eq_array_of_array? harr
    simp only [Object.array?] at hv
    exact hc.items q _ ho v hv
  | none =>
    simp only [harr] at hv
    cases hcol : (types.info o.type).collection with
    | some c =>
      simp only [hcol] at hv
      exact hc.elements q o ho c hcol v hv
    | none =>
      simp only [hcol] at hv
      cases hmap : (types.info o.type).map with
      | some m =>
        simp only [hmap, Shape.values, List.mem_flatMap, List.mem_cons, List.not_mem_nil,
          or_false] at hv
        obtain ⟨e, he, rfl | rfl⟩ := hv
        · exact (hc.entries q o ho m hmap e he).1
        · exact (hc.entries q o ho m hmap e he).2
      | none =>
        simp only [hmap, Shape.values, Descriptor.readings, List.map_map, List.mem_filterMap,
          List.mem_map, Function.comp] at hv
        obtain ⟨-, ⟨f, hf, rfl⟩, hv⟩ := hv
        cases hget : f.get o 0 with
        | error e =>
          rw [hget] at hv
          cases hv
        | ok w =>
          rw [hget] at hv
          cases hv
          exact hc.fields q o ho f hf 0 v hget

theorem Reaches.has (hc : types.ClosedOn h) (hv : h.Holds v) (hr : h.Reaches types v r) : h.Has r :=
  hr.closed (fun _ hq => hv _ hq) fun _ hq _ hs => holds_of_mem_shown hc hq hs _ rfl

theorem Keeps.shape_eq (hk : h.Keeps h.size h') (hr : h.Has r) (d : Descriptor) :
    h'.shape types d r = h.shape types d r := by
  simp only [shape, hk.get?_eq r hr.address_lt]

theorem Keeps.shown_eq (hk : h.Keeps h.size h') (hr : h.Has r) :
    h'.shown types r = h.shown types r := by
  rw [shown, hk.shape_eq hr]
  rfl

/-- What is made later, or changed above the heap, is out of reach. -/
theorem Keeps.reaches_iff (hk : h.Keeps h.size h') (hc : types.ClosedOn h) (hv : h.Holds v) :
    h'.Reaches types v r ↔ h.Reaches types v r := by
  constructor
  · refine fun hr => hr.closed (S := h.Reaches types v) (fun _ hv => .root hv) fun q hq r hs => ?_
    rw [hk.shown_eq (hq.has hc hv)] at hs
    exact hq.step hs
  · intro hr
    induction hr with
    | root hv => exact .root hv
    | step hq hs ih =>
      rw [← hk.shown_eq (hq.has hc hv)] at hs
      exact ih.step hs

end Heap

section Walk

variable {s : Scene} {v : Value}

/-- The mutable objects in reach of a value. -/
def Scene.MutableReach (s : Scene) (v : Value) (r : Ref) : Prop :=
  s.heap.Reaches s.types v r ∧ ¬ s.sharing.Immutable s.types (s.types.describe r.type)

structure Walk.Finds (s : Scene) (v : Value) (w : Walk) : Prop where
  known : w.known.Sound s.types s.sharing
  found : ∀ x ∈ w.found, ∃ r, s.MutableReach v r ∧ r.address = x

theorem Scene.visit_finds (ht : s.types.Coherent) {r : Ref} {w : Walk} (hw : w.Finds s v)
    (hr : s.heap.Reaches s.types v r) :
    (s.visit r w).1 = s.heap.shown s.types r ∧ (s.visit r w).2.Finds s v := by
  have hj := SharingRules.isImmutable_judges ht (hw.known.describe_snd r.type) (t := r.type)
  simp only [visit, hw.known.describe_fst r.type]
  refine ⟨rfl, hj.1, fun x hx => ?_⟩
  by_cases hi : (s.sharing.isImmutable s.types (s.types.describe r.type)
      (Knowledge.describe s.types r.type w.known).2).1 = true
  · simp only [hi, if_true] at hx
    exact hw.found x hx
  · simp only [hi] at hx
    rcases List.mem_cons.mp hx with rfl | hx
    · exact ⟨r, ⟨hr, fun himm => hi (hj.2.mpr himm)⟩, rfl⟩
    · exact hw.found x hx

theorem Scene.walk_finds (ht : s.types.Coherent) (fuel : Nat) {pending : List Value} {w : Walk}
    (hp : ∀ r, .object r ∈ pending → s.heap.Reaches s.types v r) (hw : w.Finds s v) :
    (s.walk fuel pending w).Finds s v := by
  induction fuel generalizing pending w with
  | zero => exact hw
  | succ fuel ih =>
    simp only [walk]
    split
    · rename_i r rest hdrop
      have hsub : ∀ u ∈ .object r :: rest, u ∈ pending := by
        rw [← hdrop]
        exact fun u hu => (List.dropWhile_sublist _).mem hu
      have hr := hp r (hsub _ (by simp))
      obtain ⟨hshown, hfinds⟩ := visit_finds ht hw hr
      refine ih (fun q hq => ?_) hfinds
      rw [hshown, List.mem_append, List.mem_reverse] at hq
      rcases hq with hq | hq
      · exact hr.step hq
      · exact hp q (hsub _ (by simp [hq]))
    · exact hw

theorem Scene.mutableObjects_finds (ht : s.types.Coherent) {known : Knowledge}
    (hk : known.Sound s.types s.sharing) :
    (s.mutableObjects v known).2.Sound s.types s.sharing ∧
      ∀ x ∈ (s.mutableObjects v known).1, ∃ r, s.MutableReach v r ∧ r.address = x := by
  have hw : Walk.Finds s v ⟨[], [], known⟩ := ⟨hk, by simp⟩
  have hpending : ∀ r, .object r ∈ [v] → s.heap.Reaches s.types v r :=
    fun r hr => .root (List.mem_singleton.mp hr).symm
  have hfinds := walk_finds ht (s.heap.size + 1) hpending hw
  exact ⟨hfinds.known, hfinds.found⟩

theorem Scene.referenceDistinct_of_disjoint (ht : s.types.Coherent) {a b : Value} {known : Knowledge}
    (hk : known.Sound s.types s.sharing)
    (hab : ∀ p q, s.MutableReach a p → s.MutableReach b q → p.address ≠ q.address) :
    (s.referenceDistinct a b known).1 = true := by
  obtain ⟨hknown, htheirs⟩ := mutableObjects_finds (v := b) ht hk
  obtain ⟨-, hours⟩ := mutableObjects_finds (v := a) ht hknown
  simp only [referenceDistinct, List.all_eq_true, Bool.not_eq_true', List.contains_eq_mem,
    decide_eq_false_iff_not]
  intro x hx hxb
  obtain ⟨p, hp, hpx⟩ := hours x hx
  obtain ⟨q, hq, hqx⟩ := htheirs x hxb
  exact hab p q hp hq (hpx.trans hqx.symm)

end Walk

namespace Types.PlainRecords

variable {types : Types}

theorem host_of_immutable {t : TypeId} (hi : SharingRules.plain.Immutable types (types.describe t)) :
    ∃ i, t = .host i := by
  rcases SharingRules.immutable_iff.mp hi with hg | ⟨hkind, -, -⟩
  · simp [SharingRules.grants, SharingRules.plain] at hg
  · cases t with
    | host i => exact ⟨i, rfl⟩
    | _ => cases hkind

end Types.PlainRecords
end GraphCopy
