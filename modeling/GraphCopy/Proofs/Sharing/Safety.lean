import GraphCopy.Copy.Session
import GraphCopy.Proofs.Graph.Reach

/-!
# Sharing by structure

The structural rule looks at the declared kind and fields of a type, while what
an object shows goes by its capabilities. The two fit together for types that
are shown by their fields: where getters yield what the fields declare, an
immutable object shows only immutable ones, and so does everything in its
reach. A closed record that is also a collection or a map falls outside.
-/

namespace GraphCopy

/-- A field yields no object that its declared type does not accept. -/
def Types.Truthful (types : Types) (h : Heap) : Prop :=
  ∀ r o, h.get? r = some o → ∀ f ∈ (types.describe o.type).instanceFields, ∀ tick q,
    f.get o tick = .ok (.object q) → f.declared.accepts (.object q) = true

def Types.ShowsFields (types : Types) (t : TypeId) : Prop :=
  (types.info t).collection = none ∧ (types.info t).map = none

def Descriptor.IsClosedRecord (d : Descriptor) : Prop := d.kind = .record ∧ d.extensible = false

variable {types : Types} {h : Heap} {q r : Ref} {o : Object}

theorem SharingRules.closedRecord_of_immutable {d : Descriptor}
    (hi : SharingRules.plain.Immutable types d) :
    d.IsClosedRecord ∧ ∀ f ∈ d.fields, SharingRules.plain.ImmutableDeclared types f.declared := by
  rcases immutable_iff.mp hi with hg | ⟨hkind, hext, hfields⟩
  · simp [grants, plain] at hg
  · exact ⟨⟨hkind, hext⟩, hfields⟩

theorem SharingRules.not_immutable_of_kind {d : Descriptor} (hd : d.kind ≠ .record) :
    ¬ SharingRules.plain.Immutable types d :=
  fun hi => hd (closedRecord_of_immutable hi).1.1

theorem Types.ShowsFields.mem_shown (hs : types.ShowsFields q.type) (hq : h.get? q = some o)
    (hot : o.type = q.type) (harr : o.array? = none) {v : Value} :
    v ∈ h.shown types q ↔ ∃ f ∈ (types.describe q.type).instanceFields, f.get o 0 = .ok v := by
  simp only [Heap.shown, Heap.shape, hq, shapeOf, harr, hot, hs.1, hs.2, Shape.values,
    Descriptor.readings, List.map_map, List.mem_filterMap, List.mem_map, Function.comp]
  constructor
  · rintro ⟨-, ⟨f, hf, rfl⟩, hread⟩
    refine ⟨f, hf, ?_⟩
    cases hget : f.get o 0 with
    | error e =>
      rw [hget] at hread
      cases hread
    | ok w =>
      rw [hget] at hread
      cases hread
      rfl
  · rintro ⟨f, hf, hget⟩
    exact ⟨_, ⟨f, hf, rfl⟩, by rw [hget]; rfl⟩

theorem Types.Truthful.immutable_of_shown (ht : types.Truthful h) (hq : h.Has q)
    (hs : types.ShowsFields q.type) (hi : SharingRules.plain.Immutable types (types.describe q.type))
    (hr : .object r ∈ h.shown types q) :
    SharingRules.plain.Immutable types (types.describe r.type) := by
  obtain ⟨i, hqi⟩ := PlainRecords.host_of_immutable hi
  obtain ⟨o, ho, hot⟩ := hq
  have harr : o.array? = none := Object.array?_of_host (hot.trans hqi)
  obtain ⟨f, hf, hget⟩ := (hs.mem_shown ho hot harr).mp hr
  have hdecl := (SharingRules.closedRecord_of_immutable hi).2 f (List.mem_of_mem_filter hf)
  have haccepts := ht q o ho f (hot ▸ hf) 0 r hget
  cases hfd : f.declared with
  | scalar k =>
    rw [hfd] at haccepts
    simp [Declared.accepts, Value.scalarKind?] at haccepts
  | dynamic =>
    rw [hfd] at hdecl
    exact hdecl.elim
  | object t =>
    rw [hfd] at hdecl haccepts
    have hrt : r.type = t := by simpa [Declared.accepts] using haccepts
    rw [hrt]
    exact hdecl

/-- Below an immutable object everything is immutable, unless a container is declared as a closed
record. -/
theorem Types.Truthful.immutable_of_reaches (ht : types.Truthful h) (hc : types.ClosedOn h)
    (hr : h.Has r) (hi : SharingRules.plain.Immutable types (types.describe r.type))
    (hs : ∀ q, h.Reaches types (.object r) q → (types.describe q.type).IsClosedRecord →
      types.ShowsFields q.type) (hq : h.Reaches types (.object r) q) :
    SharingRules.plain.Immutable types (types.describe q.type) := by
  induction hq with
  | root hroot =>
    cases hroot
    exact hi
  | @step p q hp hq ih =>
    have hclosed := (SharingRules.closedRecord_of_immutable ih).1
    exact ht.immutable_of_shown (hp.has hc (Heap.holds_object hr)) (hs p hp hclosed) ih hq

namespace Types.PlainRecords

variable {path : TypeId → String} {layouts : Nat → Layout}

theorem truthful (hp : types.PlainRecords path layouts h) (hw : h.WellFormed layouts) :
    types.Truthful h := by
  intro r o ho f hf tick q hget
  obtain ⟨i, hi⟩ := host_of_mem_instanceFields hf
  rw [hi] at hf
  obtain ⟨place, hplace, hlies⟩ := (hp.record ho hi).fields.exists_of_mem_left hf
  obtain ⟨-, slot, hslot, hq⟩ := hlies.get_eq_ok.mp hget
  obtain ⟨slot', hslot', hholds⟩ := (hw.objects o (Heap.mem_of_get? ho)).holds hi place hplace
  obtain rfl : slot = slot' := Option.some.inj (hslot.symm.trans hslot')
  rw [hlies.declared]
  rcases Storage.declared_of_object hholds hq.symm with hdecl | hdecl <;>
  · rw [hdecl]
    simp [Declared.accepts]

theorem immutable_of_shown (hp : types.PlainRecords path layouts h) (hw : h.WellFormed layouts)
    (hq : h.Has q) (hi : SharingRules.plain.Immutable types (types.describe q.type))
    (hr : .object r ∈ h.shown types q) :
    SharingRules.plain.Immutable types (types.describe r.type) := by
  obtain ⟨i, hqi⟩ := host_of_immutable hi
  have hrec := hp.record_of_has hq hqi
  refine (hp.truthful hw).immutable_of_shown hq ?_ hi hr
  rw [hqi]
  exact ⟨hrec.collection, hrec.map⟩

end Types.PlainRecords

/-- An object that is judged immutable without marks and rules is safe to share: no mutable object is in
its reach. -/
theorem Scene.safe_of_isImmutableValue (hcoh : types.Coherent) (ht : types.Truthful h)
    (hc : types.ClosedOn h) (hr : h.Has r)
    (hs : ∀ q, h.Reaches types (.object r) q → (types.describe q.type).IsClosedRecord →
      types.ShowsFields q.type) {known : Knowledge} (hk : known.Sound types .plain)
    (hi : (SharingRules.plain.isImmutableValue types (.object r) known).1 = true) :
    (∀ q, h.Reaches types (.object r) q → ∀ known, known.Sound types .plain →
      (SharingRules.plain.isImmutableRef types q known).1 = true) ∧
    ∀ known, known.Sound types .plain →
      ((Scene.mk types .plain h).mutableObjects (.object r) known).1 = [] := by
  have himm := (SharingRules.isImmutableRef_judges hcoh hk).2.mp hi
  have hall := fun q (hq : h.Reaches types (.object r) q) => ht.immutable_of_reaches hc hr himm hs hq
  refine ⟨fun q hq known hk => (SharingRules.isImmutableRef_judges hcoh hk).2.mpr (hall q hq),
    fun known hk => List.eq_nil_iff_forall_not_mem.mpr fun x hx => ?_⟩
  obtain ⟨q, ⟨hq, hmut⟩, -⟩ := (Scene.mutableObjects_finds (s := ⟨types, .plain, h⟩) hcoh hk).2 x hx
  exact hmut (hall q hq)

/-- A bag, which is a closed record without fields and yet a collection, and a shelf with a box. -/
def bagSpecs : Specs where
  hosts :=
    [{ TypeSpec.bare "Bag" "Bag" with collection := true },
      { TypeSpec.bare "Box" "Box" with fields := [.plain "label" (.required .ownText)] },
      { TypeSpec.bare "Shelf" "Shelf" with fields := [.plain "box" (.required (.handle (.host 1)))] }]
  containerPath := ""

def shelfHeap : Heap :=
  ⟨#[.host 1 [.datum (.ownText "a")] [], .host 2 [.datum (.object ⟨.host 1, 0⟩)] []], 1⟩

theorem shelfHeap_wellFormed : shelfHeap.WellFormed bagSpecs.layout := by
  refine ⟨by decide, fun o ho => ?_⟩
  simp only [shelfHeap, List.mem_cons, List.not_mem_nil, or_false] at ho
  rcases ho with rfl | rfl
  · intro place hplace
    obtain rfl : place = (0, .required .ownText) := by
      simpa [bagSpecs, Specs.layout, placesFrom, FieldSpec.plain] using hplace
    exact ⟨_, rfl, trivial⟩
  · intro place hplace
    obtain rfl : place = (0, .required (.handle (.host 1))) := by
      simpa [bagSpecs, Specs.layout, placesFrom, FieldSpec.plain] using hplace
    exact ⟨_, rfl, rfl⟩

theorem Scene.safe_shelf :
    let shelf : Ref := ⟨.host 2, 1⟩
    (SharingRules.plain.isImmutableValue bagSpecs.types (.object shelf) .empty).1 = true ∧
      shelfHeap.Reaches bagSpecs.types (.object shelf) ⟨.host 1, 0⟩ ∧
      (SharingRules.plain.isImmutableRef bagSpecs.types ⟨.host 1, 0⟩ .empty).1 = true ∧
      ((Scene.mk bagSpecs.types .plain shelfHeap).mutableObjects (.object shelf) .empty).1 = [] := by
  intro shelf
  have hp : bagSpecs.types.PlainRecords bagSpecs.path bagSpecs.layout shelfHeap :=
    Specs.plainRecords (by decide)
  have hk : Knowledge.Sound bagSpecs.types .plain .empty :=
    Knowledge.sound_of_no_verdicts (DescriptorCache.faithful_empty _)
  have hc := hp.closedOn shelfHeap_wellFormed
  have hr : shelfHeap.Has shelf := by decide
  have hi : (SharingRules.plain.isImmutableValue bagSpecs.types (.object shelf) .empty).1 = true := by
    decide +kernel
  have hbox : shelfHeap.Reaches bagSpecs.types (.object shelf) ⟨.host 1, 0⟩ :=
    .step (.root rfl) (by decide +kernel)
  have hshows : ∀ q, shelfHeap.Has q → bagSpecs.types.ShowsFields q.type := by
    intro q hq
    have hmem := Heap.mem_refs.mpr hq
    have hall : ∀ q ∈ shelfHeap.refs, q.type = .host 1 ∨ q.type = .host 2 := by decide
    rcases hall q hmem with ht | ht <;> rw [ht] <;> exact ⟨rfl, rfl⟩
  have hsafe := safe_of_isImmutableValue bagSpecs.types_coherent (hp.truthful shelfHeap_wellFormed) hc hr
    (fun q hq _ => hshows q (hq.has hc (Heap.holds_object hr))) hk hi
  exact ⟨hi, hbox, hsafe.1 _ hbox _ hk, hsafe.2 _ hk⟩

def bagHeap : Heap := ⟨#[.list [], .host 0 [] [(.object ⟨.list, 0⟩, .null)]], 1⟩

/-- A bag of mutable objects is judged immutable by its kind and its fields. It is shared, not copied. -/
theorem Scene.bag_with_list_isImmutable :
    let bag : Value := .object ⟨.host 0, 1⟩
    let scene : Scene := ⟨bagSpecs.types, .plain, bagHeap⟩
    (scene.sharing.isImmutableValue scene.types bag .empty).1 = true ∧
      scene.heap.Reaches scene.types bag ⟨.list, 0⟩ ∧
      (scene.sharing.isImmutableRef scene.types ⟨.list, 0⟩ .empty).1 = false ∧
      (scene.mutableObjects bag .empty).1 = [0] ∧
      ((Cloner.create .standard).deepClone scene.types scene.heap .empty bag).1 = .ok bag := by
  refine ⟨by decide +kernel, .step (.root rfl) (by decide +kernel), by decide +kernel,
    by decide +kernel, by decide +kernel⟩

end GraphCopy
