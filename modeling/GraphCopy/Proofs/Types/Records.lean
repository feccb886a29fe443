import GraphCopy.Proofs.Heap.Keeping
import GraphCopy.Proofs.Value.Storing
import GraphCopy.Types.Spec
import Mathlib.Data.List.Forall2

/-!
# Plain records

A plain record has no capabilities. Its instance fields are accessors over
slots of its own, no two over the same, and whatever makes an instance of it
makes one of its own type. A layout says which slots the fields lie in.

In a well formed heap references lead to objects, the elements of sets and the
keys of maps are distinct, and the slots of a record hold what their storages
allow. `Specs.plainRecords` says that specifications without capabilities and
special fields describe plain records.
-/

theorem List.Forall₂.exists_of_mem_left {α β : Type*} {R : α → β → Prop} {xs : List α} {ys : List β}
    (h : List.Forall₂ R xs ys) {x : α} (hx : x ∈ xs) : ∃ y ∈ ys, R x y := by
  induction h with
  | nil => cases hx
  | cons hab _ ih =>
    rcases List.mem_cons.mp hx with rfl | hx
    · exact ⟨_, by simp, hab⟩
    · obtain ⟨y, hy, hxy⟩ := ih hx
      exact ⟨y, by simp [hy], hxy⟩

namespace GraphCopy

structure Types.ClosedOn (types : Types) (h : Heap) : Prop where
  items : ∀ r a, h.get? r = some (.array a) → ∀ v ∈ a.items, h.Holds v
  fields : ∀ r o, h.get? r = some o → ∀ f ∈ (types.describe o.type).instanceFields,
    ∀ tick v, f.get o tick = .ok v → h.Holds v
  elements : ∀ r o, h.get? r = some o → ∀ c, (types.info o.type).collection = some c →
    ∀ v ∈ c.elements o, h.Holds v
  entries : ∀ r o, h.get? r = some o → ∀ m, (types.info o.type).map = some m →
    ∀ e ∈ m.entries o, h.Holds e.1 ∧ h.Holds e.2

/-- The slots that the fields of a record lie in, in the order of the fields, and the name that its
accessors ask for. -/
structure Layout where
  owner : String
  places : List (Nat × Storage)

structure Field.LiesAt (owner : Owner) (path : TypeId → String) (f : Field) (place : Nat × Storage) :
    Prop where
  get : f.get = (Field.ofSlot owner path f.name place.1 place.2).get
  set : f.set = (Field.ofSlot owner path f.name place.1 place.2).set
  declared : f.declared = place.2.declared

structure TypeInfo.PlainRecord (path : TypeId → String) (i : Nat) (layout : Layout) (t : TypeInfo) :
    Prop where
  selfClone : t.selfClone = none
  collection : t.collection = none
  map : t.map = none
  fields : List.Forall₂ (Field.LiesAt ⟨.host i, layout.owner⟩ path) t.descriptor.instanceFields
    layout.places
  distinct : (layout.places.map Prod.fst).Nodup
  construct : ∀ make, t.descriptor.construct = some make → ∀ tick, (make tick).type = .host i
  copyConstruct : ∀ copy, t.descriptor.copyConstruct = some copy →
    ∀ o o', o.type = .host i → copy o = some o' → o'.type = .host i
  roundTrip : ∀ trip, t.descriptor.roundTrip = some trip →
    ∀ tick o o', o.type = .host i → trip tick o = .ok o' → o'.type = .host i

def Types.PlainRecords (types : Types) (path : TypeId → String) (layouts : Nat → Layout) (h : Heap) :
    Prop :=
  ∀ o ∈ h.objects.toList, ∀ i, o.type = .host i →
    (types.info (.host i)).PlainRecord path i (layouts i)

def Object.values : Object → List Value
  | .array a => a.items
  | .list items => items
  | .set s => s.members
  | .map m => m.entries.flatMap fun e => [e.1, e.2]
  | .host _ slots items => slots.map (Slot.read .initial) ++ items.flatMap fun e => [e.1, e.2]

def Object.WellFormed (layouts : Nat → Layout) : Object → Prop
  | .set s => (s.members.map Value.key).Nodup
  | .map m => (m.keys.map Value.key).Nodup
  | .host i slots _ =>
    ∀ place ∈ (layouts i).places, ∃ slot, slots[place.1]? = some slot ∧ place.2.Holds slot
  | _ => True

theorem Object.WellFormed.holds {layouts : Nat → Layout} {o : Object} {i : Nat}
    (hw : o.WellFormed layouts) (hot : o.type = .host i) :
    ∀ place ∈ (layouts i).places, ∃ slot, o.slots[place.1]? = some slot ∧ place.2.Holds slot := by
  cases o with
  | host n slots items =>
    cases hot
    exact hw
  | _ => cases hot

structure Heap.WellFormed (layouts : Nat → Layout) (h : Heap) : Prop where
  closed : ∀ o ∈ h.objects.toList, ∀ v ∈ o.values, h.Holds v
  objects : ∀ o ∈ h.objects.toList, o.WellFormed layouts

theorem Heap.mem_of_get? {h : Heap} {r : Ref} {o : Object} (hr : h.get? r = some o) :
    o ∈ h.objects.toList :=
  Array.mem_toList_iff.mpr (Array.mem_of_getElem? hr)

theorem Heap.Holds.of_alike {h : Heap} {v w : Value} (hv : h.Holds v) (hvw : v.Alike w) :
    h.Holds w := by
  rintro r rfl
  have hobj : v.object? = some r := hvw.object?_eq
  cases v with
  | object q =>
    cases hobj
    exact hv r rfl
  | _ => cases hobj

namespace Field

variable {owner : Owner} {path : TypeId → String} {f : Field} {place : Nat × Storage} {o o' : Object}
  {tick : Nat} {v w : Value}

theorem LiesAt.get_eq_ok (hf : f.LiesAt owner path place) : f.get o tick = .ok v ↔
    o.type = owner.type ∧ ∃ slot, o.slots[place.1]? = some slot ∧ v = slot.read ⟨tick, place.1⟩ := by
  rw [hf.get]
  simp only [ofSlot, Owner.slots?]
  by_cases ho : o.type = owner.type
  · simp only [ho, if_true, true_and]
    cases o.slots[place.1]? with
    | none => simp
    | some slot => simp [eq_comm]
  · simp [ho]

theorem LiesAt.set_eq_ok (hf : f.LiesAt owner path place) (hset : f.set o w = .ok o') :
    o'.type = o.type ∧ o.type = owner.type ∧ ∃ slot, place.2.store path w = .ok slot ∧
      o'.slots[place.1]? = some slot ∧ ∀ i ≠ place.1, o'.slots[i]? = o.slots[i]? := by
  rw [hf.set] at hset
  refine ⟨ofSlot_set_type hset, ?_⟩
  simp only [ofSlot, Owner.slots?] at hset
  by_cases ho : o.type = owner.type
  · simp only [ho, if_true] at hset
    by_cases hi : place.1 < o.slots.length
    · rw [if_pos hi] at hset
      cases hstore : place.2.store path w with
      | error e =>
        rw [hstore] at hset
        cases hset
      | ok slot =>
        rw [hstore] at hset
        cases hset
        refine ⟨ho, slot, rfl, ?_, fun i hne => ?_⟩
        · rw [Object.slots_withSlot, List.getElem?_set_self hi]
        · rw [Object.slots_withSlot, List.getElem?_set_ne (Ne.symm hne)]
    · rw [if_neg hi] at hset
      cases hset
  · rw [if_neg ho] at hset
    cases hset

end Field

namespace Types

variable {types : Types} {path : TypeId → String} {layouts : Nat → Layout}

theorem host_of_mem_instanceFields {t : TypeId} {f : Field}
    (hf : f ∈ (types.describe t).instanceFields) : ∃ i, t = .host i := by
  cases t with
  | host i => exact ⟨i, rfl⟩
  | _ => cases hf

/-- Where the hosts are no containers and their fields read slots, what objects show exists. -/
theorem closedOn_of_wellFormed {h : Heap} (hw : h.WellFormed layouts)
    (hshows : ∀ o ∈ h.objects.toList, ∀ i, o.type = .host i →
      (types.info (.host i)).collection = none ∧ (types.info (.host i)).map = none)
    (hread : ∀ o ∈ h.objects.toList, ∀ i, o.type = .host i →
      ∀ f ∈ (types.describe (.host i)).instanceFields, ∀ tick v, f.get o tick = .ok v →
        ∃ slot ∈ o.slots, ∃ p, v = slot.read p) : types.ClosedOn h := by
  refine ⟨fun r a hr => hw.closed _ (Heap.mem_of_get? hr), fun r o hr f hf tick v hv => ?_,
    fun r o hr c hc v hv => ?_, fun r o hr m hm e he => ?_⟩
  · obtain ⟨i, hi⟩ := host_of_mem_instanceFields hf
    rw [hi] at hf
    obtain ⟨slot, hslot, p, rfl⟩ := hread o (Heap.mem_of_get? hr) i hi f hf tick v hv
    cases o with
    | host n slots items =>
      have hmem : slot.read .initial ∈ (Object.host n slots items).values :=
        List.mem_append_left _ (List.mem_map_of_mem hslot)
      exact (hw.closed _ (Heap.mem_of_get? hr) _ hmem).of_alike (slot.read_alike _ _)
    | _ => cases hi
  · cases o with
    | host n slots items =>
      have hnone := (hshows _ (Heap.mem_of_get? hr) n rfl).1
      rw [show (Object.host n slots items).type = .host n from rfl, hnone] at hc
      cases hc
    | array a => cases hc
    | map m => cases hc
    | list items =>
      cases hc
      exact hw.closed _ (Heap.mem_of_get? hr) v hv
    | set s =>
      cases hc
      exact hw.closed _ (Heap.mem_of_get? hr) v hv
  · cases o with
    | host n slots items =>
      have hnone := (hshows _ (Heap.mem_of_get? hr) n rfl).2
      rw [show (Object.host n slots items).type = .host n from rfl, hnone] at hm
      cases hm
    | map m' =>
      cases hm
      refine ⟨hw.closed _ (Heap.mem_of_get? hr) _ (List.mem_flatMap.mpr ⟨e, he, by simp⟩),
        hw.closed _ (Heap.mem_of_get? hr) _ (List.mem_flatMap.mpr ⟨e, he, by simp⟩)⟩
    | _ => cases hm

namespace PlainRecords

variable {h : Heap} {r : Ref} {i : Nat}

theorem record (hp : types.PlainRecords path layouts h) {o : Object} (ho : h.get? r = some o)
    (hot : o.type = .host i) : (types.info (.host i)).PlainRecord path i (layouts i) :=
  hp o (Heap.mem_of_get? ho) i hot

theorem record_of_has (hp : types.PlainRecords path layouts h) (hr : h.Has r)
    (ht : r.type = .host i) : (types.info (.host i)).PlainRecord path i (layouts i) := by
  obtain ⟨o, ho, hot⟩ := hr
  exact hp.record ho (hot.trans ht)

theorem closedOn (hp : types.PlainRecords path layouts h) (hw : h.WellFormed layouts) :
    types.ClosedOn h := by
  refine closedOn_of_wellFormed hw (fun o ho i hot => ⟨(hp o ho i hot).collection, (hp o ho i hot).map⟩) ?_
  intro o ho i hot f hf tick v hv
  obtain ⟨place, -, hplace⟩ := (hp o ho i hot).fields.exists_of_mem_left hf
  obtain ⟨-, slot, hslot, rfl⟩ := hplace.get_eq_ok.mp hv
  exact ⟨slot, List.mem_of_getElem? hslot, _, rfl⟩

end PlainRecords

end Types

def FieldSpec.isPlain (f : FieldSpec) : Bool :=
  f.typeConstant.isNone && f.getError.isNone && f.setError.isNone && !(f.constant && f.typeLevel)

def TypeSpec.isPlain (s : TypeSpec) : Bool :=
  !s.selfClone && !s.collection && !s.map && s.fields.all FieldSpec.isPlain &&
    (match s.construct with
      | .list => false
      | _ => true) &&
    match s.roundTrip with
      | .list => false
      | _ => true

def placesFrom : Nat → List FieldSpec → List (Nat × Storage)
  | _, [] => []
  | slot, f :: fs => (slot, f.storage) :: placesFrom (slot + 1) fs

def Specs.layout (specs : Specs) (i : Nat) : Layout :=
  match specs.hosts[i]? with
  | some s => ⟨s.name, placesFrom 0 s.fields⟩
  | none => ⟨"", []⟩

theorem placesFrom_map_fst (slot : Nat) (fs : List FieldSpec) :
    (placesFrom slot fs).map Prod.fst = List.range' slot fs.length := by
  induction fs generalizing slot with
  | nil => rfl
  | cons f fs ih => simp [placesFrom, List.range'_succ, ih]

theorem FieldSpec.field_liesAt (owner : Owner) (path : TypeId → String) (slot : Nat) {f : FieldSpec}
    (hf : f.isPlain = true) : (f.field owner path slot).LiesAt owner path (slot, f.storage) ∧
      (f.field owner path slot).isInstanceState = true := by
  obtain ⟨name, storage, constant, typeLevel, typeConstant, getError, setError⟩ := f
  simp only [isPlain, Bool.and_eq_true, Option.isNone_iff_eq_none] at hf
  obtain ⟨⟨⟨rfl, rfl⟩, rfl⟩, hconst⟩ := hf
  refine ⟨⟨?_, ?_, rfl⟩, hconst⟩
  · funext o tick
    simp only [field, Field.failing, Field.ofSlot]
    cases owner.slots? o <;> rfl
  · funext o v
    simp only [field, Field.failing, Field.ofSlot]
    cases owner.slots? o <;> rfl

theorem fieldsFrom_liesAt (owner : Owner) (path : TypeId → String) {fs : List FieldSpec}
    (hfs : ∀ f ∈ fs, f.isPlain = true) (slot : Nat) :
    List.Forall₂ (Field.LiesAt owner path)
      ((fieldsFrom owner path slot fs).filter Field.isInstanceState) (placesFrom slot fs) := by
  induction fs generalizing slot with
  | nil => exact .nil
  | cons f fs ih =>
    have hplain := hfs f (by simp)
    obtain ⟨hf, hstate⟩ := FieldSpec.field_liesAt owner path slot hplain
    have hconst : f.typeConstant.isSome = false := by
      simp only [FieldSpec.isPlain, Bool.and_eq_true, Option.isNone_iff_eq_none] at hplain
      rw [hplain.1.1.1]
      rfl
    simp only [fieldsFrom, hconst, Bool.false_eq_true, if_false, List.filter_cons, hstate, if_true,
      placesFrom]
    exact .cons hf (ih (fun g hg => hfs g (by simp [hg])) (slot + 1))

theorem TypeSpec.slotRoundTrip_type {s : TypeSpec} {skipped : List Nat} {tick : Nat} {o o' : Object}
    (h : s.slotRoundTrip skipped tick o = .ok o') : o'.type = o.type := by
  simp only [slotRoundTrip] at h
  split at h
  · cases h
  · cases o <;> cases h <;> rfl

theorem TypeSpec.info_plainRecord (specs : Specs) (i : Nat) {s : TypeSpec} (hs : s.isPlain = true) :
    (s.info specs i).PlainRecord specs.path i ⟨s.name, placesFrom 0 s.fields⟩ := by
  simp only [isPlain, Bool.and_eq_true, Bool.not_eq_true', List.all_eq_true] at hs
  obtain ⟨⟨⟨⟨⟨hself, hcol⟩, hmap⟩, hfields⟩, hconstruct⟩, htrip⟩ := hs
  refine ⟨by simp [info, hself], by simp [info, hcol], by simp [info, hmap],
    fieldsFrom_liesAt _ _ hfields 0, ?_, fun make hm tick => ?_, fun copy hc o o' ho hoo' => ?_,
    fun trip ht tick o o' ho hoo' => ?_⟩
  · rw [placesFrom_map_fst]
    exact List.nodup_range'
  · simp only [info, descriptor] at hm
    cases hc : s.construct with
    | none => simp [hc] at hm
    | list => simp [hc] at hconstruct
    | blank =>
      simp only [hc, Option.some.injEq] at hm
      rw [← hm]
      rfl
  · simp only [info, descriptor] at hc
    cases hcopy : s.copy with
    | none => simp [hcopy] at hc
    | refusing =>
      simp only [hcopy, Option.some.injEq] at hc
      rw [← hc] at hoo'
      cases hoo'
    | shallow =>
      simp only [hcopy, Option.some.injEq] at hc
      rw [← hc] at hoo'
      cases hoo'
      exact ho
  · simp only [info, descriptor] at ht
    cases hrt : s.roundTrip with
    | none => simp [hrt] at ht
    | list => simp [hrt] at htrip
    | blank =>
      simp only [hrt, Option.some.injEq] at ht
      rw [← ht] at hoo'
      cases hoo'
      rfl
    | failing text =>
      simp only [hrt, Option.some.injEq] at ht
      rw [← ht] at hoo'
      cases hoo'
    | slots skipped =>
      simp only [hrt, Option.some.injEq] at ht
      rw [← ht] at hoo'
      exact (slotRoundTrip_type hoo').trans ho

def Specs.arePlain (specs : Specs) (h : Heap) : Bool :=
  h.objects.toList.all fun o =>
    match o.type with
    | .host i => specs.hosts[i]?.all TypeSpec.isPlain
    | _ => true

theorem Specs.plainRecords {specs : Specs} {h : Heap} (hs : specs.arePlain h = true) :
    specs.types.PlainRecords specs.path specs.layout h := by
  intro o ho i hot
  have hplain : specs.hosts[i]?.all TypeSpec.isPlain = true := by
    simpa [hot] using List.all_eq_true.mp hs o ho
  cases hi : specs.hosts[i]? with
  | some s =>
    have hinfo : specs.types.info (.host i) = s.info specs i := by simp [Types.info, types, hi]
    have hlayout : specs.layout i = ⟨s.name, placesFrom 0 s.fields⟩ := by simp [layout, hi]
    rw [hinfo, hlayout]
    rw [hi] at hplain
    exact TypeSpec.info_plainRecord specs i hplain
  | none =>
    have hinfo : specs.types.info (.host i) = .bare "Undefined" "Undefined" (.host i) := by
      simp [Types.info, types, hi]
    have hlayout : specs.layout i = ⟨"", []⟩ := by simp [layout, hi]
    rw [hinfo, hlayout]
    exact ⟨rfl, rfl, rfl, .nil, List.nodup_nil, by simp [TypeInfo.bare], by simp [TypeInfo.bare],
      by simp [TypeInfo.bare]⟩

end GraphCopy
