import GraphCopy.Proofs.Types.Records

/-!
# Types that are copied faithfully

What a copy shows is up to the accessors of its type. A record is copied
faithfully if each field reads and writes a slot, or fails; several fields may
lie over one slot. A container of the host is copied faithfully if it starts
empty and what is added to it comes last. `Types.Faithful` collects these
types and the four containers.

`TypeInfo.Breeds` says that whatever makes an object from one of the type makes
one of the same type.
-/

namespace GraphCopy

structure Field.ActsOn (owner : Owner) (path : TypeId → String) (f : Field) (place : Nat × Storage) :
    Prop where
  get : f.get = (Field.ofSlot owner path f.name place.1 place.2).get ∨
    ∀ o tick, o.type = owner.type → ∃ e, f.get o tick = .error e
  set : f.set = (Field.ofSlot owner path f.name place.1 place.2).set ∨
    ∀ o v, o.type = owner.type → ∃ e, f.set o v = .error e
  declared : f.declared = place.2.declared

structure TypeInfo.SlotRecord (path : TypeId → String) (i : Nat) (layout : Layout) (t : TypeInfo) :
    Prop where
  collection : t.collection = none
  map : t.map = none
  fields : List.Forall₂ (Field.ActsOn ⟨.host i, layout.owner⟩ path) t.descriptor.instanceFields
    layout.places
  consistent : ∀ p ∈ layout.places, ∀ q ∈ layout.places, p.1 = q.1 → p = q

structure TypeInfo.Breeds (type : TypeId) (t : TypeInfo) : Prop where
  construct : ∀ make, t.descriptor.construct = some make → ∀ tick, (make tick).type = type
  copyConstruct : ∀ copy, t.descriptor.copyConstruct = some copy →
    ∀ o o', o.type = type → copy o = some o' → o'.type = type
  roundTrip : ∀ trip, t.descriptor.roundTrip = some trip →
    ∀ tick o o', o.type = type → trip tick o = .ok o' → o'.type = type
  selfClone : ∀ f, t.selfClone = some f → ∀ o, o.type = type → (f o).type = type
  collection : ∀ c, t.collection = some c → ∀ tick o, o.type = type → (c.emptyLike tick o).type = type
  map : ∀ m, t.map = some m → ∀ tick o, o.type = type → (m.emptyLike tick o).type = type

structure Collection.Appends (type : TypeId) (c : Collection) : Prop where
  emptyLike : ∀ tick o, o.type = type →
    (c.emptyLike tick o).type = type ∧ c.elements (c.emptyLike tick o) = []
  push : ∀ o v o', o.type = type → c.push o v = .ok o' →
    o'.type = type ∧ c.elements o' = c.elements o ++ [v]

structure KeyedCollection.Appends (type : TypeId) (m : KeyedCollection) : Prop where
  emptyLike : ∀ tick o, o.type = type →
    (m.emptyLike tick o).type = type ∧ m.entries (m.emptyLike tick o) = []
  insert : ∀ o k v o', o.type = type → m.insert o k v = .ok o' →
    o'.type = type ∧ m.entries o' = m.entries o ++ [(k, v)]

/-- Types whose objects, taken apart and put together again, show copies of what they showed. -/
inductive Types.Faithful (types : Types) (path : TypeId → String) (layouts : Nat → Layout) :
    TypeId → Prop
  | array : Faithful types path layouts .array
  | list : Faithful types path layouts .list
  | set : Faithful types path layouts .set
  | map : Faithful types path layouts .map
  | collection {i c} (hc : (types.info (.host i)).collection = some c) (ha : c.Appends (.host i)) :
      Faithful types path layouts (.host i)
  | keyed {i m} (hc : (types.info (.host i)).collection = none)
      (hm : (types.info (.host i)).map = some m) (ha : m.Appends (.host i)) :
      Faithful types path layouts (.host i)
  | record {i} (hr : (types.info (.host i)).SlotRecord path i (layouts i))
      (hb : (types.info (.host i)).Breeds (.host i)) : Faithful types path layouts (.host i)

theorem Collection.ofLists_appends : Collection.ofLists.Appends .list := by
  refine ⟨fun _ _ _ => ⟨rfl, rfl⟩, fun o v o' ho hpush => ?_⟩
  obtain ⟨items, rfl⟩ := Object.exists_list ho
  cases hpush
  exact ⟨rfl, rfl⟩

namespace Field

variable {owner : Owner} {path : TypeId → String} {f : Field} {place : Nat × Storage} {o o' : Object}
  {tick : Nat} {v w : Value}

theorem LiesAt.actsOn (hf : f.LiesAt owner path place) : f.ActsOn owner path place :=
  ⟨.inl hf.get, .inl hf.set, hf.declared⟩

theorem ActsOn.get_eq (hf : f.ActsOn owner path place) (ho : o.type = owner.type)
    (hget : f.get o tick = .ok v) :
    f.get = (Field.ofSlot owner path f.name place.1 place.2).get := by
  refine hf.get.resolve_right fun hfail => ?_
  obtain ⟨e, he⟩ := hfail o tick ho
  rw [hget] at he
  cases he

theorem ActsOn.set_eq (hf : f.ActsOn owner path place) (ho : o.type = owner.type)
    (hset : f.set o w = .ok o') :
    f.set = (Field.ofSlot owner path f.name place.1 place.2).set := by
  refine hf.set.resolve_right fun hfail => ?_
  obtain ⟨e, he⟩ := hfail o w ho
  rw [hset] at he
  cases he

theorem ActsOn.exists_slot (hf : f.ActsOn owner path place) (ho : o.type = owner.type)
    (hget : f.get o tick = .ok v) :
    ∃ slot, o.slots[place.1]? = some slot ∧ v = slot.read ⟨tick, place.1⟩ := by
  rw [hf.get_eq ho hget] at hget
  simp only [ofSlot, Owner.slots?, ho, if_true] at hget
  cases hslot : o.slots[place.1]? with
  | none =>
    rw [hslot] at hget
    cases hget
  | some slot =>
    rw [hslot] at hget
    exact ⟨slot, rfl, (Except.ok.inj hget).symm⟩

theorem ActsOn.get_object (hf : f.ActsOn owner path place) (ho : o.type = owner.type) {r : Ref}
    (hget : f.get o tick = .ok (.object r)) (tick' : Nat) : f.get o tick' = .ok (.object r) := by
  obtain ⟨slot, hslot, hr⟩ := hf.exists_slot ho hget
  have halike := slot.read_alike ⟨tick, place.1⟩ ⟨tick', place.1⟩
  rw [← hr] at halike
  rw [hf.get_eq ho hget]
  simp only [ofSlot, Owner.slots?, ho, if_true, hslot]
  exact congrArg Except.ok (halike.eq_of_madeAt fun _ => rfl)

theorem ofSlot_set_length {name : String} {i : Nat} {s : Storage}
    (hset : (Field.ofSlot owner path name i s).set o w = .ok o') :
    o'.slots.length = o.slots.length := by
  simp only [ofSlot, Owner.slots?] at hset
  split at hset
  · cases hset
  · split at hset
    · split at hset
      · cases hset
        rw [Object.slots_withSlot, List.length_set]
      · cases hset
    · cases hset

theorem ofSlot_set_ok {name : String} {i : Nat} {s : Storage} {slot : Slot}
    (ho : o.type = owner.type) (hi : i < o.slots.length) (hs : s.store path w = .ok slot) :
    (Field.ofSlot owner path name i s).set o w = .ok (o.withSlot i slot) := by
  simp [ofSlot, Owner.slots?, ho, hi, hs]

end Field

namespace TypeInfo

variable {path : TypeId → String} {layout : Layout} {i : Nat} {t : TypeInfo}

theorem PlainRecord.slotRecord (hp : t.PlainRecord path i layout) : t.SlotRecord path i layout := by
  refine ⟨hp.collection, hp.map, hp.fields.imp fun _ _ hf => hf.actsOn, fun p hpm q hqm heq => ?_⟩
  exact List.inj_on_of_nodup_map hp.distinct hpm hqm heq

theorem PlainRecord.breeds (hp : t.PlainRecord path i layout) : t.Breeds (.host i) := by
  refine ⟨hp.construct, hp.copyConstruct, hp.roundTrip, ?_, ?_, ?_⟩
  · simp [hp.selfClone]
  · simp [hp.collection]
  · simp [hp.map]

end TypeInfo

namespace Types

variable {types : Types} {path : TypeId → String} {layouts : Nat → Layout} {t : TypeId}

theorem breeds_container (ht : ∀ i, t ≠ .host i) : (types.info t).Breeds t := by
  cases t with
  | host i => exact absurd rfl (ht i)
  | array =>
    refine ⟨?_, ?_, ?_, ?_, ?_, ?_⟩ <;> simp [info, TypeInfo.container, TypeInfo.bare]
  | list =>
    refine ⟨?_, ?_, ?_, ?_, ?_, ?_⟩ <;>
      simp [info, TypeInfo.container, TypeInfo.bare, Collection.ofLists, Object.type]
  | set =>
    refine ⟨?_, ?_, ?_, ?_, ?_, ?_⟩ <;>
      simp [info, TypeInfo.container, TypeInfo.bare, Collection.ofSets, Object.type]
  | map =>
    refine ⟨?_, ?_, ?_, ?_, ?_, ?_⟩ <;>
      simp [info, TypeInfo.container, TypeInfo.bare, KeyedCollection.ofMaps, Object.type]

theorem Faithful.appends {i : Nat} {c : Collection} (hf : types.Faithful path layouts (.host i))
    (hc : (types.info (.host i)).collection = some c) : c.Appends (.host i) := by
  cases hf with
  | collection hc' ha => exact Option.some.inj (hc'.symm.trans hc) ▸ ha
  | keyed hc' => exact absurd (hc'.symm.trans hc) (by simp)
  | record hr => exact absurd (hr.collection.symm.trans hc) (by simp)

theorem Faithful.keyed_appends {i : Nat} {m : KeyedCollection}
    (hf : types.Faithful path layouts (.host i)) (hc : (types.info (.host i)).collection = none)
    (hm : (types.info (.host i)).map = some m) : m.Appends (.host i) := by
  cases hf with
  | collection hc' => exact absurd (hc.symm.trans hc') (by simp)
  | keyed _ hm' ha => exact Option.some.inj (hm'.symm.trans hm) ▸ ha
  | record hr => exact absurd (hr.map.symm.trans hm) (by simp)

theorem Faithful.slotRecord {i : Nat} (hf : types.Faithful path layouts (.host i))
    (hc : (types.info (.host i)).collection = none) (hm : (types.info (.host i)).map = none) :
    (types.info (.host i)).SlotRecord path i (layouts i) ∧ (types.info (.host i)).Breeds (.host i) := by
  cases hf with
  | collection hc' => exact absurd (hc.symm.trans hc') (by simp)
  | keyed _ hm' => exact absurd (hm.symm.trans hm') (by simp)
  | record hr hb => exact ⟨hr, hb⟩

theorem selfClone_container (ht : ∀ i, t ≠ .host i) : (types.info t).selfClone = none := by
  cases t with
  | host i => exact absurd rfl (ht i)
  | _ => rfl

theorem faithful_container (ht : ∀ i, t ≠ .host i) : types.Faithful path layouts t := by
  cases t with
  | host i => exact absurd rfl (ht i)
  | array => exact .array
  | list => exact .list
  | set => exact .set
  | map => exact .map

end Types
end GraphCopy
