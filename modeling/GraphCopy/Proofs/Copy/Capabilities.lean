import GraphCopy.Proofs.Copy.Topology
import GraphCopy.Proofs.Sharing.Safety

/-!
# What is copied of a host object

The first capability of an object decides what is copied of it: the elements of
a collection, else the entries of a map, else the fields. `deepClone_reproduces`
says that all of that is copied, wherever the object is reached by way of
objects that are taken apart. What a new empty container has beside it, the
fields of a collection for instance, is up to the host.
-/

namespace GraphCopy

/-- What an object exposes through its first capability is found in the other, up to `R`. -/
structure Object.Reproduced (types : Types) (R : Value → Value → Prop) (o o' : Object) : Prop where
  elements : ∀ c, (types.info o.type).collection = some c →
    List.Forall₂ R (c.elements o) (c.elements o')
  entries : (types.info o.type).collection = none → ∀ m, (types.info o.type).map = some m →
    List.Forall₂ (fun e f => R e.1 f.1 ∧ R e.2 f.2) (m.entries o) (m.entries o')
  fields : types.ShowsFields o.type → ∀ f ∈ (types.describe o.type).instanceFields,
    ∃ v w, f.get o 0 = .ok v ∧ f.get o' 0 = .ok w ∧ R v w

variable {types : Types} {R : Value → Value → Prop} {o o' : Object} {i : Nat}

theorem Object.Mirrors.reproduced (hm : o.Mirrors types R o') (ho : o.type = .host i)
    (hread : types.ShowsFields o.type → ∀ f ∈ (types.describe o.type).instanceFields,
      ∃ v, f.get o 0 = .ok v) : o.Reproduced types R o' := by
  have hshape := hm.shape
  have harr := Object.array?_of_host ho
  have harr' := Object.array?_of_host (hm.type.trans ho)
  refine ⟨fun c hc => ?_, fun hnone m hmap => ?_, fun hs f hf => ?_⟩
  · simp only [shapeOf, harr, harr', hm.type, hc] at hshape
    cases hshape with
    | sequence h => exact h
  · simp only [shapeOf, harr, harr', hm.type, hnone, hmap] at hshape
    cases hshape with
    | entries h => exact h
  · simp only [shapeOf, harr, harr', hm.type, hs.1, hs.2, Descriptor.readings, List.map_map] at hshape
    cases hshape with
    | record h =>
      rw [List.forall₂_map_left_iff, List.forall₂_map_right_iff, List.forall₂_same] at h
      obtain ⟨v, hv⟩ := hread hs f hf
      have hrel := (h f hf).2
      simp only [Function.comp, hv] at hrel
      cases hw : f.get o' 0 with
      | error e =>
        rw [hw] at hrel
        cases hrel
      | ok w =>
        rw [hw] at hrel
        cases hrel with
        | some hvw => exact ⟨v, w, hv, rfl, hvw⟩

structure Setting.Dissects (c : Setting) (path : TypeId → String) (layouts : Nat → Layout) (r : Ref) :
    Prop where
  mutable : ¬ c.sharing.Immutable c.types (c.types.describe r.type)
  selfClone : (c.types.info r.type).selfClone = none
  lawful : c.types.Lawful path layouts r.type

namespace Ground.Settled

variable {g : Ground} {s : CopyState} {v w : Value} {r k : Ref}

theorem not_stays (hs : g.Settled v w s) (hshare : g.options.shareSource = false)
    (hd : g.Dissects g.path g.layouts r) : ¬ g.Stays s.memo r := by
  rintro (hi | hm | hself)
  · exact hd.mutable hi
  · exact hs.ne_of_recorded hshare hm rfl
  · rw [hd.selfClone] at hself
    cases hself

theorem reproduced (hs : g.Settled v w s) (hshare : g.options.shareSource = false)
    (hd : g.Dissects g.path g.layouts r) (hk : s.memo.get? r = some k) (hi : r.type = .host i) :
    ∃ o o', g.heap.get? r = some o ∧ s.heap.get? k = some o' ∧
      o.Reproduced g.types (g.Copied s.memo) o' := by
  have hkept := hs.kept r k hk
  have hne := hs.ne_of_recorded hshare hk
  have hfaith := hd.lawful.faithful hd.selfClone
  obtain ⟨o, o', ho, ho', hmir⟩ := hkept.mirrored hne hd.selfClone hfaith
  obtain ⟨o₁, ho₁, hot⟩ := (hs.tidy.source r k hk).1
  obtain rfl : o₁ = o := Option.some.inj (ho₁.symm.trans ho)
  have hoi := hot.trans hi
  refine ⟨o₁, o', ho, ho', hmir.reproduced hoi fun hshows f hf => ?_⟩
  -- a record whose copy is complete has been read from
  rw [hi] at hfaith
  rw [hoi] at hshows hf
  obtain ⟨hrec, hbreeds⟩ := hfaith.slotRecord hshows.1 hshows.2
  obtain ⟨o₂, ho₂, -, hfields⟩ := hkept.copyable hne i hi ⟨hi ▸ hd.selfClone, hrec, hbreeds⟩
  obtain rfl : o₂ = o₁ := Option.some.inj (ho₂.symm.trans ho)
  obtain ⟨⟨tick, u, hget⟩, -⟩ := hfields f (hi ▸ hf)
  obtain ⟨place, -, hacts⟩ := hrec.fields.exists_of_mem_left hf
  obtain ⟨slot, hslot, -⟩ := hacts.exists_slot hoi hget
  refine ⟨slot.read ⟨0, place.1⟩, ?_⟩
  rw [hacts.get_eq hoi hget]
  simp [Field.ofSlot, Owner.slots?, hoi, hslot]

end Ground.Settled

namespace Cloner

/-- What an object of the host exposes through its first capability is copied. -/
theorem deepClone_reproduces {c : Cloner} {path : TypeId → String} {layouts : Nat → Layout} {h : Heap}
    {cache : DescriptorCache} (ht : types.Coherent) (hc : types.ClosedOn h) (hw : h.WellFormed layouts)
    (hk : Knowledge.Sound types c.sharing ⟨cache, c.verdicts⟩) (hσ : c.strategies = .builtin)
    (hshare : c.options.shareSource = false) {v w : Value} (hv : h.Holds v) {after : Aftermath}
    (hrun : c.deepClone types h cache v = (.ok w, after)) :
    let copied := (c.setting types).Copied after.memo
    (∀ r i p, r.type = .host i → h.follow types p v = some (.object r) →
      (∀ q ∈ r :: h.trail types p v, (c.setting types).Dissects path layouts q) →
      ∃ k o o', after.heap.follow types p w = some (.object k) ∧ copied (.object r) (.object k) ∧
        k.type = r.type ∧ h.get? r = some o ∧ after.heap.get? k = some o' ∧
        o.Reproduced types copied o') ∧
    ∀ q l, copied (.object q) (.object l) →
      ¬ c.sharing.Immutable types (types.describe q.type) → h.size ≤ l.address := by
  let g : Ground := ⟨c.setting types, h, path, layouts, hσ, ht, hc, hw.objects⟩
  have hcall : c.deepClone types h cache v = (ofGround g c.verdicts).deepClone types h cache v :=
    deepClone_eq_ofGround (g := g) rfl
  obtain ⟨s, hs, hheap, hmemo⟩ := deepClone_settled (g := g) hk hv (hcall.symm.trans hrun)
  rw [hheap, hmemo]
  refine ⟨fun r i p hi hp hd => ?_, fun q l hl hm => ?_⟩
  · obtain ⟨hdr, hdp⟩ := List.forall_mem_cons.mp hd
    obtain ⟨y, hy, hway⟩ := hs.follow_copied hv hs.copied (fun q hq => (hdp q hq).lawful) hp
    rcases hway with ⟨⟨q, hq, hstays⟩, -⟩ | ⟨-, hcop⟩
    · exact absurd hstays (hs.not_stays hshare (hdp q hq))
    obtain ⟨k, hk, rfl⟩ := hcop.of_object.resolve_left fun h => hdr.mutable h.1
    obtain ⟨o, o', ho, ho', hrep⟩ := hs.reproduced hshare hdr hk hi
    exact ⟨k, o, o', hy, hcop, hs.tidy.type r k hk hdr.lawful.breeds, ho, ho', hrep⟩
  · obtain ⟨l', hl', heq⟩ := hl.of_object.resolve_left fun h => hm h.1
    cases heq
    exact ((hs.tidy.copy q l hl').resolve_left (hs.ne_of_recorded hshare hl')).1

/-- A collection that is also a map and has a field. A new empty one is made by `like`, or by taking the
items out of the source. -/
def chestSpecs (like : Option TypeId) : Specs where
  hosts :=
    [{ TypeSpec.bare "Chest" "Chest" with
        kind := .collection, fields := [.plain "label" .value], collection := true, map := true
        emptyLike := like }]
  containerPath := ""

/-- A list, a chest with the list as its label and as the value of an entry, and a list of the chest. -/
def chestHeap : Heap :=
  ⟨#[.list [], .host 0 [.value (.object ⟨.list, 0⟩)] [(.int 7, .object ⟨.list, 0⟩)],
    .list [.object ⟨.host 0, 1⟩]], 1⟩

theorem chestHeap_wellFormed (like : Option TypeId) : chestHeap.WellFormed (chestSpecs like).layout := by
  refine ⟨by decide, fun o ho => ?_⟩
  simp only [chestHeap, List.mem_cons, List.not_mem_nil, or_false] at ho
  rcases ho with rfl | rfl | rfl
  · trivial
  · intro place hplace
    obtain rfl : place = (0, .value) := by
      simpa [chestSpecs, Specs.layout, placesFrom, FieldSpec.plain] using hplace
    exact ⟨_, rfl, trivial⟩
  · trivial

theorem chestSpecs_lawful :
    (chestSpecs none).types.Lawful (chestSpecs none).path (chestSpecs none).layout (.host 0) := by
  have hempty : ∀ o : Object, o.type = .host 0 → (o.withItems []).type = .host 0 :=
    fun o ho => (Object.type_withItems [] o).trans ho
  refine ⟨⟨nofun, nofun, nofun, nofun, ?_, ?_⟩, fun _ => .collection rfl ⟨fun tick o ho => ?_, ?_⟩, nofun⟩
  · rintro c ⟨⟩ tick o ho
    exact hempty o ho
  · rintro m ⟨⟩ tick o ho
    exact hempty o ho
  · obtain ⟨slots, items, rfl⟩ := Object.exists_host ho
    exact ⟨rfl, rfl⟩
  · intro o v o' ho hpush
    obtain ⟨slots, items, rfl⟩ := Object.exists_host ho
    cases hpush
    exact ⟨rfl, by simp [Object.items, Object.withItems]⟩

theorem chestSpecs_closedOn : (chestSpecs none).types.ClosedOn chestHeap := by
  have hobj : ∀ r o, chestHeap.get? r = some o → o = .list [] ∨ o = .list [.object ⟨.host 0, 1⟩] ∨
      o = .host 0 [.value (.object ⟨.list, 0⟩)] [(.int 7, .object ⟨.list, 0⟩)] := by
    intro r o ho
    have hmem := Heap.mem_of_get? ho
    simp only [chestHeap, List.mem_cons, List.not_mem_nil, or_false] at hmem
    tauto
  have hlist : chestHeap.Holds (.object ⟨.list, 0⟩) := by decide
  have hchest : chestHeap.Holds (.object ⟨.host 0, 1⟩) := by decide
  have hint : chestHeap.Holds (.int 7) := by decide
  refine ⟨fun r a ho => ?_, fun r o ho f hf tick v hv => ?_, fun r o ho c hc v hv => ?_,
    fun r o ho m hm e he => ?_⟩
  · rcases hobj r _ ho with h | h | h <;> cases h
  · rcases hobj r o ho with rfl | rfl | rfl
    · cases hf
    · cases hf
    · have hlies := (FieldSpec.field_liesAt ⟨.host 0, "Chest"⟩ (chestSpecs none).path 0
        (f := .plain "label" .value) rfl).1
      obtain rfl := List.mem_singleton.mp hf
      obtain ⟨-, slot, hslot, rfl⟩ := hlies.get_eq_ok.mp hv
      cases hslot
      exact hlist
  · rcases hobj r o ho with rfl | rfl | rfl <;> cases hc
    · cases hv
    · exact List.mem_singleton.mp hv ▸ hchest
    · exact List.mem_singleton.mp hv ▸ hint
  · rcases hobj r o ho with rfl | rfl | rfl <;> cases hm
    exact List.mem_singleton.mp he ▸ ⟨hint, hlist⟩

theorem deepClone_chestHeap_reproduces :
    let types := (chestSpecs none).types
    let call := (create .standard).deepClone types chestHeap .empty (.object ⟨.list, 2⟩)
    call.1 = .ok (.object ⟨.list, 3⟩) ∧ ∃ k o',
      call.2.heap.follow types [.item 0] (.object ⟨.list, 3⟩) = some (.object k) ∧
        chestHeap.size ≤ k.address ∧ call.2.heap.get? k = some o' ∧ o'.items.map Prod.fst = [.int 7] := by
  intro types call
  have hcall : call.1 = .ok (.object ⟨.list, 3⟩) := by decide +kernel
  have hlist : ((create .standard).setting types).Dissects (chestSpecs none).path
      (chestSpecs none).layout ⟨.list, 2⟩ :=
    ⟨SharingRules.not_immutable_of_kind nofun, rfl, Types.lawful_container nofun⟩
  have hchest : ((create .standard).setting types).Dissects (chestSpecs none).path
      (chestSpecs none).layout ⟨.host 0, 1⟩ :=
    ⟨SharingRules.not_immutable_of_kind nofun, rfl, chestSpecs_lawful⟩
  obtain ⟨hrep, hfresh⟩ := deepClone_reproduces (chestSpecs none).types_coherent chestSpecs_closedOn
    (chestHeap_wellFormed none) (Knowledge.sound_of_no_verdicts (DescriptorCache.faithful_empty _)) rfl
    rfl (v := .object ⟨.list, 2⟩) (by decide) (Prod.ext hcall rfl)
  obtain ⟨k, o, o', hk, hcop, -, ho, ho', hreproduced⟩ := hrep ⟨.host 0, 1⟩ 0 [.item 0] rfl
    (by decide +kernel) (List.forall_mem_cons.mpr ⟨hchest, List.forall_mem_singleton.mpr hlist⟩)
  cases ho
  have helements : List.Forall₂ (((create .standard).setting types).Copied call.2.memo) [.int 7]
      (o'.items.map Prod.fst) := hreproduced.elements _ rfl
  obtain ⟨u, us, hu, hus, heq⟩ := List.forall₂_cons_left_iff.mp helements
  rw [List.forall₂_nil_left_iff.mp hus] at heq
  have hseven : u = .int 7 := by
    cases hu with
    | plain _ hvw => exact hvw.eq_of_madeAt fun _ => rfl
  exact ⟨hcall, k, o', hk, hfresh _ _ hcop hchest.mutable, ho', hseven ▸ heq⟩

/-- Only the elements are copied of a chest. Its entries lose their values; its label is lost where a new
chest has none, and still refers to the list of the source where it is taken over. -/
theorem chest_copied_by_elements :
    let types like := (chestSpecs like).types
    let call like := (create .standard).deepClone (types like) chestHeap .empty (.object ⟨.host 0, 1⟩)
    let fields like (h : Heap) (r : Ref) := (h.get? r).map ((types like).describe (.host 0)).readings
    let entries like (h : Heap) (r : Ref) :=
      ((types like).info (.host 0)).map.bind fun m => (h.get? r).map m.entries
    (∀ like ∈ [some (.host 0), none],
      (call like).1 = .ok (.object ⟨.host 0, 3⟩) ∧
        fields like chestHeap ⟨.host 0, 1⟩ = some [("label", .ok (.object ⟨.list, 0⟩))] ∧
        entries like chestHeap ⟨.host 0, 1⟩ = some [(.int 7, .object ⟨.list, 0⟩)] ∧
        entries like (call like).2.heap ⟨.host 0, 3⟩ = some [(.int 7, .null)]) ∧
      fields (some (.host 0)) (call (some (.host 0))).2.heap ⟨.host 0, 3⟩ = some [("label", .ok .null)] ∧
      fields none (call none).2.heap ⟨.host 0, 3⟩ = some [("label", .ok (.object ⟨.list, 0⟩))] := by
  simp only [List.forall_mem_cons, List.not_mem_nil, false_imp_iff, implies_true, and_true]
  decide +kernel

end Cloner
end GraphCopy
