import GraphCopy.Copy.Session
import GraphCopy.Proofs.Copy.Invariant
import GraphCopy.Proofs.Copy.Topology
import GraphCopy.Proofs.Sharing.Safety

/-!
# Copying is an injective function on objects

Every object that is asked for in a call is answered with one object, and
different objects with different ones: objects of immutable types and sources
that are returned with themselves, all others with new objects. So values have
the same key if and only if their copies have, and the copies of sets and maps
neither lose nor merge anything: what they answer for the copy of a value is
what their sources answer for the value.
-/

namespace GraphCopy

deriving instance DecidableEq for Event

def Value.KeepsKeys (R : Value → Value → Prop) : Prop :=
  ∀ v w v' w', R v w → R v' w' → (v.key = v'.key ↔ w.key = w'.key)

structure OrderedSet.CopiedAs (R : Value → Value → Prop) (s s' : OrderedSet) : Prop where
  members : List.Forall₂ R s.members s'.members
  indexed : s'.WellIndexed
  contains : ∀ v w, R v w → s'.contains w = s.contains v

structure OrderedMap.CopiedAs (R : Value → Value → Prop) (m m' : OrderedMap) : Prop where
  entries : List.Forall₂ (fun e f => R e.1 f.1 ∧ R e.2 f.2) m.entries m'.entries
  indexed : m'.WellIndexed
  get : ∀ v w, R v w → Option.Rel R (m.get? v) (m'.get? w)

section Containers

variable {R : Value → Value → Prop}

theorem OrderedSet.copiedAs_of_members {s s' : OrderedSet} (hR : Value.KeepsKeys R)
    (hs : s.WellIndexed) (hs' : s'.WellIndexed) (hmem : List.Forall₂ R s.members s'.members) :
    s.CopiedAs R s' := by
  refine ⟨hmem, hs', fun v w hvw => ?_⟩
  rw [Bool.eq_iff_iff, hs.contains_iff, hs'.contains_iff]
  constructor
  · rintro ⟨u', hu', hkey⟩
    obtain ⟨u, hu, huu'⟩ := hmem.exists_of_mem_right hu'
    exact ⟨u, hu, (hR u u' v w huu' hvw).mpr hkey⟩
  · rintro ⟨u, hu, hkey⟩
    obtain ⟨u', hu', huu'⟩ := hmem.exists_of_mem_left hu
    exact ⟨u', hu', (hR u u' v w huu' hvw).mp hkey⟩

theorem OrderedMap.copiedAs_of_entries {m m' : OrderedMap} (hR : Value.KeepsKeys R)
    (hm : m.WellIndexed) (hm' : m'.WellIndexed)
    (hent : List.Forall₂ (fun e f => R e.1 f.1 ∧ R e.2 f.2) m.entries m'.entries) :
    m.CopiedAs R m' := by
  refine ⟨hent, hm', fun v w hvw => ?_⟩
  cases hv : m.get? v with
  | some x =>
    obtain ⟨i, e, he, hkey, rfl⟩ := hm.get?_eq_some.mp hv
    obtain ⟨f, hf, hef⟩ := hent.exists_getElem? he
    have hw : m'.get? w = some f.2 :=
      hm'.get?_eq_some.mpr ⟨i, f, hf, (hR _ _ v w hef.1 hvw).mp hkey, rfl⟩
    rw [hw]
    exact .some hef.2
  | none =>
    cases hw : m'.get? w with
    | none => exact .none
    | some y =>
      obtain ⟨i, f, hf, hkey, -⟩ := hm'.get?_eq_some.mp hw
      obtain ⟨e, he, hef⟩ := hent.flip.exists_getElem? hf
      have hx := hm.get?_eq_some.mpr ⟨i, e, he, (hR _ _ v w hef.1 hvw).mpr hkey, rfl⟩
      rw [hv] at hx
      cases hx

end Containers

theorem Heap.Has.type_eq {h : Heap} {r : Ref} {o : Object} (hr : h.Has r) (ho : h.get? r = some o) :
    r.type = o.type := by
  obtain ⟨o', ho', hot⟩ := hr
  rw [← hot, Option.some.inj (ho.symm.trans ho')]

theorem Object.WellIndexed.wellFormed {o : Object} (ho : o.WellIndexed) :
    o.WellFormed fun _ => ⟨"", []⟩ := by
  cases o with
  | set s => exact OrderedSet.WellIndexed.distinct ho
  | map m => exact OrderedMap.WellIndexed.distinct ho
  | host i slots items => exact nofun
  | _ => trivial

namespace Setting

structure Told (c : Setting) (h : Heap) (s : CopyState) : Prop where
  keeps : h.Keeps h.size s.heap
  known : s.known.Sound c.types c.sharing
  answered : ∀ r k, Event.answered r (.ok k) ∈ s.journal →
    h.Has r ∧ c.Copied s.memo (.object r) (.object k)
  recorded : ∀ r k, s.memo.get? r = some k → c.MayCopy h s r k

namespace Told

variable {c : Setting} {h : Heap} {s : CopyState} {r k : Ref}

theorem note (hs : c.Told h s) {e : Event}
    (he : ∀ r k, e = .answered r (.ok k) → h.Has r ∧ c.Copied s.memo (.object r) (.object k)) :
    c.Told h (s.note e) := by
  refine ⟨hs.keeps, hs.known, fun r k hr => ?_, hs.recorded⟩
  rcases List.mem_cons.mp hr with hr | hr
  · exact he r k hr.symm
  · exact hs.answered r k hr

theorem recording (hs : c.Told h s) (hm : s.memo.get? r = none) (hk : c.MayCopy h s r k) :
    c.Told h (s.recording r k) := by
  refine ⟨hs.keeps, hs.known, fun q l hq => ?_, fun q l hq => ?_⟩
  · obtain ⟨hhas, hcop⟩ := hs.answered q l ((List.mem_cons.mp hq).resolve_left nofun)
    exact ⟨hhas, hcop.mono (Memo.extends_put hm k)⟩
  · rw [CopyState.recording_memo, Memo.get?_put] at hq
    split_ifs at hq with hqr
    · cases hq
      exact hqr ▸ hk
    · exact hs.recorded q l hq

theorem invariant (c : Setting) (h : Heap) (root : Value) :
    c.Invariant h root fun _ => c.Told h where
  keeps hs := hs.keeps
  known hs := hs.known
  heap hs hk := by
    refine ⟨hs.keeps.trans hk, hs.known, hs.answered, fun r k hr => ?_⟩
    exact (hs.recorded r k hr).imp id fun hnew => ⟨hnew.1, hnew.2.trans_le hk.size_le⟩
  learn hs hk := ⟨hs.keeps, hk, hs.answered, hs.recorded⟩
  ask hs := hs.note nofun
  begin hs _ := hs.note nofun
  record hs hr hk := hs.recording hr.unrecorded hk
  leave hs := hs
  answer hs hr hcop := by
    apply hs.note
    rintro _ _ ⟨⟩
    exact ⟨hr, hcop _ rfl⟩

end Told

theorem not_returnsOriginal {c : Setting} {h : Heap} {r : Ref} (hr : r.type = .set ∨ r.type = .map) :
    ¬ c.ReturnsOriginal h r := by
  rintro ⟨-, o, tick, -, hshell⟩
  rcases hr with hr | hr <;>
    rw [hr] at hshell <;>
    cases hshell

theorem Copied.key_congr {c : Setting} {h : Heap} {m : Memo} {v v' w w' : Value} (hv : h.Holds v)
    (hv' : h.Holds v') (hc : c.Copied m v w) (hc' : c.Copied m v' w') (hk : v.key = v'.key) :
    w.key = w'.key := by
  have hobject : ∀ {r u x}, c.Copied m (.object r) x → h.Holds (.object r) → h.Holds u →
      u.key = (Value.object r).key → c.Copied m u w' → x.key = w'.key := by
    intro r u x hx hr hu hkey hcop
    cases u with
    | object q =>
      obtain rfl : q = r := (hu q rfl).eq_of_address_eq (hr r rfl) (Key.object.inj hkey)
      rcases hx.of_object with ⟨_, rfl⟩ | ⟨k, _, rfl⟩ <;>
        rcases hcop.of_object with ⟨_, rfl⟩ | ⟨l, _, rfl⟩ <;>
        rw [hx.unique hcop]
    | _ => cases hkey
  cases hc with
  | plain hp hvw =>
    cases hc' with
    | plain _ hvw' => rw [← hvw.key_eq, hk, hvw'.key_eq]
    | _ =>
      cases v with
      | object r => cases hp
      | _ => cases hk
  | shared hi => exact hobject (.shared hi) hv hv' hk.symm hc'
  | recorded hi hm => exact hobject (.recorded hi hm) hv hv' hk.symm hc'

end Setting

namespace Ground

variable {g : Ground} {s : CopyState} {v w : Value} {r k : Ref}

def CopyOf (g : Ground) (s : CopyState) (v w : Value) : Prop := g.heap.Holds v ∧ g.Copied s.memo v w

theorem Tidy.keepsKeys (hs : g.Tidy s) : Value.KeepsKeys (g.CopyOf s) :=
  fun _ _ _ _ hv hv' => ⟨hv.2.key_congr hv.1 hv'.1 hv'.2, hs.key_injective hv.1 hv'.1 hv.2 hv'.2⟩

namespace Settled

theorem container_copied (hs : g.Settled v w s) {o : Object} (hr : g.heap.get? r = some o)
    (ht : o.type = .set ∨ o.type = .map) (hk : s.memo.get? r = some k) (hne : k ≠ r) :
    ∃ o', s.heap.get? k = some o' ∧ o'.WellIndexed ∧ o.Mirrors g.types (g.CopyOf s) o' := by
  obtain ⟨o₁, ho₁, hrt⟩ := (hs.tidy.source r k hk).1
  obtain rfl : o = o₁ := Option.some.inj (hr.symm.trans ho₁)
  have hhost : ∀ i, r.type ≠ .host i := by
    rintro i hi
    rw [hrt, hi] at ht
    simp at ht
  have hkept := hs.kept r k hk
  obtain ⟨o', ho', hindex⟩ := hkept.indexed hne (hrt ▸ ht)
  obtain ⟨o₂, o₃, ho₂, ho₃, hmir⟩ := hkept.mirrored hne (Types.selfClone_container hhost)
    (Types.faithful_container hhost)
  obtain rfl : o = o₂ := Option.some.inj (hr.symm.trans ho₂)
  obtain rfl : o' = o₃ := Option.some.inj (ho'.symm.trans ho₃)
  refine ⟨o', ho', hindex, hmir.type, hmir.component, hmir.shape.imp_of_mem fun u hu x hux => ⟨?_, hux⟩⟩
  apply Heap.holds_of_mem_shown g.closed (hs.tidy.source r k hk).1
  simpa only [Heap.shown, Heap.shape, hr, hrt] using hu

theorem set_copied (hs : g.Settled v w s) {m : OrderedSet} (hr : g.heap.get? r = some (.set m))
    (hm : m.WellIndexed) (hk : s.memo.get? r = some k) (hne : k ≠ r) :
    ∃ m', s.heap.get? k = some (.set m') ∧ m.CopiedAs (g.CopyOf s) m' := by
  obtain ⟨o', ho', hindex, hmir⟩ := hs.container_copied hr (.inl rfl) hk hne
  obtain ⟨m', rfl⟩ := Object.exists_set hmir.type
  refine ⟨m', ho', ?_⟩
  apply OrderedSet.copiedAs_of_members hs.tidy.keepsKeys hm hindex
  exact hmir.shape.values

theorem map_copied (hs : g.Settled v w s) {m : OrderedMap} (hr : g.heap.get? r = some (.map m))
    (hm : m.WellIndexed) (hk : s.memo.get? r = some k) (hne : k ≠ r) :
    ∃ m', s.heap.get? k = some (.map m') ∧ m.CopiedAs (g.CopyOf s) m' := by
  obtain ⟨o', ho', hindex, hmir⟩ := hs.container_copied hr (.inr rfl) hk hne
  obtain ⟨m', rfl⟩ := Object.exists_map hmir.type
  refine ⟨m', ho', ?_⟩
  apply OrderedMap.copiedAs_of_entries hs.tidy.keepsKeys hm hindex
  have hshape := hmir.shape
  cases hshape with
  | entries hent => exact hent

end Settled
end Ground

namespace Cloner

theorem deepClone_told {g : Ground} {cache : DescriptorCache} {verdicts : Verdicts} {v : Value}
    (hk : Knowledge.Sound g.types g.sharing ⟨cache, verdicts⟩) (hv : g.heap.Holds v)
    {result : Except Halt Value} {after : Aftermath}
    (hrun : (ofGround g verdicts).deepClone g.types g.heap cache v = (result, after)) :
    g.Told g.heap ⟨after.heap, ⟨after.cache, after.cloner.verdicts⟩, after.memo, after.journal⟩ := by
  have hnone : ∀ r k, Memo.empty.get? r ≠ some k := by simp [Memo.empty, Memo.get?]
  have hstart : g.Told g.heap ⟨g.heap, ⟨cache, verdicts⟩, .empty, []⟩ :=
    ⟨.refl _ _, hk, fun r k hans => absurd hans List.not_mem_nil, fun r k hr => absurd hr (hnone r k)⟩
  have hreply := (Setting.Told.invariant g.toSetting g.heap v).cloneWithin g.coherent g.builtin
    g.closed hv (g.heap.size + 1) 0 v _ (fun _ hq => .root hq) hstart
  rw [deepClone_ofGround] at hrun
  obtain ⟨-, hafter⟩ := Prod.mk.inj hrun
  rw [← hafter]
  exact hreply.upheld.holds

/-- A successful call with the built-in strategies relates each object to one copy, and different objects
to different ones: an immutable object and a source that is returned to itself, any other to a new object.
The copy of a set or a map that is copied at all has copies of the members or entries in their order, its
index is right, and what it answers for the copy of a value is what the source answers for the value. -/
theorem deepClone_injective {c : Cloner} {types : Types} {h : Heap} {cache : DescriptorCache}
    (ht : types.Coherent) (hc : types.ClosedOn h) (hw : h.WellIndexed)
    (hk : Knowledge.Sound types c.sharing ⟨cache, c.verdicts⟩) (hσ : c.strategies = .builtin)
    {v w : Value} (hv : h.Holds v) {after : Aftermath}
    (hrun : c.deepClone types h cache v = (.ok w, after)) :
    let answered r k := Event.answered r (.ok k) ∈ after.journal
    let immutable (r : Ref) := c.sharing.Immutable types (types.describe r.type)
    let returned r := (c.setting types).ReturnsOriginal h r
    let new (k : Ref) := h.size ≤ k.address ∧ k.address < after.heap.size
    let copied v w := h.Holds v ∧ (c.setting types).Copied after.memo v w
    (∀ r k, answered r k → copied (.object r) (.object k)) ∧
    (∀ r k l, copied (.object r) (.object k) → copied (.object r) (.object l) → k = l) ∧
    (∀ q r k l, copied (.object q) (.object k) → copied (.object r) (.object l) →
      k.address = l.address → q = r) ∧
    (∀ r k, copied (.object r) (.object k) → (immutable r → k = r) ∧
      (¬ immutable r → (k = r ∧ returned r) ∨ new k)) ∧
    (∀ r k m, copied (.object r) (.object k) → ¬ immutable r → h.get? r = some (.set m) →
      ∃ m', after.heap.get? k = some (.set m') ∧ m.CopiedAs copied m') ∧
    ∀ r k m, copied (.object r) (.object k) → ¬ immutable r → h.get? r = some (.map m) →
      ∃ m', after.heap.get? k = some (.map m') ∧ m.CopiedAs copied m' := by
  let g : Ground := ⟨c.setting types, h, fun _ => "", fun _ => ⟨"", []⟩, hσ, ht, hc,
    fun o ho => (hw o ho).wellFormed⟩
  have hcall : c.deepClone types h cache v = (ofGround g c.verdicts).deepClone types h cache v :=
    deepClone_eq_ofGround (g := g) rfl
  have htold := deepClone_told (g := g) hk hv (hcall.symm.trans hrun)
  obtain ⟨s, hs, hheap, hmemo⟩ := deepClone_settled (g := g) hk hv (hcall.symm.trans hrun)
  intro answered immutable returned new copied
  have hmutable : ∀ r k, copied (.object r) (.object k) → ¬ immutable r →
      after.memo.get? r = some k := by
    intro r k hcop hi
    obtain ⟨l, hl, hkl⟩ := hcop.2.of_object.resolve_left fun hshared => hi hshared.1
    cases hkl
    exact hl
  have hcontainer : ∀ r k o, copied (.object r) (.object k) → ¬ immutable r → h.get? r = some o →
      o.type = .set ∨ o.type = .map → o.WellIndexed ∧ s.memo.get? r = some k ∧ k ≠ r := by
    intro r k o hcop hi hr hot
    have hrk := hmutable r k hcop hi
    refine ⟨hw o (Heap.mem_of_get? hr), hmemo ▸ hrk, ?_⟩
    rintro rfl
    -- a new set or map can always be made, so none is returned in place of a copy
    rcases htold.recorded k k hrk with ⟨-, horig⟩ | ⟨hge, -⟩
    · rw [← (hcop.1 k rfl).type_eq hr] at hot
      exact Setting.not_returnsOriginal hot horig
    · exact absurd (hcop.1 k rfl).address_lt (Nat.not_lt.mpr hge)
  refine ⟨fun r k hans => ?_, fun r k l hcop hcop' => hcop.2.unique hcop'.2, ?_, fun r k hcop => ?_,
    fun r k m hcop hi hr => ?_, fun r k m hcop hi hr => ?_⟩
  · obtain ⟨hr, hcop⟩ := htold.answered r k hans
    exact ⟨Heap.holds_object hr, hcop⟩
  · intro q r k l hq hr
    simp only [copied, hmemo] at hq hr
    exact hs.tidy.copied_injective (hq.1 q rfl) (hr.1 r rfl) hq.2 hr.2
  · refine ⟨fun hi => hcop.2.eq_iff.mpr (.inl hi), fun hi => ?_⟩
    exact htold.recorded r k (hmutable r k hcop hi)
  · obtain ⟨hm, hrk, hne⟩ := hcontainer r k _ hcop hi hr (.inl rfl)
    simp only [copied, hheap, hmemo]
    exact hs.set_copied hr hm hrk hne
  · obtain ⟨hm, hrk, hne⟩ := hcontainer r k _ hcop hi hr (.inr rfl)
    simp only [copied, hheap, hmemo]
    exact hs.map_copied hr hm hrk hne

/-- A map that has itself as a key for a set, and a list as a key for the list; the set holds the list and
the map. -/
theorem deepClone_selfKeyed_map :
    let types := (Specs.mk [] "").types
    let list : Value := .object ⟨.list, 0⟩
    let set : Value := .object ⟨.set, 1⟩
    let map : Value := .object ⟨.map, 2⟩
    let members : OrderedSet := .ofList [list, .int 3, map]
    let entries : OrderedMap := .ofList [(map, set), (list, list)]
    let h : Heap := ⟨#[.list [], .set members, .map entries], 1⟩
    let call := (create .standard).deepClone types h .empty map
    call.1 = .ok (.object ⟨.map, 3⟩) ∧
      ∃ members' entries', call.2.heap.get? ⟨.set, 4⟩ = some (.set members') ∧
        call.2.heap.get? ⟨.map, 3⟩ = some (.map entries') ∧ members'.WellIndexed ∧
        members'.members.length = 3 ∧ members'.contains (.object ⟨.map, 3⟩) = true ∧
        Option.Rel ((create .standard).setting types |>.Copied call.2.memo) (entries.get? map)
          (entries'.get? (.object ⟨.map, 3⟩)) := by
  intro types list set map members entries h call
  have hindexed : h.WellIndexed := by
    simp only [Heap.WellIndexed, h, List.forall_mem_cons, List.not_mem_nil, false_imp_iff, implies_true,
      and_true]
    exact ⟨trivial, OrderedSet.wellIndexed_ofList _, OrderedMap.wellIndexed_ofList _⟩
  have hw : h.WellFormed (Specs.mk [] "").layout := by
    refine ⟨by decide, ?_⟩
    simp [h, Object.WellFormed]
    decide
  have hp : types.PlainRecords (Specs.mk [] "").path (Specs.mk [] "").layout h :=
    Specs.plainRecords (by decide)
  have ht : types.Coherent := (Specs.mk [] "").types_coherent
  have hk : Knowledge.Sound types .plain ⟨.empty, []⟩ :=
    Knowledge.sound_of_no_verdicts (DescriptorCache.faithful_empty _)
  have hcall : call.1 = .ok (.object ⟨.map, 3⟩) := by decide +kernel
  have hrun : (create .standard).deepClone types h .empty map = (.ok (.object ⟨.map, 3⟩), call.2) :=
    Prod.ext hcall rfl
  obtain ⟨hans, -, -, -, hset, hmap⟩ :=
    deepClone_injective ht (hp.closedOn hw) hindexed hk rfl (by decide) hrun
  have hmap' := hans ⟨.map, 2⟩ ⟨.map, 3⟩ (by decide +kernel)
  have hset' := hans ⟨.set, 1⟩ ⟨.set, 4⟩ (by decide +kernel)
  obtain ⟨entries', hentries, hcopied⟩ := hmap _ _ entries hmap'
    (SharingRules.not_immutable_of_kind nofun) rfl
  obtain ⟨members', hmembers, hcopied'⟩ := hset _ _ members hset'
    (SharingRules.not_immutable_of_kind nofun) rfl
  have hlength : members'.members.length = 3 := hcopied'.members.length_eq.symm
  have hcontains : members'.contains (.object ⟨.map, 3⟩) = true := hcopied'.contains _ _ hmap'
  refine ⟨hcall, members', entries', hmembers, hentries, hcopied'.indexed, hlength, hcontains, ?_⟩
  exact (hcopied.get _ _ hmap').imp fun _ _ hxy => hxy.2

/-- Sets and maps that are immutable stay as they are also where what they hold is copied: neither the
set nor the map knows the copy of the list. -/
theorem marked_containers_keep_originals :
    let types := (Specs.mk [] "").types
    let list : Value := .object ⟨.list, 0⟩
    let members : OrderedSet := .ofList [list]
    let entries : OrderedMap := .ofList [(list, .int 7)]
    let h : Heap := ⟨#[.list [], .set members, .map entries,
      .list [.object ⟨.set, 1⟩, .object ⟨.map, 2⟩, list]], 1⟩
    let call := (((create .standard).mark .set).mark .map).deepClone types h .empty (.object ⟨.list, 3⟩)
    let answered r k := Event.answered r (.ok k) ∈ call.2.journal
    call.1 = .ok (.object ⟨.list, 4⟩) ∧ answered ⟨.list, 0⟩ ⟨.list, 5⟩ ∧
      answered ⟨.set, 1⟩ ⟨.set, 1⟩ ∧ call.2.heap.get? ⟨.set, 1⟩ = some (.set members) ∧
      members.contains list = true ∧ members.contains (.object ⟨.list, 5⟩) = false ∧
      answered ⟨.map, 2⟩ ⟨.map, 2⟩ ∧ call.2.heap.get? ⟨.map, 2⟩ = some (.map entries) ∧
      entries.get? list = some (.int 7) ∧ entries.get? (.object ⟨.list, 5⟩) = none := by
  decide +kernel

end Cloner
end GraphCopy
