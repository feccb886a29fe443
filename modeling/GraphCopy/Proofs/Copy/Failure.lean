import GraphCopy.Proofs.Copy.Call
import GraphCopy.Proofs.Copy.Constants
import GraphCopy.Proofs.Value.Accepting

/-!
# When a call fails

A call needs a copy of every mutable object that is in reach by way of mutable
objects. It fails exactly when one of these cannot be copied: a record without
a way to make an instance, or with a field that cannot be read or written.
Nothing else goes wrong: what was read from an item or a field fits where its
copy is stored, also while that copy is unfinished.
-/

namespace GraphCopy

/-- The objects that the copy of a value needs copies of: mutable ones in reach by way of mutable ones. -/
inductive Scene.Requires (s : Scene) (v : Value) : Ref → Prop
  | root {r} (hv : v = .object r) (hm : ¬ s.sharing.Immutable s.types (s.types.describe r.type)) :
      Requires s v r
  | step {q r} (hq : Requires s v q) (hr : .object r ∈ s.heap.shown s.types q)
      (hm : ¬ s.sharing.Immutable s.types (s.types.describe r.type)) : Requires s v r

namespace Setting

structure Unmakeable (c : Setting) (d : Descriptor) (o : Object) : Prop where
  construct : d.construct = none
  copyConstruct : ∀ copy, d.copyConstruct = some copy → copy o = none
  roundTrip : c.options.serializationFallback = true → ∀ trip, d.roundTrip = some trip →
    ∀ tick, ∃ e, trip tick o = .error e

/-- A record that no instance can be made for, or with a field that cannot be read or written. -/
def Uncopyable (c : Setting) (h : Heap) (r : Ref) : Prop :=
  ∃ i o, r.type = .host i ∧ h.get? r = some o ∧
    (c.Unmakeable (c.types.describe r.type) o ∨
      ∃ f ∈ (c.types.describe r.type).instanceFields, (∀ tick, ∃ e, f.get o tick = .error e) ∨
        ∀ o₁ v, o₁.type = r.type → ∃ e, f.set o₁ v = .error e)

end Setting

def Object.IsInstance (layouts : Nat → Layout) (i : Nat) (o : Object) : Prop :=
  o.type = .host i ∧ o.WellFormed layouts

structure TypeInfo.OrdinaryRecord (path : TypeId → String) (layouts : Nat → Layout) (i : Nat)
    (t : TypeInfo) : Prop where
  selfClone : t.selfClone = none
  record : t.SlotRecord path i (layouts i)
  construct : ∀ make, t.descriptor.construct = some make → ∀ tick, (make tick).IsInstance layouts i
  copyConstruct : ∀ copy, t.descriptor.copyConstruct = some copy →
    ∀ o o', o.IsInstance layouts i → copy o = some o' → o'.IsInstance layouts i
  roundTrip : ∀ trip, t.descriptor.roundTrip = some trip →
    ∀ tick o o', o.IsInstance layouts i → trip tick o = .ok o' → o'.IsInstance layouts i
  breeds : t.Breeds (.host i)
  steady : ∀ trip, t.descriptor.roundTrip = some trip → ∀ tick tick' o o',
    o.IsInstance layouts i → trip tick o = .ok o' → ∃ o'', trip tick' o = .ok o''

def Types.OrdinaryRecords (types : Types) (path : TypeId → String) (layouts : Nat → Layout) (h : Heap) :
    Prop :=
  ∀ o ∈ h.objects.toList, ∀ i, o.type = .host i →
    (types.info (.host i)).OrdinaryRecord path layouts i

def Heap.WellTyped (h : Heap) : Prop := ∀ a, .array a ∈ h.objects.toList → a.WellTyped

variable {types : Types} {path : TypeId → String} {layouts : Nat → Layout} {h : Heap} {r : Ref}
  {o : Object} {i : Nat} {v w : Value}

theorem Scene.Requires.cons {s : Scene} {q x : Ref}
    (hq : ¬ s.sharing.Immutable s.types (s.types.describe q.type))
    (hr : .object r ∈ s.heap.shown s.types q) (hx : s.Requires (.object r) x) :
    s.Requires (.object q) x := by
  induction hx with
  | root hv hm =>
    cases hv
    exact .step (.root rfl hq) hr hm
  | step _ hx hm ih => exact .step ih hx hm

namespace Types.OrdinaryRecords

theorem record (hp : types.OrdinaryRecords path layouts h) (hr : h.get? r = some o)
    (hot : o.type = .host i) : (types.info (.host i)).OrdinaryRecord path layouts i :=
  hp o (Heap.mem_of_get? hr) i hot

theorem record_of_has (hp : types.OrdinaryRecords path layouts h) (hr : h.Has r)
    (ht : r.type = .host i) : (types.info (.host i)).OrdinaryRecord path layouts i := by
  obtain ⟨o, ho, hot⟩ := hr
  exact hp.record ho (hot.trans ht)

theorem closedOn (hp : types.OrdinaryRecords path layouts h) (hw : h.WellFormed layouts) :
    types.ClosedOn h := by
  refine closedOn_of_wellFormed hw
    (fun o ho i hot => ⟨(hp o ho i hot).record.collection, (hp o ho i hot).record.map⟩) ?_
  intro o ho i hot f hf tick v hv
  obtain ⟨place, -, hacts⟩ := (hp o ho i hot).record.fields.exists_of_mem_left hf
  obtain ⟨slot, hslot, rfl⟩ := hacts.exists_slot hot hv
  exact ⟨slot, List.mem_of_getElem? hslot, _, rfl⟩

end Types.OrdinaryRecords

namespace Ground

variable {g : Ground}

theorem StandsFor.replaces (hvw : g.StandsFor v w) (hb : ∀ r, v = .object r → g.Breeds r.type) :
    w.Replaces v := by
  cases hvw with
  | plain hv hvw => exact .plain hv hvw
  | object hk => exact .object (hk (hb _ rfl))

theorem unmakeable_of_refused {tick : Nat} {e : CopyError}
    (hp : (g.types.info (.host i)).OrdinaryRecord g.path g.layouts i) (ho : o.IsInstance g.layouts i)
    (h : g.structuralShell (g.types.describe (.host i)) tick o = .error e) :
    g.Unmakeable (g.types.describe (.host i)) o := by
  simp only [Setting.structuralShell] at h
  split at h
  · cases h
  · next hcon =>
    split at h
    · cases h
    · next hcopy =>
      refine ⟨hcon, fun copy hc => by simpa [hc] using hcopy, fun hfall trip htrip tick' => ?_⟩
      cases hres : trip tick' o with
      | error e => exact ⟨e, rfl⟩
      | ok o' =>
        obtain ⟨o'', ho''⟩ := hp.steady trip htrip tick' tick o o' ho hres
        simp only [Setting.fallbackShell, hfall, htrip, ho''] at h
        cases h

theorem isInstance_of_shell {tick : Nat} {shell : Object}
    (hp : (g.types.info (.host i)).OrdinaryRecord g.path g.layouts i) (ho : o.IsInstance g.layouts i)
    (h : g.structuralShell (g.types.describe (.host i)) tick o = .ok (some shell)) :
    shell.IsInstance g.layouts i := by
  rcases Setting.structuralShell_some h with
    ⟨make, hmake, rfl⟩ | ⟨copy, hcopy, hshell⟩ | ⟨-, trip, htrip, hshell⟩
  · exact hp.construct make hmake tick
  · exact hp.copyConstruct copy hcopy o shell ho hshell
  · exact hp.roundTrip trip htrip tick o shell ho hshell

def scene (g : Ground) : Scene := ⟨g.types, g.sharing, g.heap⟩

variable (hp : g.types.OrdinaryRecords g.path g.layouts g.heap)

include hp

theorem structural (hr : g.heap.Has r) (ht : r.type = .host i) : g.Structural i :=
  have hrec := hp.record_of_has hr ht
  ⟨hrec.selfClone, hrec.record, hrec.breeds⟩

theorem breeds_of_has (hr : g.heap.Has r) : g.Breeds r.type := by
  cases ht : r.type with
  | host i => exact (hp.record_of_has hr ht).breeds
  | _ => exact Types.breeds_container (by simp)

omit hp in
theorem isInstance (hr : g.heap.get? r = some o) (hot : o.type = .host i) : o.IsInstance g.layouts i :=
  ⟨hot, g.objects o (Heap.mem_of_get? hr)⟩

theorem always_unreadable {f : Field} {tick : Nat} {e : String} (hr : g.heap.get? r = some o)
    (hot : o.type = .host i) (hf : f ∈ (g.types.describe (.host i)).instanceFields)
    (he : f.get o tick = .error e) (tick' : Nat) : ∃ e, f.get o tick' = .error e := by
  obtain ⟨place, hplace, hacts⟩ := (hp.record hr hot).record.fields.exists_of_mem_left hf
  rcases hacts.get with hget | hfail
  · obtain ⟨slot, hslot, -⟩ := (g.objects o (Heap.mem_of_get? hr)).holds hot place hplace
    simp [hget, Field.ofSlot, Owner.slots?, hot, hslot] at he
  · exact hfail o tick' hot

theorem always_unwritable {f : Field} {tick moment : Nat} {shell o₁ : Object} {e : String}
    (hr : g.heap.get? r = some o) (hot : o.type = .host i)
    (hshell : g.structuralShell (g.types.describe (.host i)) moment o = .ok (some shell))
    (hf : f ∈ (g.types.describe (.host i)).instanceFields) (hget : f.get o tick = .ok v)
    (hvw : g.StandsFor v w) (ht : o₁.type = shell.type)
    (hlen : o₁.slots.length = shell.slots.length) (he : f.set o₁ w = .error e) (o₂ : Object) (u : Value)
    (hot₂ : o₂.type = .host i) : ∃ e, f.set o₂ u = .error e := by
  have hrec := hp.record hr hot
  obtain ⟨place, hplace, hacts⟩ := hrec.record.fields.exists_of_mem_left hf
  rcases hacts.set with hset | hfail
  · -- the slot is there, and it takes the value
    obtain ⟨hst, hsw⟩ := isInstance_of_shell hrec (isInstance hr hot) hshell
    obtain ⟨slot₁, hslot₁, -⟩ := hsw.holds hst place hplace
    have hlt : place.1 < o₁.slots.length := hlen ▸ (List.getElem?_eq_some_iff.mp hslot₁).1
    obtain ⟨slot, hslot, rfl⟩ := hacts.exists_slot hot hget
    obtain ⟨slot', hslot', hholds⟩ := (g.objects o (Heap.mem_of_get? hr)).holds hot place hplace
    obtain rfl : slot' = slot := Option.some.inj (hslot'.symm.trans hslot)
    have hbreeds : ∀ q, slot'.read ⟨tick, place.1⟩ = .object q → g.Breeds q.type := fun q hq =>
      breeds_of_has hp (g.closed.fields r o hr f (hot.symm ▸ hf) tick _ hget q hq)
    obtain ⟨stored, hstored⟩ : ∃ stored, place.2.store g.path w = .ok stored :=
      Storage.store_of_replaces hholds (hvw.replaces hbreeds)
    rw [hset, Field.ofSlot_set_ok (ht.trans hst) hlt hstored] at he
    cases he
  · exact hfail o₂ u hot₂

/-- Where a copy fails, a copy is needed of something that cannot be copied. -/
theorem requires_of_fails (ha : g.heap.WellTyped) (hl : g.options.maxDepth = none)
    (hr : g.heap.Has r) (hf : g.Fails r) :
    ∃ q, g.scene.Requires (.object r) q ∧ g.Uncopyable g.heap q := by
  induction hf with
  | part hq hrq hf ih =>
    have hq' := hr
    obtain ⟨x, hx, hbad⟩ := ih (Heap.holds_of_mem_shown g.closed hr hrq _ rfl)
    exact ⟨x, hx.cons hq hrq, hbad⟩
  | @refused r i o tick e hm hi ho he =>
    obtain ⟨o', ho', hot⟩ := hr
    obtain rfl : o' = o := Option.some.inj (ho'.symm.trans ho)
    have hoi := hot.trans hi
    refine ⟨r, .root rfl hm, i, o', hi, ho, .inl ?_⟩
    rw [hi] at he ⊢
    exact unmakeable_of_refused (hp.record ho hoi) (isInstance ho hoi) he
  | @unreadable r o f tick e hm ho hfm he =>
    obtain ⟨o', ho', hot⟩ := hr
    obtain rfl : o' = o := Option.some.inj (ho'.symm.trans ho)
    obtain ⟨i, hi⟩ := Types.host_of_mem_instanceFields hfm
    have hoi := hot.trans hi
    refine ⟨r, .root rfl hm, i, o', hi, ho, .inr ⟨f, hfm, .inl fun tick' => ?_⟩⟩
    exact always_unreadable hp ho hoi (hi ▸ hfm) he tick'
  | @unwritable r o shell o₁ f moment tick v w e hm ho hshell hfm hget hvw ht hlen he =>
    obtain ⟨o', ho', hot⟩ := hr
    obtain rfl : o' = o := Option.some.inj (ho'.symm.trans ho)
    obtain ⟨i, hi⟩ := Types.host_of_mem_instanceFields hfm
    have hoi := hot.trans hi
    refine ⟨r, .root rfl hm, i, o', hi, ho, .inr ⟨f, hfm, .inr fun o₂ u ho₂ => ?_⟩⟩
    exact always_unwritable hp ho hoi (hi ▸ hshell) (hi ▸ hfm) hget hvw ht hlen he o₂ u (ho₂.trans hi)
  | @misfit r a v w hm ho hv hvw he =>
    have hsame := (hvw.replaces fun q hq =>
      breeds_of_has hp (g.closed.items r a ho v hv q hq)).admits_eq a.component
    rw [he, ha a (Heap.mem_of_get? ho) v hv] at hsame
    cases hsame
  | tooDeep hm hlim =>
    rw [hl] at hlim
    cases hlim
  | strange hm hr' hi hs => exact absurd (structural hp hr' hi) hs

omit hp in
theorem Settled.recorded {s : CopyState} (hs : g.Settled v w s) (hw : g.Whole)
    (hr : g.scene.Requires v r) : ∃ k, s.memo.get? r = some k := by
  induction hr with
  | root hv hm =>
    subst hv
    rcases hs.copied.of_object with ⟨hi, -⟩ | ⟨k, hk, -⟩
    · exact absurd hi hm
    · exact ⟨k, hk⟩
  | @step q r hq hr hm ih =>
    obtain ⟨k, hk⟩ := ih
    have hshape := ((hs.sane hw).2 q k hk).shape (hs.tidy.source q k hk).1
    obtain ⟨b, -, hb⟩ := hshape.values.exists_of_mem_left hr
    rcases hb.of_object with ⟨hi, -⟩ | ⟨l, hl, -⟩
    · exact absurd hi hm
    · exact ⟨l, hl⟩

theorem whole (hshare : g.options.shareSource = false) : g.Whole := by
  refine ⟨hshare, fun r hr => ?_, fun r hr => ?_, fun r hr => breeds_of_has hp hr⟩
  · cases ht : r.type with
    | host i => exact (hp.record_of_has hr ht).selfClone
    | _ => rfl
  · cases ht : r.type with
    | host i =>
      have hrec := hp.record_of_has hr ht
      exact .record hrec.record hrec.breeds
    | _ => exact Types.faithful_container (by simp)

omit hp in
theorem not_copyable_of_uncopyable (hbad : g.Uncopyable g.heap r) : ¬ g.Copyable r := by
  rintro ⟨o, ho, ⟨tick, shell, hshell⟩, hfields⟩
  obtain ⟨i, o', -, ho', hbad⟩ := hbad
  obtain rfl : o' = o := Option.some.inj (ho'.symm.trans ho)
  rcases hbad with ⟨hcon, hcopy, htrip⟩ | ⟨f, hf, hget | hset⟩
  · rcases Setting.structuralShell_some hshell with
      ⟨make, hmake, -⟩ | ⟨copy, hc, hmade⟩ | ⟨hfall, trip, ht, hmade⟩
    · rw [hcon] at hmake
      cases hmake
    · rw [hcopy copy hc] at hmade
      cases hmade
    · obtain ⟨e, he⟩ := htrip hfall trip ht tick
      rw [he] at hmade
      cases hmade
  · obtain ⟨⟨tick, v, hv⟩, -⟩ := hfields f hf
    obtain ⟨e, he⟩ := hget tick
    rw [hv] at he
    cases he
  · obtain ⟨-, o₁, w, o₂, hot₁, hw⟩ := hfields f hf
    obtain ⟨e, he⟩ := hset o₁ w hot₁
    rw [hw] at he
    cases he

theorem Settled.not_uncopyable {s : CopyState} (hs : g.Settled v w s)
    (hshare : g.options.shareSource = false) (hr : g.scene.Requires v r) : ¬ g.Uncopyable g.heap r := by
  intro hbad
  obtain ⟨k, hk⟩ := hs.recorded (whole hp hshare) hr
  obtain ⟨i, o, hi, ho, hwhy⟩ := hbad
  have hstruct := structural hp (hs.tidy.source r k hk).1 hi
  exact not_copyable_of_uncopyable ⟨i, o, hi, ho, hwhy⟩
    ((hs.kept r k hk).copyable (hs.ne_of_recorded hshare hk) i hi hstruct)

end Ground

namespace Cloner

/-- A call fails exactly when a copy is needed of something that cannot be copied. What the constants of
types are makes no difference to it. -/
theorem deepClone_fails_iff {c : Cloner} {cache : DescriptorCache} (ht : types.Coherent)
    (hp : types.OrdinaryRecords path layouts h) (hw : h.WellFormed layouts) (ha : h.WellTyped)
    (hk : Knowledge.Sound types c.sharing ⟨cache, c.verdicts⟩) (hσ : c.strategies = .builtin)
    (hl : c.options.maxDepth = none) (hshare : c.options.shareSource = false) (hv : h.Holds v) :
    let call := c.deepClone types h cache v
    ((∃ e, call.1 = .error (.failed e)) ↔
      ∃ r, (c.scene types h).Requires v r ∧ (c.setting types).Uncopyable h r) ∧
    call.1 ≠ .error .cutOff ∧
    ∀ types' cache' verdicts', types.SameState types' →
      (∀ t, c.sharing.grants (types'.describe t) = c.sharing.grants (types.describe t)) →
      Knowledge.Sound types' c.sharing ⟨cache', verdicts'⟩ →
      let call' := { c with verdicts := verdicts' }.deepClone types' h cache' v
      call'.1 = call.1 ∧ call'.2.heap = call.2.heap ∧ call'.2.memo = call.2.memo ∧
        call'.2.journal = call.2.journal := by
  intro call
  let g : Ground := ⟨c.setting types, h, path, layouts, hσ, ht, hp.closedOn hw, hw.objects⟩
  have hcall : call = (ofGround g c.verdicts).deepClone types h cache v :=
    deepClone_eq_ofGround (g := g) rfl
  have hcut : call.1 ≠ .error .cutOff := hcall ▸ deepClone_ne_cutOff (g := g) hk hv
  refine ⟨⟨?_, ?_⟩, hcut, fun types' cache' verdicts' hs hg hk' => ?_⟩
  · rintro ⟨e, he⟩
    obtain ⟨r, rfl, hf⟩ := deepClone_fails (g := g) hk hv (hcall ▸ he)
    exact Ground.requires_of_fails (g := g) hp ha hl (hv r rfl) hf
  · rintro ⟨r, hr, hbad⟩
    match hres : call.1 with
    | .error (.failed e) => exact ⟨e, rfl⟩
    | .error .cutOff => exact absurd hres hcut
    | .ok w =>
      obtain ⟨s, hs, -⟩ := deepClone_settled (g := g) hk hv (hcall.symm.trans (Prod.ext hres rfl))
      exact absurd hbad (hs.not_uncopyable hp hshare hr)
  · exact deepClone_sameState ht hs hg (hσ ▸ Registry.builtin_indifferent hs) hk hk'

/-- A record without constructors, with a constant of the type that may be made unreadable. -/
def meterSpecs (limitError : Option String) : Specs where
  hosts :=
    [{ TypeSpec.bare "Meter" "Meter" with
        fields :=
          [{ FieldSpec.plain "LIMIT" .value with
              constant := true, typeLevel := true, typeConstant := some (.int 5)
              getError := limitError },
            .plain "peer" .value] }]
  containerPath := ""

def meterHeap : Heap := ⟨#[.host 0 [.value .null] [], .list [.int 1, .object ⟨.host 0, 0⟩]], 1⟩

def meterLayout (_ : Nat) : Layout := ⟨"Meter", [(0, .value)]⟩

theorem meterHeap_wellFormed : meterHeap.WellFormed meterLayout := by
  refine ⟨by decide, fun o ho => ?_⟩
  simp only [meterHeap, List.mem_cons, List.not_mem_nil, or_false] at ho
  rcases ho with rfl | rfl
  · rintro place hplace
    obtain rfl : place = (0, .value) := by simpa [meterLayout] using hplace
    exact ⟨_, rfl, trivial⟩
  · trivial

theorem meterSpecs_ordinaryRecords (limitError : Option String) :
    (meterSpecs limitError).types.OrdinaryRecords (meterSpecs limitError).path meterLayout meterHeap := by
  intro o ho i hot
  obtain rfl : i = 0 := by
    simp only [meterHeap, List.mem_cons, List.not_mem_nil, or_false] at ho
    rcases ho with rfl | rfl <;> cases hot
    rfl
  have hpeer := (FieldSpec.field_liesAt ⟨.host 0, "Meter"⟩ (meterSpecs limitError).path 0
    (f := .plain "peer" .value) rfl).1.actsOn
  refine ⟨rfl, ⟨rfl, rfl, .cons hpeer .nil, by simp [meterLayout]⟩, nofun, nofun, nofun,
    ⟨nofun, nofun, nofun, nofun, nofun, nofun⟩, nofun⟩

theorem meterSpecs_sameState (e e' : Option String) :
    (meterSpecs e).types.SameState (meterSpecs e').types := by
  refine ⟨fun t => ?_, fun t => ?_, fun t => ?_, fun t => ?_⟩
  · cases t with
    | host i =>
      cases i with
      | zero =>
        refine ⟨rfl, rfl, rfl, rfl, rfl, rfl, rfl, .cons ⟨rfl, rfl, ?_⟩ (.cons ⟨rfl, rfl, ?_⟩ .nil)⟩
        · -- the constant is no state of an instance
          nofun
        · exact fun _ => rfl
      | succ i => exact ⟨rfl, rfl, rfl, rfl, rfl, rfl, rfl, .nil⟩
    | _ => exact ⟨rfl, rfl, rfl, rfl, rfl, rfl, rfl, .nil⟩
  all_goals
    cases t with
    | host i => cases i <;> rfl
    | _ => rfl

/-- The meter cannot be made; that its constant cannot be read either makes no difference. -/
theorem deepClone_meterHeap_fails :
    let root : Value := .object ⟨.list, 1⟩
    let call (limitError : Option String) :=
      (create .standard).deepClone (meterSpecs limitError).types meterHeap .empty root
    (∃ e, (call (some "locked")).1 = .error (.failed e)) ∧
      (call none).1 = (call (some "locked")).1 := by
  intro root call
  have hk : ∀ e, Knowledge.Sound (meterSpecs e).types .plain ⟨.empty, []⟩ :=
    fun e => Knowledge.sound_of_no_verdicts (DescriptorCache.faithful_empty _)
  obtain ⟨hiff, -, hsame⟩ := deepClone_fails_iff (c := create .standard) (v := root)
    (meterSpecs (some "locked")).types_coherent (meterSpecs_ordinaryRecords _) meterHeap_wellFormed
    (by simp [Heap.WellTyped, meterHeap]) (hk _) rfl rfl rfl (by decide)
  have hmutable : ∀ t, (SharingRules.plain.isImmutable (meterSpecs (some "locked")).types
      ((meterSpecs (some "locked")).types.describe t) .empty).1 = false →
      ¬ SharingRules.plain.Immutable (meterSpecs (some "locked")).types
        ((meterSpecs (some "locked")).types.describe t) := fun t hno hi => by
    have hyes := (SharingRules.isImmutable_judges (meterSpecs _).types_coherent (hk _)).2.mpr hi
    exact absurd (hno.symm.trans hyes) (by decide)
  refine ⟨hiff.mpr ⟨⟨.host 0, 0⟩, ?_, 0, _, rfl, rfl, .inl ⟨rfl, nofun, nofun⟩⟩, ?_⟩
  · exact .step (.root rfl (hmutable .list (by decide +kernel))) (by decide +kernel)
      (hmutable (.host 0) (by decide +kernel))
  · exact (hsame (meterSpecs none).types .empty [] (meterSpecs_sameState _ _) (fun t => rfl) (hk _)).1

end Cloner
end GraphCopy
