import GraphCopy.Proofs.Copy.Call
import GraphCopy.Proofs.Graph.Paths

/-!
# Sharing survives copying

Two paths that lead to one object lead to one object in the copy, too, unless
one of them goes through an object that stays as it is and the other does not:
below an immutable object, a source that is returned or a copy that an object
made of itself, a path goes on among the sources. `deepClone_paths` says which
is which.
-/

namespace GraphCopy

structure Types.Lawful (types : Types) (path : TypeId → String) (layouts : Nat → Layout) (t : TypeId) :
    Prop where
  breeds : (types.info t).Breeds t
  faithful : (types.info t).selfClone = none → types.Faithful path layouts t
  shallow : ∀ f, (types.info t).selfClone = some f → ∀ o, o.type = t →
    shapeOf types (types.describe t) (f o) = shapeOf types (types.describe t) o

theorem Types.lawful_container {types : Types} {path : TypeId → String} {layouts : Nat → Layout}
    {t : TypeId} (ht : ∀ i, t ≠ .host i) : types.Lawful path layouts t := by
  refine ⟨breeds_container ht, fun _ => faithful_container ht, fun f hf => ?_⟩
  rw [selfClone_container ht] at hf
  cases hf

namespace Setting

/-- What the object shows is not copied: it is shared, returned, or makes its own copy. -/
def Stays (c : Setting) (m : Memo) (r : Ref) : Prop :=
  c.sharing.Immutable c.types (c.types.describe r.type) ∨ m.get? r = some r ∨
    (c.types.info r.type).selfClone.isSome = true

def OwnCopy (c : Setting) (m : Memo) (r : Ref) : Prop :=
  c.sharing.Immutable c.types (c.types.describe r.type) ∨ m.get? r = some r

variable {c : Setting} {m : Memo} {r k l : Ref}

theorem Copied.unique (hk : c.Copied m (.object r) (.object k)) (hl : c.Copied m (.object r) (.object l)) :
    k = l := by
  cases hk with
  | plain hv => cases hv
  | shared hi =>
    cases hl with
    | plain hv => cases hv
    | shared _ => rfl
    | recorded hi' => exact absurd hi hi'
  | recorded hi hm =>
    cases hl with
    | plain hv => cases hv
    | shared hi' => exact absurd hi' hi
    | recorded _ hm' => exact Option.some.inj (hm.symm.trans hm')

theorem Copied.eq_iff (hk : c.Copied m (.object r) (.object k)) : k = r ↔ c.OwnCopy m r := by
  cases hk with
  | plain hv => cases hv
  | shared hi => exact ⟨fun _ => .inl hi, fun _ => rfl⟩
  | recorded hi hm =>
    refine ⟨fun hkr => .inr (hkr ▸ hm), fun hown => ?_⟩
    exact Option.some.inj (hm.symm.trans (hown.resolve_left hi))

end Setting

namespace Ground.Settled

variable {g : Ground} {s : CopyState} {v w u u' x : Value} {q r k : Ref} {e : Edge} {path : List Edge}

theorem next?_selfCloned (hs : g.Settled v w s) (hk : s.memo.get? r = some k) (hne : k ≠ r)
    (hlaw : g.types.Lawful g.path g.layouts r.type) {f : Object → Object}
    (hf : (g.types.info r.type).selfClone = some f) :
    s.heap.next? g.types e (.object k) = g.heap.next? g.types e (.object r) := by
  obtain ⟨o, ho, hcopy⟩ := (hs.kept r k hk).selfCloned hne f hf
  obtain ⟨o', ho', hot⟩ := (hs.tidy.source r k hk).1
  obtain rfl : o' = o := Option.some.inj (ho'.symm.trans ho)
  simp only [Heap.next?, Heap.shape, hs.tidy.type r k hk hlaw.breeds, ho, hcopy,
    hlaw.shallow f hf o' hot]

theorem next?_copied (hs : g.Settled v w s) (hk : s.memo.get? r = some k)
    (hstays : ¬ g.Stays s.memo r) (hlaw : g.types.Lawful g.path g.layouts r.type)
    (hu : g.heap.next? g.types e (.object r) = some u) :
    ∃ u', s.heap.next? g.types e (.object k) = some u' ∧ g.Copied s.memo u u' := by
  have hne : k ≠ r := by
    rintro rfl
    exact hstays (.inr (.inl hk))
  have hself : (g.types.info r.type).selfClone = none :=
    Option.not_isSome_iff_eq_none.mp fun h => hstays (.inr (.inr h))
  have hshape := ((hs.kept r k hk).mirrored hne hself (hlaw.faithful hself)).shape (hs.tidy.source r k hk).1
  obtain ⟨u', hu', hcop⟩ := hshape.exists_at? hu
  refine ⟨u', ?_, hcop⟩
  rw [← hs.tidy.type r k hk hlaw.breeds] at hu'
  exact hu'

/-- Once a path goes through an object that stays, it leads where it led in the source; before, it leads to
the copies. -/
theorem follow_copied (hs : g.Settled v w s) (hu : g.heap.Holds u) (hcop : g.Copied s.memo u u')
    (hlaw : ∀ q ∈ g.heap.trail g.types path u, g.types.Lawful g.path g.layouts q.type)
    (hx : g.heap.follow g.types path u = some x) :
    ∃ y, s.heap.follow g.types path u' = some y ∧
      (((∃ q ∈ g.heap.trail g.types path u, g.Stays s.memo q) ∧ y = x) ∨
        ((¬ ∃ q ∈ g.heap.trail g.types path u, g.Stays s.memo q) ∧ g.Copied s.memo x y)) := by
  induction path generalizing u u' with
  | nil =>
    cases hx
    exact ⟨u', rfl, .inr ⟨by simp [Heap.trail], hcop⟩⟩
  | cons e path ih =>
    obtain ⟨a, ha, hax⟩ := Option.bind_eq_some_iff.mp hx
    obtain ⟨r, rfl⟩ := Heap.exists_object_of_next? ha
    have hr := hu r rfl
    have hhold := Heap.holds_of_mem_shown g.closed hr (Heap.mem_shown_of_next? ha)
    rw [Heap.trail_cons ha] at hlaw ⊢
    obtain ⟨hlawr, hlaw⟩ := List.forall_mem_cons.mp hlaw
    -- below an object that stays, both paths go on in the source
    have hrest : ∀ k, s.heap.next? g.types e (.object k) = some a →
        s.heap.follow g.types (e :: path) (.object k) = some x := fun k hk => by
      simp only [Heap.follow, hk, Option.bind_some, hs.tidy.keeps.follow_eq g.closed hhold, hax]
    by_cases hstays : g.Stays s.memo r
    · have hin : ∃ q ∈ r :: g.heap.trail g.types path a, g.Stays s.memo q := ⟨r, by simp, hstays⟩
      have hsame : s.heap.next? g.types e (.object r) = some a :=
        (hs.tidy.keeps.next?_eq hr).trans ha
      rcases hcop.of_object with ⟨-, rfl⟩ | ⟨k, hk, rfl⟩
      · exact ⟨x, hrest r hsame, .inl ⟨hin, rfl⟩⟩
      · by_cases hkr : k = r
        · exact ⟨x, hrest k (hkr ▸ hsame), .inl ⟨hin, rfl⟩⟩
        · have himm := (hs.tidy.source r k hk).2
          have hself : (g.types.info r.type).selfClone.isSome = true := by
            refine (hstays.resolve_left himm).resolve_left fun hm => hkr ?_
            exact Option.some.inj (hk.symm.trans hm)
          obtain ⟨f, hf⟩ := Option.isSome_iff_exists.mp hself
          exact ⟨x, hrest k ((hs.next?_selfCloned hk hkr hlawr hf).trans ha), .inl ⟨hin, rfl⟩⟩
    · obtain ⟨k, hk, rfl⟩ := hcop.of_object.resolve_left fun h => hstays (.inl h.1)
      obtain ⟨a', ha', hcopa⟩ := hs.next?_copied hk hstays hlawr ha
      obtain ⟨y, hy, hway⟩ := ih hhold hcopa hlaw hax
      refine ⟨y, by simp only [Heap.follow, ha', Option.bind_some, hy], ?_⟩
      simpa only [List.exists_mem_cons_iff, hstays, false_or] using hway

theorem follow_object (hs : g.Settled v w s) (hv : g.heap.Holds v)
    (hlaw : ∀ q ∈ g.heap.trail g.types path v, g.types.Lawful g.path g.layouts q.type)
    (hr : g.heap.follow g.types path v = some (.object r)) :
    ∃ k, s.heap.follow g.types path w = some (.object k) ∧
      (((∃ q ∈ g.heap.trail g.types path v, g.Stays s.memo q) ∧ k = r) ∨
        ((¬ ∃ q ∈ g.heap.trail g.types path v, g.Stays s.memo q) ∧
          g.Copied s.memo (.object r) (.object k))) := by
  obtain ⟨y, hy, ⟨hin, rfl⟩ | ⟨hout, hcop⟩⟩ := hs.follow_copied hv hs.copied hlaw hr
  · exact ⟨r, hy, .inl ⟨hin, rfl⟩⟩
  · rcases hcop.of_object with ⟨-, rfl⟩ | ⟨k, -, rfl⟩
    · exact ⟨r, hy, .inr ⟨hout, hcop⟩⟩
    · exact ⟨k, hy, .inr ⟨hout, hcop⟩⟩

end Ground.Settled

namespace Cloner

/-- Two paths to one object lead to one object in the copy, too, if and only if both go through an object
that stays, or neither does, or the object is its own copy. -/
theorem deepClone_paths {c : Cloner} {types : Types} {path : TypeId → String} {layouts : Nat → Layout}
    {h : Heap} {cache : DescriptorCache} (ht : types.Coherent) (hc : types.ClosedOn h)
    (hw : h.WellFormed layouts) (hk : Knowledge.Sound types c.sharing ⟨cache, c.verdicts⟩)
    (hσ : c.strategies = .builtin) {v w : Value} (hv : h.Holds v) {after : Aftermath}
    (hrun : c.deepClone types h cache v = (.ok w, after)) :
    ∀ r p p', h.follow types p v = some (.object r) → h.follow types p' v = some (.object r) →
      (∀ q ∈ h.trail types p v ++ h.trail types p' v, types.Lawful path layouts q.type) →
      let stays q := (c.setting types).Stays after.memo q
      ∃ k k', after.heap.follow types p w = some (.object k) ∧
        after.heap.follow types p' w = some (.object k') ∧
        (k = k' ↔ ((∃ q ∈ h.trail types p v, stays q) ↔ ∃ q ∈ h.trail types p' v, stays q) ∨
          (c.setting types).OwnCopy after.memo r) := by
  let g : Ground := ⟨c.setting types, h, path, layouts, hσ, ht, hc, hw.objects⟩
  have hcall : c.deepClone types h cache v = (ofGround g c.verdicts).deepClone types h cache v :=
    deepClone_eq_ofGround (g := g) rfl
  obtain ⟨s, hs, hheap, hmemo⟩ := deepClone_settled (g := g) hk hv (hcall.symm.trans hrun)
  rw [hheap, hmemo]
  intro r p p' hp hp' hlaw stays
  obtain ⟨k, hk, hway⟩ := hs.follow_object hv (fun q hq => hlaw q (List.mem_append_left _ hq)) hp
  obtain ⟨k', hk', hway'⟩ := hs.follow_object hv (fun q hq => hlaw q (List.mem_append_right _ hq)) hp'
  refine ⟨k, k', hk, hk', ?_⟩
  rcases hway with ⟨hin, hkr⟩ | ⟨hout, hcop⟩ <;> rcases hway' with ⟨hin', hkr'⟩ | ⟨hout', hcop'⟩
  · cases hkr
    cases hkr'
    exact ⟨fun _ => .inl ⟨fun _ => hin', fun _ => hin⟩, fun _ => rfl⟩
  · cases hkr
    rw [eq_comm, hcop'.eq_iff]
    exact ⟨.inr, fun h => h.resolve_left fun hiff => hout' (hiff.mp hin)⟩
  · cases hkr'
    rw [hcop.eq_iff]
    exact ⟨.inr, fun h => h.resolve_left fun hiff => hout (hiff.mpr hin')⟩
  · exact ⟨fun _ => .inl ⟨fun h => absurd h hout, fun h => absurd h hout'⟩, fun _ => hcop.unique hcop'⟩

def tokenSpecs (selfClone : Bool) (copy : CopySpec) : Specs where
  hosts := [{ TypeSpec.bare "Token" "Token" with fields := [.plain "owner" .value], selfClone, copy }]
  containerPath := ""

/-- A list, a token that the list owns, and a list that holds the token, its owner and the token again. -/
def tokenHeap : Heap :=
  ⟨#[.list [], .host 0 [.value (.object ⟨.list, 0⟩)] [],
    .list [.object ⟨.host 0, 1⟩, .object ⟨.list, 0⟩, .object ⟨.host 0, 1⟩]], 1⟩

theorem tokenHeap_wellFormed : tokenHeap.WellFormed (tokenSpecs true .none).layout := by
  refine ⟨by decide, fun o ho => ?_⟩
  simp only [tokenHeap, List.mem_cons, List.not_mem_nil, or_false] at ho
  rcases ho with rfl | rfl | rfl
  · trivial
  · intro place hplace
    obtain rfl : place = (0, .value) := by
      simpa [tokenSpecs, Specs.layout, placesFrom, FieldSpec.plain] using hplace
    exact ⟨_, rfl, trivial⟩
  · trivial

theorem tokenSpecs_closedOn : (tokenSpecs true .none).types.ClosedOn tokenHeap := by
  have htoken : ∀ o ∈ tokenHeap.objects.toList, ∀ i, o.type = .host i → i = 0 := by
    simp [tokenHeap, Object.type]
  refine Types.closedOn_of_wellFormed tokenHeap_wellFormed
    (fun o ho i hi => by rw [htoken o ho i hi]; exact ⟨rfl, rfl⟩) ?_
  intro o ho i hi f hf tick v hv
  cases htoken o ho i hi
  have hlies := (FieldSpec.field_liesAt ⟨.host 0, "Token"⟩ (tokenSpecs true .none).path 0
    (f := .plain "owner" .value) rfl).1
  obtain rfl := List.mem_singleton.mp hf
  obtain ⟨-, slot, hslot, rfl⟩ := hlies.get_eq_ok.mp hv
  exact ⟨slot, List.mem_of_getElem? hslot, _, rfl⟩

theorem tokenSpecs_lawful :
    (tokenSpecs true .none).types.Lawful (tokenSpecs true .none).path (tokenSpecs true .none).layout
      (.host 0) := by
  refine ⟨⟨nofun, nofun, nofun, ?_, nofun, nofun⟩, nofun, ?_⟩
  · rintro f ⟨⟩ o ho
    exact ho
  · rintro f ⟨⟩ o -
    rfl

theorem deepClone_tokenHeap_paths :
    let types := (tokenSpecs true .none).types
    let root : Value := .object ⟨.list, 2⟩
    let call := (create .standard).deepClone types tokenHeap .empty root
    call.1 = .ok (.object ⟨.list, 3⟩) ∧
      ∃ k, call.2.heap.follow types [.item 0, .field 0] (.object ⟨.list, 3⟩) = some (.object k) ∧
        call.2.heap.follow types [.item 2, .field 0] (.object ⟨.list, 3⟩) = some (.object k) := by
  intro types root call
  have hcall : call.1 = .ok (.object ⟨.list, 3⟩) := by decide +kernel
  have hlaw : ∀ q ∈ [⟨.list, 2⟩, ⟨.host 0, 1⟩, ⟨.list, 2⟩, (⟨.host 0, 1⟩ : Ref)],
      types.Lawful (tokenSpecs true .none).path (tokenSpecs true .none).layout q.type := by
    simp only [List.forall_mem_cons, List.not_mem_nil, false_imp_iff, implies_true, and_true]
    exact ⟨Types.lawful_container nofun, tokenSpecs_lawful, Types.lawful_container nofun,
      tokenSpecs_lawful⟩
  obtain ⟨k, k', hk, hk', hiff⟩ := deepClone_paths (tokenSpecs true .none).types_coherent tokenSpecs_closedOn
    tokenHeap_wellFormed (Knowledge.sound_of_no_verdicts (DescriptorCache.faithful_empty _)) rfl
    (v := root) (by decide) (Prod.ext hcall rfl) ⟨.list, 0⟩ [.item 0, .field 0] [.item 2, .field 0]
    (by decide +kernel) (by decide +kernel) hlaw
  exact ⟨hcall, k, hk, hiff.mpr (.inl Iff.rfl) ▸ hk'⟩

def sackSpecs : Specs where
  hosts :=
    [{ TypeSpec.bare "Sack" "Sack" with
        kind := .collection, collection := true, emptyLike := some .set }]
  containerPath := ""

def sackHeap : Heap :=
  ⟨#[.list [], .host 0 [] [(.object ⟨.list, 0⟩, .null), (.object ⟨.list, 0⟩, .null)]], 1⟩

/-- The owner is also reached without the token. Where the token copies itself, is marked as immutable or
is returned for want of a constructor, the copies of these paths lead apart. Where a new container is of
another type, the copy of a path may lead nowhere. -/
theorem copies_lead_apart :
    let root : Value := .object ⟨.list, 2⟩
    let sack : Value := .object ⟨.host 0, 1⟩
    let sackCall := (create .standard).deepClone sackSpecs.types sackHeap .empty sack
    (∀ run ∈ [(tokenSpecs true .none, create .standard),
      (tokenSpecs false .shallow, (create .standard).mark (.host 0)),
      (tokenSpecs false .none, create { CopyOptions.standard with shareSource := true })],
      let types := run.1.types
      let call := run.2.deepClone types tokenHeap .empty root
      tokenHeap.follow types [.item 0, .field 0] root = some (.object ⟨.list, 0⟩) ∧
        tokenHeap.follow types [.item 1] root = some (.object ⟨.list, 0⟩) ∧
        call.1 = .ok (.object ⟨.list, 3⟩) ∧
        call.2.heap.follow types [.item 0, .field 0] (.object ⟨.list, 3⟩) = some (.object ⟨.list, 0⟩) ∧
        call.2.heap.follow types [.item 1] (.object ⟨.list, 3⟩) ≠ some (.object ⟨.list, 0⟩)) ∧
      sackHeap.follow sackSpecs.types [.item 0] sack = sackHeap.follow sackSpecs.types [.item 1] sack ∧
      sackCall.1 = .ok (.object ⟨.set, 2⟩) ∧
      (sackCall.2.heap.follow sackSpecs.types [.item 0] (.object ⟨.set, 2⟩)).isSome = true ∧
      sackCall.2.heap.follow sackSpecs.types [.item 1] (.object ⟨.set, 2⟩) = none := by
  simp only [List.forall_mem_cons, List.not_mem_nil, false_imp_iff, implies_true, and_true]
  decide +kernel

end Cloner
end GraphCopy
