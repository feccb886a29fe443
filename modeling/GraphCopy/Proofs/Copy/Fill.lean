import GraphCopy.Proofs.Container.Typed
import GraphCopy.Proofs.Copy.Confinement
import GraphCopy.Proofs.Copy.Outcome
import GraphCopy.Proofs.Sharing.Safety

/-!
# Filling a copy

A piece of a script asks for a copy and edits the copy that is being filled;
`Brings.ask` and `Brings.edit` say what either does, and `Brings.gather` goes
over a list. With these the copies of arrays, collections, maps and records
are filled: if nothing fails, they are kept, and if something fails, then for
one of the reasons in `Ground.Fails`.

A set and a map gain a member with each copy, since values with different keys
have copies with different keys. Fields may lie over one slot: what is written
last is the copy of the same content.
-/

theorem Except.ok_of_mapError {ε ε' α : Type} {x : Except ε α} {f : ε → ε'} {a : α}
    (h : x.mapError f = .ok a) : x = .ok a := by
  cases x with
  | ok b =>
    cases h
    rfl
  | error e => cases h

namespace GraphCopy

namespace FixedArray

variable {a b : FixedArray} {ws : List Value} {w : Value}

def begun (a : FixedArray) (ws : List Value) : FixedArray :=
  ⟨a.component, ws ++ List.replicate (a.length - ws.length) .null⟩

theorem begun_items (hws : ws.length = a.length) : (a.begun ws).items = ws := by
  simp [begun, hws]

theorem begun_set (hlt : ws.length < a.length) (h : (a.begun ws).set ws.length w = .ok b) :
    b = a.begun (ws ++ [w]) := by
  have hrep : a.length - ws.length = a.length - (ws.length + 1) + 1 := by omega
  rw [(set_eq_ok.mp h).2.2]
  simp [begun, hrep, List.replicate_succ]

end FixedArray

theorem FixedArray.not_admits_of_set {a : FixedArray} {w : Value} {i : Nat} {e : ArrayError}
    (hi : i < a.items.length) (h : a.set i w = .error e) : a.component.admits w = false := by
  unfold set at h
  split at h
  · next hadmit => simpa using hadmit
  · cases h

theorem Strategy.setItem_begun {a : FixedArray} {ws : List Value} {w : Value} {o : Object}
    (hlt : ws.length < a.length) (ha : (a.begun ws).WellTyped)
    (h : setItem ws.length w (.array (a.begun ws)) = .ok o) :
    o = .array (a.begun (ws ++ [w])) ∧ (a.begun (ws ++ [w])).WellTyped := by
  simp only [setItem] at h
  cases hset : (a.begun ws).set ws.length w with
  | error e =>
    rw [hset] at h
    cases h
  | ok b =>
    rw [hset] at h
    rw [← FixedArray.begun_set hlt hset, ← Except.ok.inj h]
    exact ⟨rfl, ha.set hset⟩

theorem Strategy.not_admits_of_setItem {a : FixedArray} {ws : List Value} {w : Value} {e : CopyError}
    (hlt : ws.length < a.length) (h : setItem ws.length w (.array (a.begun ws)) = .error e) :
    a.component.admits w = false := by
  have hlen : ws.length < (a.begun ws).items.length := by
    simp only [FixedArray.begun, List.length_append, List.length_replicate]
    omega
  simp only [setItem] at h
  cases hset : (a.begun ws).set ws.length w with
  | ok b =>
    rw [hset] at h
    cases h
  | error e' =>
    have hnot := FixedArray.not_admits_of_set hlen hset
    exact hnot

theorem ne_of_nodup_map {α β : Type} {f : α → β} {all done after : List α} {a b : α}
    (hn : (all.map f).Nodup) (hall : all = done ++ a :: after) (hb : b ∈ done) : f b ≠ f a := by
  rw [hall, List.map_append, List.map_cons, List.nodup_append] at hn
  exact hn.2.2 (f b) (List.mem_map_of_mem hb) (f a) (by simp)

theorem Types.ShowsFields.shapeOf_eq {types : Types} {o : Object} (hs : types.ShowsFields o.type)
    (ho : o.type ≠ .array) (d : Descriptor) :
    shapeOf types d o = .record ((d.readings o).map fun f => (f.1, f.2.toOption)) := by
  simp only [shapeOf, Object.array?_of_ne ho, hs.1, hs.2]

namespace Setting

variable {c : Setting} {v : Value}

def FieldCopied (c : Setting) (m : Memo) (o o' : Object) (f : Field) : Prop :=
  ∃ v w, f.get o 0 = .ok v ∧ f.get o' 0 = .ok w ∧ c.Copied m v w

/-- The copy of what a field read at some moment is stored; it reads as a copy of what the field reads at
any other moment. -/
theorem Copied.read_store {m : Memo} {storage : Storage} {path : TypeId → String} {slot slot' : Slot}
    {p : Place} {w : Value} (hs : storage.Holds slot) (hw : c.Copied m (slot.read p) w)
    (hstore : storage.store path w = .ok slot') (q q' : Place) :
    c.Copied m (slot.read q) (slot'.read q') := by
  have halike := slot.read_alike q p
  generalize hv : slot.read p = v at hw
  cases hw with
  | plain hp hvw =>
    rw [hv] at halike
    refine .plain (halike.object?_eq.trans hp) ?_
    exact Storage.read_store hs (halike.trans hvw) hstore
  | shared hi =>
    rw [hv] at halike
    rw [halike.symm.eq_of_madeAt fun _ => rfl, Storage.read_store_object hstore]
    exact .shared hi
  | recorded hi hm =>
    rw [hv] at halike
    rw [halike.symm.eq_of_madeAt fun _ => rfl, Storage.read_store_object hstore]
    exact .recorded hi hm

section Record

variable {owner : Owner} {path : TypeId → String} {f g : Field} {place q : Nat × Storage}
  {m : Memo} {o o₁ o₂ : Object} {w : Value} {tick : Nat}

theorem FieldCopied.mono {m' : Memo} (hm : m.Extends m') (hg : c.FieldCopied m o o₁ g) :
    c.FieldCopied m' o o₁ g := by
  obtain ⟨v, u, hv, hu, hvu⟩ := hg
  exact ⟨v, u, hv, hu, hvu.mono hm⟩

theorem FieldCopied.set_of_ne (hf : f.LiesAt owner path place) (hgq : g.LiesAt owner path q)
    (hne : q.1 ≠ place.1) (hset : f.set o₁ w = .ok o₂) (hg : c.FieldCopied m o o₁ g) :
    c.FieldCopied m o o₂ g := by
  obtain ⟨htype, -, -, -, -, hothers⟩ := hf.set_eq_ok hset
  obtain ⟨v, u, hv, hu, hvu⟩ := hg
  refine ⟨v, u, hv, hgq.get_eq_ok.mpr ?_, hvu⟩
  rw [hothers q.1 hne, htype]
  exact hgq.get_eq_ok.mp hu

theorem fieldCopied_of_set (hf : f.LiesAt owner path place) (hg : g.LiesAt owner path place)
    (hheld : ∀ slot, o.slots[place.1]? = some slot → place.2.Holds slot)
    (hget : f.get o tick = .ok v) (hvw : c.Copied m v w) (hset : f.set o₁ w = .ok o₂) :
    c.FieldCopied m o o₂ g := by
  obtain ⟨hot, slot, hslot, rfl⟩ := hf.get_eq_ok.mp hget
  obtain ⟨htype, hot₁, slot', hstore, hslot', -⟩ := hf.set_eq_ok hset
  exact ⟨_, _, hg.get_eq_ok.mpr ⟨hot, slot, hslot, rfl⟩,
    hg.get_eq_ok.mpr ⟨htype.trans hot₁, slot', hslot', rfl⟩,
    hvw.read_store (hheld slot hslot) hstore _ _⟩

theorem mirrors_of_fieldCopied {i : Nat} (hs : c.types.ShowsFields (.host i)) (hot : o.type = .host i)
    (hot₁ : o₁.type = .host i)
    (hall : ∀ f ∈ (c.types.describe (.host i)).instanceFields, c.FieldCopied m o o₁ f) :
    o.Mirrors c.types (c.Copied m) o₁ := by
  refine ⟨hot₁.trans hot.symm, ?_, ?_⟩
  · rw [Object.component?_of_host hot, Object.component?_of_host hot₁]
  · have hne : ∀ {x : Object}, x.type = .host i → x.type ≠ .array := fun hx => by simp [hx]
    have hshows : ∀ {x : Object}, x.type = .host i → c.types.ShowsFields x.type :=
      fun hx => hx.symm ▸ hs
    rw [hot, (hshows hot).shapeOf_eq (hne hot), (hshows hot₁).shapeOf_eq (hne hot₁)]
    refine .record ?_
    simp only [Descriptor.readings, List.map_map, List.forall₂_map_left_iff,
      List.forall₂_map_right_iff, Function.comp]
    refine List.forall₂_same.mpr fun f hf => ⟨rfl, ?_⟩
    obtain ⟨v, w, hv, hw, hvw⟩ := hall f hf
    rw [hv, hw]
    exact .some hvw

end Record

end Setting

namespace Ground

open CopyM

variable {g : Ground} {copy : Value → CopyM Value} {s₀ s : CopyState} {r k : Ref} {v : Value}
  {o x : Object} {P : Unit → CopyState → Prop} {Q : Prop}

theorem FailsAt.fails (hf : g.FailsAt v) (hm : g.Mutable r) (hv : v ∈ g.heap.shown g.types r) :
    g.Fails r := by
  obtain ⟨q, rfl, hq⟩ := hf
  exact .part hm hv hq

namespace Filling

variable (hf : g.Filling s r k)

include hf

theorem has : g.heap.Has r := (hf.tidy.source r k hf.recorded).1

theorem mutable : g.Mutable r := (hf.tidy.source r k hf.recorded).2

theorem ne : k ≠ r := by
  rintro rfl
  have hlt := hf.has.address_lt
  have hge := hf.fresh
  omega

theorem kept {s' : CopyState} (hself : (g.types.info r.type).selfClone = none)
    (hmir : g.Faithful r.type → g.Mirrored g.heap s' r k)
    (hcop : ∀ i, r.type = .host i → g.Structural i → g.Copyable r)
    (hindex : r.type = .set ∨ r.type = .map → ∃ o, s'.heap.get? k = some o ∧ o.WellIndexed)
    (htyped : r.type = .array → ∃ a, s'.heap.get? k = some (.array a) ∧ a.WellTyped) :
    g.Kept s' r k := by
  refine ⟨fun h => absurd h hf.ne, fun _ f hf => ?_, fun _ _ => hmir, fun _ => hcop, fun _ => hindex,
    fun ht => ⟨hf.ne, htyped ht⟩⟩
  rw [hself] at hf
  cases hf

end Filling

namespace Brings

variable (hcopy : g.Answering copy) (hf : g.Filling s₀ r k) (hb : g.Brings k.address s₀ s)

include hb in
theorem source_eq (hr : g.heap.get? r = some o) : s.heap.get? r = some o :=
  hb.tidy.keeps.get?_eq_some hr

include hb in
theorem look : g.Brings k.address s₀ (s.withHeap s.heap.tick) := hb.along hb.tidy.known rfl rfl

include hcopy hf hb

theorem ask {next : Except CopyError Value → Script} (hv : g.heap.Holds v)
    (hfail : ∀ e, ∃ e', next (.error e) = .fail e') (hQ : g.FailsAt v → Q)
    (hok : ∀ w s₁, g.Brings k.address s₀ s₁ → s.memo.Extends s₁.memo →
      s₁.heap.get? k = s.heap.get? k → g.Copied s₁.memo v w →
      ((next (.ok w)).run g.types copy).Ends s₁ P Q) :
    ((Script.copy v next).run g.types copy).Ends s P Q := by
  refine Script.copy_ends (hcopy v s hv hb.tidy) (fun w s₁ hw => ?_) hfail hQ
  have hlt := (hb.filling hf).exists_lt
  exact hok w s₁ (hb.request hlt.le hw.1) hw.1.grows (hw.1.keeps.get?_eq k hlt) hw.2

omit hcopy in
theorem edit {change : Object → Except CopyError Object} {rest : Script}
    (hx : s.heap.get? k = some x)
    (hok : ∀ x' s₁, change x = .ok x' → g.Brings k.address s₀ s₁ → s₁.memo = s.memo →
      s₁.heap.get? k = some x' → (rest.run g.types copy).Ends s₁ P Q)
    (herr : ∀ e, change x = .error e → Q) :
    ((Script.edit k change rest).run g.types copy).Ends s P Q := by
  refine Script.edit_ends hx (fun x' hx' => ?_) herr
  exact hok x' _ hx' (hb.look.put hf x') rfl (Heap.get?_put_self (hb.filling hf).exists_lt)

/-- A container that is built up from the copies of a list of values. -/
theorem gather {α : Type} {all : List α} {val : α → Value}
    {next : α → Script → Except CopyError Value → Script}
    (change : α → Value → Object → Except CopyError Object) (Built : List Value → Object → Prop)
    (hok : ∀ a rest w, next a rest (.ok w) = Script.edit k (change a w) rest)
    (hfail : ∀ a rest e, ∃ e', next a rest (.error e) = .fail e')
    (hheld : ∀ a ∈ all, g.heap.Holds (val a)) (hparts : ∀ a ∈ all, g.FailsAt (val a) → Q)
    (hchange : ∀ done a after ws w s x, all = done ++ a :: after → g.Tidy s →
      List.Forall₂ (fun a w => g.Copied s.memo (val a) w) done ws → g.Copied s.memo (val a) w →
      Built ws x → (∀ x', change a w x = .ok x' → Built (ws ++ [w]) x') ∧
        ∀ e, change a w x = .error e → Q)
    (hx : s.heap.get? k = some x) (h₀ : Built [] x)
    (hend : ∀ ws x s', g.Brings k.address s₀ s' → s'.heap.get? k = some x → Built ws x →
      List.Forall₂ (fun a w => g.Copied s'.memo (val a) w) all ws → P () s') :
    ((Script.each (fun a rest => .copy (val a) (next a rest)) all).run g.types copy).Ends s P Q := by
  refine Script.each_ends (I := fun done s => ∃ ws x, g.Brings k.address s₀ s ∧
    s.heap.get? k = some x ∧ Built ws x ∧
    List.Forall₂ (fun a w => g.Copied s.memo (val a) w) done ws) ?_ ⟨[], x, hb, hx, h₀, .nil⟩ ?_
  · rintro done a after hall rest s ⟨ws, x, hb, hx, hbuilt, hws⟩ hrest
    refine hb.ask hcopy hf (hheld a (by simp [hall])) (hfail a rest) (hparts a (by simp [hall])) ?_
    intro w s₁ hb₁ hgrow hget hw
    have hws₁ := hws.imp fun b u hu => Setting.Copied.mono hgrow hu
    obtain ⟨hbuilt₁, herr⟩ := hchange done a after ws w s₁ x hall hb₁.tidy hws₁ hw hbuilt
    rw [hok]
    refine hb₁.edit hf (hget.trans hx) (fun x' s₂ hx' hb₂ hm hget₂ => hrest s₂ ?_) herr
    refine ⟨ws ++ [w], x', hb₂, hget₂, hbuilt₁ x' hx', ?_⟩
    rw [hm]
    exact List.rel_append hws₁ (.cons hw .nil)
  · rintro s' ⟨ws, x, hb, hx, hbuilt, hws⟩
    exact hend ws x s' hb hx hbuilt hws

theorem fill_array {a : FixedArray} (hr : g.heap.get? r = some (.array a)) (hrt : r.type = .array)
    (hx : s.heap.get? k = some (.array (.blank a.component a.length))) :
    ((Strategy.array.fill g.types r k).run g.types copy).Ends s
      (fun _ s' => g.Brings k.address s₀ s' ∧ g.Kept s' r k) (g.Fails r) := by
  refine Script.look_ends ?_
  have hat : Strategy.arrayAt s.heap r = some a :=
    Strategy.arrayAt_eq_some.mpr ⟨hrt, hb.source_eq hr⟩
  have hmem : ∀ p ∈ a.items.zipIdx, p.1 ∈ a.items := fun p hp => List.fst_mem_of_mem_zipIdx hp
  have hchange : ∀ done (p : Value × Nat) after ws w (s : CopyState) x,
      a.items.zipIdx = done ++ p :: after → g.Tidy s →
      List.Forall₂ (fun q w => g.Copied s.memo q.1 w) done ws → g.Copied s.memo p.1 w →
      x = .array (a.begun ws) ∧ (a.begun ws).WellTyped →
      (∀ x', Strategy.setItem p.2 w x = .ok x' →
        x' = .array (a.begun (ws ++ [w])) ∧ (a.begun (ws ++ [w])).WellTyped) ∧
        ∀ e, Strategy.setItem p.2 w x = .error e → g.Fails r := by
    rintro done p after ws w s x hall hs hws hw ⟨rfl, htyped⟩
    have hp : a.items.zipIdx[done.length]? = some p := by simp [hall]
    rw [List.getElem?_zipIdx, Option.map_eq_some_iff] at hp
    obtain ⟨v, hv, rfl⟩ := hp
    have hlt : ws.length < a.length := by
      rw [← hws.length_eq]
      exact (List.getElem?_eq_some_iff.mp hv).1
    rw [Nat.zero_add, hws.length_eq]
    refine ⟨fun x' hx' => Strategy.setItem_begun hlt htyped hx', fun e he => ?_⟩
    exact .misfit hf.mutable hr (List.mem_of_getElem? hv) (hs.standsFor hw)
      (Strategy.not_admits_of_setItem hlt he)
  simp only [hat]
  refine hb.look.gather hcopy hf _
    (fun ws x => x = .array (a.begun ws) ∧ (a.begun ws).WellTyped) (fun _ _ _ => rfl)
    (fun _ _ e => ⟨_, rfl⟩) (fun p hp => g.closed.items r a hr p.1 (hmem p hp))
    (fun p hp hfail => hfail.fails hf.mutable (by rw [Heap.shown_array hr]; exact hmem p hp))
    hchange hx ⟨rfl, FixedArray.wellTyped_blank _ _⟩ ?_
  rintro ws x s' hb' hget ⟨rfl, htyped⟩ hws
  have hlen : ws.length = a.length := by rw [← hws.length_eq, List.length_zipIdx, FixedArray.length]
  have hitems : List.Forall₂ (g.Copied s'.memo) a.items (a.begun ws).items := by
    rw [FixedArray.begun_items hlen, ← List.zipIdx_map_fst 0 a.items]
    exact List.forall₂_map_left_iff.mpr hws
  refine ⟨hb', hf.kept (Types.selfClone_container (by simp [hrt]))
    (fun _ => ⟨_, _, hr, hget, rfl, rfl, .sequence hitems⟩) (fun i hi => ?_) (by simp [hrt])
    fun _ => ⟨_, hget, htyped⟩⟩
  rw [hrt] at hi
  cases hi

abbrev pushing (g : Ground) (r k : Ref) (w : Value) (x : Object) : Except CopyError Object :=
  match (g.types.info k.type).collection with
  | none => .error (.instantiation (g.types.name r.type) "empty copy is not a collection")
  | some c => (c.push x w).mapError (.instantiation (g.types.name r.type))

theorem fill_collection {c : Collection} (Built : List Value → Object → Prop)
    (hcol : (g.types.info r.type).collection = some c) (hr : g.heap.get? r = some o)
    (hot : o.type = r.type) (hrt : r.type ≠ .array)
    (hpush : ∀ done v after ws w s x, c.elements o = done ++ v :: after → g.Tidy s →
      List.Forall₂ (g.Copied s.memo) done ws → g.Copied s.memo v w → Built ws x →
      (∀ x', pushing g r k w x = .ok x' → Built (ws ++ [w]) x') ∧
        ∀ e, pushing g r k w x = .error e → g.Fails r)
    (hx : s.heap.get? k = some x) (h₀ : Built [] x)
    (hend : ∀ ws x s', g.Brings k.address s₀ s' → s'.heap.get? k = some x → Built ws x →
      List.Forall₂ (g.Copied s'.memo) (c.elements o) ws → P () s') :
    ((Strategy.collection.fill g.types r k).run g.types copy).Ends s P (g.Fails r) := by
  refine Script.look_ends ?_
  simp only [hcol, hb.source_eq hr]
  have hcol' : (g.types.info o.type).collection = some c := hot ▸ hcol
  refine hb.look.gather hcopy hf (fun _ => pushing g r k) Built (fun _ _ _ => rfl)
    (fun _ _ e => ⟨e, rfl⟩) (g.closed.elements r o hr c hcol') (fun v hv hfail => ?_) hpush hx h₀ hend
  refine hfail.fails hf.mutable ?_
  rwa [Heap.shown_collection hr (hot ▸ hrt) hcol']

theorem fill_appending {c : Collection} (hcol : (g.types.info r.type).collection = some c)
    (hself : (g.types.info r.type).selfClone = none) (hr : g.heap.get? r = some o)
    (hot : o.type = r.type) (hrt : r.type ≠ .array) (hst : r.type ≠ .set)
    (happ : g.Faithful r.type → c.Appends r.type)
    (herr : ∀ w x e, pushing g r k w x = .error e → g.Fails r) (tick : Nat)
    (hkt : k.type = (c.emptyLike tick o).type) (hx : s.heap.get? k = some (c.emptyLike tick o)) :
    ((Strategy.collection.fill g.types r k).run g.types copy).Ends s
      (fun _ s' => g.Brings k.address s₀ s' ∧ g.Kept s' r k) (g.Fails r) := by
  have hadd : g.Faithful r.type → ∀ w x x', x.type = r.type → pushing g r k w x = .ok x' →
      x'.type = r.type ∧ c.elements x' = c.elements x ++ [w] := by
    intro hfaith w x x' hxt hx'
    have hkr : k.type = r.type := hkt.trans ((happ hfaith).emptyLike tick o hot).1
    simp only [pushing, hkr, hcol] at hx'
    exact (happ hfaith).push x w x' hxt (Except.ok_of_mapError hx')
  refine hb.fill_collection hcopy hf
    (fun ws x => g.Faithful r.type → x.type = r.type ∧ c.elements x = ws) hcol hr hot hrt ?_ hx
    (fun hfaith => (happ hfaith).emptyLike tick o hot) ?_
  · intro done v after ws w s x _ _ _ _ hbuilt
    refine ⟨fun x' hx' hfaith => ?_, herr w x⟩
    obtain ⟨hxt, hws⟩ := hbuilt hfaith
    exact hws ▸ hadd hfaith w x x' hxt hx'
  · intro ws x s' hb' hget hbuilt hws
    refine ⟨hb', hf.kept hself (fun hfaith => ?_) (fun i hi hs => ?_) (fun ht => ?_)
      fun ht => absurd ht hrt⟩
    · obtain ⟨hxt, rfl⟩ := hbuilt hfaith
      refine ⟨o, x, hr, hget, hxt.trans hot.symm, ?_, ?_⟩
      · simp only [Object.component?, Object.array?_of_ne (hot ▸ hrt), Object.array?_of_ne (hxt ▸ hrt)]
      · simp only [shapeOf, Object.array?_of_ne (hot ▸ hrt), Object.array?_of_ne (hxt ▸ hrt), hot, hxt,
          hcol]
        exact .sequence hws
    · rw [hi, hs.record.collection] at hcol
      cases hcol
    · rw [ht.resolve_left hst] at hcol
      cases hcol

theorem fill_list {items : List Value} (hr : g.heap.get? r = some (.list items)) (hrt : r.type = .list)
    (hkt : k.type = .list) (hx : s.heap.get? k = some (.list [])) :
    ((Strategy.collection.fill g.types r k).run g.types copy).Ends s
      (fun _ s' => g.Brings k.address s₀ s' ∧ g.Kept s' r k) (g.Fails r) := by
  have hcol : (g.types.info r.type).collection = some .ofLists := by rw [hrt]; rfl
  refine hb.fill_appending hcopy hf hcol (Types.selfClone_container (by simp [hrt])) hr hrt.symm
    (by simp [hrt]) (by simp [hrt]) (fun _ => hrt ▸ Collection.ofLists_appends) (fun w x e he => ?_) 0 hkt hx
  rw [pushing, hkt] at he
  cases he

theorem fill_set {m : OrderedSet} (hr : g.heap.get? r = some (.set m)) (hrt : r.type = .set)
    (hkt : k.type = .set) (hx : s.heap.get? k = some (.set .empty)) :
    ((Strategy.collection.fill g.types r k).run g.types copy).Ends s
      (fun _ s' => g.Brings k.address s₀ s' ∧ g.Kept s' r k) (g.Fails r) := by
  have hcol : (g.types.info r.type).collection = some .ofSets := by rw [hrt]; rfl
  have hm : (m.members.map Value.key).Nodup := g.objects _ (Heap.mem_of_get? hr)
  have hheld : ∀ v ∈ m.members, g.heap.Holds v := g.closed.elements r _ hr .ofSets rfl
  refine hb.fill_collection hcopy hf (fun ws x => ∃ s : OrderedSet, x = .set s ∧ s.members = ws ∧
    s.WellIndexed) hcol hr hrt.symm (by simp [hrt]) ?_ hx ⟨_, rfl, rfl, OrderedSet.wellIndexed_empty⟩ ?_
  · rintro done v after ws w s x hall hs hws hw ⟨built, rfl, rfl, hindex⟩
    have hnew : built.contains w = false := by
      rw [Bool.eq_false_iff, ne_eq, hindex.contains_iff]
      rintro ⟨u, hu, huw⟩
      obtain ⟨v', hv', hvu⟩ := hws.exists_of_mem_right hu
      have hall' : m.members = done ++ v :: after := hall
      have hkey := hs.key_injective (hheld v' (by simp [hall', hv'])) (hheld v (by simp [hall']))
        hvu hw huw
      exact ne_of_nodup_map hm hall' hv' hkey
    have hpush : pushing g r k w (.set built) = .ok (.set (built.insert w).1) := by
      rw [pushing, hkt]
      rfl
    rw [hpush]
    refine ⟨fun x' hx' => ⟨_, (Except.ok.inj hx').symm, ?_, hindex.insert w⟩, by simp⟩
    rw [OrderedSet.insert_of_new hnew]
  · rintro ws x s' hb' hget ⟨built, rfl, rfl, hindex⟩ hws
    refine ⟨hb', hf.kept (Types.selfClone_container (by simp [hrt]))
      (fun _ => ⟨_, _, hr, hget, rfl, rfl, .sequence hws⟩) (fun i hi => ?_) (fun _ => ⟨_, hget, hindex⟩)
      (by simp [hrt])⟩
    rw [hrt] at hi
    cases hi

abbrev inserting (g : Ground) (r k : Ref) (key value : Value) (x : Object) :
    Except CopyError Object :=
  match (g.types.info k.type).map with
  | none => .error (.instantiation (g.types.name r.type) "empty copy is not a map")
  | some m => (m.insert x key value).mapError (.instantiation (g.types.name r.type))

theorem fill_map {m : KeyedCollection}
    (Built : List (Value × Value) → Object → Prop)
    (hcol : (g.types.info r.type).collection = none) (hmap : (g.types.info r.type).map = some m)
    (hr : g.heap.get? r = some o) (hot : o.type = r.type) (hrt : r.type ≠ .array)
    (hinsert : ∀ done e after es key value s x, m.entries o = done ++ e :: after → g.Tidy s →
      List.Forall₂ (fun e f => g.Copied s.memo e.1 f.1 ∧ g.Copied s.memo e.2 f.2) done es →
      g.Copied s.memo e.1 key → g.Copied s.memo e.2 value → Built es x →
      (∀ x', inserting g r k key value x = .ok x' → Built (es ++ [(key, value)]) x') ∧
        ∀ e, inserting g r k key value x = .error e → g.Fails r)
    (hx : s.heap.get? k = some x) (h₀ : Built [] x)
    (hend : ∀ es x s', g.Brings k.address s₀ s' → s'.heap.get? k = some x → Built es x →
      List.Forall₂ (fun e f => g.Copied s'.memo e.1 f.1 ∧ g.Copied s'.memo e.2 f.2) (m.entries o) es →
      P () s') :
    ((Strategy.map.fill g.types r k).run g.types copy).Ends s P (g.Fails r) := by
  have hne : o.type ≠ .array := hot ▸ hrt
  have hcol' : (g.types.info o.type).collection = none := hot ▸ hcol
  have hmap' : (g.types.info o.type).map = some m := hot ▸ hmap
  have hpart : ∀ e ∈ m.entries o, ∀ v, v = e.1 ∨ v = e.2 → g.FailsAt v → g.Fails r := by
    intro e he v hv hfail
    refine hfail.fails hf.mutable ?_
    rw [Heap.shown_map hr hne hcol' hmap']
    exact List.mem_flatMap.mpr ⟨e, he, by simpa using hv⟩
  refine Script.look_ends ?_
  simp only [hmap, hb.source_eq hr]
  refine Script.each_ends (I := fun done s => ∃ es x, g.Brings k.address s₀ s ∧
    s.heap.get? k = some x ∧ Built es x ∧
    List.Forall₂ (fun e f => g.Copied s.memo e.1 f.1 ∧ g.Copied s.memo e.2 f.2) done es)
    ?_ ⟨[], x, hb.look, hx, h₀, .nil⟩ ?_
  · -- one entry: ask for the copies of its key and its value, then insert them
    rintro done e after hall rest s ⟨es, x, hb, hx, hbuilt, hes⟩ hrest
    have he : e ∈ m.entries o := by simp [hall]
    obtain ⟨hkey, hvalue⟩ := g.closed.entries r o hr m hmap' e he
    refine hb.ask hcopy hf hkey (fun e => ⟨e, rfl⟩) (hpart e he _ (.inl rfl)) ?_
    intro key s₁ hb₁ hgrow₁ hget₁ hck
    refine hb₁.ask hcopy hf hvalue (fun e => ⟨e, rfl⟩) (hpart e he _ (.inr rfl)) ?_
    intro value s₂ hb₂ hgrow₂ hget₂ hcv
    have hes₂ := hes.imp fun e f hef =>
      And.intro ((hef.1.mono hgrow₁).mono hgrow₂) ((hef.2.mono hgrow₁).mono hgrow₂)
    have hck₂ := hck.mono hgrow₂
    obtain ⟨hbuilt₂, herr⟩ :=
      hinsert done e after es key value s₂ x hall hb₂.tidy hes₂ hck₂ hcv hbuilt
    refine hb₂.edit hf (hget₂.trans (hget₁.trans hx)) (fun x' s₃ hx' hb₃ hm hget₃ => hrest s₃ ?_) herr
    refine ⟨es ++ [(key, value)], x', hb₃, hget₃, hbuilt₂ x' hx', ?_⟩
    rw [hm]
    exact List.rel_append hes₂ (.cons ⟨hck₂, hcv⟩ .nil)
  · rintro s' ⟨es, x, hb, hx, hbuilt, hes⟩
    exact hend es x s' hb hx hbuilt hes

theorem fill_builtin_map {m : OrderedMap} (hr : g.heap.get? r = some (.map m)) (hrt : r.type = .map)
    (hkt : k.type = .map) (hx : s.heap.get? k = some (.map .empty)) :
    ((Strategy.map.fill g.types r k).run g.types copy).Ends s
      (fun _ s' => g.Brings k.address s₀ s' ∧ g.Kept s' r k) (g.Fails r) := by
  have hcol : (g.types.info r.type).collection = none := by rw [hrt]; rfl
  have hmap : (g.types.info r.type).map = some .ofMaps := by rw [hrt]; rfl
  have hm : (m.keys.map Value.key).Nodup := g.objects _ (Heap.mem_of_get? hr)
  rw [OrderedMap.keys, List.map_map] at hm
  have hheld : ∀ e ∈ m.entries, g.heap.Holds e.1 :=
    fun e he => (g.closed.entries r _ hr .ofMaps rfl e he).1
  refine hb.fill_map hcopy hf (fun es x => ∃ m : OrderedMap, x = .map m ∧ m.entries = es ∧
    m.WellIndexed) hcol hmap hr hrt.symm (by simp [hrt]) ?_ hx ⟨_, rfl, rfl, OrderedMap.wellIndexed_empty⟩
    ?_
  · rintro done e after es key value s x hall hs hes hck hcv ⟨built, rfl, rfl, hindex⟩
    have hall' : m.entries = done ++ e :: after := hall
    have hnew : built.position? key = none := by
      rw [hindex.position_eq_none]
      intro f hfe hfk
      obtain ⟨e', he', hef⟩ := hes.exists_of_mem_right hfe
      have hsame := hs.key_injective (hheld e' (by simp [hall', he'])) (hheld e (by simp [hall']))
        hef.1 hck hfk
      exact ne_of_nodup_map hm hall' he' hsame
    have hins : inserting g r k key value (.map built) = .ok (.map (built.insert key value).1) := by
      rw [inserting, hkt]
      rfl
    rw [hins]
    refine ⟨fun x' hx' => ⟨_, (Except.ok.inj hx').symm, ?_, hindex.insert key value⟩, by simp⟩
    rw [OrderedMap.insert_of_new hnew]
  · rintro es x s' hb' hget ⟨built, rfl, rfl, hindex⟩ hes
    refine ⟨hb', hf.kept (Types.selfClone_container (by simp [hrt]))
      (fun _ => ⟨_, _, hr, hget, rfl, rfl, .entries hes⟩) (fun i hi => ?_) (fun _ => ⟨_, hget, hindex⟩)
      (by simp [hrt])⟩
    rw [hrt] at hi
    cases hi

theorem fill_keyed {i : Nat} {m : KeyedCollection}
    (hcol : (g.types.info r.type).collection = none) (hmap : (g.types.info r.type).map = some m)
    (hself : (g.types.info r.type).selfClone = none) (hr : g.heap.get? r = some o)
    (hot : o.type = r.type) (hrt : r.type = .host i) {tick : Nat}
    (hkt : k.type = (m.emptyLike tick o).type) (hx : s.heap.get? k = some (m.emptyLike tick o)) :
    ((Strategy.map.fill g.types r k).run g.types copy).Ends s
      (fun _ s' => g.Brings k.address s₀ s' ∧ g.Kept s' r k) (g.Fails r) := by
  have hstrange : ¬ g.Structural i := by
    rintro ⟨-, hrec, -⟩
    rw [hrt, hrec.map] at hmap
    cases hmap
  have hne : r.type ≠ .array := by simp [hrt]
  have happ : g.Faithful r.type → m.Appends r.type := by
    rw [hrt] at hcol hmap ⊢
    exact fun hfaith => hfaith.keyed_appends hcol hmap
  have hadd : g.Faithful r.type → ∀ key value x x', x.type = r.type →
      inserting g r k key value x = .ok x' →
      x'.type = r.type ∧ m.entries x' = m.entries x ++ [(key, value)] := by
    intro hfaith key value x x' hxt hx'
    have hkr : k.type = r.type := hkt.trans ((happ hfaith).emptyLike tick o hot).1
    simp only [inserting, hkr, hmap] at hx'
    exact (happ hfaith).insert x key value x' hxt (Except.ok_of_mapError hx')
  refine hb.fill_map hcopy hf
    (fun es x => g.Faithful r.type → x.type = r.type ∧ m.entries x = es) hcol hmap hr hot hne ?_ hx
    (fun hfaith => (happ hfaith).emptyLike tick o hot) ?_
  · intro done e after es key value s x _ _ _ _ _ hbuilt
    refine ⟨fun x' hx' hfaith => ?_, fun _ _ => .strange hf.mutable hf.has hrt hstrange⟩
    obtain ⟨hxt, hes⟩ := hbuilt hfaith
    exact hes ▸ hadd hfaith key value x x' hxt hx'
  · intro es x s' hb' hget hbuilt hes
    refine ⟨hb', hf.kept hself (fun hfaith => ?_) (fun j hj hs => ?_) (by simp [hrt])
      (by simp [hrt])⟩
    · obtain ⟨hxt, rfl⟩ := hbuilt hfaith
      refine ⟨o, x, hr, hget, hxt.trans hot.symm, ?_, ?_⟩
      · simp only [Object.component?, Object.array?_of_ne (hot ▸ hne), Object.array?_of_ne (hxt ▸ hne)]
      · simp only [shapeOf, Object.array?_of_ne (hot ▸ hne), Object.array?_of_ne (hxt ▸ hne), hot, hxt,
          hcol, hmap]
        exact .entries hes
    · cases hrt.symm.trans hj
      exact absurd hs hstrange

end Brings

section Record

variable {i : Nat} {shell x' : Object} {m m' : Memo} {done after : List Field} {f : Field} {w : Value}
  {tick : Nat}

/-- What holds of the copy `x` of a record when the fields of `done` are done. -/
structure FieldsFilled (g : Ground) (i : Nat) (o shell : Object) (done : List Field) (m : Memo)
    (x : Object) : Prop where
  type : x.type = .host i
  length : x.slots.length = shell.slots.length
  copied : ∀ f ∈ done, g.FieldCopied m o x f
  lies : ∀ f ∈ done, ∃ place ∈ (g.layouts i).places,
    f.LiesAt ⟨.host i, (g.layouts i).owner⟩ g.path place
  moved : ∀ f ∈ done, (∃ tick v, f.get o tick = .ok v) ∧
    ∃ o₁ w o₂, o₁.type = .host i ∧ f.set o₁ w = .ok o₂

theorem FieldsFilled.set (hx : g.FieldsFilled i o shell done m x)
    (hrec : (g.types.info (.host i)).SlotRecord g.path i (g.layouts i))
    (hr : g.heap.get? r = some o) (hot : o.type = .host i)
    (hf : f ∈ (g.types.describe (.host i)).instanceFields) (hget : f.get o tick = .ok v)
    (hm : m.Extends m') (hvw : g.Copied m' v w) (hset : f.set x w = .ok x') :
    g.FieldsFilled i o shell (done ++ [f]) m' x' := by
  obtain ⟨place, hplace, hacts⟩ := hrec.fields.exists_of_mem_left hf
  have hlies : f.LiesAt ⟨.host i, (g.layouts i).owner⟩ g.path place :=
    ⟨hacts.get_eq hot hget, hacts.set_eq hx.type hset, hacts.declared⟩
  have hheld : ∀ slot, o.slots[place.1]? = some slot → place.2.Holds slot := by
    intro slot hslot
    obtain ⟨slot', hslot', hholds⟩ := (g.objects o (Heap.mem_of_get? hr)).holds hot place hplace
    obtain rfl : slot' = slot := Option.some.inj (hslot'.symm.trans hslot)
    exact hholds
  have hnew := Setting.fieldCopied_of_set (c := g.toSetting) hlies hlies hheld hget hvw hset
  refine ⟨(hlies.set_eq_ok hset).1.trans hx.type, ?_, fun f' hf' => ?_, fun f' hf' => ?_,
    fun f' hf' => ?_⟩
  · rw [hlies.set] at hset
    exact (Field.ofSlot_set_length hset).trans hx.length
  · rcases List.mem_append.mp hf' with hf' | hf'
    · obtain ⟨q, hq, hgq⟩ := hx.lies f' hf'
      by_cases heq : q.1 = place.1
      · -- a field over the same slot reads what was just written
        obtain rfl := hrec.consistent q hq place hplace heq
        exact Setting.fieldCopied_of_set hlies hgq hheld hget hvw hset
      · exact ((hx.copied f' hf').mono hm).set_of_ne hlies hgq heq hset
    · exact List.mem_singleton.mp hf' ▸ hnew
  · rcases List.mem_append.mp hf' with hf' | hf'
    · exact hx.lies f' hf'
    · exact List.mem_singleton.mp hf' ▸ ⟨place, hplace, hlies⟩
  · rcases List.mem_append.mp hf' with hf' | hf'
    · exact hx.moved f' hf'
    · exact List.mem_singleton.mp hf' ▸ ⟨⟨tick, v, hget⟩, x, w, x', hx.type, hset⟩

theorem FailsAt.fails_of_field (hfail : g.FailsAt v) (hm : g.Mutable r) (hs : g.Structural i)
    (hr : g.heap.get? r = some o) (hrt : r.type = .host i) (hot : o.type = .host i)
    (hf : f ∈ (g.types.describe (.host i)).instanceFields) (hget : f.get o tick = .ok v) :
    g.Fails r := by
  have hshows : g.types.ShowsFields r.type := hrt ▸ ⟨hs.record.collection, hs.record.map⟩
  obtain ⟨q, rfl, hq⟩ := hfail
  obtain ⟨place, -, hacts⟩ := hs.record.fields.exists_of_mem_left hf
  refine .part hm ((hshows.mem_shown hr (hot.trans hrt.symm) (Object.array?_of_host hot)).mpr ?_) hq
  exact ⟨f, hrt ▸ hf, hacts.get_object hot hget 0⟩

theorem Brings.fill_fields (hcopy : g.Answering copy) (hf : g.Filling s₀ r k)
    (hb : g.Brings k.address s₀ s) (hr : g.heap.get? r = some o) (hrt : r.type = .host i)
    (hot : o.type = .host i) (hshows : g.types.ShowsFields (.host i))
    (hself : (g.types.info (.host i)).selfClone = none) {moment : Nat}
    (hshell : g.structuralShell (g.types.describe (.host i)) moment o = .ok (some shell))
    (hst : g.Structural i → shell.type = .host i) (hx : s.heap.get? k = some shell) :
    ((Setting.copyFields (g.types.describe (.host i)) r k).run g.types copy).Ends s
      (fun _ s' => g.Brings k.address s₀ s' ∧ g.Kept s' r k) (g.Fails r) := by
  have hreason : ∀ {P : Prop}, (g.Structural i → P) → (P → g.Fails r) → g.Fails r := by
    intro P hP hfail
    by_cases hs : g.Structural i
    · exact hfail (hP hs)
    · exact .strange hf.mutable hf.has hrt hs
  refine Script.each_ends (I := fun done s => ∃ x, g.Brings k.address s₀ s ∧
    s.heap.get? k = some x ∧ (g.Structural i → g.FieldsFilled i o shell done s.memo x))
    ?_ ⟨shell, hb, hx, fun hs => ⟨hst hs, rfl, by simp, by simp, by simp⟩⟩ ?_
  · -- one field: read it, ask for the copy, then set the field of the copy
    rintro done f after hall rest s ⟨x, hb, hx, hfill⟩ hrest
    have hfm : f ∈ (g.types.describe (.host i)).instanceFields := by simp [hall]
    refine Script.look_ends ?_
    simp only [hb.source_eq hr]
    cases hget : f.get o s.heap.clock with
    | error e => exact ends_failed rfl (.unreadable hf.mutable hr (hrt ▸ hfm) hget)
    | ok v =>
      have hv := g.closed.fields r o hr f (hot.symm ▸ hfm) _ v hget
      refine hb.look.ask hcopy hf hv (fun e => ⟨e, rfl⟩) (fun hfail => ?_) ?_
      · exact hreason (fun hs => hs) fun hs =>
          hfail.fails_of_field hf.mutable hs hr hrt hot hfm hget
      intro w s₁ hb₁ hgrow hget₁ hvw
      refine hb₁.edit hf (hget₁.trans hx) (fun x' s₂ hx' hb₂ hm hget₂ => hrest s₂ ?_) fun e he => ?_
      · refine ⟨x', hb₂, hget₂, fun hs => ?_⟩
        rw [hm]
        exact (hfill hs).set hs.record hr hot hfm hget hgrow hvw (Except.ok_of_mapError hx')
      · refine hreason (fun hs => And.intro (hst hs) (hfill hs)) fun ⟨hst, hfill⟩ => ?_
        cases hset : f.set x w with
        | ok x' =>
          rw [hset] at he
          cases he
        | error e' =>
          exact .unwritable hf.mutable hr (hrt ▸ hshell) (hrt ▸ hfm) hget (hb₁.tidy.standsFor hvw)
            (hfill.type.trans hst.symm) hfill.length hset
  · rintro s' ⟨x, hb', hget, hfill⟩
    refine ⟨hb', hf.kept (hrt ▸ hself) (fun hfaith => ?_) (fun j hj hs => ?_) (by simp [hrt])
      (by simp [hrt])⟩
    · rw [hrt] at hfaith
      obtain ⟨hrec, hbreeds⟩ := hfaith.slotRecord hshows.1 hshows.2
      have hfilled := hfill ⟨hself, hrec, hbreeds⟩
      exact ⟨o, x, hr, hget, Setting.mirrors_of_fieldCopied hshows hot hfilled.type hfilled.copied⟩
    · cases hrt.symm.trans hj
      refine ⟨o, hr, ⟨moment, shell, hrt ▸ hshell⟩, ?_⟩
      rw [hrt]
      exact (hfill hs).moved

end Record

end Ground
end GraphCopy
