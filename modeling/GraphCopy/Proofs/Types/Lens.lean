import GraphCopy.Proofs.Graph.Paths
import GraphCopy.Proofs.Types.Faithful
import GraphCopy.Proofs.Value.RoundTrip

/-!
# Accessors are lenses

The accessors of a record lie over different slots of its instances. What an
instance holds is then a list of contents, one for each field: a field reads its
own content, a write stores its own content or is refused, and nothing else
happens to the instance. `Accessors.effect` is this account of an access, and
`Accessors.shows_after` says that any sequence of accesses goes along with it,
also where it asks constants of the type or accessors of other types.

`Accessors.Lens` collects the laws of one field. They hold of every instance,
so they hold after any such sequence.
-/

namespace GraphCopy

structure Accessors where
  owner : Owner
  path : TypeId → String
  fields : List Field
  places : List (Nat × Storage)
  lie : List.Forall₂ (Field.LiesAt owner path) fields places
  distinct : (places.map Prod.fst).Nodup

def Field.write (f : Field) (o : Object) (v : Value) : Object := (f.set o v).toOption.getD o

inductive Field.Stray (owner : Owner) : Field → Prop
  | constant {other name declared content} :
      Stray owner (.typeLevelConstant other name declared content)
  | another {other path place f} (ht : other.type ≠ owner.type)
      (hf : Field.LiesAt other path f place) : Stray owner f

inductive Access
  | read (i tick : Nat)
  | write (i : Nat) (v : Value)
  | stray (f : Field) (v : Value)

namespace Accessors

structure Shows (r : Accessors) (contents : List Slot) (o : Object) : Prop where
  type : o.type = r.owner.type
  length : contents.length = r.places.length
  held : ∀ {i : Nat} {place : Nat × Storage} {slot : Slot}, r.places[i]? = some place →
    contents[i]? = some slot → o.slots[place.1]? = some slot ∧ place.2.Holds slot

def run (r : Accessors) (o : Object) : Access → Object
  | .read _ _ => o
  | .write i v => (r.fields[i]?).elim o fun f => f.write o v
  | .stray f v => f.write o v

/-- What an access does to the contents. -/
def effect (r : Accessors) (contents : List Slot) : Access → List Slot
  | .write i v =>
    (r.places[i]?).elim contents fun place =>
      match place.2.store r.path v with
      | .ok slot => contents.set i slot
      | .error _ => contents
  | _ => contents

def after (r : Accessors) (o : Object) (accesses : List Access) : Object := accesses.foldl r.run o

def effects (r : Accessors) (contents : List Slot) (accesses : List Access) : List Slot :=
  accesses.foldl r.effect contents

/-- The laws of the field at the position `i`, over the place `place`, for an instance `o` that holds the
contents. -/
structure Lens (r : Accessors) (contents : List Slot) (o : Object) (i : Nat) (f : Field)
    (place : Nat × Storage) : Prop where
  /-- The field reads its content. -/
  get : ∃ slot, contents[i]? = some slot ∧ ∀ tick, f.get o tick = .ok (slot.read ⟨tick, place.1⟩)
  /-- A write is carried out if and only if the storage takes the value. -/
  accepted : ∀ v, (∃ o', f.set o v = .ok o') ↔ ∃ slot, place.2.store r.path v = .ok slot
  /-- After it the field reads what was stored, and the other fields read what they did. -/
  written : ∀ v o' slot, f.set o v = .ok o' → place.2.store r.path v = .ok slot →
    r.Shows (contents.set i slot) o' ∧
      (∀ tick, f.get o' tick = .ok (slot.read ⟨tick, place.1⟩)) ∧
      ∀ j g, j ≠ i → r.fields[j]? = some g → ∀ tick, g.get o' tick = g.get o tick
  /-- A refusal says why the storage does not take the value, and leaves the instance as it is. -/
  refused : ∀ v e, f.set o v = .error e →
    (∃ e', place.2.store r.path v = .error e' ∧ e = e'.message) ∧ r.run o (.write i v) = o
  /-- To write what was read changes nothing. -/
  rewritten : ∀ tick v, f.get o tick = .ok v → f.set o v = .ok o

end Accessors

variable {owner other : Owner} {path : TypeId → String} {o o' : Object} {f g : Field}
  {place q : Nat × Storage} {slot : Slot} {i j : Nat} {v : Value}

namespace Object

theorem withSlot_self (h : o.slots[i]? = some slot) : o.withSlot i slot = o := by
  cases o with
  | host n s items =>
    obtain ⟨hi, rfl⟩ := List.getElem?_eq_some_iff.mp h
    exact congrArg (host n · items) (List.set_getElem_self hi)
  | _ => rfl

end Object

namespace Field

theorem write_of_accepted (h : f.set o v = .ok o') : f.write o v = o' := by
  simp only [write, h]
  rfl

theorem write_of_refused {e : String} (h : f.set o v = .error e) : f.write o v = o := by
  simp only [write, h]
  rfl

namespace LiesAt

theorem set_of_store (hf : f.LiesAt owner path place) (ho : o.type = owner.type)
    (hi : place.1 < o.slots.length) (hs : place.2.store path v = .ok slot) :
    f.set o v = .ok (o.withSlot place.1 slot) := by
  rw [hf.set]
  exact ofSlot_set_ok ho hi hs

theorem set_of_refused {e : StoreError} (hf : f.LiesAt owner path place) (ho : o.type = owner.type)
    (hi : place.1 < o.slots.length) (hs : place.2.store path v = .error e) :
    f.set o v = .error e.message := by
  simp [hf.set, ofSlot, Owner.slots?, ho, hi, hs]

theorem get_congr (hf : f.LiesAt owner path place) (ht : o'.type = o.type)
    (hs : o'.slots[place.1]? = o.slots[place.1]?) (tick : Nat) : f.get o' tick = f.get o tick := by
  simp only [hf.get, ofSlot, Owner.slots?, ht]
  by_cases ho : o.type = owner.type
  · simp only [ho, if_true, hs]
  · simp only [ho, if_false]

theorem set_of_another (hf : f.LiesAt other path place) (ht : o.type ≠ other.type) (v : Value) :
    f.set o v = .error ("expected " ++ other.name) := by
  simp [hf.set, ofSlot, Owner.slots?, ht]

end LiesAt

theorem Stray.refuses (hf : f.Stray owner) (ho : o.type = owner.type) (v : Value) :
    ∃ e, f.set o v = .error e := by
  cases hf with
  | constant => exact ⟨_, rfl⟩
  | another ht hf => exact ⟨_, hf.set_of_another (fun h => ht (h.symm.trans ho)) v⟩

end Field

namespace Accessors

variable {r : Accessors} {contents : List Slot}

theorem exists_place (hf : r.fields[i]? = some f) :
    ∃ place, r.places[i]? = some place ∧ f.LiesAt r.owner r.path place :=
  r.lie.exists_getElem? hf

theorem liesAt (hf : r.fields[i]? = some f) (hp : r.places[i]? = some place) :
    f.LiesAt r.owner r.path place := by
  obtain ⟨q, hq, hlies⟩ := exists_place hf
  rwa [Option.some.inj (hp.symm.trans hq)]

theorem ne_of_ne (hij : j ≠ i) (hp : r.places[i]? = some place) (hq : r.places[j]? = some q) :
    q.1 ≠ place.1 := by
  intro heq
  have hj : j < (r.places.map Prod.fst).length := by
    simpa using (List.getElem?_eq_some_iff.mp hq).1
  refine hij ((List.getElem?_inj hj r.distinct).mp ?_)
  simp only [List.getElem?_map, hq, hp, Option.map_some, heq]

theorem exists_shows (ho : o.type = r.owner.type) (hheld : ∀ place ∈ r.places,
    ∃ slot, o.slots[place.1]? = some slot ∧ place.2.Holds slot) : ∃ contents, r.Shows contents o := by
  refine ⟨r.places.map fun place => (o.slots[place.1]?).getD .missing, ho, List.length_map _, ?_⟩
  intro i place slot hp hs
  obtain ⟨x, hx, hholds⟩ := hheld place (List.mem_of_getElem? hp)
  rw [List.getElem?_map, hp, Option.map_some, hx] at hs
  cases hs
  exact ⟨hx, hholds⟩

namespace Shows

variable (ho : r.Shows contents o)

include ho

theorem exists_held (hp : r.places[i]? = some place) : ∃ slot, contents[i]? = some slot ∧
    o.slots[place.1]? = some slot ∧ place.2.Holds slot := by
  have hi : i < contents.length := ho.length ▸ (List.getElem?_eq_some_iff.mp hp).1
  exact ⟨contents[i], List.getElem?_eq_getElem hi, ho.held hp (List.getElem?_eq_getElem hi)⟩

theorem lt_length (hp : r.places[i]? = some place) : place.1 < o.slots.length := by
  obtain ⟨slot, -, hslot, -⟩ := ho.exists_held hp
  exact (List.getElem?_eq_some_iff.mp hslot).1

theorem withSlot (hp : r.places[i]? = some place) (hs : place.2.Holds slot) :
    r.Shows (contents.set i slot) (o.withSlot place.1 slot) := by
  refine ⟨(o.type_withSlot _ _).trans ho.type, List.length_set.trans ho.length, ?_⟩
  intro j q x hq hx
  rw [Object.slots_withSlot]
  by_cases hij : j = i
  · subst hij
    obtain rfl : q = place := Option.some.inj (hq.symm.trans hp)
    have hi : j < contents.length := ho.length ▸ (List.getElem?_eq_some_iff.mp hp).1
    obtain rfl : slot = x := by simpa [hi] using hx
    exact ⟨List.getElem?_set_self (ho.lt_length hp), hs⟩
  · rw [List.getElem?_set_ne (Ne.symm hij)] at hx
    rw [List.getElem?_set_ne (ne_of_ne hij hp hq).symm]
    exact ho.held hq hx

theorem set_eq_ok (hf : r.fields[i]? = some f) (hp : r.places[i]? = some place) :
    f.set o v = .ok o' ↔
      ∃ slot, place.2.store r.path v = .ok slot ∧ o' = o.withSlot place.1 slot := by
  have hlies := liesAt hf hp
  cases hs : place.2.store r.path v with
  | ok slot =>
    rw [hlies.set_of_store ho.type (ho.lt_length hp) hs]
    simp [eq_comm]
  | error e =>
    rw [hlies.set_of_refused ho.type (ho.lt_length hp) hs]
    simp

theorem set_eq_error {e : String} (hf : r.fields[i]? = some f) (hp : r.places[i]? = some place) :
    f.set o v = .error e ↔ ∃ e', place.2.store r.path v = .error e' ∧ e = e'.message := by
  have hlies := liesAt hf hp
  cases hs : place.2.store r.path v with
  | ok slot =>
    rw [hlies.set_of_store ho.type (ho.lt_length hp) hs]
    simp
  | error e' =>
    rw [hlies.set_of_refused ho.type (ho.lt_length hp) hs]
    simp [eq_comm]

theorem lens (hf : r.fields[i]? = some f) (hp : r.places[i]? = some place) :
    r.Lens contents o i f place := by
  have hlies := liesAt hf hp
  obtain ⟨slot, hcontent, hslot, hholds⟩ := ho.exists_held hp
  have hget : ∀ tick, f.get o tick = .ok (slot.read ⟨tick, place.1⟩) :=
    fun tick => hlies.get_eq_ok.mpr ⟨ho.type, slot, hslot, rfl⟩
  refine ⟨⟨slot, hcontent, hget⟩, fun v => ?_, fun v o' stored hset hs => ?_, fun v e he => ?_,
    fun tick v hv => ?_⟩
  · simp only [ho.set_eq_ok hf hp]
    exact ⟨fun ⟨_, stored, hs, _⟩ => ⟨stored, hs⟩, fun ⟨stored, hs⟩ => ⟨_, stored, hs, rfl⟩⟩
  · obtain ⟨x, hx, rfl⟩ := (ho.set_eq_ok hf hp).mp hset
    obtain rfl : x = stored := Except.ok.inj (hx.symm.trans hs)
    have hshows := ho.withSlot hp (Storage.holds_of_store hs)
    refine ⟨hshows, fun tick => ?_, fun j g hji hg tick => ?_⟩
    · refine hlies.get_eq_ok.mpr ⟨hshows.type, x, ?_, rfl⟩
      rw [Object.slots_withSlot]
      exact List.getElem?_set_self (ho.lt_length hp)
    · obtain ⟨q, hq, hgq⟩ := exists_place hg
      refine hgq.get_congr (o.type_withSlot _ _) ?_ tick
      rw [Object.slots_withSlot, List.getElem?_set_ne (ne_of_ne hji hp hq).symm]
  · refine ⟨(ho.set_eq_error hf hp).mp he, ?_⟩
    simp only [Accessors.run, hf, Option.elim_some, Field.write_of_refused he]
  · obtain rfl : v = slot.read ⟨tick, place.1⟩ := Except.ok.inj (hv.symm.trans (hget tick))
    refine (ho.set_eq_ok hf hp).mpr ⟨slot, Storage.store_read hholds _, ?_⟩
    exact (Object.withSlot_self hslot).symm

/-- One access does to an instance what its account says. -/
theorem run {a : Access} (ha : ∀ f v, a = .stray f v → f.Stray r.owner) :
    r.Shows (r.effect contents a) (r.run o a) := by
  cases a with
  | read i tick => exact ho
  | stray f v =>
    obtain ⟨e, he⟩ := (ha f v rfl).refuses ho.type v
    simp only [Accessors.run, effect, Field.write_of_refused he]
    exact ho
  | write i v =>
    cases hf : r.fields[i]? with
    | none =>
      have hp : r.places[i]? = none := by
        rw [List.getElem?_eq_none_iff] at hf ⊢
        exact r.lie.length_eq ▸ hf
      simp only [Accessors.run, effect, hf, hp, Option.elim_none]
      exact ho
    | some f =>
      obtain ⟨place, hp, -⟩ := exists_place hf
      have hlens := ho.lens hf hp
      simp only [Accessors.run, effect, hf, hp, Option.elim_some]
      cases hs : place.2.store r.path v with
      | ok slot =>
        obtain ⟨o', ho'⟩ := (hlens.accepted v).mpr ⟨slot, hs⟩
        rw [Field.write_of_accepted ho']
        exact (hlens.written v o' slot ho' hs).1
      | error e =>
        have he := (ho.set_eq_error hf hp).mpr ⟨e, hs, rfl⟩
        rw [Field.write_of_refused he]
        exact ho

theorem after {accesses : List Access} (ha : ∀ f v, .stray f v ∈ accesses → f.Stray r.owner) :
    r.Shows (r.effects contents accesses) (r.after o accesses) := by
  induction accesses generalizing o contents with
  | nil => exact ho
  | cons a rest ih =>
    have hstep := ho.run fun f v hav => ha f v (hav ▸ List.mem_cons_self)
    exact ih hstep fun f v hf => ha f v (List.mem_cons_of_mem _ hf)

end Shows

def ofPlainRecord {t : TypeInfo} {n : Nat} {layout : Layout} (hp : t.PlainRecord path n layout) :
    Accessors where
  owner := ⟨.host n, layout.owner⟩
  path := path
  fields := t.descriptor.instanceFields
  places := layout.places
  lie := hp.fields
  distinct := hp.distinct

theorem ofPlainRecord_exists_shows {t : TypeInfo} {n : Nat} {layouts : Nat → Layout}
    (hp : t.PlainRecord path n (layouts n)) (ho : o.type = .host n) (hw : o.WellFormed layouts) :
    ∃ contents, (ofPlainRecord hp).Shows contents o :=
  exists_shows ho (hw.holds ho)

/-- After any sequence of accesses to an instance, through its fields, constants of types and accessors of
other types, it holds the contents that the writes through its fields have left, and its fields obey the
laws; constants and accessors of other types refuse every write and leave it as it is. -/
theorem lens_laws (r : Accessors) {contents : List Slot} {o : Object} (ho : r.Shows contents o)
    {accesses : List Access} (ha : ∀ f v, .stray f v ∈ accesses → f.Stray r.owner) :
    let x := r.after o accesses
    let held := r.effects contents accesses
    r.Shows held x ∧
    (∀ i f place, r.fields[i]? = some f → r.places[i]? = some place → r.Lens held x i f place) ∧
    (∀ other name declared content v,
      let f := Field.typeLevelConstant other name declared content
      f.set x v = .error "field is read only" ∧ r.run x (.stray f v) = x) ∧
    ∀ other path f place, other.type ≠ r.owner.type → f.LiesAt other path place →
      ∀ v, f.set x v = .error ("expected " ++ other.name) ∧ r.run x (.stray f v) = x := by
  intro x held
  have hx : r.Shows held x := ho.after ha
  refine ⟨hx, fun i f place hf hp => hx.lens hf hp, fun other name declared content v => ⟨rfl, rfl⟩, ?_⟩
  intro other path f place ht hf v
  have hset : f.set x v = .error ("expected " ++ other.name) :=
    hf.set_of_another (fun h => ht (h.symm.trans hx.type)) v
  exact ⟨hset, Field.write_of_refused hset⟩

def gauge : Accessors where
  owner := ⟨.host 0, "Gauge"⟩
  path _ := ""
  fields :=
    [.ofSlot ⟨.host 0, "Gauge"⟩ (fun _ => "") "count" 1 (.required (.int .u8)),
      .ofSlot ⟨.host 0, "Gauge"⟩ (fun _ => "") "label" 0 (.optional .ownText)]
  places := [(1, .required (.int .u8)), (0, .optional .ownText)]
  lie := .cons ⟨rfl, rfl, rfl⟩ (.cons ⟨rfl, rfl, rfl⟩ .nil)
  distinct := by decide

theorem gauge_shows :
    gauge.Shows [.datum (.int 5), .missing] (.host 0 [.missing, .datum (.int 5)] []) := by
  refine ⟨rfl, rfl, fun {i place slot} hp hs => ?_⟩
  match i with
  | 0 =>
    cases hp
    cases hs
    exact ⟨rfl, by decide, by decide⟩
  | 1 =>
    cases hp
    cases hs
    exact ⟨rfl, trivial⟩
  | i + 2 => cases hp

/-- A count that is too large is refused, and so are writes through a constant and through an accessor of
another type; the label is written. -/
theorem gauge_lens_laws :
    let o : Object := .host 0 [.missing, .datum (.int 5)] []
    let constant := Field.typeLevelConstant ⟨.host 0, "Gauge"⟩ "LIMIT" (.scalar .int) (.int 9)
    let other := Field.ofSlot ⟨.host 1, "Meter"⟩ (fun _ => "") "count" 1 (.required (.int .u8))
    let accesses : List Access := [.write 0 (.int 300), .read 0 1, .write 1 (.text ⟨"full", .initial⟩),
      .stray constant (.int 7), .stray other (.int 7)]
    let x := gauge.after o accesses
    gauge.Shows [.datum (.int 5), .missing] o ∧
      (∀ f v, .stray f v ∈ accesses → f.Stray gauge.owner) ∧
      gauge.Shows [.datum (.int 5), .datum (.ownText "full")] x ∧
      constant.set x (.int 7) = .error "field is read only" ∧
      other.set x (.int 7) = .error "expected Meter" ∧
      ∀ f, gauge.fields[0]? = some f →
        gauge.Lens [.datum (.int 5), .datum (.ownText "full")] x 0 f (1, .required (.int .u8)) := by
  intro o constant other accesses x
  have hlies : other.LiesAt ⟨.host 1, "Meter"⟩ (fun _ => "") (1, .required (.int .u8)) := ⟨rfl, rfl, rfl⟩
  have hstray : ∀ f v, .stray f v ∈ accesses → f.Stray gauge.owner := by
    intro f v hf
    simp only [accesses, List.mem_cons, reduceCtorEq, List.not_mem_nil, or_false, false_or,
      Access.stray.injEq] at hf
    rcases hf with ⟨rfl, -⟩ | ⟨rfl, -⟩
    · exact .constant
    · exact .another (by decide) hlies
  obtain ⟨hshows, hlens, hconstant, hanother⟩ := lens_laws gauge gauge_shows hstray
  exact ⟨gauge_shows, hstray, hshows, (hconstant _ _ _ _ _).1, (hanother _ _ other _ (by decide) hlies _).1,
    fun f hf => hlens 0 f _ hf rfl⟩

end Accessors
end GraphCopy
