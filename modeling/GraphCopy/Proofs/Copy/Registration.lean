import GraphCopy.Copy.Filling
import GraphCopy.Proofs.Copy.Discipline
import GraphCopy.Proofs.Sharing.Safety

/-!
# The order of strategies

A strategy that is registered is put among those that are there, and these stay
in their order. `Priority.Divides` says what a priority asks for: what is to be
ahead of the new strategy, and what behind it. The strategy for an object is the
first that is meant for it, so after a registration it is the new one if that is
meant for the object and nothing ahead of it is, and else the same as before.
-/

namespace GraphCopy

/-- What a priority asks for: the strategies ahead of the new one, and those behind it. -/
inductive Priority.Divides : Priority → Registry → Registry → Prop
  | first (behind : Registry) : Divides .first [] behind
  | last (ahead : Registry) : Divides .last ahead []
  | before {name : String} {ahead : Registry} {τ : Strategy} (behind : Registry)
      (hahead : ∀ ρ ∈ ahead, ρ.name ≠ name) (hτ : τ.name = name) :
      Divides (.before name) ahead (τ :: behind)
  | after {name : String} {front : Registry} {τ : Strategy} (behind : Registry)
      (hfront : ∀ ρ ∈ front, ρ.name ≠ name) (hτ : τ.name = name) :
      Divides (.after name) (front ++ [τ]) behind
  | missing {p : Priority} {name : String} {ahead : Registry} (hp : p = .before name ∨ p = .after name)
      (hahead : ∀ ρ ∈ ahead, ρ.name ≠ name) : Divides p ahead []

namespace Registry

variable {r ahead behind front : Registry} {σ τ : Strategy} {p : Priority} {name : String}

theorem position?_append_cons (hfront : ∀ ρ ∈ front, ρ.name ≠ name) (hτ : τ.name = name)
    (behind : Registry) : position? (front ++ τ :: behind) name = some front.length := by
  have hnone : front.findIdx? (fun ρ => ρ.name == name) = none := by simpa using hfront
  rw [position?, List.findIdx?_append, hnone]
  simp [List.findIdx?_cons, hτ]

theorem position?_eq_none (h : ∀ ρ ∈ r, ρ.name ≠ name) : r.position? name = none := by
  simpa [position?] using h

theorem exists_first_named (r : Registry) (name : String) : (∀ ρ ∈ r, ρ.name ≠ name) ∨
    ∃ front τ behind, r = front ++ τ :: behind ∧ (∀ ρ ∈ front, ρ.name ≠ name) ∧ τ.name = name := by
  cases hfind : r.find? fun ρ => ρ.name == name with
  | none => exact .inl (by simpa using hfind)
  | some τ =>
    obtain ⟨hτ, front, behind, hr, hfront⟩ := List.find?_eq_some_iff_append.mp hfind
    exact .inr ⟨front, τ, behind, hr, by simpa using hfront, by simpa using hτ⟩

theorem exists_divides (r : Registry) (p : Priority) :
    ∃ ahead behind, r = ahead ++ behind ∧ p.Divides ahead behind := by
  cases p with
  | first => exact ⟨[], r, rfl, .first r⟩
  | last => exact ⟨r, [], (List.append_nil r).symm, .last r⟩
  | before name =>
    rcases exists_first_named r name with hr | ⟨front, τ, behind, hr, hfront, hτ⟩
    · exact ⟨r, [], (List.append_nil r).symm, .missing (.inl rfl) hr⟩
    · exact ⟨front, τ :: behind, hr, .before behind hfront hτ⟩
  | after name =>
    rcases exists_first_named r name with hr | ⟨front, τ, behind, hr, hfront, hτ⟩
    · exact ⟨r, [], (List.append_nil r).symm, .missing (.inr rfl) hr⟩
    · exact ⟨front ++ [τ], behind, by simp [hr], .after behind hfront hτ⟩

theorem place_of_divides (h : p.Divides ahead behind) : place (ahead ++ behind) p = ahead.length := by
  cases h with
  | first => rfl
  | last => simp [place]
  | before behind hahead hτ => simp [place, position?_append_cons hahead hτ]
  | after behind hfront hτ =>
    rw [List.append_assoc, List.singleton_append, place, position?_append_cons hfront hτ]
    simp
  | missing hp hahead =>
    rcases hp with rfl | rfl <;> simp [place, position?_eq_none hahead]

theorem register_of_divides (h : p.Divides ahead behind) (σ : Strategy) :
    register (ahead ++ behind) σ p = ahead ++ σ :: behind := by
  rw [register, place_of_divides h, List.take_left, List.drop_left]

theorem sublist_register (r : Registry) (σ : Strategy) (p : Priority) : r.Sublist (r.register σ p) := by
  obtain ⟨ahead, behind, rfl, hp⟩ := exists_divides r p
  rw [register_of_divides hp]
  exact (List.sublist_cons_self σ behind).append_left ahead

theorem register_perm (r : Registry) (σ : Strategy) (p : Priority) :
    (r.register σ p).Perm (r ++ [σ]) := by
  obtain ⟨ahead, behind, rfl, hp⟩ := exists_divides r p
  rw [register_of_divides hp, List.append_assoc]
  exact (List.perm_append_singleton σ behind).symm.append_left ahead

def registerAll (r : Registry) (steps : List (Strategy × Priority)) : Registry :=
  steps.foldl (fun r step => r.register step.1 step.2) r

theorem registerAll_append (r : Registry) (steps later : List (Strategy × Priority)) :
    r.registerAll (steps ++ later) = (r.registerAll steps).registerAll later :=
  List.foldl_append

theorem sublist_registerAll (r : Registry) (steps : List (Strategy × Priority)) :
    r.Sublist (r.registerAll steps) := by
  induction steps generalizing r with
  | nil => exact .refl r
  | cons step steps ih => exact (r.sublist_register step.1 step.2).trans (ih _)

theorem registerAll_perm (r : Registry) (steps : List (Strategy × Priority)) :
    (r.registerAll steps).Perm (r ++ steps.map Prod.fst) := by
  induction steps generalizing r with
  | nil => rw [List.map_nil, List.append_nil, registerAll, List.foldl_nil]
  | cons step steps ih =>
    have hstep := (r.register_perm step.1 step.2).append_right (steps.map Prod.fst)
    rw [List.append_assoc, List.singleton_append] at hstep
    exact (ih _).trans hstep

section First

variable (types : Types) (sharing : SharingRules) (h : Heap) (source : Ref)

open Classical in
noncomputable def firstFor (r : Registry) : Option Strategy :=
  r.find? fun σ => decide (σ.guard.Holds types sharing h source)

variable {types sharing h source}

theorem firstFor_of_selects (hσ : r.Selects types sharing h source σ) :
    r.firstFor types sharing h source = some σ := by
  induction hσ with
  | here hs => simp [firstFor, hs]
  | later hs _ ih => rwa [firstFor, List.find?_cons_of_neg (by simpa using hs)]

theorem firstFor_eq_none_iff :
    r.firstFor types sharing h source = none ↔ r.Skips types sharing h source := by
  simp [firstFor, Skips]

def ComesFirst (types : Types) (sharing : SharingRules) (h : Heap) (source : Ref) (ahead : Registry)
    (σ : Strategy) : Prop :=
  σ.guard.Holds types sharing h source ∧ ahead.Skips types sharing h source

theorem firstFor_append (ahead behind : Registry) :
    firstFor types sharing h source (ahead ++ behind) =
      (ahead.firstFor types sharing h source).or (behind.firstFor types sharing h source) :=
  List.find?_append

theorem firstFor_of_comesFirst (hσ : ahead.ComesFirst types sharing h source σ) :
    firstFor types sharing h source (ahead ++ σ :: behind) = some σ := by
  rw [firstFor_append, firstFor_eq_none_iff.mpr hσ.2, Option.none_or]
  exact firstFor_of_selects (.here hσ.1)

theorem firstFor_of_not_comesFirst (hσ : ¬ ahead.ComesFirst types sharing h source σ) :
    firstFor types sharing h source (ahead ++ σ :: behind) =
      firstFor types sharing h source (ahead ++ behind) := by
  rw [firstFor_append, firstFor_append]
  cases hahead : ahead.firstFor types sharing h source with
  | some τ => rfl
  | none =>
    have hguard : ¬ σ.guard.Holds types sharing h source :=
      fun hguard => hσ ⟨hguard, firstFor_eq_none_iff.mp hahead⟩
    rw [firstFor, List.find?_cons_of_neg (by simpa using hguard)]
    rfl

end First

end Registry

namespace Setting

variable {c : Setting} {s : CopyState} {r : Ref}

/-- How an object is copied once a strategy has been found for it, or none. -/
def copyBy (c : Setting) (copy : Value → CopyM Value) (source : Ref) : Option Strategy → CopyM Ref
  | some σ => do
    let target ← c.instantiateBy σ source
    c.complete copy source target (σ.fill c.types source target)
  | none => c.copyByStructure copy (c.types.describe source.type) source

/-- The strategy that is found for an object is `found`; so a request for the object is answered by means
of it, unless the object has been recorded or lies too deep. -/
structure Employs (c : Setting) (s : CopyState) (source : Ref) (found : Option Strategy) : Prop where
  find : (c.findStrategy source c.strategies s).1 = .ok found
  request : ∀ copy depth, s.memo.get? source = none →
    (∀ limit, c.options.maxDepth = some limit → depth < limit) →
    ∃ known, known.Sound c.types c.sharing ∧ c.resolve copy depth source s =
      c.copyBy copy source found ((s.note (.opened source depth)).knowing known)

theorem findStrategy_firstFor (ht : c.types.Coherent) (rs : Registry)
    (hk : s.known.Sound c.types c.sharing) : ∃ known, known.Sound c.types c.sharing ∧
      c.findStrategy r rs s =
        (.ok (rs.firstFor c.types c.sharing s.heap r), s.knowing known) := by
  obtain ⟨found, known, hknown, hrun, hfound⟩ := findStrategy_apply (r := r) ht rs hk
  refine ⟨known, hknown, hrun.trans ?_⟩
  rcases hfound with ⟨σ, rfl, hσ⟩ | ⟨rfl, hskip⟩
  · rw [Registry.firstFor_of_selects hσ]
  · rw [Registry.firstFor_eq_none_iff.mpr hskip]

theorem duplicate_copyBy {s₁ : CopyState} {copy : Value → CopyM Value} {depth : Nat}
    {found : Option Strategy}
    (hfind : c.findStrategy r c.strategies (s.note (.opened r depth)) = (.ok found, s₁)) :
    c.duplicate copy depth (c.types.describe r.type) r s = c.copyBy copy r found s₁ := by
  cases found with
  | some σ => exact duplicate_found _ hfind
  | none => exact duplicate_not_found _ hfind

theorem employs_firstFor (ht : c.types.Coherent) (hk : s.known.Sound c.types c.sharing)
    (hi : ¬ c.sharing.Immutable c.types (c.types.describe r.type)) :
    c.Employs s r (c.strategies.firstFor c.types c.sharing s.heap r) := by
  constructor
  · obtain ⟨known, -, hrun⟩ := findStrategy_firstFor (r := r) ht c.strategies hk
    rw [hrun]
  · intro copy depth hm hl
    have hres := resolve_resolution ht hk copy depth r
    generalize c.resolve copy depth r s = out at hres ⊢
    cases hres with
    | shared _ himm => exact absurd himm hi
    | recalled _ _ hrec => cases hm.symm.trans hrec
    | tooDeep _ _ _ hlimit hdeep => exact absurd (hl _ hlimit) (Nat.not_lt.mpr hdeep)
    | @duplicated known hknown _ _ _ =>
      -- the guards are asked anew, knowing what the verdict on the type has left behind
      obtain ⟨known', hknown', hrun⟩ := findStrategy_firstFor (r := r)
        (s := (s.knowing known).note (.opened r depth)) ht c.strategies hknown
      exact ⟨known', hknown', duplicate_copyBy hrun⟩

end Setting

namespace Registry

/-- Registering keeps the order. Of any sequence of registrations, each puts its strategy where its
priority asks for, among those that are there, and whatever is registered later keeps them all in this
order; in the end there are the strategies from the start and those that were registered, each as often
as it was. So for an object whose type is not immutable the strategy changes with a registration only to
the new one, namely when that comes first. -/
theorem registerAll_keeps_order (start : Registry) (earlier later : List (Strategy × Priority))
    (σ : Strategy) (p : Priority) :
    let steps := earlier ++ (σ, p) :: later
    let before := start.registerAll earlier
    let after := start.registerAll (earlier ++ [(σ, p)])
    (start.registerAll steps).Perm (start ++ steps.map Prod.fst) ∧
    ∃ ahead behind, p.Divides ahead behind ∧ before = ahead ++ behind ∧ after = ahead ++ σ :: behind ∧
      after.Sublist (start.registerAll steps) ∧
      ∀ (c : Setting) (s : CopyState) (r : Ref), c.types.Coherent → s.known.Sound c.types c.sharing →
        ¬ c.sharing.Immutable c.types (c.types.describe r.type) →
        ∃ old new, (c.withStrategies before).Employs s r old ∧ (c.withStrategies after).Employs s r new ∧
          (ahead.ComesFirst c.types c.sharing s.heap r σ → new = some σ) ∧
          (¬ ahead.ComesFirst c.types c.sharing s.heap r σ → new = old) := by
  intro steps before after
  obtain ⟨ahead, behind, hbefore, hp⟩ := exists_divides before p
  have hafter : after = ahead ++ σ :: behind := by
    have hstep : after = before.register σ p := start.registerAll_append earlier [(σ, p)]
    rw [hstep, hbefore, register_of_divides hp]
  have hsteps : start.registerAll steps = after.registerAll later := by
    rw [← registerAll_append]
    simp [steps]
  refine ⟨start.registerAll_perm steps, ahead, behind, hp, hbefore, hafter, ?_, ?_⟩
  · rw [hsteps]
    exact after.sublist_registerAll later
  · intro c s r ht hk hi
    have hemploys : ∀ rs, (c.withStrategies rs).Employs s r (rs.firstFor c.types c.sharing s.heap r) :=
      fun rs => Setting.employs_firstFor (c := c.withStrategies rs) ht hk hi
    refine ⟨_, _, hemploys before, hemploys after, fun hσ => ?_, fun hσ => ?_⟩
    · rw [hafter, firstFor_of_comesFirst hσ]
    · rw [hafter, hbefore, firstFor_of_not_comesFirst hσ]

/-- A strategy for sets has the name of the built-in one for maps. One for lists goes before the first of
the two and is found for a list; behind the built-in one for collections it is not found. -/
theorem registerAll_beside_namesake :
    let specs : Specs := ⟨[], ""⟩
    let own (name : String) (t : TypeId) := Strategy.custom specs name (.ofType t) (.blank t) .elements
    let earlier := [(own "map" .set, Priority.after "array")]
    let placed (p : Priority) := builtin.registerAll (earlier ++ [(own "lists" .list, p)])
    let c := (Cloner.create .standard).setting specs.types
    let s : CopyState := ⟨⟨#[.list []], 1⟩, .empty, .empty, []⟩
    let r : Ref := ⟨.list, 0⟩
    (placed (.before "map")).names =
      ["immutable", "array", "lists", "map", "self-clone", "collection", "map"] ∧
    (c.withStrategies (placed (.before "map"))).Employs s r (some (own "lists" .list)) ∧
    (placed (.after "collection")).names =
      ["immutable", "array", "map", "self-clone", "collection", "lists", "map"] ∧
    (c.withStrategies (placed (.after "collection"))).Employs s r (some .collection) := by
  intro specs own earlier placed c s r
  have ht : c.types.Coherent := specs.types_coherent
  have hk : s.known.Sound c.types c.sharing :=
    Knowledge.sound_of_no_verdicts (DescriptorCache.faithful_empty _)
  have hi : ¬ c.sharing.Immutable c.types (c.types.describe r.type) :=
    SharingRules.not_immutable_of_kind nofun
  have hahead : ∀ {p ahead behind}, p.Divides ahead behind →
      builtin.registerAll earlier = ahead ++ behind →
      ahead = (builtin.registerAll earlier).take ((builtin.registerAll earlier).place p) := by
    intro p ahead behind hp hbefore
    rw [hbefore, place_of_divides hp, List.take_left]
  refine ⟨rfl, ?_, rfl, ?_⟩
  · obtain ⟨-, ahead, behind, hp, hbefore, -, -, hfound⟩ :=
      registerAll_keeps_order builtin earlier [] (own "lists" .list) (.before "map")
    obtain ⟨old, new, -, hnew, hfirst, -⟩ := hfound c s r ht hk hi
    obtain rfl : ahead = [.immutable, .array] := hahead hp hbefore
    have hskip : Skips c.types c.sharing s.heap r [.immutable, .array] :=
      List.forall_mem_cons.mpr ⟨hi, List.forall_mem_singleton.mpr Bool.noConfusion⟩
    rwa [hfirst ⟨rfl, hskip⟩] at hnew
  · obtain ⟨-, ahead, behind, hp, hbefore, -, -, hfound⟩ :=
      registerAll_keeps_order builtin earlier [] (own "lists" .list) (.after "collection")
    obtain ⟨old, new, hold, hnew, -, hlater⟩ := hfound c s r ht hk hi
    obtain rfl : ahead = [.immutable, .array, own "map" .set, .selfClone, .collection] :=
      hahead hp hbefore
    rw [hlater fun hσ => hσ.2 .collection (by simp) rfl] at hnew
    have hcollection : some Strategy.collection = old := Except.ok.inj hold.find
    rwa [← hcollection] at hnew

end Registry

end GraphCopy
