import GraphCopy.Copy.Filling
import GraphCopy.Proofs.Types.Records

/-!
# Scripts that keep to their bounds

A script is confined to a heap and a bound when it asks only for copies of
what exists in that heap, and changes only objects at or above the bound,
whatever it is answered and however the heap has grown in the meantime.

The built-in strategies are confined, and so is copying by structure, wherever
the objects of the heap show nothing but objects of the heap. `Script.checked`
stops a script of the host where it would step out; one that never does so is
not affected by the check.
-/

namespace GraphCopy

namespace Script

inductive Confined (types : Types) (h : Heap) (bound : Nat) : Script → Prop
  | done : Confined types h bound .done
  | fail (e : CopyError) : Confined types h bound (.fail e)
  | look {next : Heap → Nat → Script}
      (hn : ∀ h' tick, h.Keeps h.size h' → Confined types h bound (next h' tick)) :
      Confined types h bound (.look next)
  | describe {t : TypeId} {next : Descriptor → Script}
      (hn : Confined types h bound (next (types.describe t))) :
      Confined types h bound (.describe t next)
  | make {o : Object} {next : Ref → Script}
      (hn : ∀ r, bound ≤ r.address → Confined types h bound (next r)) :
      Confined types h bound (.make o next)
  | put {target : Ref} {o : Object} {next : Script} (ht : bound ≤ target.address)
      (hn : Confined types h bound next) : Confined types h bound (.put target o next)
  | copy {v : Value} {next : Except CopyError Value → Script} (hv : h.Holds v)
      (hn : ∀ answer, Confined types h bound (next answer)) : Confined types h bound (.copy v next)

variable {types : Types} {h : Heap} {bound : Nat}

theorem Confined.each {α : Type} {step : α → Script → Script} {xs : List α}
    (hs : ∀ a ∈ xs, ∀ rest, Confined types h bound rest → Confined types h bound (step a rest)) :
    Confined types h bound (Script.each step xs) := by
  induction xs with
  | nil => exact .done
  | cons a xs ih =>
    exact hs a (by simp) _ (ih fun b hb => hs b (by simp [hb]))

theorem Confined.copyOrFail {v : Value} {next : Value → Script} (hv : h.Holds v)
    (hn : ∀ c, Confined types h bound (next c)) :
    Confined types h bound (Script.copyOrFail v next) := by
  refine .copy hv fun answer => ?_
  cases answer with
  | ok c => exact hn c
  | error e => exact .fail e

theorem Confined.edit {target : Ref} {change : Object → Except CopyError Object} {next : Script}
    (ht : bound ≤ target.address) (hn : Confined types h bound next) :
    Confined types h bound (Script.edit target change next) := by
  refine .look fun h' _ _ => ?_
  cases h'.get? target with
  | none => exact hn
  | some o =>
    cases hc : change o with
    | ok o' => simpa only [hc] using Confined.put ht hn
    | error e => simpa only [hc] using Confined.fail e

end Script

/-- The script, stopped where it would ask for the copy of what `h` does not hold, or change one of the
objects of `h`. -/
def Script.checked (h : Heap) : Script → Script
  | .done => .done
  | .fail e => .fail e
  | .look next => .look fun h' tick => (next h' tick).checked h
  | .describe t next => .describe t fun d => (next d).checked h
  | .make o next => .make o fun r => (next r).checked h
  | .put target o next =>
    if h.size ≤ target.address then .put target o (next.checked h)
    else .fail (.instantiation "Script" "changes an object that was there before")
  | .copy v next =>
    if h.Holds v then .copy v fun answer => (next answer).checked h
    else .fail (.instantiation "Script" "asks for what was not there before")

theorem Script.checked_confined (types : Types) (h : Heap) (script : Script) :
    (script.checked h).Confined types h h.size := by
  induction script with
  | done => exact .done
  | fail e => exact .fail e
  | look next ih => exact .look fun h' tick _ => ih h' tick
  | describe t next ih => exact .describe (ih _)
  | make o next ih => exact .make fun r _ => ih r
  | put target o next ih =>
    rw [Script.checked]
    split_ifs with ht
    · exact .put ht ih
    · exact .fail _
  | copy v next ih =>
    rw [Script.checked]
    split_ifs with hv
    · exact .copy hv ih
    · exact .fail _

def Shell.Yields (bound : Nat) : Shell → Ref → Prop
  | .existing r, target => target = r
  | .fresh o, target => bound ≤ target.address ∧ target.type = o.type
  | .part _ next, target => ∃ r, (next r).Yields bound target

/-- Wherever the shell of a copy comes to lie, the script that fills it is confined. -/
def Strategy.Confined (types : Types) (h : Heap) (bound : Nat) (s : Strategy) : Prop :=
  ∀ h' tick source shell target, h.Keeps h.size h' → h.Has source →
    s.shell types h' tick source = .ok shell → shell.Yields bound target →
    (s.fill types source target).Confined types h bound

namespace Strategy

def checked (h : Heap) (s : Strategy) : Strategy :=
  { s with fill := fun types source target => (s.fill types source target).checked h }

theorem checked_confined (types : Types) (h : Heap) (s : Strategy) :
    (s.checked h).Confined types h h.size :=
  fun _ _ _ _ _ _ _ _ _ => Script.checked_confined types h _

variable {types : Types} {h : Heap} {bound : Nat}

theorem leaf_confined (name : String) (guard : Guard)
    (shell : Types → Heap → Nat → Ref → Except CopyError Shell) :
    (leaf name guard shell).Confined types h bound :=
  fun _ _ _ _ _ _ _ _ _ => .done

theorem arrayAt_eq_some {r : Ref} {a : FixedArray} :
    arrayAt h r = some a ↔ r.type = .array ∧ h.get? r = some (.array a) := by
  unfold arrayAt
  split_ifs with hr
  · simp only [hr, true_and]
    cases h.get? r with
    | none => simp
    | some o => cases o <;> simp [Object.array?]
  · simp [hr]

theorem confined_of_fresh {s : Strategy}
    (hshell : ∀ h' tick source shell, s.shell types h' tick source = .ok shell →
      ∃ o, shell = .fresh o)
    (hfill : ∀ source target, h.Has source → bound ≤ target.address →
      (s.fill types source target).Confined types h bound) : s.Confined types h bound := by
  intro h' tick source shell target _ hsrc hmade hy
  obtain ⟨o, rfl⟩ := hshell h' tick source shell hmade
  exact hfill source target hsrc hy.1

theorem array_confined (hc : types.ClosedOn h) : array.Confined types h bound := by
  refine confined_of_fresh (fun h' tick source shell hshell => ?_) fun source target hsrc hb => ?_
  · simp only [array] at hshell
    split at hshell
    · exact ⟨_, (Except.ok.inj hshell).symm⟩
    · cases hshell
  · refine .look fun h' _ hk => ?_
    cases ha : arrayAt h' source with
    | none => exact .fail _
    | some a =>
      rw [arrayAt_eq_some, hk.get?_eq source hsrc.address_lt] at ha
      refine .each fun p hp rest hrest => ?_
      have hv : h.Holds p.1 := hc.items source a ha.2 p.1 (List.fst_mem_of_mem_zipIdx hp)
      refine .copy hv fun answer => ?_
      cases answer with
      | ok c => exact .edit hb hrest
      | error e => exact .fail _

theorem collection_confined (hc : types.ClosedOn h) : collection.Confined types h bound := by
  refine confined_of_fresh (fun h' tick source shell hshell => ?_) fun source target hsrc hb => ?_
  · simp only [collection] at hshell
    split at hshell
    · exact ⟨_, (Except.ok.inj hshell).symm⟩
    · cases hshell
  · refine .look fun h' _ hk => .each fun v hv rest hrest => ?_
    have hheld : h.Holds v := by
      obtain ⟨o, ho, hot⟩ := hsrc
      simp only [hk.get?_eq_some ho] at hv
      cases hcol : (types.info source.type).collection with
      | none => simp [hcol] at hv
      | some c =>
        simp only [hcol] at hv
        exact hc.elements source o ho c (hot ▸ hcol) v hv
    exact .copyOrFail hheld fun c => .edit hb hrest

theorem map_confined (hc : types.ClosedOn h) : map.Confined types h bound := by
  refine confined_of_fresh (fun h' tick source shell hshell => ?_) fun source target hsrc hb => ?_
  · simp only [map] at hshell
    split at hshell
    · exact ⟨_, (Except.ok.inj hshell).symm⟩
    · cases hshell
  · refine .look fun h' _ hk => .each fun e he rest hrest => ?_
    have hheld : h.Holds e.1 ∧ h.Holds e.2 := by
      obtain ⟨o, ho, hot⟩ := hsrc
      simp only [hk.get?_eq_some ho] at he
      cases hmap : (types.info source.type).map with
      | none => simp [hmap] at he
      | some m =>
        simp only [hmap] at he
        exact hc.entries source o ho m (hot ▸ hmap) e he
    exact .copyOrFail hheld.1 fun k => .copyOrFail hheld.2 fun v => .edit hb hrest

theorem builtin_confined (hc : types.ClosedOn h) : ∀ s ∈ Registry.builtin, s.Confined types h bound := by
  intro s hs
  simp only [Registry.builtin, List.mem_cons, List.not_mem_nil, or_false] at hs
  rcases hs with rfl | rfl | rfl | rfl | rfl
  · exact leaf_confined _ _ _
  · exact array_confined hc
  · exact leaf_confined _ _ _
  · exact collection_confined hc
  · exact map_confined hc

end Strategy

namespace Setting

variable {types : Types} {h : Heap} {bound : Nat} {source target : Ref}

theorem copyField_confined (hc : types.ClosedOn h) (hsrc : h.Has source) (hb : bound ≤ target.address)
    (name : String) {f : Field} (hf : f ∈ (types.describe source.type).instanceFields) {rest : Script}
    (hrest : rest.Confined types h bound) :
    (copyField name source target f rest).Confined types h bound := by
  refine .look fun h' tick hk => ?_
  obtain ⟨o, ho, hot⟩ := hsrc
  simp only [hk.get?_eq_some ho]
  cases hget : f.get o tick with
  | error cause => exact .fail _
  | ok v => exact .copyOrFail (hc.fields source o ho f (hot ▸ hf) tick v hget) fun c => .edit hb hrest

theorem copyFields_confined (hc : types.ClosedOn h) (hsrc : h.Has source)
    (hb : bound ≤ target.address) :
    (copyFields (types.describe source.type) source target).Confined types h bound :=
  .each fun _ hf _ hrest => copyField_confined hc hsrc hb _ hf hrest

end Setting

/-! ## Strategies of the host -/

section Host

variable {types : Types} {h : Heap} {bound : Nat} {source target : Ref}

theorem holds_of_containedIn? (hc : types.ClosedOn h) {o : Object} (ho : h.get? source = some o)
    {vs : List Value} (hvs : containedIn? types o = some vs) : ∀ v ∈ vs, h.Holds v := by
  unfold containedIn? at hvs
  split at hvs
  · next a ha =>
    obtain rfl := Object.eq_array_of_array? ha
    cases hvs
    exact hc.items source a ho
  · split at hvs
    · next c hcol =>
      cases hvs
      exact hc.elements source o ho c hcol
    · obtain ⟨m, hm, rfl⟩ := Option.map_eq_some_iff.mp hvs
      intro v hv
      obtain ⟨e, he, hve⟩ := List.mem_flatMap.mp hv
      have hheld := hc.entries source o ho m hm e he
      simp only [List.mem_cons, List.not_mem_nil, or_false] at hve
      rcases hve with rfl | rfl
      · exact hheld.1
      · exact hheld.2

theorem fillElements_confined (hc : types.ClosedOn h) (hsrc : h.Has source)
    {step : Value → Script → Script} (hs : ∀ v rest, h.Holds v → rest.Confined types h bound →
      (step v rest).Confined types h bound) :
    (fillElements types source step).Confined types h bound := by
  refine .look fun h' tick hk => ?_
  obtain ⟨o, ho, hot⟩ := hsrc
  simp only [hk.get?_eq_some ho]
  cases hvs : containedIn? types o with
  | some vs => exact .each fun v hv rest hrest => hs v rest (holds_of_containedIn? hc ho hvs v hv) hrest
  | none =>
    refine .describe (.each fun v hv rest hrest => hs v rest ?_ hrest)
    obtain ⟨f, hf, hfv⟩ := List.mem_filterMap.mp hv
    cases hget : f.get o tick with
    | error cause =>
      rw [hget] at hfv
      cases hfv
    | ok w =>
      rw [hget] at hfv
      cases hfv
      exact hc.fields source o ho f hf tick v hget

theorem pushOnto_confined (hb : bound ≤ target.address) (v : Value) {rest : Script}
    (hrest : rest.Confined types h bound) :
    (pushOnto types target v rest).Confined types h bound :=
  .edit hb hrest

theorem FillSpec.fill_confined (hc : types.ClosedOn h) (hsrc : h.Has source)
    (hb : bound ≤ target.address) (fill : FillSpec) :
    (fill.fill types source target).Confined types h bound := by
  cases fill with
  | nothing => exact .done
  | failing e => exact .fail e
  | elements =>
    exact fillElements_confined hc hsrc fun v rest hv hrest =>
      .copyOrFail hv fun c => pushOnto_confined hb c hrest
  | nonNull =>
    refine fillElements_confined hc hsrc fun v rest hv hrest => ?_
    split_ifs
    · exact hrest
    · exact .copyOrFail hv fun c => pushOnto_confined hb c hrest
  | share =>
    exact fillElements_confined hc hsrc fun v rest _ hrest => pushOnto_confined hb v hrest
  | fields =>
    exact .describe (.each fun _ hf _ hrest => Setting.copyField_confined hc hsrc hb _ hf hrest)
  | again => exact .copy (Heap.holds_object hsrc) fun _ => .done

/-- The ready-made strategies of the host are confined if their shells are new objects. -/
theorem Strategy.custom_confined (hc : types.ClosedOn h) (specs : Specs) (name : String)
    (guard : Guard) {shell : ShellSpec} (hs : shell ≠ .itself) (fill : FillSpec) :
    (custom specs name guard shell fill).Confined types h bound := by
  refine confined_of_fresh (fun h' tick source made hmade => ?_) fun source target hsrc hb =>
    FillSpec.fill_confined hc hsrc hb fill
  cases shell with
  | itself => exact absurd rfl hs
  | blank t => exact ⟨_, (Except.ok.inj hmade).symm⟩
  | failing e => cases hmade

end Host

end GraphCopy
