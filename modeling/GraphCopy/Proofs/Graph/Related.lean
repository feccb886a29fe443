import GraphCopy.Proofs.Graph.Reach
import Mathlib.Data.Set.Function

/-!
# Graphs of one shape

Two shapes are related when they show related values at the same places. An
isomorphism renames the objects in reach of one value to those in reach of
another: objects of immutable types stay themselves, the mutable ones
correspond one to one, and all shapes correspond up to the renaming.
-/

theorem List.Forall₂.exists_of_mem_right {α β : Type*} {R : α → β → Prop} {xs : List α} {ys : List β}
    (h : List.Forall₂ R xs ys) {y : β} (hy : y ∈ ys) : ∃ x ∈ xs, R x y :=
  h.flip.exists_of_mem_left hy

theorem List.Forall₂.imp_of_mem {α β : Type*} {R S : α → β → Prop} {xs : List α} {ys : List β}
    (hrs : ∀ x ∈ xs, ∀ y, R x y → S x y) (h : List.Forall₂ R xs ys) : List.Forall₂ S xs ys :=
  (List.forall₂_and_left xs ys).mpr ⟨fun _ hx => hx, h⟩ |>.imp fun x y hxy => hrs x hxy.1 y hxy.2

theorem Option.Rel.imp {α β : Type*} {R S : α → β → Prop} {a : Option α} {b : Option β}
    (hrs : ∀ a b, R a b → S a b) (h : Option.Rel R a b) : Option.Rel S a b := by
  cases h with
  | some h => exact .some (hrs _ _ h)
  | none => exact .none

namespace GraphCopy

inductive Shape.Related (R : Value → Value → Prop) : Shape → Shape → Prop
  | sequence {vs ws} (h : List.Forall₂ R vs ws) : Related R (.sequence vs) (.sequence ws)
  | entries {es fs} (h : List.Forall₂ (fun e f => R e.1 f.1 ∧ R e.2 f.2) es fs) :
      Related R (.entries es) (.entries fs)
  | record {fs gs} (h : List.Forall₂ (fun f g => f.1 = g.1 ∧ Option.Rel R f.2 g.2) fs gs) :
      Related R (.record fs) (.record gs)

namespace Shape

variable {R S : Value → Value → Prop} {s t : Shape}

theorem Related.imp (hrs : ∀ v w, R v w → S v w) (h : s.Related R t) : s.Related S t := by
  cases h with
  | sequence h => exact .sequence (h.imp hrs)
  | entries h => exact .entries (h.imp fun e f hef => ⟨hrs _ _ hef.1, hrs _ _ hef.2⟩)
  | record h => exact .record (h.imp fun f g hfg => ⟨hfg.1, hfg.2.imp hrs⟩)

theorem Related.imp_of_mem (hrs : ∀ v ∈ s.values, ∀ w, R v w → S v w) (h : s.Related R t) :
    s.Related S t := by
  cases h with
  | sequence h => exact .sequence (h.imp_of_mem hrs)
  | entries h =>
    refine .entries (h.imp_of_mem fun e he f hef => ⟨hrs _ ?_ _ hef.1, hrs _ ?_ _ hef.2⟩)
    all_goals exact List.mem_flatMap.mpr ⟨e, he, by simp⟩
  | record h =>
    refine .record (h.imp_of_mem fun f hf g hfg => ⟨hfg.1, ?_⟩)
    obtain ⟨name, v⟩ := f
    obtain ⟨name', w⟩ := g
    cases hfg.2 with
    | none => exact .none
    | some hvw => exact .some (hrs _ (List.mem_filterMap.mpr ⟨_, hf, rfl⟩) _ hvw)

theorem Related.values (h : s.Related R t) : List.Forall₂ R s.values t.values := by
  cases h with
  | sequence h => exact h
  | entries h =>
    exact List.rel_flatMap h fun e f hef => .cons hef.1 (.cons hef.2 .nil)
  | record h => exact List.rel_filterMap (fun f g hfg => hfg.2) h

theorem related_self (h : ∀ v ∈ s.values, R v v) : s.Related R s := by
  cases s with
  | sequence vs => exact .sequence (List.forall₂_same.mpr h)
  | entries es =>
    refine .entries (List.forall₂_same.mpr fun e he => ?_)
    exact ⟨h _ (List.mem_flatMap.mpr ⟨e, he, by simp⟩), h _ (List.mem_flatMap.mpr ⟨e, he, by simp⟩)⟩
  | record fs =>
    refine .record (List.forall₂_same.mpr fun f hf => ⟨rfl, ?_⟩)
    cases hv : f.2 with
    | none => exact .none
    | some v => exact .some (h v (List.mem_filterMap.mpr ⟨f, hf, hv⟩))

end Shape

def Value.renamed (φ : Ref → Ref) : Value → Value
  | .object r => .object (φ r)
  | v => v

def Object.component? (o : Object) : Option Declared := o.array?.map FixedArray.component

theorem Object.component?_of_host {o : Object} {i : Nat} (ho : o.type = .host i) :
    o.component? = none := by
  rw [component?, Object.array?_of_host ho, Option.map_none]

/-- What is in reach of `v` in `h` looks, after renaming, like what is in reach of `w` in `h'`. -/
structure Heap.Isomorphism (types : Types) (sharing : SharingRules) (h h' : Heap) (v w : Value)
    (φ : Ref → Ref) : Prop where
  root : (v.renamed φ).Alike w
  fixed : ∀ r, h.Reaches types v r → sharing.Immutable types (types.describe r.type) → φ r = r
  bijOn : Set.BijOn φ
    {r | h.Reaches types v r ∧ ¬ sharing.Immutable types (types.describe r.type)}
    {k | h'.Reaches types w k ∧ ¬ sharing.Immutable types (types.describe k.type)}
  type : ∀ r, h.Reaches types v r → (φ r).type = r.type
  component : ∀ r, h.Reaches types v r →
    (h'.get? (φ r)).bind Object.component? = (h.get? r).bind Object.component?
  shape : ∀ r, h.Reaches types v r →
    (h.shape types (types.describe r.type) r).Related (fun a b => (a.renamed φ).Alike b)
      (h'.shape types (types.describe (φ r).type) (φ r))

end GraphCopy
