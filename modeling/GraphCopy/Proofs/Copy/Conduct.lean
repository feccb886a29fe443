import GraphCopy.Proofs.Copy.Proper
import GraphCopy.Proofs.Copy.Selection

/-!
# What holds across a duplication

A conduct is a relation between an earlier and a later state of copying that
does not mind what is found out, what is made, what is changed at or above a
bound, and what is recorded. A piece of copying obeys it if it relates the
state before to the state after, whatever the piece ends with.

Where nested requests obey a conduct, so does the duplication of an object by
the built-in strategies or by structure. No assumption is made on the types,
the heap, or what is known.
-/

namespace GraphCopy

structure Conduct (bound : Nat) (R : CopyState → CopyState → Prop) : Prop where
  refl : ∀ s, R s s
  trans : ∀ {s t u}, R s t → R t u → R s u
  bound_le : ∀ {s t}, R s t → bound ≤ s.heap.size → bound ≤ t.heap.size
  learn : ∀ s known, R s (s.knowing known)
  heap : ∀ s h, bound ≤ s.heap.size → s.heap.Keeps bound h → R s (s.withHeap h)
  record : ∀ s source copy, R s (s.recording source copy)

namespace CopyM

variable {α β : Type} {bound : Nat} {R : CopyState → CopyState → Prop}

def Obeys (bound : Nat) (R : CopyState → CopyState → Prop) (x : CopyM α) : Prop :=
  ∀ s, bound ≤ s.heap.size → R s (x s).2

theorem Obeys.bind (hR : Conduct bound R) {x : CopyM α} {f : α → CopyM β} (hx : x.Obeys bound R)
    (hf : ∀ s a t, bound ≤ s.heap.size → x s = (.ok a, t) → bound ≤ t.heap.size →
      R t (f a t).2) : (x >>= f).Obeys bound R := by
  intro s hs
  have hst := hx s hs
  rw [bind_apply]
  cases hout : x s with
  | mk answer t =>
    rw [hout] at hst
    cases answer with
    | ok a => exact hR.trans hst (hf s a t hs hout (hR.bound_le hst hs))
    | error e => exact hst

theorem Obeys.andThen (hR : Conduct bound R) {x : CopyM α} {f : α → CopyM β} (hx : x.Obeys bound R)
    (hf : ∀ a, (f a).Obeys bound R) : (x >>= f).Obeys bound R :=
  hx.bind hR fun _ a t _ _ ht => hf a t ht

end CopyM

open CopyM

theorem CopyM.realize_yields {bound : Nat} {shell : Shell} {s t : CopyState} {target : Ref}
    (hs : bound ≤ s.heap.size) (h : realize shell s = (.ok target, t)) :
    shell.Yields bound target := by
  induction shell generalizing s with
  | existing r =>
    cases h
    rfl
  | fresh o =>
    cases h
    exact ⟨hs, rfl⟩
  | part o next ih =>
    refine ⟨_, ih (s.heap.alloc o).1 (s := s.withHeap (s.heap.alloc o).2) ?_ h⟩
    exact hs.trans (Heap.keeps_alloc le_rfl o).size_le

theorem Setting.findStrategy_mem {c : Setting} {r : Ref} {rs : Registry} {s t : CopyState}
    {σ : Strategy} (h : c.findStrategy r rs s = (.ok (some σ), t)) : σ ∈ rs := by
  induction rs generalizing s with
  | nil => cases h
  | cons τ rest ih =>
    simp only [findStrategy, bind_apply] at h
    generalize c.isMeantFor τ r s = out at h
    obtain ⟨answer, s₁⟩ := out
    cases answer with
    | error e => cases h
    | ok meant =>
      cases meant with
      | true =>
        cases h
        exact List.mem_cons_self ..
      | false => exact List.mem_cons_of_mem τ (ih h)

namespace Conduct

variable {α : Type} {bound : Nat} {R : CopyState → CopyState → Prop} (hR : Conduct bound R)

include hR

theorem pure (a : α) : (Pure.pure a : CopyM α).Obeys bound R := fun s _ => hR.refl s

theorem fail (e : CopyError) : (CopyM.fail e : CopyM α).Obeys bound R := fun s _ => hR.refl s

theorem learned (f : Knowledge → α × Knowledge) : (CopyM.learn f).Obeys bound R :=
  fun s _ => hR.learn s (f s.known).2

theorem look : CopyM.look.Obeys bound R :=
  fun s hs => hR.heap s s.heap.tick hs (Heap.keeps_tick bound s.heap)

theorem make (o : Object) : (CopyM.make o).Obeys bound R :=
  fun s hs => hR.heap s (s.heap.alloc o).2 hs (Heap.keeps_alloc hs o)

theorem register (source copy : Ref) : (CopyM.register source copy).Obeys bound R :=
  fun s _ => hR.record s source copy

theorem realize (shell : Shell) : (CopyM.realize shell).Obeys bound R := by
  induction shell with
  | existing r => exact hR.pure r
  | fresh o => exact hR.make o
  | part o next ih => exact (hR.make o).andThen hR ih

variable {copy : Value → CopyM Value} (hcopy : ∀ v, (copy v).Obeys bound R)

include hcopy in
theorem run {types : Types} {script : Script}
    (hs : script.Proper (fun _ => True) bound fun _ => True) :
    (script.run types copy).Obeys bound R := by
  induction hs with
  | done => exact hR.pure ()
  | fail he => exact hR.fail _
  | look _ ih => exact hR.look.andThen hR fun seen => ih seen.1 seen.2 trivial
  | @put target o next ht _ ih =>
    intro s hs
    have hput := hR.heap s (s.heap.put target o) hs (Heap.keeps_put ht o)
    exact hR.trans hput (ih _ (hR.bound_le hput hs))
  | @copy v next _ _ herr hdeep ih =>
    intro s hs
    have hst := hcopy v s hs
    simp only [Script.run]
    generalize copy v s = out at hst
    obtain ⟨answer, t⟩ := out
    have ht := hR.bound_le hst hs
    cases answer with
    | ok w => exact hR.trans hst (ih w t ht)
    | error e =>
      cases e with
      | cutOff => exact hst
      | failed e =>
        obtain ⟨e', hfail⟩ := Script.exists_fail herr hdeep e
        dsimp only
        rw [hfail]
        exact hst

variable {c : Setting}

theorem findStrategy (r : Ref) (rs : Registry) : (c.findStrategy r rs).Obeys bound R := by
  induction rs with
  | nil => exact hR.pure none
  | cons σ rest ih =>
    apply Obeys.andThen hR
    · unfold Setting.isMeantFor
      cases σ.guard with
      | immutableType => exact hR.learned _
      | holds p => exact fun s _ => hR.refl s
    · intro meant
      cases meant with
      | true => exact hR.pure _
      | false => exact ih

theorem instantiateBy (σ : Strategy) (source : Ref) : (c.instantiateBy σ source).Obeys bound R := by
  apply hR.look.andThen hR
  rintro ⟨h, tick⟩
  dsimp only
  cases σ.shell c.types h tick source with
  | ok shell => exact hR.realize shell
  | error e => exact hR.fail e

include hcopy

theorem complete {source target : Ref} {script : Script}
    (hs : script.Proper (fun _ => True) bound fun _ => True) :
    (c.complete copy source target script).Obeys bound R := by
  apply (hR.register source target).andThen hR
  intro _
  apply (hR.run hcopy hs).andThen hR
  exact fun _ => hR.pure target

theorem copyByStructure (d : Descriptor) (source : Ref) :
    (c.copyByStructure copy d source).Obeys bound R := by
  apply hR.look.andThen hR
  rintro ⟨h, tick⟩
  dsimp only
  cases h.get? source with
  | none => exact hR.pure source
  | some o =>
    dsimp only
    cases c.structuralShell d tick o with
    | error e => exact hR.fail e
    | ok made =>
      cases made with
      | none => exact (hR.register source source).andThen hR fun _ => hR.pure source
      | some shell =>
        apply (hR.make shell).bind hR
        intro s target t hs hmake ht
        cases hmake
        have hfields : (Setting.copyFields d source (s.heap.alloc shell).1).Proper (fun _ => True)
            bound fun _ => True :=
          Setting.copyFields_proper hs fun _ _ _ _ _ _ _ _ _ => trivial
        exact hR.complete hcopy hfields _ ht

theorem copyByStrategy {rs : Registry} (hrs : rs ⊆ .builtin) (source : Ref) :
    (c.copyByStrategy copy rs source).Obeys bound R := by
  apply (hR.findStrategy source rs).bind hR
  intro s found t _ hfind ht
  cases found with
  | none => exact hR.refl t
  | some σ =>
    have hσ := hrs (Setting.findStrategy_mem hfind)
    refine Obeys.bind hR (hR.instantiateBy σ source) ?_ t ht
    intro t target u ht hinst hu
    -- the shell of the copy was made in the state in which the script starts
    have hy : (σ.fill c.types source target).Proper (fun _ => True) bound fun _ => True := by
      cases hshell : σ.shell c.types t.heap t.heap.clock source with
      | error e =>
        rw [Setting.instantiateBy_error hshell] at hinst
        cases hinst
      | ok shell =>
        rw [Setting.instantiateBy_ok hshell] at hinst
        have hyields : shell.Yields bound target :=
          realize_yields (s := t.withHeap t.heap.tick) ht hinst
        exact Strategy.builtin_proper hσ hshell hyields
    exact (hR.complete hcopy hy).andThen hR (fun _ => hR.pure _) u hu

theorem duplicate (hc : c.strategies = .builtin) (depth : Nat) (d : Descriptor) (source : Ref)
    (s : CopyState) (hs : bound ≤ s.heap.size) :
    R (s.note (.opened source depth)) (c.duplicate copy depth d source s).2 := by
  have hrs : c.strategies ⊆ .builtin := hc ▸ List.Subset.refl _
  rw [Setting.duplicate, bind_apply, modify_apply]
  refine Obeys.andThen hR (hR.copyByStrategy hcopy hrs source) (fun found => ?_)
    (s.note (.opened source depth)) hs
  cases found with
  | some target => exact hR.pure target
  | none => exact hR.copyByStructure hcopy d source

end Conduct
end GraphCopy
