import GraphCopy.Copy.Session
import GraphCopy.Proofs.Copy.Conduct

/-!
# The source is left alone

A request changes nothing that was there when it was made: every script of a
built-in strategy, and copying by structure, writes to the copy that is being
filled, and this copy was made after the request. So a call leaves all objects
that it finds as they are, also those that it shares with the copy, and also
when it fails.
-/

namespace GraphCopy

theorem keeps_conduct (bound : Nat) : Conduct bound fun s t => s.heap.Keeps bound t.heap where
  refl s := Heap.Keeps.refl bound s.heap
  trans := Heap.Keeps.trans
  bound_le hst hs := hs.trans hst.size_le
  learn s _ := Heap.Keeps.refl bound s.heap
  heap _ _ _ hk := hk
  record s _ _ := Heap.Keeps.refl bound s.heap

namespace Setting

variable {c : Setting} {bound : Nat} {copy : Value → CopyM Value}

abbrev Leaves (bound : Nat) {α : Type} (x : CopyM α) : Prop :=
  x.Obeys bound fun s t => s.heap.Keeps bound t.heap

theorem resolve_leaves (hc : c.strategies = .builtin) (hcopy : ∀ v, Leaves bound (copy v))
    (depth : Nat) (source : Ref) : Leaves bound (c.resolve copy depth source) := by
  have hR := keeps_conduct bound
  have hdup : ∀ d, Leaves bound (c.duplicate copy depth d source) :=
    fun d s hs => hR.duplicate hcopy hc depth d source s hs
  apply (hR.learned _).andThen hR
  intro d
  apply (hR.learned _).andThen hR
  intro immutable
  cases immutable with
  | true => exact hR.pure source
  | false =>
    apply CopyM.Obeys.andThen hR (fun s _ => hR.refl s)
    intro s
    cases s.memo.get? source with
    | some known => exact hR.pure known
    | none =>
      dsimp only
      cases c.options.maxDepth with
      | none => exact hdup d
      | some limit =>
        dsimp only
        split
        · exact hR.fail _
        · exact hdup d

/-- A request, however deep it is nested, changes nothing below any bound up to which there are
objects. -/
theorem cloneWithin_leaves (hc : c.strategies = .builtin) (n depth : Nat) (v : Value) :
    Leaves bound (c.cloneWithin n depth v) := by
  have hR := keeps_conduct bound
  induction n generalizing depth v with
  | zero => cases v <;> exact fun s _ => hR.refl s
  | succ n ih =>
    cases v with
    | object r =>
      have hres := resolve_leaves hc (ih (depth + 1)) depth r
      have hask : Leaves bound (c.cloneRefWith (c.cloneWithin n (depth + 1)) depth r) :=
        fun s hs => hres (s.note (.asked r)) hs
      exact hask.andThen hR fun k => hR.pure _
    | _ => exact fun s _ => hR.refl s

end Setting

namespace Cloner

variable {options : CopyOptions} {sharing : SharingRules} {verdicts : Verdicts} {types : Types}
  {h : Heap} {cache : DescriptorCache} {v : Value}

/-- Whatever a call with the built-in strategies comes to, every object that was there before has the
content that it had. -/
theorem deepClone_leaves_source {r : Ref} {o : Object} (hr : h.get? r = some o) :
    ((Cloner.mk options sharing .builtin verdicts).deepClone types h cache v).2.heap.get? r =
      some o := by
  have hc : ((Cloner.mk options sharing .builtin verdicts).setting types).strategies = .builtin := rfl
  have hstart : h.size ≤ (CopyState.mk h ⟨cache, verdicts⟩ .empty []).heap.size := le_rfl
  have hkeeps := Setting.cloneWithin_leaves hc (h.size + 1) 0 v _ hstart
  exact hkeeps.get?_eq_some hr

/-- A list holds a set, which is marked, a map with the set as a key, and a list that holds a socket.
The map is copied, then the second list fails on the socket, which cannot be instantiated. -/
theorem deepClone_leaves_shared_set :
    let socket := { TypeSpec.bare "Socket" "Socket" with fields := [.plain "peer" .value] }
    let specs : Specs := ⟨[socket], ""⟩
    let set : Object := .set (.ofList [.int 3, .object ⟨.host 0, 0⟩])
    let map : Object := .map (.ofList [(.object ⟨.set, 1⟩, .int 7)])
    let h : Heap := ⟨#[.host 0 [.value .null] [], set, map, .list [.null, .object ⟨.host 0, 0⟩],
      .list [.object ⟨.set, 1⟩, .object ⟨.map, 2⟩, .object ⟨.list, 3⟩]], 1⟩
    let call := ((create .strict).mark .set).deepClone specs.types h .empty (.object ⟨.list, 4⟩)
    h.get? ⟨.set, 1⟩ = some set ∧ h.size = 5 ∧ call.2.heap.size = 8 ∧
      call.1 =
        .error (.failed (.instantiation "Socket" "no accessible no-arg or copy constructor")) ∧
      call.2.heap.get? ⟨.map, 6⟩ = some map ∧ call.2.heap.get? ⟨.set, 1⟩ = some set := by
  intro socket specs set map h call
  have hset : h.get? ⟨.set, 1⟩ = some set := rfl
  refine ⟨hset, rfl, by decide +kernel, by decide +kernel, by decide +kernel, ?_⟩
  exact deepClone_leaves_source hset

end Cloner
end GraphCopy
