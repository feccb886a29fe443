import GraphCopy.Proofs.Container.Typed
import GraphCopy.Proofs.Copy.Injective
import GraphCopy.Proofs.Value.Accepting

/-!
# Copies of arrays are well typed

The copy of an array starts without items and is filled by writes, each of which
asks the component type about the copy of an item and not about the item. So
whatever the types of the host make of the items, and also where an array is met
again before its copy is finished, the copy that a successful call leaves is well
typed. Where the copy of an item is not accepted there is no such call.
-/

namespace GraphCopy

variable {v w w' : Value} {r k : Ref} {a : FixedArray}

theorem Setting.Copied.alike_copy {c : Setting} {m : Memo} (hw : c.Copied m v w)
    (hw' : c.Copied m v w') : w.Alike w' := by
  have hobject : ∀ {r k x}, c.Copied m (.object r) (.object k) → c.Copied m (.object r) x →
      (Value.object k).Alike x := by
    intro r k x hk hx
    rcases hx.of_object with ⟨-, rfl⟩ | ⟨l, -, rfl⟩
    all_goals
      rw [hk.unique hx]
      exact .refl _
  cases hw with
  | plain hv hvw =>
    cases hw' with
    | plain _ hvw' => exact hvw.symm.trans hvw'
    | _ => cases hv
  | shared hi => exact hobject (.shared hi) hw'
  | recorded hi hm => exact hobject (.recorded hi hm) hw'

structure FixedArray.CopiedAs (R : Value → Value → Prop) (a b : FixedArray) : Prop where
  typed : b.Typed a.component a.length
  items : List.Forall₂ R a.items b.items

namespace Ground.Settled

variable {g : Ground} {s : CopyState}

theorem array_copied (hs : g.Settled v w s) (hr : g.heap.get? r = some (.array a))
    (hk : s.memo.get? r = some k) :
    k ≠ r ∧ ∃ b, s.heap.get? k = some (.array b) ∧ a.CopiedAs (g.Copied s.memo) b := by
  have hrt : r.type = .array := (hs.tidy.source r k hk).1.type_eq hr
  have hkept := hs.kept r k hk
  obtain ⟨hne, b, hb, hwell⟩ := hkept.typed hrt
  have hhost : ∀ i, r.type ≠ .host i := by simp [hrt]
  obtain ⟨o, o', ho, ho', hmir⟩ := hkept.mirrored hne (Types.selfClone_container hhost)
    (Types.faithful_container hhost)
  obtain rfl := Option.some.inj (ho.symm.trans hr)
  obtain rfl := Option.some.inj (ho'.symm.trans hb)
  have hitems : List.Forall₂ (g.Copied s.memo) a.items b.items := hmir.shape.values
  have hcomponent : b.component = a.component := Option.some.inj hmir.component
  exact ⟨hne, b, hb, ⟨hcomponent, hitems.length_eq.symm, hwell⟩, hitems⟩

theorem admits_copied (hs : g.Settled v w s) (hr : g.heap.get? r = some (.array a))
    (hk : s.memo.get? r = some k) {u u' : Value} (hu : u ∈ a.items) (hcop : g.Copied s.memo u u') :
    a.component.admits u' = true := by
  obtain ⟨-, b, -, hb⟩ := hs.array_copied hr hk
  obtain ⟨x, hx, hux⟩ := hb.items.exists_of_mem_left hu
  rw [← (hux.alike_copy hcop).admits_eq, ← hb.typed.component]
  exact hb.typed.wellTyped x hx

end Ground.Settled

namespace Cloner

section Call

variable {g : Ground} {cache : DescriptorCache} {verdicts : Verdicts}
  (hk : Knowledge.Sound g.types g.sharing ⟨cache, verdicts⟩) (hv : g.heap.Holds v)
  (hr : g.heap.get? r = some (.array a))

include hk hv hr

theorem deepClone_array_copied {after : Aftermath}
    (hrun : (ofGround g verdicts).deepClone g.types g.heap cache v = (.ok w, after))
    (hrk : after.memo.get? r = some k) :
    g.heap.size ≤ k.address ∧
      ∃ b, after.heap.get? k = some (.array b) ∧ a.CopiedAs (g.Copied after.memo) b := by
  obtain ⟨s, hs, hheap, hmemo⟩ := deepClone_settled hk hv hrun
  rw [hmemo] at hrk
  obtain ⟨hne, hb⟩ := hs.array_copied hr hrk
  rw [hheap, hmemo]
  exact ⟨((hs.tidy.copy r k hrk).resolve_left hne).1, hb⟩

/-- A call that has begun to copy an array fails if the copy of an item is not accepted. -/
theorem deepClone_fails_of_not_admits {u u' : Value} (hu : u ∈ a.items) :
    let call := (ofGround g verdicts).deepClone g.types g.heap cache v
    call.2.memo.get? r = some k → g.Copied call.2.memo u u' → a.component.admits u' = false →
      ∃ e, call.1 = .error (.failed e) := by
  intro call hrk hcop hnot
  cases hres : call.1 with
  | ok w =>
    obtain ⟨s, hs, -, hmemo⟩ := deepClone_settled hk hv (Prod.ext hres rfl)
    rw [hmemo] at hrk hcop
    rw [hs.admits_copied hr hrk hu hcop] at hnot
    cases hnot
  | error e =>
    cases e with
    | failed e => exact ⟨e, rfl⟩
    | cutOff => exact absurd hres (deepClone_ne_cutOff hk hv)

end Call

/-- Arrays stay well typed. Any sequence of writes, also refused ones, keeps the component type and the
length that an array was made with, and its items null or accepted. A write is carried out if and only if
the value is null or accepted and the index is in range; it changes that item, and a refused one changes
nothing. A successful call with the built-in strategies gives every array that it copies a new array with
the same component type and length, well typed, with the copies of the items; it fails where the copy of
an item is not accepted. -/
theorem arrays_stay_typed :
    (∀ component n a, FixedArray.New component n a →
      ∀ requests, (a.writes requests).Typed component n) ∧
    (∀ (a : FixedArray) i v,
      ((∃ b, a.set i v = .ok b) ↔ (v = .null ∨ a.component.accepts v = true) ∧ i < a.length) ∧
      (∀ b, a.set i v = .ok b → a.write (i, v) = b ∧ b.get? i = some v ∧ ∀ j ≠ i, b.get? j = a.get? j) ∧
      ∀ e, a.set i v = .error e → a.write (i, v) = a) ∧
    ∀ (c : Cloner) (types : Types) (h : Heap) (cache : DescriptorCache) (v : Value),
      types.Coherent → types.ClosedOn h → h.WellIndexed →
      Knowledge.Sound types c.sharing ⟨cache, c.verdicts⟩ → c.strategies = .builtin → h.Holds v →
      let call := c.deepClone types h cache v
      let copied := (c.setting types).Copied call.2.memo
      ∀ r k a, call.2.memo.get? r = some k → h.get? r = some (.array a) →
        (∀ w, call.1 = .ok w → h.size ≤ k.address ∧
          ∃ b, call.2.heap.get? k = some (.array b) ∧ a.CopiedAs copied b) ∧
        ∀ u u', u ∈ a.items → copied u u' → a.component.admits u' = false →
          ∃ e, call.1 = .error (.failed e) := by
  refine ⟨fun component n a hnew requests => hnew.typed.writes requests, fun a i v => ?_, ?_⟩
  · refine ⟨FixedArray.exists_set_eq_ok, fun b hb => ?_, fun e he => FixedArray.write_of_refused he⟩
    exact ⟨FixedArray.write_of_accepted hb, FixedArray.get?_of_set hb⟩
  · intro c types h cache v ht hc hw hk hσ hv
    let g : Ground := ⟨c.setting types, h, fun _ => "", fun _ => ⟨"", []⟩, hσ, ht, hc,
      fun o ho => (hw o ho).wellFormed⟩
    have hcall : c.deepClone types h cache v = (ofGround g c.verdicts).deepClone types h cache v :=
      deepClone_eq_ofGround (g := g) rfl
    simp only [hcall]
    intro r k a hrk hr
    refine ⟨fun w hw => ?_, fun u u' hu hcop hnot => ?_⟩
    · exact deepClone_array_copied (g := g) hk hv hr (Prod.ext hw rfl) hrk
    · exact deepClone_fails_of_not_admits (g := g) hk hv hr hu hrk hcop hnot

def reelSpecs : Specs where
  hosts := [{ TypeSpec.bare "Reel" "Reel" with kind := .unstructured, construct := .list }]
  containerPath := ""

def reelHeap : Heap :=
  ⟨#[.array ⟨.object .array, [.object ⟨.array, 0⟩, .null]⟩, .host 0 [] [],
    .array ⟨.object (.host 0), [.object ⟨.host 0, 1⟩]⟩], 1⟩

theorem reelSpecs_closedOn : reelSpecs.types.ClosedOn reelHeap := by
  have hw : reelHeap.WellFormed reelSpecs.layout := by
    refine ⟨by decide, fun o ho => ?_⟩
    simp only [reelHeap, List.mem_cons, List.not_mem_nil, or_false] at ho
    rcases ho with rfl | rfl | rfl
    · trivial
    · exact nofun
    · trivial
  have hreel : ∀ o ∈ reelHeap.objects.toList, ∀ i, o.type = .host i → i = 0 := by
    simp [reelHeap, Object.type]
  refine Types.closedOn_of_wellFormed hw (fun o ho i hi => by rw [hreel o ho i hi]; exact ⟨rfl, rfl⟩) ?_
  intro o ho i hi f hf
  cases hreel o ho i hi
  cases hf

/-- The array that contains itself is copied. The copy of the reel is a list, which the array of reels does
not take. -/
theorem reels_stay_typed :
    let call (i : Nat) := (create .standard).deepClone reelSpecs.types reelHeap .empty (.object ⟨.array, i⟩)
    let row : FixedArray := .blank (.scalar .int) 2
    (row.writes [(0, .int 5), (2, .null), (1, .char 'x')]).Typed (.scalar .int) 2 ∧
      (call 0).1 = .ok (.object ⟨.array, 3⟩) ∧
      (∃ b, (call 0).2.heap.get? ⟨.array, 3⟩ = some (.array b) ∧ b.Typed (.object .array) 2) ∧
      (call 2).2.memo.get? ⟨.host 0, 1⟩ = some ⟨.list, 4⟩ ∧ ∃ e, (call 2).1 = .error (.failed e) := by
  intro call row
  have hindexed : reelHeap.WellIndexed := by
    simp [Heap.WellIndexed, reelHeap, Object.WellIndexed]
  have hknown : Knowledge.Sound reelSpecs.types .plain ⟨.empty, []⟩ :=
    Knowledge.sound_of_no_verdicts (DescriptorCache.faithful_empty _)
  have hring : (call 0).1 = .ok (.object ⟨.array, 3⟩) := by decide +kernel
  have hreel : (call 2).2.memo.get? ⟨.host 0, 1⟩ = some ⟨.list, 4⟩ := by decide +kernel
  have hclone := fun i => arrays_stay_typed.2.2 (create .standard) reelSpecs.types reelHeap .empty
    (.object ⟨.array, i⟩) reelSpecs.types_coherent reelSpecs_closedOn hindexed hknown rfl
  have hdone := (hclone 0 (by decide) ⟨.array, 0⟩ ⟨.array, 3⟩ _ (by decide +kernel) rfl).1
  have hfail := (hclone 2 (by decide) ⟨.array, 2⟩ ⟨.array, 3⟩ _ (by decide +kernel) rfl).2
  refine ⟨arrays_stay_typed.1 _ _ _ (.blank 2) _, hring, ?_, hreel, ?_⟩
  · exact (hdone _ hring).2.imp fun b hb => ⟨hb.1, hb.2.typed⟩
  · exact hfail _ _ (List.mem_singleton.mpr rfl)
      (.recorded (SharingRules.not_immutable_of_kind (by decide)) hreel) rfl

end Cloner
end GraphCopy
