import GraphCopy.Proofs.Copy.Isomorphism

/-!
# A copy is independent of its source

The mutable objects in reach of a copy were made during the call, also where an
instance started as a shallow copy of its source: every field is written over.
What is in reach of the source was there before. So a graph and its copy have
no mutable object in common, and the comparison by reach says so.
-/

namespace GraphCopy

namespace Setting.Finished

variable {c : Setting} {h : Heap} {s : CopyState} {v w : Value} {r : Ref}

theorem address_of_copy (hf : c.Finished h s) (hv : h.Holds v) (hvw : c.Copied s.memo v w)
    (hr : s.heap.Reaches c.types w r)
    (hi : ¬ c.sharing.Immutable c.types (c.types.describe r.type)) :
    h.size ≤ r.address ∧ r.address < s.heap.size := by
  obtain ⟨q, ⟨hq, himm⟩, rfl⟩ := (hf.isomorphism hv hvw).bijOn.surjOn ⟨hr, hi⟩
  rcases (hf.copied hv hvw hq).of_object with ⟨hshared, -⟩ | ⟨k, hm, hk⟩
  · exact absurd hshared himm
  · rw [Value.object.inj hk]
    obtain ⟨hhas, -, hge⟩ := hf.sane.copy q k hm
    exact ⟨hge, hhas.address_lt⟩

theorem address_of_source (hf : c.Finished h s) (hv : h.Holds v)
    (hr : s.heap.Reaches c.types v r) : r.address < h.size :=
  (((hf.sane.keeps.reaches_iff hf.closed hv).mp hr).has hf.closed hv).address_lt

theorem referenceDistinct (hf : c.Finished h s) (ht : c.types.Coherent) (hv : h.Holds v)
    (hvw : c.Copied s.memo v w) {known : Knowledge} (hk : known.Sound c.types c.sharing) :
    ((Scene.mk c.types c.sharing s.heap).referenceDistinct v w known).1 = true := by
  refine Scene.referenceDistinct_of_disjoint (s := ⟨c.types, c.sharing, s.heap⟩) ht hk
    fun p q hp hq hpq => ?_
  have hlt := hf.address_of_source hv hp.1
  have hge := (hf.address_of_copy hv hvw hq.1 hq.2).1
  omega

end Setting.Finished

namespace Cloner

variable {types : Types} {path : TypeId → String} {layouts : Nat → Layout} {h : Heap}
  {cache : DescriptorCache} {options : CopyOptions} {verdicts : Verdicts}

/-- The copy of a graph of arrays, lists, sets, maps and plain records has its mutable objects for
itself. -/
theorem deepClone_independent (ht : types.Coherent) (hp : types.PlainRecords path layouts h)
    (hw : h.WellFormed layouts) (hk : Knowledge.Sound types .plain ⟨cache, verdicts⟩)
    (hshare : options.shareSource = false) {v w : Value} (hv : h.Holds v) {after : Aftermath}
    (hrun : (Cloner.mk options .plain .builtin verdicts).deepClone types h cache v =
      (.ok w, after)) :
    let scene : Scene := ⟨types, .plain, after.heap⟩
    (∀ k, scene.MutableReach w k → h.size ≤ k.address ∧ k.address < after.heap.size) ∧
      (∀ r k, scene.MutableReach v r → scene.MutableReach w k → r.address ≠ k.address) ∧
      Knowledge.Sound types .plain ⟨after.cache, after.cloner.verdicts⟩ ∧
      ∀ known, Knowledge.Sound types .plain known → (scene.referenceDistinct v w known).1 = true := by
  obtain ⟨s, hf, hcop, hheap, hcache, hverdicts⟩ := deepClone_finished ht hp hw hk hshare hv hrun
  rw [hheap, ← hcache, ← hverdicts]
  refine ⟨fun k hr => hf.address_of_copy hv hcop hr.1 hr.2, fun r k hr hk heq => ?_, hf.sane.known,
    fun known hknown => hf.referenceDistinct ht hv hcop hknown⟩
  have hlt := hf.address_of_source hv hr.1
  have hge := (hf.address_of_copy hv hcop hk.1 hk.2).1
  omega

theorem deepClone_nodeHeap_independent :
    let root : Value := .object ⟨.host 0, 0⟩
    let call := (create .standard).deepClone nodeSpecs.types nodeHeap .empty root
    let scene : Scene := ⟨nodeSpecs.types, .plain, call.2.heap⟩
    call.1 = .ok (.object ⟨.host 0, 3⟩) ∧
      (∀ k, scene.MutableReach (.object ⟨.host 0, 3⟩) k → 3 ≤ k.address) ∧
      (scene.referenceDistinct root (.object ⟨.host 0, 3⟩) .empty).1 = true := by
  intro root call scene
  have hv : nodeHeap.Holds root := by decide
  obtain ⟨hmade, -, -, hdistinct⟩ := deepClone_independent nodeSpecs.types_coherent
    nodeSpecs_plainRecords nodeHeap_wellFormed nodeHeap_known rfl hv (Prod.ext deepClone_nodeHeap rfl)
  exact ⟨deepClone_nodeHeap, fun k hk => (hmade k hk).1, hdistinct .empty nodeHeap_known⟩

end Cloner
end GraphCopy
