import GraphCopy.Proofs.Copy.Isomorphism
import GraphCopy.Proofs.Graph.Correspondence

/-!
# A copy is deeply equal to its source

The renaming of sources to copies carries everything in reach of a value over
to what is in reach of its copy, the shared objects included. Seen in the heap
after the call it makes the two graphs correspond, so the copy is deeply equal
to its source, as long as no identity token stands in a name or in a text.
-/

namespace GraphCopy

theorem Value.Alike.printsAs {v w : Value} (h : v.Alike w) : v.PrintsAs w :=
  ⟨h.object?_eq, h.congr fun u => by cases u <;> rfl, h.congr fun u => by cases u <;> rfl⟩

theorem Value.Alike.tokenless {v w : Value} (h : v.Alike w) (hv : v.Tokenless) : w.Tokenless := by
  have heq : v.Tokenless = w.Tokenless := h.congr fun u => by cases u <;> rfl
  exact heq ▸ hv

theorem Value.tokenless_renamed {φ : Ref → Ref} {v : Value} :
    (v.renamed φ).Tokenless ↔ v.Tokenless := by
  cases v <;> exact .rfl

namespace Heap.Isomorphism

variable {types : Types} {sharing : SharingRules} {h h' : Heap} {v w : Value} {φ : Ref → Ref}
  {r k : Ref}

theorem eq_of_alike {a : Value} (ha : (Value.object (φ r)).Alike a) : a = .object (φ r) := by
  have hobj : a.object? = some (φ r) := ha.object?_eq.symm
  cases a with
  | object q =>
    cases hobj
    rfl
  | _ => cases hobj

theorem exists_of_alike {a : Value} (ha : (a.renamed φ).Alike (.object k)) :
    ∃ r, a = .object r ∧ φ r = k := by
  have hobj : (a.renamed φ).object? = some k := ha.object?_eq
  cases a with
  | object r => exact ⟨r, rfl, Option.some.inj hobj⟩
  | _ => cases hobj

theorem bijOn_reaches (hi : h.Isomorphism types sharing h' v w φ) :
    Set.BijOn φ {r | h.Reaches types v r} {k | h'.Reaches types w k} := by
  have hshown : ∀ r, h.Reaches types v r → List.Forall₂ (fun a b => (a.renamed φ).Alike b)
      (h.shown types r) (h'.shown types (φ r)) := fun r hr => (hi.shape r hr).values
  refine ⟨fun r hr => ?_, fun r hr q hq heq => ?_, fun k hk => ?_⟩
  · induction hr with
    | root hv =>
      have hroot := hi.root
      rw [hv] at hroot
      exact .root (eq_of_alike hroot)
    | @step q r hq hr ih =>
      obtain ⟨b, hb, hrb⟩ := (hshown q hq).exists_of_mem_left hr
      rw [eq_of_alike hrb] at hb
      exact Reaches.step ih hb
  · -- what is renamed to one object is shared or mutable on both sides, as types are kept
    have htype : r.type = q.type := by rw [← hi.type r hr, heq, hi.type q hq]
    by_cases himm : sharing.Immutable types (types.describe r.type)
    · rw [← hi.fixed r hr himm, heq, hi.fixed q hq (htype ▸ himm)]
    · exact hi.bijOn.injOn ⟨hr, himm⟩ ⟨hq, htype ▸ himm⟩ heq
  · induction hk with
    | root hw =>
      have hroot := hi.root
      rw [hw] at hroot
      obtain ⟨r, hv, hrk⟩ := exists_of_alike hroot
      exact ⟨r, .root hv, hrk⟩
    | @step q' k _ hk ih =>
      obtain ⟨q, hq, rfl⟩ := ih
      obtain ⟨a, ha, hak⟩ := (hshown q hq).exists_of_mem_right hk
      obtain ⟨r, rfl, hrk⟩ := exists_of_alike hak
      exact ⟨r, Reaches.step hq ha, hrk⟩

end Heap.Isomorphism

section Kept

variable {types : Types} {sharing : SharingRules} {h h' : Heap} {v w : Value} {φ : Ref → Ref}

/-- Seen in the later heap alone, isomorphic graphs correspond. -/
theorem Heap.Isomorphism.correspondence (hi : h.Isomorphism types sharing h' v w φ)
    (hkeeps : h.Keeps h.size h') (hclosed : types.ClosedOn h) (hv : h.Holds v) :
    (Scene.mk types sharing h').Correspondence v w φ := by
  have hreach : ∀ r, h'.Reaches types v r ↔ h.Reaches types v r :=
    fun r => hkeeps.reaches_iff hclosed hv
  refine ⟨hi.root.printsAs, ?_, fun r hr => ?_, fun r hr => ?_⟩
  · simpa only [hreach] using hi.bijOn_reaches
  · rw [hi.type r ((hreach r).mp hr)]
  · have hr' := (hreach r).mp hr
    rw [hkeeps.shape_eq (hr'.has hclosed hv)]
    exact (hi.shape r hr').imp fun a b hab => hab.printsAs

theorem Heap.Isomorphism.tokenless (hi : h.Isomorphism types sharing h' v w φ)
    (hplain : (Scene.mk types sharing h).Tokenless v) : (Scene.mk types sharing h').Tokenless w := by
  have hfrom : ∀ k, h'.Reaches types w k → ∃ r, h.Reaches types v r ∧ φ r = k ∧ r.type = k.type := by
    intro k hk
    obtain ⟨r, hr, rfl⟩ := hi.bijOn_reaches.surjOn hk
    exact ⟨r, hr, rfl, (hi.type r hr).symm⟩
  refine ⟨fun k hk => ?_, fun k hk => ?_, fun b hb => ?_⟩
  · obtain ⟨r, hr, -, htype⟩ := hfrom k hk
    exact htype ▸ hplain.names r hr
  · obtain ⟨r, hr, -, htype⟩ := hfrom k hk
    exact htype ▸ hplain.fields r hr
  · rcases hb with rfl | ⟨k, hk, hb⟩
    · exact hi.root.tokenless (Value.tokenless_renamed.mpr (hplain.contents v (.inl rfl)))
    · obtain ⟨r, hr, rfl, -⟩ := hfrom k hk
      obtain ⟨a, ha, hab⟩ := (hi.shape r hr).values.exists_of_mem_right hb
      exact hab.tokenless (Value.tokenless_renamed.mpr (hplain.contents a (.inr ⟨r, hr, ha⟩)))

end Kept

namespace Setting.Finished

variable {c : Setting} {h : Heap} {s : CopyState} {v w : Value}

theorem grounded (hf : c.Finished h s) (hv : h.Holds v) (hvw : c.Copied s.memo v w) :
    (Scene.mk c.types c.sharing s.heap).Grounded v ∧
      (Scene.mk c.types c.sharing s.heap).Grounded w := by
  refine ⟨fun r hr => ?_, fun k hk => ?_⟩
  · exact hf.sane.keeps.has (((hf.sane.keeps.reaches_iff hf.closed hv).mp hr).has hf.closed hv)
  · obtain ⟨r, hr, rfl⟩ := (hf.isomorphism hv hvw).bijOn_reaches.surjOn hk
    rcases (hf.copied hv hvw hr).of_object with ⟨-, heq⟩ | ⟨k, hm, heq⟩
    · rw [Value.object.inj heq]
      exact hf.sane.keeps.has (Heap.Reaches.has hf.closed hv hr)
    · rw [Value.object.inj heq]
      exact (hf.sane.copy r k hm).1

theorem deepEquals (hf : c.Finished h s) (ht : c.types.Coherent) (hv : h.Holds v)
    (hvw : c.Copied s.memo v w) (hplain : (Scene.mk c.types c.sharing h).Tokenless v)
    {known : Knowledge} (hk : known.Sound c.types c.sharing) :
    ((Scene.mk c.types c.sharing s.heap).deepEquals v w known).1 = true := by
  have hiso := hf.isomorphism hv hvw
  obtain ⟨hgv, hgw⟩ := hf.grounded hv hvw
  have hreach : ∀ r, s.heap.Reaches c.types v r → h.Reaches c.types v r :=
    fun r hr => (hf.sane.keeps.reaches_iff hf.closed hv).mp hr
  have hplain' : (Scene.mk c.types c.sharing s.heap).Tokenless v := by
    refine ⟨fun r hr => hplain.names r (hreach r hr), fun r hr => hplain.fields r (hreach r hr),
      fun b hb => ?_⟩
    rcases hb with rfl | ⟨r, hr, hb⟩
    · exact hplain.contents b (.inl rfl)
    · have hr' := hreach r hr
      rw [Heap.shown, hf.sane.keeps.shape_eq (hr'.has hf.closed hv)] at hb
      exact hplain.contents b (.inr ⟨r, hr', hb⟩)
  exact Scene.deepEquals_of_correspondence ht hgv hgw hplain' (hiso.tokenless hplain) hk
    (hiso.correspondence hf.sane.keeps hf.closed hv) fun r hr => hiso.type r (hreach r hr)

end Setting.Finished

namespace Cloner

variable {types : Types} {path : TypeId → String} {layouts : Nat → Layout} {h : Heap}
  {cache : DescriptorCache} {options : CopyOptions} {verdicts : Verdicts}

/-- The copy of a graph of arrays, lists, sets, maps and plain records is deeply equal to it. -/
theorem deepClone_deepEquals (ht : types.Coherent) (hp : types.PlainRecords path layouts h)
    (hw : h.WellFormed layouts) (hk : Knowledge.Sound types .plain ⟨cache, verdicts⟩)
    (hshare : options.shareSource = false) {v w : Value} (hv : h.Holds v)
    (hplain : (Scene.mk types .plain h).Tokenless v) {after : Aftermath}
    (hrun : (Cloner.mk options .plain .builtin verdicts).deepClone types h cache v =
      (.ok w, after)) :
    ((Scene.mk types .plain after.heap).deepEquals v w ⟨after.cache, after.cloner.verdicts⟩).1 =
      true := by
  obtain ⟨s, hf, hcop, hheap, hcache, hverdicts⟩ := deepClone_finished ht hp hw hk hshare hv hrun
  rw [hheap, ← hcache, ← hverdicts]
  exact hf.deepEquals ht hv hcop hplain hf.sane.known

theorem nodeHeap_tokenless : (Scene.mk nodeSpecs.types .plain nodeHeap).Tokenless
    (.object ⟨.host 0, 0⟩) := by
  have hclosed := nodeSpecs_plainRecords.closedOn nodeHeap_wellFormed
  have hv : nodeHeap.Holds (.object ⟨.host 0, 0⟩) := by decide
  have hrefs : ∀ {r}, nodeHeap.Reaches nodeSpecs.types (.object ⟨.host 0, 0⟩) r →
      r ∈ nodeHeap.refs := fun hr => Heap.mem_refs.mpr (hr.has hclosed hv)
  have hnames : ∀ r ∈ nodeHeap.refs, '@' ∉ (nodeSpecs.types.name r.type).toList := by decide
  have hfields : ∀ r ∈ nodeHeap.refs, ∀ f ∈ (nodeSpecs.types.describe r.type).instanceFields,
      '@' ∉ f.name.toList := by decide
  have hshown : ∀ r ∈ nodeHeap.refs, ∀ v ∈ nodeHeap.shown nodeSpecs.types r, v.atFree = true := by
    decide
  refine ⟨fun r hr => tokenless_of_not_mem (hnames r (hrefs hr)),
    fun r hr f hf => tokenless_of_not_mem (hfields r (hrefs hr) f hf), fun v hv => ?_⟩
  rcases hv with rfl | ⟨r, hr, hv⟩
  · trivial
  · exact Value.tokenless_of_atFree (hshown r (hrefs hr) v hv)

theorem deepClone_nodeHeap_deepEquals :
    let root : Value := .object ⟨.host 0, 0⟩
    let call := (create .standard).deepClone nodeSpecs.types nodeHeap .empty root
    call.1 = .ok (.object ⟨.host 0, 3⟩) ∧
      ((Scene.mk nodeSpecs.types .plain call.2.heap).deepEquals root (.object ⟨.host 0, 3⟩)
        ⟨call.2.cache, call.2.cloner.verdicts⟩).1 = true := by
  intro root call
  exact ⟨deepClone_nodeHeap, deepClone_deepEquals nodeSpecs.types_coherent nodeSpecs_plainRecords
    nodeHeap_wellFormed nodeHeap_known rfl (by decide) nodeHeap_tokenless
    (Prod.ext deepClone_nodeHeap rfl)⟩

end Cloner

end GraphCopy
