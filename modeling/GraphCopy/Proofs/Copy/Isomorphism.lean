import GraphCopy.Copy.Session
import GraphCopy.Proofs.Copy.Answers
import GraphCopy.Proofs.Sharing.Safety

/-!
# A copy is isomorphic to its source

Where all recorded copies mirror their sources, renaming every source to its
copy carries what is in reach of a value over to what is in reach of the copy.
A successful call with the built-in strategies ends in such a state.
-/

namespace GraphCopy

def Memo.rename (m : Memo) (r : Ref) : Ref := (m.get? r).getD r

namespace Setting

variable {c : Setting} {h : Heap} {s : CopyState} {v w : Value} {q r : Ref}

theorem Sane.rename_of_immutable (hs : c.Sane h s)
    (hi : c.sharing.Immutable c.types (c.types.describe r.type)) : s.memo.rename r = r := by
  cases hm : s.memo.get? r with
  | none => simp [Memo.rename, hm]
  | some k => exact absurd hi (hs.source r k hm).2

theorem Copied.eq_rename (hs : c.Sane h s) (hc : c.Copied s.memo (.object r) w) :
    w = .object (s.memo.rename r) := by
  rcases hc.of_object with ⟨hi, rfl⟩ | ⟨k, hm, rfl⟩
  · rw [hs.rename_of_immutable hi]
  · simp [Memo.rename, hm]

theorem Copied.alike (hs : c.Sane h s) (hc : c.Copied s.memo v w) :
    (v.renamed s.memo.rename).Alike w := by
  cases v with
  | object r =>
    rw [hc.eq_rename hs]
    rfl
  | _ =>
    cases hc with
    | plain _ hvw => exact hvw

structure Finished (c : Setting) (h : Heap) (s : CopyState) : Prop where
  sane : c.Sane h s
  closed : c.types.ClosedOn h
  mirrored : ∀ r k, s.memo.get? r = some k → c.Mirrored h s r k
  immutable : ∀ q r, h.Has q → c.sharing.Immutable c.types (c.types.describe q.type) →
    .object r ∈ h.shown c.types q → c.sharing.Immutable c.types (c.types.describe r.type)

namespace Finished

theorem related (hf : c.Finished h s) (hq : h.Has q)
    (hc : c.Copied s.memo (.object q) (.object (s.memo.rename q))) :
    (s.memo.rename q).type = q.type ∧
      (s.heap.get? (s.memo.rename q)).bind Object.component? = (h.get? q).bind Object.component? ∧
      (h.shape c.types (c.types.describe q.type) q).Related (c.Copied s.memo)
        (s.heap.shape c.types (c.types.describe q.type) (s.memo.rename q)) := by
  rcases hc.of_object with ⟨hi, -⟩ | ⟨k, hm, hk⟩
  · rw [hf.sane.rename_of_immutable hi]
    refine ⟨rfl, ?_, ?_⟩
    · rw [hf.sane.keeps.get?_eq q hq.address_lt]
    · rw [hf.sane.keeps.shape_eq hq]
      refine Shape.related_self fun a ha => ?_
      cases a with
      | object r => exact .shared (hf.immutable q r hq hi ha)
      | _ => exact .plain rfl (.refl _)
  · cases hk
    refine ⟨(hf.sane.copy q _ hm).2.1, ?_, (hf.mirrored q _ hm).shape hq⟩
    obtain ⟨o, o', ho, ho', hmir⟩ := hf.mirrored q _ hm
    simp [ho, ho', hmir.component]

theorem shown_copied (hf : c.Finished h s) (hq : h.Has q)
    (hc : c.Copied s.memo (.object q) (.object (s.memo.rename q))) :
    List.Forall₂ (c.Copied s.memo) (h.shown c.types q) (s.heap.shown c.types (s.memo.rename q)) := by
  obtain ⟨htype, -, hrel⟩ := hf.related hq hc
  rw [Heap.shown, Heap.shown, htype]
  exact hrel.values

theorem copied (hf : c.Finished h s) (hv : h.Holds v) (hvw : c.Copied s.memo v w)
    (hr : h.Reaches c.types v r) : c.Copied s.memo (.object r) (.object (s.memo.rename r)) := by
  suffices hex : ∃ b, c.Copied s.memo (.object r) b by
    obtain ⟨b, hb⟩ := hex
    rwa [hb.eq_rename hf.sane] at hb
  induction hr with
  | root hr =>
    rw [hr] at hvw
    exact ⟨w, hvw⟩
  | @step q r hq hr ih =>
    obtain ⟨b, hb⟩ := ih
    rw [hb.eq_rename hf.sane] at hb
    obtain ⟨b', -, hb'⟩ := (hf.shown_copied (hq.has hf.closed hv) hb).exists_of_mem_left hr
    exact ⟨b', hb'⟩

section Renaming

variable (hf : c.Finished h s) (hv : h.Holds v) (hvw : c.Copied s.memo v w)

include hf hv hvw

theorem reaches_rename (hr : h.Reaches c.types v r) : s.heap.Reaches c.types w (s.memo.rename r) := by
  induction hr with
  | root hr =>
    subst hr
    exact .root (hvw.eq_rename hf.sane)
  | @step q r hq hr ih =>
    have hshown := hf.shown_copied (hq.has hf.closed hv) (hf.copied hv hvw hq)
    obtain ⟨b, hb, hrb⟩ := hshown.exists_of_mem_left hr
    rw [hrb.eq_rename hf.sane] at hb
    exact ih.step hb

/-- Each step below the copy has a step below the source that it mirrors. -/
theorem exists_of_reaches {k : Ref} (hk : s.heap.Reaches c.types w k) :
    ∃ r, h.Reaches c.types v r ∧ s.memo.rename r = k := by
  induction hk with
  | root hk =>
    subst hk
    obtain ⟨r, rfl⟩ := hvw.source_object
    exact ⟨r, .root rfl, (Value.object.inj (hvw.eq_rename hf.sane)).symm⟩
  | @step q' k _ hk ih =>
    obtain ⟨q, hq, rfl⟩ := ih
    have hshown := hf.shown_copied (hq.has hf.closed hv) (hf.copied hv hvw hq)
    obtain ⟨a, ha, hak⟩ := hshown.exists_of_mem_right hk
    obtain ⟨r, rfl⟩ := hak.source_object
    exact ⟨r, hq.step ha, (Value.object.inj (hak.eq_rename hf.sane)).symm⟩

theorem rename_injOn : Set.InjOn s.memo.rename
    {r | h.Reaches c.types v r ∧ ¬ c.sharing.Immutable c.types (c.types.describe r.type)} := by
  rintro r ⟨hr, hi⟩ r' ⟨hr', hi'⟩ heq
  rcases (hf.copied hv hvw hr).of_object with ⟨himm, -⟩ | ⟨k, hk, hkr⟩
  · exact absurd himm hi
  rcases (hf.copied hv hvw hr').of_object with ⟨himm, -⟩ | ⟨k', hk', hkr'⟩
  · exact absurd himm hi'
  -- a copy is recorded for one source only
  refine hf.sane.injective r r' k k' hk hk' ?_
  rw [← Value.object.inj hkr, ← Value.object.inj hkr', heq]

theorem isomorphism : h.Isomorphism c.types c.sharing s.heap v w s.memo.rename := by
  have hrel := fun r (hr : h.Reaches c.types v r) =>
    hf.related (hr.has hf.closed hv) (hf.copied hv hvw hr)
  have htype : ∀ r, h.Reaches c.types v r → (s.memo.rename r).type = r.type :=
    fun r hr => (hrel r hr).1
  refine ⟨hvw.alike hf.sane, fun r _ hi => hf.sane.rename_of_immutable hi,
    ⟨?_, hf.rename_injOn hv hvw, ?_⟩, htype, fun r hr => (hrel r hr).2.1, fun r hr => ?_⟩
  · rintro r ⟨hr, hi⟩
    refine ⟨hf.reaches_rename hv hvw hr, ?_⟩
    rwa [htype r hr]
  · rintro k ⟨hk, hi⟩
    obtain ⟨r, hr, rfl⟩ := hf.exists_of_reaches hv hvw hk
    rw [htype r hr] at hi
    exact ⟨r, ⟨hr, hi⟩, rfl⟩
  · rw [htype r hr]
    exact (hrel r hr).2.2.imp fun a b hab => hab.alike hf.sane

end Renaming

end Finished

theorem Sane.start {known : Knowledge} (hk : known.Sound c.types c.sharing) (journal : List Event) :
    c.Sane h ⟨h, known, .empty, journal⟩ := by
  have hnone : ∀ r k, Memo.empty.get? r ≠ some k := by simp [Memo.empty, Memo.get?]
  exact ⟨.refl _ _, hk, fun r k hr => absurd hr (hnone r k), fun r k hr => absurd hr (hnone r k),
    fun q r k l hq => absurd hq (hnone q k)⟩

end Setting

namespace Cloner

variable {types : Types} {path : TypeId → String} {layouts : Nat → Layout} {h : Heap}
  {cache : DescriptorCache} {options : CopyOptions} {verdicts : Verdicts}

theorem deepClone_finished (ht : types.Coherent) (hp : types.PlainRecords path layouts h)
    (hw : h.WellFormed layouts) (hk : Knowledge.Sound types .plain ⟨cache, verdicts⟩)
    (hshare : options.shareSource = false) {v w : Value} (hv : h.Holds v) {after : Aftermath}
    (hrun : (Cloner.mk options .plain .builtin verdicts).deepClone types h cache v =
      (.ok w, after)) :
    let c : Setting := ⟨types, options, .plain, .builtin⟩
    ∃ s, c.Finished h s ∧ c.Copied s.memo v w ∧ after.heap = s.heap ∧
      s.known.cache = after.cache ∧ s.known.verdicts = after.cloner.verdicts := by
  intro c
  have hplain : c.Plain := ⟨rfl, hshare⟩
  have hs : c.Sane h ⟨h, ⟨cache, verdicts⟩, .empty, []⟩ := .start hk []
  simp only [deepClone, perform] at hrun
  generalize hout : Setting.cloneValue _ v _ = out at hrun
  obtain ⟨res, s⟩ := out
  cases hrun
  obtain ⟨hcarry, hcop⟩ :=
    Setting.cloneWithin_answers hplain ht hp hw (h.size + 1) 0 v _ w s hv hs hout
  refine ⟨s, ⟨hcarry.sane, hp.closedOn hw, fun r k hr => hcarry.mirrored r k hr rfl, ?_⟩, hcop, rfl,
    rfl, rfl⟩
  exact fun q r hq hi hr => hp.immutable_of_shown hw hq hi hr

/-- The copy of a graph of arrays, lists, sets, maps and plain records is isomorphic to it. -/
theorem deepClone_isomorphism (ht : types.Coherent) (hp : types.PlainRecords path layouts h)
    (hw : h.WellFormed layouts) (hk : Knowledge.Sound types .plain ⟨cache, verdicts⟩)
    (hshare : options.shareSource = false) {v w : Value} (hv : h.Holds v) {after : Aftermath}
    (hrun : (Cloner.mk options .plain .builtin verdicts).deepClone types h cache v =
      (.ok w, after)) :
    ∃ φ, h.Isomorphism types .plain after.heap v w φ := by
  obtain ⟨s, hf, hcop, hheap, -⟩ := deepClone_finished ht hp hw hk hshare hv hrun
  rw [hheap]
  exact ⟨_, hf.isomorphism hv hcop⟩

/-- Records with a link, a text of their own and an object. They are instantiated by shallow copies. -/
def nodeSpecs : Specs where
  hosts :=
    [{ TypeSpec.bare "Node" "Node" with
        fields :=
          [.plain "next" (.optional (.handle (.host 0))), .plain "label" (.required .ownText),
            .plain "bag" (.required .object)]
        copy := .shallow },
      { TypeSpec.bare "Token" "Token" with selfClone := true }]
  containerPath := ""

def node (next : Nat) (label : String) : Object :=
  .host 0 [.datum (.object ⟨.host 0, next⟩), .datum (.ownText label), .datum (.object ⟨.list, 2⟩)] []

/-- Two nodes that are linked to each other and share a list, which holds one of them. -/
def nodeHeap : Heap := ⟨#[node 1 "a", node 0 "b", .list [.object ⟨.host 0, 1⟩, .int 3]], 1⟩

theorem nodeSpecs_plainRecords :
    nodeSpecs.types.PlainRecords nodeSpecs.path nodeSpecs.layout nodeHeap :=
  Specs.plainRecords (by decide)

theorem nodeHeap_wellFormed : nodeHeap.WellFormed nodeSpecs.layout := by
  have hnode : ∀ next label, (node next label).WellFormed nodeSpecs.layout := by
    intro next label place hplace
    have hcases : place = (0, .optional (.handle (.host 0))) ∨ place = (1, .required .ownText) ∨
        place = (2, .required .object) := by
      simpa [nodeSpecs, Specs.layout, placesFrom, FieldSpec.plain] using hplace
    rcases hcases with rfl | rfl | rfl
    · exact ⟨_, rfl, rfl⟩
    · exact ⟨_, rfl, trivial⟩
    · exact ⟨_, rfl, trivial⟩
  refine ⟨by decide, fun o ho => ?_⟩
  simp only [nodeHeap, List.mem_cons, List.not_mem_nil, or_false] at ho
  rcases ho with rfl | rfl | rfl
  · exact hnode 1 "a"
  · exact hnode 0 "b"
  · trivial

theorem nodeHeap_known : Knowledge.Sound nodeSpecs.types .plain ⟨.empty, []⟩ :=
  Knowledge.sound_of_no_verdicts (DescriptorCache.faithful_empty _)

theorem deepClone_nodeHeap :
    ((create .standard).deepClone nodeSpecs.types nodeHeap .empty (.object ⟨.host 0, 0⟩)).1 =
      .ok (.object ⟨.host 0, 3⟩) := by
  decide +kernel

theorem deepClone_nodeHeap_isomorphism :
    let root : Value := .object ⟨.host 0, 0⟩
    let call := (create .standard).deepClone nodeSpecs.types nodeHeap .empty root
    nodeHeap.WellFormed nodeSpecs.layout ∧ nodeHeap.Holds root ∧
      call.1 = .ok (.object ⟨.host 0, 3⟩) ∧ ∃ φ,
        nodeHeap.Isomorphism nodeSpecs.types .plain call.2.heap root (.object ⟨.host 0, 3⟩) φ := by
  intro root call
  have hv : nodeHeap.Holds root := by decide
  exact ⟨nodeHeap_wellFormed, hv, deepClone_nodeHeap,
    deepClone_isomorphism nodeSpecs.types_coherent nodeSpecs_plainRecords nodeHeap_wellFormed
      nodeHeap_known rfl hv (Prod.ext deepClone_nodeHeap rfl)⟩

end Cloner
end GraphCopy
