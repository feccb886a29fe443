import GraphCopy.Proofs.Copy.Constants
import GraphCopy.Proofs.Graph.Steady

/-!
# Caches cannot be observed

In a workshop any number of cloners share one cache of descriptors and work on
one heap, in turns; between the turns the host may change the heap. A cloner
with an empty cache and without verdicts, with the same options, marks, rules
and strategies, would give the same answers, and no cloner notices what the
others do.
-/

namespace GraphCopy

inductive Operation
  | describe (t : TypeId)
  | describeObject (r : Ref)
  | isImmutable (q : Query)
  | mark (t : TypeId)
  | addRule (r : Rule)
  | addStrategy (σ : Strategy) (p : Priority)
  | deepClone (v : Value)
  | render (v : Value)
  | deepEquals (a b : Value)
  | referenceDistinct (a b : Value)

inductive Reply
  | done
  | descriptor (d : Descriptor)
  | verdict (b : Bool)
  | copy (result : Except Halt Value)
  | text (s : String)

structure Served where
  reply : Reply
  heap : Heap
  cloner : Cloner
  cache : DescriptorCache

namespace Cloner

/-- A cloner of the same options, rules of sharing and strategies that has no verdicts. -/
def forgetful (c : Cloner) : Cloner := { c with verdicts := [] }

def inform {α : Type} (c : Cloner) (heap : Heap) (cache : DescriptorCache)
    (f : Knowledge → α × Knowledge) (reply : α → Reply) : Served :=
  let (a, c, cache) := c.learn cache f
  ⟨reply a, heap, c, cache⟩

def operate (types : Types) (heap : Heap) (c : Cloner) (cache : DescriptorCache) : Operation → Served
  | .describe t => c.inform heap cache (Knowledge.describe types t) .descriptor
  | .describeObject r => c.inform heap cache (Knowledge.describe types r.type) .descriptor
  | .isImmutable q => c.inform heap cache (q.evaluate types c.sharing) .verdict
  | .mark t => ⟨.done, heap, c.mark t, cache⟩
  | .addRule r => ⟨.done, heap, c.addRule r, cache⟩
  | .addStrategy σ p => ⟨.done, heap, c.addStrategy σ p, cache⟩
  | .deepClone v =>
    let (result, after) := c.deepClone types heap cache v
    ⟨.copy result, after.heap, after.cloner, after.cache⟩
  | .render v => c.inform heap cache ((c.scene types heap).render v) .text
  | .deepEquals a b => c.inform heap cache ((c.scene types heap).deepEquals a b) .verdict
  | .referenceDistinct a b => c.inform heap cache ((c.scene types heap).referenceDistinct a b) .verdict

def answer (types : Types) (heap : Heap) (c : Cloner) (cache : DescriptorCache) (op : Operation) :
    Reply × Heap :=
  let served := c.operate types heap cache op
  (served.reply, served.heap)

end Cloner

def Operation.configure : Operation → Cloner → Cloner
  | .mark t, c => c.mark t
  | .addRule r, c => c.addRule r
  | .addStrategy σ p, c => c.addStrategy σ p
  | _, c => c

inductive Turn
  | edit (heap : Heap)
  | operate (cloner : Nat) (op : Operation)

def Turn.configure (i : Nat) (c : Cloner) : Turn → Cloner
  | .edit _ => c
  | .operate j op => if j = i then op.configure c else c

structure Workshop where
  heap : Heap
  cache : DescriptorCache
  cloners : List Cloner

namespace Workshop

def opened (heap : Heap) (options : List CopyOptions) : Workshop :=
  ⟨heap, .empty, options.map Cloner.create⟩

def take (types : Types) (w : Workshop) : Turn → Workshop
  | .edit heap => { w with heap }
  | .operate i op =>
    match w.cloners[i]? with
    | none => w
    | some c =>
      let served := c.operate types w.heap w.cache op
      ⟨served.heap, served.cache, w.cloners.set i served.cloner⟩

def run (types : Types) (w : Workshop) (turns : List Turn) : Workshop := turns.foldl (take types) w

def answer (types : Types) (w : Workshop) (i : Nat) (heap : Heap) (op : Operation) :
    Option (Reply × Heap) :=
  w.cloners[i]?.map fun c => c.answer types heap w.cache op

structure Sound (types : Types) (w : Workshop) : Prop where
  cache : w.cache.Faithful types
  known : ∀ c ∈ w.cloners, Knowledge.Sound types c.sharing ⟨w.cache, c.verdicts⟩

end Workshop

theorem Knowledge.Sound.beside {types : Types} {s : SharingRules} {k : Knowledge}
    (hk : k.Sound types s) {cache : DescriptorCache} (hc : cache.Faithful types) :
    Knowledge.Sound types s ⟨cache, k.verdicts⟩ :=
  ⟨hc, hk.verdicts⟩

namespace Cloner

variable {types : Types} {heap : Heap} {c : Cloner} {cache : DescriptorCache}

structure Agree (types : Types) (configured : Cloner) (x y : Served) : Prop where
  answer : (x.reply, x.heap) = (y.reply, y.heap)
  configured : x.cloner.forgetful = configured
  known : Knowledge.Sound types x.cloner.sharing ⟨x.cache, x.cloner.verdicts⟩

theorem inform_agree {α : Type} {f : Knowledge → α × Knowledge}
    (hf : Knowledge.Determines types c.sharing f)
    (hk : Knowledge.Sound types c.sharing ⟨cache, c.verdicts⟩) (reply : α → Reply) :
    Agree types c.forgetful (c.inform heap cache f reply) (c.forgetful.inform heap .empty f reply) := by
  obtain ⟨a, ha⟩ := hf
  obtain ⟨k, hk', hfk⟩ := ha _ hk
  obtain ⟨k₀, -, hf₀⟩ :=
    ha ⟨.empty, []⟩ (Knowledge.sound_of_no_verdicts (DescriptorCache.faithful_empty _))
  have hanswer : (f ⟨cache, c.verdicts⟩).1 = (f ⟨.empty, []⟩).1 := by rw [hfk, hf₀]
  have hknown : (f ⟨cache, c.verdicts⟩).2.Sound types c.sharing := by
    rw [hfk]
    exact hk'
  exact ⟨congrArg (fun a => (reply a, heap)) hanswer, rfl, hknown⟩

theorem deepClone_agree (ht : types.Coherent)
    (hk : Knowledge.Sound types c.sharing ⟨cache, c.verdicts⟩) (v : Value) :
    Agree types c.forgetful (c.operate types heap cache (.deepClone v))
      (c.forgetful.operate types heap .empty (.deepClone v)) := by
  have hempty : Knowledge.Sound types c.sharing ⟨.empty, []⟩ :=
    Knowledge.sound_of_no_verdicts (DescriptorCache.faithful_empty _)
  have htwin : (c.setting types).Twin types :=
    ⟨ht, .refl types, fun _ => rfl, fun σ _ => σ.indifferent_self types⟩
  obtain ⟨-, hknown, -⟩ := htwin.cloneWithin (heap.size + 1) 0 v
    ⟨heap, ⟨cache, c.verdicts⟩, .empty, []⟩ ⟨.empty, []⟩ hk hempty
  obtain ⟨hresult, hheap, -, -⟩ := @deepClone_sameState c types types heap cache .empty [] v ht
    (.refl types) (fun _ => rfl) (fun σ _ => σ.indifferent_self types) hk hempty
  exact ⟨Prod.ext (congrArg Reply.copy hresult.symm) hheap.symm, rfl, hknown⟩

theorem operate_agree (ht : types.Coherent) (heap : Heap)
    (hk : Knowledge.Sound types c.sharing ⟨cache, c.verdicts⟩) (op : Operation) :
    Agree types (op.configure c.forgetful) (c.operate types heap cache op)
      (c.forgetful.operate types heap .empty op) := by
  have hscene : (c.scene types heap).types.Coherent := ht
  cases op with
  | mark t => exact ⟨rfl, rfl, Knowledge.sound_of_no_verdicts hk.cache⟩
  | addRule r => exact ⟨rfl, rfl, Knowledge.sound_of_no_verdicts hk.cache⟩
  | addStrategy σ p => exact ⟨rfl, rfl, hk⟩
  | deepClone v => exact deepClone_agree ht hk v
  | describe t => exact inform_agree ⟨_, Knowledge.describe_fixed t⟩ hk _
  | describeObject r => exact inform_agree ⟨_, Knowledge.describe_fixed r.type⟩ hk _
  | isImmutable q => exact inform_agree (Knowledge.query_determined ht q) hk _
  | render v => exact inform_agree (Scene.render_determined hscene v) hk _
  | deepEquals a b => exact inform_agree (Scene.deepEquals_determined hscene a b) hk _
  | referenceDistinct a b => exact inform_agree (Scene.referenceDistinct_determined hscene a b) hk _

end Cloner

namespace Workshop

variable {types : Types} {w : Workshop}

theorem Sound.take (ht : types.Coherent) (hw : w.Sound types) (turn : Turn) :
    (w.take types turn).Sound types := by
  cases turn with
  | edit heap => exact ⟨hw.cache, hw.known⟩
  | operate i op =>
    cases hc : w.cloners[i]? with
    | none => simpa only [Workshop.take, hc] using hw
    | some c =>
      have hagree := Cloner.operate_agree ht w.heap (hw.known c (List.mem_of_getElem? hc)) op
      simp only [Workshop.take, hc]
      refine ⟨hagree.known.cache, fun c' hc' => ?_⟩
      rcases List.mem_or_eq_of_mem_set hc' with hc' | rfl
      · exact (hw.known c' hc').beside hagree.known.cache
      · exact hagree.known

theorem cloners_take_of_ne {i j : Nat} (hji : j ≠ i) (op : Operation) :
    (w.take types (.operate j op)).cloners[i]? = w.cloners[i]? := by
  cases hc : w.cloners[j]? with
  | none => simp only [Workshop.take, hc]
  | some c => simp only [Workshop.take, hc, List.getElem?_set_ne hji]

theorem Sound.configured (ht : types.Coherent) (hw : w.Sound types) (turn : Turn) (i : Nat) :
    (w.take types turn).cloners[i]?.map Cloner.forgetful =
      (w.cloners[i]?.map Cloner.forgetful).map fun c => turn.configure i c := by
  cases turn with
  | edit heap => simp [Workshop.take, Turn.configure, Function.comp_def]
  | operate j op =>
    by_cases hji : j = i
    · subst hji
      cases hc : w.cloners[j]? with
      | none => simp [Workshop.take, hc]
      | some c =>
        have hagree :=
          Cloner.operate_agree ht w.heap (hw.known c (List.mem_of_getElem? hc)) op
        have hlt := (List.getElem?_eq_some_iff.mp hc).1
        simp only [Workshop.take, hc, List.getElem?_set_self hlt, Option.map_some, Turn.configure,
          if_true, hagree.configured]
    · rw [cloners_take_of_ne hji]
      simp [Turn.configure, hji, Function.comp_def]

theorem Sound.opened (types : Types) (heap : Heap) (options : List CopyOptions) :
    (opened heap options).Sound types := by
  have hcache := DescriptorCache.faithful_empty types
  refine ⟨hcache, fun c hc => ?_⟩
  obtain ⟨o, -, rfl⟩ := List.mem_map.mp hc
  exact Knowledge.sound_of_no_verdicts hcache

/-- After any turns each cloner has the options, rules of sharing and strategies that it was told. -/
theorem run_spec (ht : types.Coherent) (hw : w.Sound types) (turns : List Turn) :
    (w.run types turns).Sound types ∧ ∀ i, (w.run types turns).cloners[i]?.map Cloner.forgetful =
      (w.cloners[i]?.map Cloner.forgetful).map fun c => turns.foldl (Turn.configure i) c := by
  -- from the last turn, since the cloner has been configured by the turns before
  induction turns using List.reverseRecOn with
  | nil => exact ⟨hw, fun i => by simp [run, Function.comp_def]⟩
  | append_singleton turns turn ih =>
    obtain ⟨hsound, hconf⟩ := ih
    have hrun : w.run types (turns ++ [turn]) = (w.run types turns).take types turn := by
      simp only [run, List.foldl_concat]
    rw [hrun]
    refine ⟨hsound.take ht turn, fun i => ?_⟩
    rw [hsound.configured ht turn i, hconf i]
    simp [Option.map_map, Function.comp_def]

theorem Sound.answer_eq (ht : types.Coherent) (hw : w.Sound types) (i : Nat) (heap : Heap)
    (op : Operation) : w.answer types i heap op =
      (w.cloners[i]?.map Cloner.forgetful).map fun c => c.answer types heap .empty op := by
  cases hc : w.cloners[i]? with
  | none => simp [answer, hc]
  | some c =>
    have hagree := Cloner.operate_agree ht heap (hw.known c (List.mem_of_getElem? hc)) op
    simp only [answer, hc, Option.map_some]
    exact congrArg some hagree.answer

/-- After any turns a cloner answers, on any heap, as a new one would that was told the same and knows
nothing; and what another cloner does changes no answer of it. -/
theorem answers_as_new (ht : types.Coherent) (heap : Heap) (options : List CopyOptions)
    (turns : List Turn) :
    let w := (opened heap options).run types turns
    let told i := options[i]?.map fun o => turns.foldl (Turn.configure i) (Cloner.create o)
    (∀ i heap op, w.answer types i heap op = (told i).map fun c => c.answer types heap .empty op) ∧
    (∀ i op c, told i = some c →
      (w.take types (.operate i op)).heap = (c.answer types w.heap .empty op).2) ∧
    ∀ i j op, j ≠ i → ∀ heap op',
      (w.take types (.operate j op)).answer types i heap op' = w.answer types i heap op' := by
  intro w told
  obtain ⟨hw, hconf⟩ := run_spec ht (.opened types heap options) turns
  have htold : ∀ i, w.cloners[i]?.map Cloner.forgetful = told i := by
    intro i
    rw [hconf i]
    simp [opened, told, Option.map_map, Function.comp_def, Cloner.forgetful, Cloner.create]
  have hanswer : ∀ i heap op,
      w.answer types i heap op = (told i).map fun c => c.answer types heap .empty op := by
    intro i heap op
    rw [hw.answer_eq ht i heap op, htold i]
  refine ⟨hanswer, fun i op c hc => ?_, fun i j op hji heap op' => ?_⟩
  · have hreply := hanswer i w.heap op
    rw [hc, answer] at hreply
    obtain ⟨c', hc', hcc'⟩ := Option.map_eq_some_iff.mp hreply
    simp only [Workshop.take, hc']
    exact congrArg Prod.snd hcc'
  · rw [(hw.take ht _).answer_eq ht, cloners_take_of_ne hji, ← hw.answer_eq ht]

/-- Two cloners share a cache. The first is asked about the outer record, then told that the record below
it is immutable; the second fails to copy an outer record in between. -/
theorem mutualRecords_answers_as_new :
    let types := Cloner.mutualRecords.types
    let outer : Value := .object ⟨.host 2, 0⟩
    let ask : Operation := .isImmutable (.value outer)
    let h : Heap := ⟨#[.host 2 [] []], 1⟩
    let turns : List Turn := [.operate 0 ask, .operate 1 ask, .operate 1 (.deepClone outer),
      .operate 0 (.mark (.host 1))]
    let w := (opened h [.standard, .strict]).run types turns
    w.cache.size = 3 ∧ w.answer types 0 h ask = some (.verdict true, h) ∧
      w.answer types 1 h ask = some (.verdict false, h) ∧
      w.answer types 0 h (.deepClone outer) = some (.copy (.ok outer), h) ∧
      (w.answer types 1 h (.deepClone outer)).map Prod.fst = some (.copy (.error (.failed
        (.instantiation "Outer" "no accessible no-arg or copy constructor")))) := by
  intro types outer ask h turns w
  have ht : types.Coherent := Specs.types_coherent _
  obtain ⟨hanswer, -, -⟩ := answers_as_new ht h [.standard, .strict] turns
  refine ⟨by decide +kernel, ?_, ?_, ?_, ?_⟩
  · rw [hanswer 0 h ask]
    rfl
  · rw [hanswer 1 h ask]
    rfl
  · rw [hanswer 0 h (.deepClone outer)]
    rfl
  · rw [hanswer 1 h (.deepClone outer)]
    rfl

end Workshop
end GraphCopy
