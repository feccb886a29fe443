import GraphCopy.Copy.Session
import GraphCopy.Proofs.Sharing.Verdict

/-!
# Verdicts do not depend on what was asked before

A cloner may be told marks and rules and may be asked about types, values and
declared types, in any order. `leastImmutable` is the least set of types closed
under the marks and rules of such a history and the rule of structure. The
main statement is that every answer is membership in it, that every verdict
that is kept is membership in it, and that the bound on the nesting of
evaluations is never felt.
-/

namespace GraphCopy

inductive Query
  | type (t : TypeId)
  | value (v : Value)
  | declared (t : Declared)

inductive Inquiry
  | mark (t : TypeId)
  | addRule (r : Rule)
  | ask (q : Query)

namespace Query

def evaluate (types : Types) (s : SharingRules) : Query → Knowledge → Bool × Knowledge
  | .type t => s.isImmutable types (types.describe t)
  | .value v => s.isImmutableValue types v
  | .declared t => s.isImmutableDeclared types t

def evaluateWithin (types : Types) (s : SharingRules) (fuel : Nat) :
    Query → Knowledge → Bool × Knowledge
  | .type t, k => s.evaluate types fuel [] (types.describe t) k
  | .value (.object r), k =>
    let (d, k) := k.describe types r.type
    s.evaluate types fuel [] d k
  | .value _, k => (true, k)
  | .declared t, k => SharingRules.evaluateDeclared types (s.evaluate types fuel []) t k

end Query

namespace Cloner

def ask (types : Types) (q : Query) (c : Cloner) (cache : DescriptorCache) :
    Bool × Cloner × DescriptorCache :=
  c.learn cache (q.evaluate types c.sharing)

def inquire (types : Types) (p : Cloner × DescriptorCache) : Inquiry → Cloner × DescriptorCache
  | .mark t => (p.1.mark t, p.2)
  | .addRule r => (p.1.addRule r, p.2)
  | .ask q => (p.1.ask types q p.2).2

def serve (types : Types) (p : Cloner × DescriptorCache) (history : List Inquiry) :
    Cloner × DescriptorCache :=
  history.foldl (inquire types) p

end Cloner

def Declared.Within (S : Set TypeId) : Declared → Prop
  | .scalar _ => True
  | .dynamic => False
  | .object t => t ∈ S

def Query.Within (S : Set TypeId) : Query → Prop
  | .type t => t ∈ S
  | .value v => ∀ r, v = .object r → r.type ∈ S
  | .declared t => t.Within S

/-- A set of types that holds what a history marks, what its rules accept, and every record that is not
open for extension and declares fields of the set only. -/
structure ClosedUnder (types : Types) (history : List Inquiry) (S : Set TypeId) : Prop where
  marked : ∀ t, Inquiry.mark t ∈ history → t ∈ S
  accepted : ∀ r, Inquiry.addRule r ∈ history → ∀ t, r (types.describe t) = true → t ∈ S
  structural : ∀ t, (types.describe t).kind = .record → (types.describe t).extensible = false →
    (∀ f ∈ (types.describe t).fields, f.declared.Within S) → t ∈ S

def leastImmutable (types : Types) (history : List Inquiry) : Set TypeId :=
  {t | ∀ S, ClosedUnder types history S → t ∈ S}

namespace SharingRules

structure Records (s : SharingRules) (history : List Inquiry) : Prop where
  marked : ∀ t, t ∈ s.marked ↔ Inquiry.mark t ∈ history
  rules : ∀ r, r ∈ s.rules ↔ Inquiry.addRule r ∈ history

theorem plain_records : plain.Records [] := ⟨by simp [plain], by simp [plain]⟩

variable {types : Types} {s : SharingRules} {history : List Inquiry}

theorem mem_marked_mark {t u : TypeId} : u ∈ (s.mark t).marked ↔ u ∈ s.marked ∨ u = t := by
  unfold mark
  split_ifs with h
  · refine ⟨.inl, fun hu => hu.elim id ?_⟩
    rintro rfl
    simpa using h
  · simp [or_comm]

theorem rules_mark (t : TypeId) : (s.mark t).rules = s.rules := by
  unfold mark
  split_ifs <;> rfl

theorem Records.mark (h : s.Records history) (t : TypeId) :
    (s.mark t).Records (history ++ [.mark t]) := by
  refine ⟨fun u => ?_, fun r => ?_⟩
  · rw [mem_marked_mark, h.marked u]
    simp
  · rw [rules_mark, h.rules r]
    simp

theorem Records.addRule (h : s.Records history) (r : Rule) :
    (s.addRule r).Records (history ++ [.addRule r]) := by
  refine ⟨fun u => ?_, fun r' => ?_⟩
  · simp [SharingRules.addRule, h.marked u]
  · simp [SharingRules.addRule, h.rules r']

theorem Records.ask (h : s.Records history) (q : Query) : s.Records (history ++ [.ask q]) :=
  ⟨fun u => by simp [h.marked u], fun r => by simp [h.rules r]⟩

theorem grants_iff (ht : types.Coherent) (h : s.Records history) (t : TypeId) :
    s.grants (types.describe t) = true ↔ Inquiry.mark t ∈ history ∨
      ∃ r, Inquiry.addRule r ∈ history ∧ r (types.describe t) = true := by
  simp [grants, ht t, h.marked, h.rules]

theorem immutableDeclared_iff {t : Declared} :
    s.ImmutableDeclared types t ↔ t.Within {u | s.Immutable types (types.describe u)} := by
  cases t <;> rfl

theorem closedUnder_immutable (ht : types.Coherent) (h : s.Records history) :
    ClosedUnder types history {t | s.Immutable types (types.describe t)} := by
  refine ⟨fun t hm => ?_, fun r hr t ha => ?_, fun t hk he hf => ?_⟩
  · exact .granted ((grants_iff ht h t).mpr (.inl hm))
  · exact .granted ((grants_iff ht h t).mpr (.inr ⟨r, hr, ha⟩))
  · exact immutable_iff.mpr (.inr ⟨hk, he, fun f hfd => immutableDeclared_iff.mpr (hf f hfd)⟩)

theorem Immutable.mem_of_closedUnder (ht : types.Coherent) (h : s.Records history)
    {S : Set TypeId} (hS : ClosedUnder types history S) {d : Descriptor}
    (hi : s.Immutable types d) : ∀ t, types.describe t = d → t ∈ S := by
  induction hi with
  | granted hg =>
    rintro t rfl
    rcases (grants_iff ht h t).mp hg with hm | ⟨r, hr, ha⟩
    · exact hS.marked t hm
    · exact hS.accepted r hr t ha
  | structural hk he hd hf ih =>
    rintro t rfl
    refine hS.structural t hk he fun f hfd => ?_
    cases hdecl : f.declared with
    | scalar k => trivial
    | dynamic => exact hd f hfd hdecl
    | object u => exact ih f hfd u hdecl u rfl

theorem leastImmutable_eq (ht : types.Coherent) (h : s.Records history) :
    leastImmutable types history = {t | s.Immutable types (types.describe t)} := by
  ext t
  constructor
  · exact fun hm => hm _ (closedUnder_immutable ht h)
  · exact fun hi S hS => Immutable.mem_of_closedUnder ht h hS hi t rfl

end SharingRules

namespace Query

variable {types : Types} {s : SharingRules} {k : Knowledge}

theorem evaluate_judges (ht : types.Coherent) (hk : k.Sound types s) (q : Query) :
    s.Judges types (q.evaluate types s k) (q.Within {t | s.Immutable types (types.describe t)}) := by
  cases q with
  | type t => exact SharingRules.isImmutable_judges ht hk
  | declared t =>
    have h := SharingRules.isImmutableDeclared_judges (t := t) ht hk
    exact ⟨h.1, h.2.trans SharingRules.immutableDeclared_iff⟩
  | value v =>
    cases v with
    | object r =>
      have h := SharingRules.isImmutableRef_judges (r := r) ht hk
      exact ⟨h.1, h.2.trans (by simp [Query.Within])⟩
    | _ => exact ⟨hk, by simp [Query.evaluate, SharingRules.isImmutableValue, Query.Within]⟩

/-- No evaluation comes near its bound: a larger one gives the same answer and the same knowledge. -/
theorem evaluateWithin_eq (ht : types.Coherent) (hk : k.Sound types s) (q : Query) (extra : Nat) :
    q.evaluateWithin types s (SharingRules.nesting types + extra) k = q.evaluate types s k := by
  have hroom : SharingRules.room types [] < SharingRules.nesting types := by
    have h := SharingRules.room_le types []
    simp only [SharingRules.nesting]
    omega
  have heval : ∀ t k, k.Sound types s →
      s.evaluate types (SharingRules.nesting types + extra) [] (types.describe t) k =
        s.isImmutable types (types.describe t) k :=
    fun t k hk => SharingRules.evaluate_of_room_lt ht _ extra hroom hk (by simp)
  cases q with
  | type t => exact heval t k hk
  | value v =>
    cases v with
    | object r =>
      simp only [evaluateWithin, evaluate, SharingRules.isImmutableValue,
        SharingRules.isImmutableRef]
      rw [hk.describe_fst]
      exact heval r.type _ (hk.describe_snd r.type)
    | _ => rfl
  | declared t =>
    cases t with
    | object t =>
      simp only [evaluateWithin, evaluate, SharingRules.isImmutableDeclared,
        SharingRules.evaluateDeclared]
      rw [hk.describe_fst]
      exact heval t _ (hk.describe_snd t)
    | _ => rfl

end Query

namespace Cloner

variable {types : Types}

structure Follows (types : Types) (history : List Inquiry) (p : Cloner × DescriptorCache) :
    Prop where
  records : p.1.sharing.Records history
  sound : Knowledge.Sound types p.1.sharing ⟨p.2, p.1.verdicts⟩

theorem follows_inquire (ht : types.Coherent) {history : List Inquiry}
    {p : Cloner × DescriptorCache} (h : Follows types history p) (i : Inquiry) :
    Follows types (history ++ [i]) (inquire types p i) := by
  cases i with
  | mark t => exact ⟨h.records.mark t, Knowledge.sound_of_no_verdicts h.sound.cache⟩
  | addRule r => exact ⟨h.records.addRule r, Knowledge.sound_of_no_verdicts h.sound.cache⟩
  | ask q => exact ⟨h.records.ask q, (Query.evaluate_judges ht h.sound q).1⟩

theorem follows_serve (ht : types.Coherent) {p : Cloner × DescriptorCache}
    (h : Follows types [] p) (history : List Inquiry) :
    Follows types history (serve types p history) := by
  induction history using List.reverseRecOn with
  | nil => exact h
  | append_singleton history i ih =>
    rw [serve, List.foldl_concat]
    exact follows_inquire ht ih i

theorem follows_create {cache : DescriptorCache} (hc : cache.Faithful types)
    (options : CopyOptions) : Follows types [] (create options, cache) :=
  ⟨SharingRules.plain_records, Knowledge.sound_of_no_verdicts hc⟩

/-- After any history every answer, and every verdict that was kept, is membership in the least set of
types closed under the marks and rules so far; and every evaluation ends by itself. -/
theorem ask_iff_mem_leastImmutable (ht : types.Coherent) {cache : DescriptorCache}
    (hc : cache.Faithful types) (options : CopyOptions) (history : List Inquiry) :
    let served := serve types (create options, cache) history
    (∀ q, (served.1.ask types q served.2).1 = true ↔ q.Within (leastImmutable types history)) ∧
    (∀ t b, served.1.verdicts.lookup t = some b → (b = true ↔ t ∈ leastImmutable types history)) ∧
    ∀ q extra, Query.evaluateWithin types served.1.sharing (SharingRules.nesting types + extra) q
        ⟨served.2, served.1.verdicts⟩ =
      q.evaluate types served.1.sharing ⟨served.2, served.1.verdicts⟩ := by
  intro served
  have h : Follows types history served := follows_serve ht (follows_create hc options) history
  rw [SharingRules.leastImmutable_eq ht h.records]
  exact ⟨fun q => (Query.evaluate_judges ht h.sound q).2, h.sound.verdicts,
    fun q extra => Query.evaluateWithin_eq ht h.sound q extra⟩

/-- Two records that refer to each other, and a third that refers to the first. -/
def mutualRecords : Specs where
  hosts :=
    [{ TypeSpec.bare "Left" "Left" with
        fields := [FieldSpec.plain "right" (.required (.handle (.host 1)))] },
     { TypeSpec.bare "Right" "Right" with
        fields := [FieldSpec.plain "left" (.optional (.handle (.host 0)))] },
     { TypeSpec.bare "Outer" "Outer" with
        fields := [FieldSpec.plain "left" (.required (.handle (.host 0))),
          FieldSpec.plain "count" (.required (.int .i64))] }]
  containerPath := ""

theorem mutualRecords_immutable_once_marked :
    mutualRecords.types.Coherent ∧ DescriptorCache.empty.Faithful mutualRecords.types ∧
    TypeId.host 2 ∉ leastImmutable mutualRecords.types [.ask (.type (.host 0))] ∧
    TypeId.host 2 ∈ leastImmutable mutualRecords.types
      [.ask (.type (.host 2)), .mark (.host 1), .ask (.declared (.object (.host 0)))] := by
  have ht := Specs.types_coherent mutualRecords
  have hc := DescriptorCache.faithful_empty mutualRecords.types
  refine ⟨ht, hc, fun h => ?_, ?_⟩
  · have h' := ((ask_iff_mem_leastImmutable ht hc .standard _).1 (.type (.host 2))).mpr h
    revert h'
    decide
  · exact ((ask_iff_mem_leastImmutable ht hc .standard _).1 (.type (.host 2))).mp (by decide)

end Cloner
end GraphCopy
