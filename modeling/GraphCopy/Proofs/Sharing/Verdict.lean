import GraphCopy.Immutability
import GraphCopy.Types.Spec
import Mathlib.Data.Finset.Card
import Mathlib.Logic.Relation

/-!
# Verdicts are exact

A type that is met again while it is being evaluated answers that it is
mutable, and verdicts reached below it are kept. They are right nevertheless:
every type that is in progress needs all of its fields, so a type in progress
is met again only on a cycle of needs, and no type on such a cycle is in the
least set of immutable types.

`evaluate_spec` is the statement about one evaluation at any depth, from any
knowledge that is right so far. `evaluate_of_room_lt` says that the bound on
the nesting plays no part in the answer.
-/

namespace GraphCopy

def Types.Coherent (types : Types) : Prop := ∀ t, (types.describe t).type = t

theorem Types.describe_of_isNone {types : Types} {i : Nat} (hi : types.hosts[i]? = none) :
    types.describe (.host i) = (TypeInfo.bare "Undefined" "Undefined" (.host i)).descriptor := by
  simp [Types.describe, Types.info, hi]

theorem Specs.types_coherent (specs : Specs) : specs.types.Coherent
  | .array => rfl
  | .list => rfl
  | .set => rfl
  | .map => rfl
  | .host i => specs.describe_host_type i

theorem Types.host_of_mem_fields {types : Types} {t : TypeId} {f : Field}
    (hf : f ∈ (types.describe t).fields) : ∃ i < types.hosts.length, t = .host i := by
  cases t with
  | host i =>
    by_cases hi : i < types.hosts.length
    · exact ⟨i, hi, rfl⟩
    · rw [Types.describe_of_isNone (List.getElem?_eq_none (by omega))] at hf
      simp [TypeInfo.bare] at hf
  | array => simp [Types.describe, Types.info, TypeInfo.container, TypeInfo.bare] at hf
  | list => simp [Types.describe, Types.info, TypeInfo.container, TypeInfo.bare] at hf
  | set => simp [Types.describe, Types.info, TypeInfo.container, TypeInfo.bare] at hf
  | map => simp [Types.describe, Types.info, TypeInfo.container, TypeInfo.bare] at hf

namespace SharingRules

variable {types : Types} {s : SharingRules}

def ImmutableDeclared (types : Types) (s : SharingRules) : Declared → Prop
  | .scalar _ => True
  | .dynamic => False
  | .object t => s.Immutable types (types.describe t)

theorem immutable_iff {d : Descriptor} :
    s.Immutable types d ↔ s.grants d = true ∨
      (d.kind = .record ∧ d.extensible = false ∧
        ∀ f ∈ d.fields, s.ImmutableDeclared types f.declared) := by
  constructor
  · intro h
    cases h with
    | granted hg => exact .inl hg
    | structural hk he hd hf =>
      refine .inr ⟨hk, he, fun f hfd => ?_⟩
      cases hdecl : f.declared with
      | scalar k => trivial
      | dynamic => exact hd f hfd hdecl
      | object t => exact hf f hfd t hdecl
  · rintro (hg | ⟨hk, he, hf⟩)
    · exact .granted hg
    · refine .structural hk he (fun f hfd hdecl => ?_) fun f hfd t hdecl => ?_
      · have h := hf f hfd
        rw [hdecl] at h
        exact h
      · have h := hf f hfd
        rw [hdecl] at h
        exact h

/-- A type that nothing grants is immutable only together with the types that its fields declare. -/
def Needs (types : Types) (s : SharingRules) (p q : TypeId) : Prop :=
  s.grants (types.describe p) = false ∧ ∃ f ∈ (types.describe p).fields, f.declared = .object q

theorem Immutable.acc {d : Descriptor} (h : s.Immutable types d) :
    ∀ t, types.describe t = d → Acc (fun q p => s.Needs types p q) t := by
  induction h with
  | granted hg =>
    rintro t rfl
    refine ⟨t, fun q hq => ?_⟩
    rw [hq.1] at hg
    cases hg
  | structural hk he hd hf ih =>
    rintro t rfl
    refine ⟨t, fun q hq => ?_⟩
    obtain ⟨-, f, hfd, hdecl⟩ := hq
    exact ih f hfd q hdecl q rfl

theorem not_transGen_of_acc {p : TypeId} (h : Acc (fun q p => s.Needs types p q) p) :
    ¬ Relation.TransGen (s.Needs types) p p := by
  induction h with
  | intro p _ ih =>
    intro hp
    obtain ⟨q, hpq, hqp⟩ := Relation.TransGen.head'_iff.mp hp
    exact ih q hpq (Relation.TransGen.tail' hqp hpq)

theorem not_immutable_of_transGen {t : TypeId} (h : Relation.TransGen (s.Needs types) t t) :
    ¬ s.Immutable types (types.describe t) :=
  fun hi => not_transGen_of_acc (hi.acc t rfl) h

end SharingRules

structure Knowledge.Sound (types : Types) (s : SharingRules) (k : Knowledge) : Prop where
  cache : k.cache.Faithful types
  verdicts : ∀ t b, k.verdicts.lookup t = some b →
    (b = true ↔ s.Immutable types (types.describe t))

namespace Knowledge

variable {types : Types} {s : SharingRules} {k : Knowledge}

theorem sound_of_no_verdicts {cache : DescriptorCache} (h : cache.Faithful types) :
    Knowledge.Sound types s ⟨cache, []⟩ := by
  refine ⟨h, fun t b hb => ?_⟩
  simp at hb

theorem Sound.describe_fst (h : k.Sound types s) (t : TypeId) :
    (k.describe types t).1 = types.describe t :=
  DescriptorCache.lookup_fst h.cache t

theorem Sound.describe_snd (h : k.Sound types s) (t : TypeId) :
    (k.describe types t).2.Sound types s :=
  ⟨DescriptorCache.faithful_lookup h.cache t, h.verdicts⟩

theorem Sound.keep (h : k.Sound types s) {t : TypeId} {b : Bool}
    (hb : b = true ↔ s.Immutable types (types.describe t)) :
    Knowledge.Sound types s { k with verdicts := (t, b) :: k.verdicts } := by
  refine ⟨h.cache, fun u c hc => ?_⟩
  by_cases hut : u = t
  · subst hut
    simp only [List.lookup_cons_self, Option.some.injEq] at hc
    rwa [← hc]
  · have hne : (u == t) = false := by simpa using hut
    simp only [List.lookup_cons, hne] at hc
    exact h.verdicts u c hc

end Knowledge

namespace SharingRules

variable {types : Types} {s : SharingRules}

def Judges (types : Types) (s : SharingRules) (answer : Bool × Knowledge) (P : Prop) : Prop :=
  answer.2.Sound types s ∧ (answer.1 = true ↔ P)

theorem evaluateDeclared_judges {ask : Descriptor → Knowledge → Bool × Knowledge} {t : Declared}
    {k : Knowledge} (hk : k.Sound types s)
    (hask : ∀ q, t = .object q → ∀ k, k.Sound types s →
      s.Judges types (ask (types.describe q) k) (s.Immutable types (types.describe q))) :
    s.Judges types (evaluateDeclared types ask t k) (s.ImmutableDeclared types t) := by
  cases t with
  | scalar kind => exact ⟨hk, by simp [evaluateDeclared, ImmutableDeclared]⟩
  | dynamic => exact ⟨hk, by simp [evaluateDeclared, ImmutableDeclared]⟩
  | object q =>
    have h := hask q rfl _ (hk.describe_snd q)
    rw [← hk.describe_fst q] at h
    have hd : s.ImmutableDeclared types (.object q) =
        s.Immutable types (k.describe types q).1 := by
      rw [hk.describe_fst q]
      rfl
    rw [hd]
    exact h

theorem evaluateFields_judges (ask : Descriptor → Knowledge → Bool × Knowledge) (fs : List Field)
    (hask : ∀ f ∈ fs, ∀ q, f.declared = .object q → ∀ k, k.Sound types s →
      s.Judges types (ask (types.describe q) k) (s.Immutable types (types.describe q)))
    {k : Knowledge} (hk : k.Sound types s) :
    s.Judges types (evaluateFields types ask fs k)
      (∀ f ∈ fs, s.ImmutableDeclared types f.declared) := by
  induction fs generalizing k with
  | nil => exact ⟨hk, by simp [evaluateFields]⟩
  | cons f fs ih =>
    have hf := evaluateDeclared_judges hk (hask f (by simp))
    generalize hr : evaluateDeclared types ask f.declared k = r at hf
    obtain ⟨b, k'⟩ := r
    obtain ⟨hk', hb⟩ := hf
    cases b with
    | true =>
      have hrest := ih (fun g hg => hask g (by simp [hg])) hk'
      simp only [evaluateFields, hr]
      refine ⟨hrest.1, hrest.2.trans ?_⟩
      simp [hb.mp rfl]
    | false =>
      simp only [evaluateFields, hr]
      refine ⟨hk', ?_⟩
      have hnot : ¬ s.ImmutableDeclared types f.declared := fun h => by simpa using hb.mpr h
      simp [hnot]

def room (types : Types) (pending : List TypeId) : Nat :=
  ((Finset.range types.hosts.length).filter fun i => TypeId.host i ∉ pending).card

theorem room_le (types : Types) (pending : List TypeId) :
    room types pending ≤ types.hosts.length :=
  (Finset.card_filter_le _ _).trans_eq (Finset.card_range _)

theorem room_cons_lt {pending : List TypeId} {i : Nat} (hi : i < types.hosts.length)
    (hp : TypeId.host i ∉ pending) : room types (.host i :: pending) < room types pending := by
  refine Finset.card_lt_card (Finset.ssubset_iff_of_subset ?_ |>.mpr ⟨i, ?_, ?_⟩)
  · intro j hj
    simp only [Finset.mem_filter, List.mem_cons, not_or] at hj ⊢
    exact ⟨hj.1, hj.2.2⟩
  · simp [hi, hp]
  · simp

theorem room_fields_lt {pending : List TypeId} {t : TypeId} {f : Field} {fuel : Nat}
    (hf : f ∈ (types.describe t).fields) (hp : t ∉ pending)
    (hroom : room types pending < fuel + 1) : room types (t :: pending) < fuel := by
  obtain ⟨i, hi, rfl⟩ := Types.host_of_mem_fields hf
  have h := room_cons_lt hi hp
  omega

theorem needs_field {pending : List TypeId} {t q : TypeId} {f : Field}
    (hg : s.grants (types.describe t) = false) (hf : f ∈ (types.describe t).fields)
    (hq : f.declared = .object q) (hp : ∀ p ∈ pending, Relation.TransGen (s.Needs types) p t) :
    ∀ p ∈ t :: pending, Relation.TransGen (s.Needs types) p q := by
  have hn : s.Needs types t q := ⟨hg, f, hf, hq⟩
  intro p hpp
  rcases List.mem_cons.mp hpp with rfl | hpp
  · exact .single hn
  · exact (hp p hpp).tail hn

/-- One evaluation at any depth: where all types in progress need the type in question, the answer is
right and so is what is known afterwards. -/
theorem evaluate_spec (ht : types.Coherent) (fuel : Nat) {pending : List TypeId} {t : TypeId}
    {k : Knowledge} (hroom : room types pending < fuel) (hk : k.Sound types s)
    (hp : ∀ p ∈ pending, Relation.TransGen (s.Needs types) p t) :
    s.Judges types (evaluate types s fuel pending (types.describe t) k)
      (s.Immutable types (types.describe t)) := by
  induction fuel generalizing pending t k with
  | zero => omega
  | succ fuel ih =>
    simp only [evaluate, ht t]
    cases hv : k.verdicts.lookup t with
    | some verdict => exact ⟨hk, hk.verdicts t verdict hv⟩
    | none =>
      by_cases hin : t ∈ pending
      · -- a type met again while in progress lies on a cycle of needs
        simp only [List.contains_eq_mem, hin, decide_true, if_true]
        exact ⟨hk, by simpa using not_immutable_of_transGen (hp t hin)⟩
      simp only [List.contains_eq_mem, hin, decide_false, Bool.false_eq_true, if_false]
      cases hg : s.grants (types.describe t) with
      | true =>
        have hi : s.Immutable types (types.describe t) := .granted hg
        simp only [if_true]
        exact ⟨hk.keep (by simp [hi]), by simp [hi]⟩
      | false =>
        simp only [Bool.false_eq_true, if_false]
        by_cases hr : ((types.describe t).kind == .record && !(types.describe t).extensible) = true
        · rw [if_pos hr]
          simp only [Bool.and_eq_true, beq_iff_eq, Bool.not_eq_true'] at hr
          have hfs := evaluateFields_judges (evaluate types s fuel (t :: pending))
            (types.describe t).fields (fun f hf q hq k hk =>
              ih (room_fields_lt hf hin hroom) hk (needs_field hg hf hq hp)) hk
          have hiff : (∀ f ∈ (types.describe t).fields, s.ImmutableDeclared types f.declared) ↔
              s.Immutable types (types.describe t) := by
            simp [immutable_iff, hg, hr]
          have hb := hfs.2.trans hiff
          exact ⟨hfs.1.keep hb, hb⟩
        · rw [if_neg hr]
          have hi : ¬ s.Immutable types (types.describe t) := by
            rw [immutable_iff, hg]
            simp only [Bool.and_eq_true, beq_iff_eq, Bool.not_eq_true'] at hr
            rintro (h | ⟨hkind, hext, -⟩)
            · cases h
            · exact hr ⟨hkind, hext⟩
          exact ⟨hk.keep (by simp [hi]), by simp [hi]⟩

theorem isImmutable_judges (ht : types.Coherent) {t : TypeId} {k : Knowledge}
    (hk : k.Sound types s) :
    s.Judges types (s.isImmutable types (types.describe t) k)
      (s.Immutable types (types.describe t)) := by
  refine evaluate_spec ht _ ?_ hk (by simp)
  have h := room_le types []
  simp only [nesting]
  omega

theorem isImmutableRef_judges (ht : types.Coherent) {r : Ref} {k : Knowledge}
    (hk : k.Sound types s) :
    s.Judges types (s.isImmutableRef types r k) (s.Immutable types (types.describe r.type)) := by
  simp only [isImmutableRef]
  rw [hk.describe_fst]
  exact isImmutable_judges ht (hk.describe_snd r.type)

theorem isImmutableDeclared_judges (ht : types.Coherent) {t : Declared} {k : Knowledge}
    (hk : k.Sound types s) :
    s.Judges types (s.isImmutableDeclared types t k) (s.ImmutableDeclared types t) :=
  evaluateDeclared_judges hk fun _ _ _ hk => isImmutable_judges ht hk

theorem evaluateFields_congr (ask ask' : Descriptor → Knowledge → Bool × Knowledge)
    (fs : List Field)
    (hask : ∀ f ∈ fs, ∀ q, f.declared = .object q → ∀ k, k.Sound types s →
      s.Judges types (ask (types.describe q) k) (s.Immutable types (types.describe q)) ∧
        ask' (types.describe q) k = ask (types.describe q) k)
    {k : Knowledge} (hk : k.Sound types s) :
    evaluateFields types ask' fs k = evaluateFields types ask fs k := by
  induction fs generalizing k with
  | nil => rfl
  | cons f fs ih =>
    have hj := evaluateDeclared_judges hk fun q hq k hk => (hask f (by simp) q hq k hk).1
    have hf : evaluateDeclared types ask' f.declared k = evaluateDeclared types ask f.declared k := by
      cases hd : f.declared with
      | scalar kind => rfl
      | dynamic => rfl
      | object q =>
        have h := (hask f (by simp) q hd _ (hk.describe_snd q)).2
        rw [← hk.describe_fst q] at h
        exact h
    simp only [evaluateFields, hf]
    generalize evaluateDeclared types ask f.declared k = r at hj
    obtain ⟨b, k'⟩ := r
    cases b with
    | true => exact ih (fun g hg => hask g (by simp [hg])) hj.1
    | false => rfl

/-- The recursion stays clear of its bound: with more fuel than there are types left to enter, more
fuel changes nothing. -/
theorem evaluate_of_room_lt (ht : types.Coherent) (fuel extra : Nat) {pending : List TypeId}
    {t : TypeId} {k : Knowledge} (hroom : room types pending < fuel) (hk : k.Sound types s)
    (hp : ∀ p ∈ pending, Relation.TransGen (s.Needs types) p t) :
    evaluate types s (fuel + extra) pending (types.describe t) k =
      evaluate types s fuel pending (types.describe t) k := by
  induction fuel generalizing pending t k with
  | zero => omega
  | succ fuel ih =>
    rw [Nat.add_right_comm]
    simp only [evaluate, ht t]
    cases hv : k.verdicts.lookup t with
    | some verdict => rfl
    | none =>
      by_cases hin : t ∈ pending
      · simp [hin]
      cases hg : s.grants (types.describe t) with
      | true => rfl
      | false =>
        have hfs := evaluateFields_congr (evaluate types s fuel (t :: pending))
          (evaluate types s (fuel + extra) (t :: pending)) (types.describe t).fields
          (fun f hf q hq k hk => by
            have hp' := needs_field hg hf hq hp
            have hroom' := room_fields_lt hf hin hroom
            exact ⟨evaluate_spec ht fuel hroom' hk hp', ih hroom' hk hp'⟩) hk
        rw [hfs]

end SharingRules
end GraphCopy
