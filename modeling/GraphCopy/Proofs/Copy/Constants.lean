import GraphCopy.Copy.Session
import GraphCopy.Proofs.Copy.Selection
import GraphCopy.Proofs.Types.Records

/-!
# Constants of types do not matter

Two tables of types have the same state when they differ at most in the
accessors of constants of types. A call goes the same way with either: it
never reads or writes such a constant.

`CopyM.Echoes` compares two pieces of copying that know different things. They
are to answer alike and to do the same to the rest of the state.
-/

namespace GraphCopy

structure Field.SameState (f f' : Field) : Prop where
  declared : f'.declared = f.declared
  isInstanceState : f'.isInstanceState = f.isInstanceState
  state : f.isInstanceState = true → f' = f

structure Descriptor.SameState (d d' : Descriptor) : Prop where
  name : d'.name = d.name
  type : d'.type = d.type
  kind : d'.kind = d.kind
  extensible : d'.extensible = d.extensible
  construct : d'.construct = d.construct
  copyConstruct : d'.copyConstruct = d.copyConstruct
  roundTrip : d'.roundTrip = d.roundTrip
  fields : List.Forall₂ Field.SameState d.fields d'.fields

structure Types.SameState (types types' : Types) : Prop where
  descriptor : ∀ t, (types.describe t).SameState (types'.describe t)
  selfClone : ∀ t, (types'.info t).selfClone = (types.info t).selfClone
  collection : ∀ t, (types'.info t).collection = (types.info t).collection
  map : ∀ t, (types'.info t).map = (types.info t).map

namespace Descriptor.SameState

variable {d d' : Descriptor}

theorem instanceFields (hd : d.SameState d') : d'.instanceFields = d.instanceFields := by
  have h := hd.fields
  simp only [Descriptor.instanceFields]
  generalize d.fields = fs at h
  generalize d'.fields = fs' at h
  induction h with
  | nil => rfl
  | @cons f f' fs fs' hf _ ih =>
    rw [List.filter_cons, List.filter_cons, hf.isInstanceState, ih]
    by_cases hstate : f.isInstanceState = true
    · rw [if_pos hstate, if_pos hstate, hf.state hstate]
    · rw [if_neg hstate, if_neg hstate]

theorem symm (hd : d.SameState d') : d'.SameState d := by
  refine ⟨hd.name.symm, hd.type.symm, hd.kind.symm, hd.extensible.symm, hd.construct.symm,
    hd.copyConstruct.symm, hd.roundTrip.symm, hd.fields.flip.imp fun f' f hf => ?_⟩
  exact ⟨hf.declared.symm, hf.isInstanceState.symm, fun hs => (hf.state (hf.isInstanceState ▸ hs)).symm⟩

end Descriptor.SameState

namespace Types.SameState

variable {types types' : Types} {sharing : SharingRules}

theorem refl (types : Types) : types.SameState types := by
  refine ⟨fun t => ⟨rfl, rfl, rfl, rfl, rfl, rfl, rfl, ?_⟩, fun _ => rfl, fun _ => rfl, fun _ => rfl⟩
  exact List.forall₂_same.mpr fun f _ => ⟨rfl, rfl, fun _ => rfl⟩

theorem symm (h : types.SameState types') : types'.SameState types :=
  ⟨fun t => (h.descriptor t).symm, fun t => (h.selfClone t).symm, fun t => (h.collection t).symm,
    fun t => (h.map t).symm⟩

theorem name (h : types.SameState types') (t : TypeId) : types'.name t = types.name t :=
  (h.descriptor t).name

theorem coherent (h : types.SameState types') (ht : types.Coherent) : types'.Coherent :=
  fun t => (h.descriptor t).type.trans (ht t)

theorem immutable (h : types.SameState types')
    (hg : ∀ t, sharing.grants (types'.describe t) = sharing.grants (types.describe t)) {t : TypeId}
    (hi : sharing.Immutable types (types.describe t)) :
    sharing.Immutable types' (types'.describe t) := by
  generalize hd : types.describe t = d at hi
  induction hi generalizing t with
  | granted hgr =>
    subst hd
    exact .granted ((hg t).trans hgr)
  | structural hk he hdyn hf ih =>
    subst hd
    have hsame := h.descriptor t
    refine .structural (hsame.kind.trans hk) (hsame.extensible.trans he) (fun f' hf' => ?_)
      fun f' hf' q hq => ?_
    · obtain ⟨f, hfm, hff'⟩ := hsame.fields.flip.exists_of_mem_left hf'
      rw [hff'.declared]
      exact hdyn f hfm
    · obtain ⟨f, hfm, hff'⟩ := hsame.fields.flip.exists_of_mem_left hf'
      exact ih f hfm q (hff'.declared ▸ hq) rfl

theorem immutable_iff (h : types.SameState types')
    (hg : ∀ t, sharing.grants (types'.describe t) = sharing.grants (types.describe t)) (t : TypeId) :
    sharing.Immutable types' (types'.describe t) ↔ sharing.Immutable types (types.describe t) :=
  ⟨h.symm.immutable fun t => (hg t).symm, h.immutable hg⟩

end Types.SameState

namespace CopyM

inductive Echo {α β : Type} (R : α → β → Prop) : Except Halt α → Except Halt β → Prop
  | ok {a b} (h : R a b) : Echo R (.ok a) (.ok b)
  | error (e : Halt) : Echo R (.error e) (.error e)

/-- From states that differ in what is known, the pieces answer alike and come to such states. -/
def Echoes {α β : Type} (K K' : Knowledge → Prop) (R : α → β → Prop) (x : CopyM α) (x' : CopyM β) :
    Prop :=
  ∀ s known, K s.known → K' known → ∃ known', K (x s).2.known ∧ K' known' ∧
    (x' (s.knowing known)).2 = (x s).2.knowing known' ∧ Echo R (x s).1 (x' (s.knowing known)).1

variable {α β γ δ : Type} {K K' : Knowledge → Prop} {R : α → β → Prop} {S : γ → δ → Prop}
  {x : CopyM α} {x' : CopyM β}

theorem Echo.imp {R' : α → β → Prop} (hR : ∀ a b, R a b → R' a b) {a : Except Halt α}
    {b : Except Halt β} (h : Echo R a b) : Echo R' a b := by
  cases h with
  | ok hab => exact .ok (hR _ _ hab)
  | error e => exact .error e

theorem Echoes.imp {R' : α → β → Prop} (hx : Echoes K K' R x x') (hR : ∀ a b, R a b → R' a b) :
    Echoes K K' R' x x' := by
  intro s known hk hk'
  obtain ⟨known', hs, hs', hst, hres⟩ := hx s known hk hk'
  exact ⟨known', hs, hs', hst, hres.imp hR⟩

theorem echoes_pure {a : α} {b : β} (h : R a b) : Echoes K K' R (pure a) (pure b) :=
  fun _ known hk hk' => ⟨known, hk, hk', rfl, .ok h⟩

theorem echoes_fail (e : CopyError) : Echoes K K' R (fail e) (fail e) :=
  fun _ known hk hk' => ⟨known, hk, hk', rfl, .error _⟩

theorem Echoes.bind {f : α → CopyM γ} {f' : β → CopyM δ} (hx : Echoes K K' R x x')
    (hf : ∀ a b, R a b → Echoes K K' S (f a) (f' b)) : Echoes K K' S (x >>= f) (x' >>= f') := by
  intro s known hk hk'
  obtain ⟨known₁, hk₁, hk₁', hs, hres⟩ := hx s known hk hk'
  simp only [bind_apply]
  generalize x s = out at hk₁ hs hres
  generalize x' (s.knowing known) = out' at hs hres
  obtain ⟨res, s₁⟩ := out
  obtain ⟨res', s₁'⟩ := out'
  subst hs
  cases hres with
  | ok hab => exact hf _ _ hab s₁ known₁ hk₁ hk₁'
  | error e => exact ⟨known₁, hk₁, hk₁', rfl, .error e⟩

theorem echoes_of_apart {φ : CopyState → α × CopyState}
    (hφ : ∀ s known, φ (s.knowing known) = ((φ s).1, (φ s).2.knowing known))
    (hknown : ∀ s, (φ s).2.known = s.known) (hx : ∀ s, x s = (.ok (φ s).1, (φ s).2)) :
    Echoes K K' Eq x x := by
  intro s known hk hk'
  refine ⟨known, ?_, hk', ?_, ?_⟩
  · rw [hx, hknown]
    exact hk
  · rw [hx, hx, hφ]
  · rw [hx, hx, hφ]
    exact .ok rfl

theorem echoes_look : Echoes K K' Eq look look :=
  echoes_of_apart (φ := fun s => ((s.heap, s.heap.clock), s.withHeap s.heap.tick)) (fun _ _ => rfl)
    (fun _ => rfl) fun _ => rfl

theorem echoes_make (o : Object) : Echoes K K' Eq (make o) (make o) :=
  echoes_of_apart (φ := fun s => ((s.heap.alloc o).1, s.withHeap (s.heap.alloc o).2)) (fun _ _ => rfl)
    (fun _ => rfl) fun _ => rfl

theorem echoes_register (source copy : Ref) :
    Echoes K K' Eq (register source copy) (register source copy) :=
  echoes_of_apart (φ := fun s => (⟨⟩, s.recording source copy)) (fun _ _ => rfl) (fun _ => rfl)
    fun _ => rfl

theorem echoes_note (e : Event) :
    Echoes K K' Eq (modify fun s => s.note e : CopyM PUnit) (modify fun s => s.note e) :=
  echoes_of_apart (φ := fun s => (⟨⟩, s.note e)) (fun _ _ => rfl) (fun _ => rfl) fun _ => rfl

theorem echoes_get : Echoes K K' (fun s s' => ∃ known, s' = s.knowing known) get get :=
  fun _ known hk hk' => ⟨known, hk, hk', rfl, .ok ⟨known, rfl⟩⟩

theorem echoes_learn {f : Knowledge → α × Knowledge} {f' : Knowledge → β × Knowledge}
    (hf : ∀ k k', K k → K' k' → K (f k).2 ∧ K' (f' k').2 ∧ R (f k).1 (f' k').1) :
    Echoes K K' R (learn f) (learn f') := by
  intro s known hk hk'
  obtain ⟨h, h', hr⟩ := hf s.known known hk hk'
  exact ⟨(f' known).2, h, h', rfl, .ok hr⟩

theorem echoes_realize (shell : Shell) : Echoes K K' Eq (realize shell) (realize shell) := by
  induction shell with
  | existing r => exact echoes_pure rfl
  | fresh o => exact echoes_make o
  | part o next ih => exact (echoes_make o).bind fun r _ hr => hr ▸ ih r

theorem Echoes.answering {work work' : CopyM Ref} (hw : Echoes K K' Eq work work') (source : Ref) :
    Echoes K K' Eq (answering source work) (answering source work') := by
  intro s known hk hk'
  obtain ⟨known₁, hk₁, hk₁', hs, hres⟩ := hw (s.note (.asked source)) known hk hk'
  unfold CopyM.answering
  generalize work (s.note (.asked source)) = out at hk₁ hs hres
  change ∃ known', _ ∧ _ ∧ (_, _).2 = _ ∧ _
  have hnote : (s.knowing known).note (.asked source) = (s.note (.asked source)).knowing known := rfl
  rw [hnote]
  generalize work' ((s.note (.asked source)).knowing known) = out' at hs hres
  obtain ⟨res, s₁⟩ := out
  obtain ⟨res', s₁'⟩ := out'
  subst hs
  have heq : res = res' := by
    cases hres with
    | ok h => rw [h]
    | error e => rfl
  subst heq
  exact ⟨known₁, hk₁, hk₁', rfl, hres⟩

end CopyM

inductive Script.Neutral (types types' : Types) : Script → Prop
  | done : Neutral types types' .done
  | fail (e : CopyError) : Neutral types types' (.fail e)
  | look {next : Heap → Nat → Script} (hn : ∀ h tick, Neutral types types' (next h tick)) :
      Neutral types types' (.look next)
  | describe {t : TypeId} {next : Descriptor → Script} (hd : types'.describe t = types.describe t)
      (hn : Neutral types types' (next (types.describe t))) : Neutral types types' (.describe t next)
  | make {o : Object} {next : Ref → Script} (hn : ∀ r, Neutral types types' (next r)) :
      Neutral types types' (.make o next)
  | put {target : Ref} {o : Object} {next : Script} (hn : Neutral types types' next) :
      Neutral types types' (.put target o next)
  | copy {v : Value} {next : Except CopyError Value → Script}
      (hn : ∀ answer, Neutral types types' (next answer)) : Neutral types types' (.copy v next)

namespace Script

variable {types types' : Types}

theorem Neutral.each {α : Type} {step : α → Script → Script}
    (hs : ∀ a rest, Neutral types types' rest → Neutral types types' (step a rest)) (xs : List α) :
    Neutral types types' (Script.each step xs) := by
  induction xs with
  | nil => exact .done
  | cons a xs ih => exact hs a _ ih

theorem Neutral.copyOrFail {v : Value} {next : Value → Script}
    (hn : ∀ c, Neutral types types' (next c)) : Neutral types types' (Script.copyOrFail v next) := by
  refine .copy fun answer => ?_
  cases answer with
  | ok c => exact hn c
  | error e => exact .fail e

theorem Neutral.edit {target : Ref} {change : Object → Except CopyError Object} {next : Script}
    (hn : Neutral types types' next) : Neutral types types' (Script.edit target change next) := by
  refine .look fun h _ => ?_
  cases h.get? target with
  | none => exact hn
  | some o =>
    cases hc : change o with
    | ok o' => simpa only [hc] using Neutral.put hn
    | error e => simpa only [hc] using Neutral.fail e

theorem neutral_self (types : Types) (script : Script) : script.Neutral types types := by
  induction script with
  | done => exact .done
  | fail e => exact .fail e
  | look next ih => exact .look ih
  | describe t next ih => exact .describe rfl (ih _)
  | make o next ih => exact .make ih
  | put target o next ih => exact .put ih
  | copy v next ih => exact .copy ih

end Script

open CopyM

theorem Script.Neutral.run_echoes {types types' : Types} {sharing : SharingRules}
    {copy copy' : Value → CopyM Value}
    (hcopy : ∀ v, Echoes (·.Sound types sharing) (·.Sound types' sharing) Eq (copy v) (copy' v))
    {script : Script} (hs : script.Neutral types types') :
    Echoes (·.Sound types sharing) (·.Sound types' sharing) Eq (script.run types copy)
      (script.run types' copy') := by
  induction hs with
  | done => exact echoes_pure rfl
  | fail e => exact echoes_fail e
  | look _ ih => exact echoes_look.bind fun seen _ hseen => hseen ▸ ih seen.1 seen.2
  | @describe t next hd _ ih =>
    have hlearn : Echoes (·.Sound types sharing) (·.Sound types' sharing)
        (fun d d' => d = types.describe t ∧ d' = types.describe t)
        (learn (Knowledge.describe types t)) (learn (Knowledge.describe types' t)) :=
      echoes_learn fun _ _ hk hk' => ⟨hk.describe_snd t, hk'.describe_snd t, hk.describe_fst t,
        (hk'.describe_fst t).trans hd⟩
    apply hlearn.bind
    rintro _ _ ⟨rfl, rfl⟩
    exact ih
  | @make o next _ ih => exact (echoes_make o).bind fun r _ hr => hr ▸ ih r
  | @put target o next _ ih =>
    refine Echoes.bind (R := Eq) (echoes_of_apart
      (φ := fun s => (⟨⟩, s.withHeap (s.heap.put target o))) (fun _ _ => rfl) (fun _ => rfl)
      fun _ => rfl) fun _ _ _ => ih
  | @copy v next _ ih =>
    intro s known hk hk'
    obtain ⟨known₁, hk₁, hk₁', hs, hres⟩ := hcopy v s known hk hk'
    simp only [run]
    generalize copy v s = out at hk₁ hs hres
    generalize copy' v (s.knowing known) = out' at hs hres
    obtain ⟨res, s₁⟩ := out
    obtain ⟨res', s₁'⟩ := out'
    subst hs
    cases hres with
    | ok h => exact h ▸ ih (.ok _) s₁ known₁ hk₁ hk₁'
    | error e =>
      cases e with
      | failed e => exact ih (.error e) s₁ known₁ hk₁ hk₁'
      | cutOff => exact ⟨known₁, hk₁, hk₁', rfl, .error _⟩

structure Strategy.Indifferent (types types' : Types) (σ : Strategy) : Prop where
  guard : ∀ p, σ.guard = .holds p → p types' = p types
  shell : σ.shell types' = σ.shell types
  fill : σ.fill types' = σ.fill types
  neutral : ∀ source target, (σ.fill types source target).Neutral types types'

namespace Strategy

variable {types types' : Types}

theorem guard_holds_eq {p q : Types → Heap → Ref → Bool} (hq : q types' = q types)
    (hp : Guard.holds q = .holds p) : p types' = p types := by
  cases hp
  exact hq

theorem indifferent_self (types : Types) (σ : Strategy) : σ.Indifferent types types :=
  ⟨fun _ _ => rfl, rfl, rfl, fun _ _ => Script.neutral_self types _⟩

theorem immutable_indifferent : Strategy.immutable.Indifferent types types' :=
  ⟨nofun, rfl, rfl, fun _ _ => .done⟩

theorem array_indifferent : Strategy.array.Indifferent types types' := by
  refine ⟨fun _ => guard_holds_eq rfl, rfl, rfl, fun source target => .look fun heap _ => ?_⟩
  cases arrayAt heap source with
  | none => exact .fail _
  | some a =>
    refine Script.Neutral.each (fun item rest hrest => .copy fun answer => ?_) _
    cases answer with
    | ok copy => exact .edit hrest
    | error e => exact .fail _

theorem selfClone_indifferent (h : types.SameState types') :
    Strategy.selfClone.Indifferent types types' := by
  refine ⟨fun _ => guard_holds_eq ?_, ?_, rfl, fun _ _ => .done⟩
  · funext _ r
    simp only [h.selfClone]
  · funext _ _ r
    simp only [selfClone, leaf, h.selfClone, h.name]

theorem collection_indifferent (h : types.SameState types') :
    Strategy.collection.Indifferent types types' := by
  refine ⟨fun _ => guard_holds_eq ?_, ?_, ?_, fun _ _ => .look fun _ _ => ?_⟩
  · funext _ r
    simp only [h.collection]
  · funext _ _ r
    simp only [collection, h.collection, h.name]
  · funext source target
    simp only [collection, h.collection, h.name]
  · exact .each (fun _ _ hrest => .copyOrFail fun _ => .edit hrest) _

theorem map_indifferent (h : types.SameState types') : Strategy.map.Indifferent types types' := by
  refine ⟨fun _ => guard_holds_eq ?_, ?_, ?_, fun _ _ => .look fun _ _ => ?_⟩
  · funext _ r
    simp only [h.map]
  · funext _ _ r
    simp only [map, h.map, h.name]
  · funext source target
    simp only [map, h.map, h.name]
  · exact .each (fun _ _ hrest => .copyOrFail fun _ => .copyOrFail fun _ => .edit hrest) _

end Strategy

theorem Registry.builtin_indifferent {types types' : Types} (h : types.SameState types') :
    ∀ σ ∈ Registry.builtin, σ.Indifferent types types' := by
  simp only [Registry.builtin, List.forall_mem_cons, List.not_mem_nil, false_imp_iff, implies_true,
    and_true]
  exact ⟨Strategy.immutable_indifferent, Strategy.array_indifferent, Strategy.selfClone_indifferent h,
    Strategy.collection_indifferent h, Strategy.map_indifferent h⟩

namespace Setting

def withTypes (c : Setting) (types : Types) : Setting := { c with types }

structure Twin (c : Setting) (types' : Types) : Prop where
  coherent : c.types.Coherent
  state : c.types.SameState types'
  grants : ∀ t, c.sharing.grants (types'.describe t) = c.sharing.grants (c.types.describe t)
  strategies : ∀ σ ∈ c.strategies, σ.Indifferent c.types types'

abbrev Alike {α β : Type} (c : Setting) (types' : Types) (R : α → β → Prop) (x : CopyM α)
    (x' : CopyM β) : Prop :=
  Echoes (·.Sound c.types c.sharing) (·.Sound types' c.sharing) R x x'

namespace Twin

variable {c : Setting} {types' : Types} {copy copy' : Value → CopyM Value} {r : Ref}

theorem describe (t : TypeId) :
    c.Alike types' (fun d d' => d = c.types.describe t ∧ d' = types'.describe t) (c.describe t)
      ((c.withTypes types').describe t) :=
  echoes_learn fun _ _ hk hk' =>
    ⟨hk.describe_snd t, hk'.describe_snd t, hk.describe_fst t, hk'.describe_fst t⟩

theorem instantiateBy {σ : Strategy} (hσ : σ.Indifferent c.types types') :
    c.Alike types' Eq (c.instantiateBy σ r) ((c.withTypes types').instantiateBy σ r) := by
  refine echoes_look.bind fun seen _ hseen => hseen ▸ ?_
  simp only [Setting.withTypes, hσ.shell]
  cases σ.shell c.types seen.1 seen.2 r with
  | ok shell => exact echoes_realize shell
  | error e => exact echoes_fail e

theorem complete (hcopy : ∀ v, c.Alike types' Eq (copy v) (copy' v)) {target : Ref} {script : Script}
    (hs : script.Neutral c.types types') : c.Alike types' Eq (c.complete copy r target script)
      ((c.withTypes types').complete copy' r target script) :=
  (echoes_register r target).bind fun _ _ _ => (hs.run_echoes hcopy).bind fun _ _ _ => echoes_pure rfl

theorem copyFields_neutral (d : Descriptor) (source target : Ref) :
    (copyFields d source target).Neutral c.types types' := by
  refine .each (fun f rest hrest => .look fun heap tick => ?_) _
  cases heap.get? source with
  | none => exact hrest
  | some o =>
    cases hv : f.get o tick with
    | error e => simpa only [hv] using Script.Neutral.fail _
    | ok v => simpa only [hv] using Script.Neutral.copyOrFail fun _ => .edit hrest

variable (h : c.Twin types')

include h

theorem isImmutable (t : TypeId) :
    c.Alike types' Eq (c.isImmutable (c.types.describe t))
      ((c.withTypes types').isImmutable (types'.describe t)) := by
  refine echoes_learn fun _ _ hk hk' => ?_
  obtain ⟨hs, hb⟩ := SharingRules.isImmutable_judges h.coherent hk (t := t)
  obtain ⟨hs', hb'⟩ := SharingRules.isImmutable_judges (h.state.coherent h.coherent) hk' (t := t)
  exact ⟨hs, hs', Bool.eq_iff_iff.mpr (hb.trans ((h.state.immutable_iff h.grants t).symm.trans hb'.symm))⟩

theorem isMeantFor {σ : Strategy} (hσ : σ.Indifferent c.types types') :
    c.Alike types' Eq (c.isMeantFor σ r) ((c.withTypes types').isMeantFor σ r) := by
  unfold Setting.isMeantFor
  cases hg : σ.guard with
  | immutableType =>
    refine echoes_learn fun _ _ hk hk' => ?_
    obtain ⟨hs, hb⟩ := SharingRules.isImmutableRef_judges h.coherent hk (r := r)
    obtain ⟨hs', hb'⟩ :=
      SharingRules.isImmutableRef_judges (h.state.coherent h.coherent) hk' (r := r)
    exact ⟨hs, hs',
      Bool.eq_iff_iff.mpr (hb.trans ((h.state.immutable_iff h.grants r.type).symm.trans hb'.symm))⟩
  | holds p =>
    refine echoes_get.bind fun s s' hs => ?_
    obtain ⟨known, rfl⟩ := hs
    refine echoes_pure ?_
    rw [Setting.withTypes, hσ.guard p hg]
    rfl

theorem findStrategy {rs : Registry} (hrs : ∀ σ ∈ rs, σ.Indifferent c.types types') :
    c.Alike types' (fun found found' => found' = found ∧ ∀ σ, found = some σ → σ ∈ rs)
      (c.findStrategy r rs) ((c.withTypes types').findStrategy r rs) := by
  induction rs with
  | nil => exact echoes_pure ⟨rfl, nofun⟩
  | cons σ rest ih =>
    refine (h.isMeantFor (hrs σ (by simp))).bind fun b _ hb => hb ▸ ?_
    cases b with
    | true => exact echoes_pure ⟨rfl, fun τ hτ => by cases hτ; simp⟩
    | false =>
      simp only [Bool.false_eq_true, if_false]
      refine (ih fun τ hτ => hrs τ (by simp [hτ])).imp fun _ _ hfound => ⟨hfound.1, fun τ hτ => ?_⟩
      exact List.mem_cons_of_mem _ (hfound.2 τ hτ)

theorem copyByStrategy (hcopy : ∀ v, c.Alike types' Eq (copy v) (copy' v)) :
    c.Alike types' Eq (c.copyByStrategy copy c.strategies r)
      ((c.withTypes types').copyByStrategy copy' (c.withTypes types').strategies r) := by
  refine (h.findStrategy h.strategies).bind fun _ found hfound => ?_
  obtain ⟨rfl, hmem⟩ := hfound
  cases found with
  | none => exact echoes_pure rfl
  | some σ =>
    have hσ := h.strategies σ (hmem σ rfl)
    refine (instantiateBy hσ).bind fun target _ ht => ht ▸ ?_
    simp only [Setting.withTypes, hσ.fill]
    exact (complete hcopy (hσ.neutral r target)).bind fun k _ hk => hk ▸ echoes_pure rfl

theorem copyByStructure (hcopy : ∀ v, c.Alike types' Eq (copy v) (copy' v)) (t : TypeId) :
    c.Alike types' Eq (c.copyByStructure copy (c.types.describe t) r)
      ((c.withTypes types').copyByStructure copy' (types'.describe t) r) := by
  have hd := h.state.descriptor t
  have hshell : ∀ tick o, (c.withTypes types').structuralShell (types'.describe t) tick o =
      c.structuralShell (c.types.describe t) tick o := fun tick o => by
    simp only [structuralShell, fallbackShell, hd.construct, hd.copyConstruct, hd.roundTrip, hd.name,
      Setting.withTypes]
  refine echoes_look.bind fun seen _ hseen => hseen ▸ ?_
  simp only [hshell]
  cases seen.1.get? r with
  | none => exact echoes_pure rfl
  | some o =>
    dsimp only
    cases c.structuralShell (c.types.describe t) seen.2 o with
    | error e => exact echoes_fail e
    | ok made =>
      cases made with
      | none => exact (echoes_register r r).bind fun _ _ _ => echoes_pure rfl
      | some shell =>
        refine (echoes_make shell).bind fun target _ ht => ht ▸ ?_
        simp only [copyFields, hd.name, hd.instanceFields]
        exact complete hcopy (copyFields_neutral _ r target)

theorem duplicate (hcopy : ∀ v, c.Alike types' Eq (copy v) (copy' v)) (depth : Nat) (t : TypeId) :
    c.Alike types' Eq (c.duplicate copy depth (c.types.describe t) r)
      ((c.withTypes types').duplicate copy' depth (types'.describe t) r) := by
  refine (echoes_note _).bind fun _ _ _ => (h.copyByStrategy hcopy).bind fun found _ hfound => hfound ▸ ?_
  cases found with
  | none => exact h.copyByStructure hcopy t
  | some target => exact echoes_pure rfl

theorem resolve (hcopy : ∀ v, c.Alike types' Eq (copy v) (copy' v)) (depth : Nat) :
    c.Alike types' Eq (c.resolve copy depth r) ((c.withTypes types').resolve copy' depth r) := by
  refine (describe r.type).bind fun d d' hd => ?_
  obtain ⟨rfl, rfl⟩ := hd
  refine (h.isImmutable r.type).bind fun b _ hb => hb ▸ ?_
  cases b with
  | true => exact echoes_pure rfl
  | false =>
    simp only [Bool.false_eq_true, if_false]
    refine echoes_get.bind fun s s' hs => ?_
    obtain ⟨known, rfl⟩ := hs
    have hdup := h.duplicate hcopy depth r.type (r := r)
    simp only [CopyState.knowing, Setting.withTypes] at hdup ⊢
    cases s.memo.get? r with
    | some k => exact echoes_pure rfl
    | none =>
      cases c.options.maxDepth with
      | none => exact hdup
      | some limit =>
        by_cases hlim : limit ≤ depth
        · simp only [hlim, if_true]
          exact echoes_fail _
        · simp only [hlim, if_false]
          exact hdup

theorem cloneWithin (n depth : Nat) (v : Value) :
    c.Alike types' Eq (c.cloneWithin n depth v) ((c.withTypes types').cloneWithin n depth v) := by
  induction n generalizing depth v with
  | zero =>
    cases v with
    | object r => exact fun _ known hk hk' => ⟨known, hk, hk', rfl, .error _⟩
    | _ => exact echoes_pure rfl
  | succ n ih =>
    cases v with
    | object r =>
      exact ((h.resolve (ih (depth + 1)) depth).answering r).bind fun k _ hk => hk ▸ echoes_pure rfl
    | _ => exact echoes_pure rfl

end Twin
end Setting

/-- A call goes the same way with any table of types that has the same state. -/
theorem Cloner.deepClone_sameState {c : Cloner} {types types' : Types} {heap : Heap}
    {cache cache' : DescriptorCache} {verdicts' : Verdicts} {v : Value} (ht : types.Coherent)
    (hs : types.SameState types')
    (hg : ∀ t, c.sharing.grants (types'.describe t) = c.sharing.grants (types.describe t))
    (hσ : ∀ σ ∈ c.strategies, σ.Indifferent types types')
    (hk : Knowledge.Sound types c.sharing ⟨cache, c.verdicts⟩)
    (hk' : Knowledge.Sound types' c.sharing ⟨cache', verdicts'⟩) :
    let call := c.deepClone types heap cache v
    let call' := { c with verdicts := verdicts' }.deepClone types' heap cache' v
    call'.1 = call.1 ∧ call'.2.heap = call.2.heap ∧ call'.2.memo = call.2.memo ∧
      call'.2.journal = call.2.journal := by
  have htwin : (c.setting types).Twin types' := ⟨ht, hs, hg, hσ⟩
  obtain ⟨known, -, -, hst, hres⟩ :=
    htwin.cloneWithin (heap.size + 1) 0 v ⟨heap, ⟨cache, c.verdicts⟩, .empty, []⟩ ⟨cache', verdicts'⟩ hk hk'
  have hsame : ∀ {a a' : Except Halt Value}, Echo Eq a a' → a' = a := by
    rintro _ _ (rfl | e) <;> rfl
  have hrun : ({ c with verdicts := verdicts' }.setting types').cloneWithin (heap.size + 1) 0 v
      ⟨heap, ⟨cache', verdicts'⟩, .empty, []⟩ = (_, CopyState.knowing _ known) :=
    Prod.ext (hsame hres) hst
  simp only [Cloner.deepClone, Cloner.perform, Setting.cloneValue, CopyM.bind_apply, CopyM.get_apply,
    hrun]
  exact ⟨rfl, rfl, rfl, rfl⟩

end GraphCopy
