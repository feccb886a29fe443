import GraphCopy.Copy.Cloner
import GraphCopy.Proofs.Sharing.Verdict

/-!
# What becomes of a request

The copy of an object is answered in one of a few ways. `Resolution` lists
them, and `resolve_resolution` says that there are no others: a shared object
is its own copy, a source met before has its recorded copy, the depth limit
may be reached, and else the object is duplicated. `Duplication` goes on from
there: a strategy is selected, which `selects_or_skips` reads off the guards,
or an instance is made by structure; either refuses, or a copy is recorded and
a script fills it.
-/

namespace GraphCopy

variable {types : Types} {sharing : SharingRules}

def Guard.Holds (types : Types) (sharing : SharingRules) (h : Heap) (r : Ref) : Guard → Prop
  | .immutableType => sharing.Immutable types (types.describe r.type)
  | .holds p => p types h r = true

inductive Registry.Selects (types : Types) (sharing : SharingRules) (h : Heap) (r : Ref) :
    Registry → Strategy → Prop
  | here {s rest} (hs : s.guard.Holds types sharing h r) : Selects types sharing h r (s :: rest) s
  | later {s rest t} (hs : ¬ s.guard.Holds types sharing h r)
      (ht : Selects types sharing h r rest t) : Selects types sharing h r (s :: rest) t

def Registry.Skips (types : Types) (sharing : SharingRules) (h : Heap) (r : Ref) (rs : Registry) :
    Prop :=
  ∀ s ∈ rs, ¬ s.guard.Holds types sharing h r

theorem Registry.Selects.mem {h : Heap} {r : Ref} {rs : Registry} {s : Strategy}
    (hs : rs.Selects types sharing h r s) : s ∈ rs := by
  induction hs with
  | here => simp
  | later _ _ ih => simp [ih]

namespace CopyState

def knowing (s : CopyState) (known : Knowledge) : CopyState := { s with known }

def withHeap (s : CopyState) (heap : Heap) : CopyState := { s with heap }

def recording (s : CopyState) (source copy : Ref) : CopyState :=
  { s with memo := s.memo.put source copy }.note (.recorded source copy)

def opening (s : CopyState) (source : Ref) (depth : Nat) (known : Knowledge) : CopyState :=
  ((s.note (.opened source depth)).knowing known).withHeap s.heap.tick

variable (s : CopyState) (e : Event) (known : Knowledge) (heap : Heap) (source copy : Ref)

@[simp] theorem note_heap : (s.note e).heap = s.heap := rfl
@[simp] theorem knowing_heap : (s.knowing known).heap = s.heap := rfl
@[simp] theorem withHeap_memo : (s.withHeap heap).memo = s.memo := rfl
@[simp] theorem recording_memo : (s.recording source copy).memo = s.memo.put source copy := rfl

end CopyState

namespace Setting

variable {c : Setting} {s : CopyState} {r : Ref}

theorem isMeantFor_apply (ht : c.types.Coherent) (hk : s.known.Sound c.types c.sharing)
    (σ : Strategy) : ∃ b known, known.Sound c.types c.sharing ∧
      c.isMeantFor σ r s = (.ok b, s.knowing known) ∧
      (b = true ↔ σ.guard.Holds c.types c.sharing s.heap r) := by
  unfold isMeantFor
  cases hg : σ.guard with
  | immutableType =>
    have hj := SharingRules.isImmutableRef_judges (r := r) ht hk
    exact ⟨_, _, hj.1, rfl, hj.2⟩
  | holds p => exact ⟨p c.types s.heap r, s.known, hk, rfl, Iff.rfl⟩

/-- The strategy that is found is the one that the registry selects. -/
theorem findStrategy_apply (ht : c.types.Coherent) (rs : Registry)
    (hk : s.known.Sound c.types c.sharing) : ∃ found known, known.Sound c.types c.sharing ∧
      c.findStrategy r rs s = (.ok found, s.knowing known) ∧
      ((∃ σ, found = some σ ∧ rs.Selects c.types c.sharing s.heap r σ) ∨
        (found = none ∧ rs.Skips c.types c.sharing s.heap r)) := by
  induction rs generalizing s with
  | nil => exact ⟨none, s.known, hk, rfl, .inr ⟨rfl, by simp [Registry.Skips]⟩⟩
  | cons σ rest ih =>
    obtain ⟨b, known, hknown, hrun, hb⟩ := isMeantFor_apply (r := r) ht hk σ
    simp only [findStrategy, CopyM.bind_apply, hrun]
    cases b with
    | true =>
      refine ⟨some σ, known, hknown, by simp, .inl ⟨σ, rfl, .here (hb.mp rfl)⟩⟩
    | false =>
      have hno : ¬ σ.guard.Holds c.types c.sharing s.heap r := fun h => by simpa using hb.mpr h
      obtain ⟨found, known', hknown', hrun', hfound⟩ := ih (s := s.knowing known) hknown
      refine ⟨found, known', hknown', by simpa [CopyState.knowing] using hrun', ?_⟩
      rcases hfound with ⟨τ, hτ, hsel⟩ | ⟨hn, hskip⟩
      · exact .inl ⟨τ, hτ, .later hno hsel⟩
      · exact .inr ⟨hn, List.forall_mem_cons.mpr ⟨hno, hskip⟩⟩

inductive Resolution (c : Setting) (copy : Value → CopyM Value) (depth : Nat) (r : Ref)
    (s : CopyState) : Except Halt Ref × CopyState → Prop
  | shared {known} (hk : known.Sound c.types c.sharing)
      (hi : c.sharing.Immutable c.types (c.types.describe r.type)) :
      Resolution c copy depth r s (.ok r, s.knowing known)
  | recalled {known k} (hk : known.Sound c.types c.sharing)
      (hi : ¬ c.sharing.Immutable c.types (c.types.describe r.type))
      (hm : s.memo.get? r = some k) : Resolution c copy depth r s (.ok k, s.knowing known)
  | tooDeep {known limit} (hk : known.Sound c.types c.sharing)
      (hi : ¬ c.sharing.Immutable c.types (c.types.describe r.type))
      (hm : s.memo.get? r = none) (hl : c.options.maxDepth = some limit) (hd : limit ≤ depth) :
      Resolution c copy depth r s (.error (.failed (.depthExceeded limit)), s.knowing known)
  | duplicated {known} (hk : known.Sound c.types c.sharing)
      (hi : ¬ c.sharing.Immutable c.types (c.types.describe r.type))
      (hm : s.memo.get? r = none) (hl : ∀ limit, c.options.maxDepth = some limit → depth < limit) :
      Resolution c copy depth r s
        (c.duplicate copy depth (c.types.describe r.type) r (s.knowing known))

theorem resolve_resolution (ht : c.types.Coherent) (hk : s.known.Sound c.types c.sharing)
    (copy : Value → CopyM Value) (depth : Nat) (r : Ref) :
    c.Resolution copy depth r s (c.resolve copy depth r s) := by
  have hj := SharingRules.isImmutable_judges ht (hk.describe_snd r.type) (t := r.type)
  simp only [resolve, describe, isImmutable, CopyM.bind_apply, CopyM.learn_apply,
    hk.describe_fst r.type]
  generalize c.sharing.isImmutable c.types (c.types.describe r.type)
    (Knowledge.describe c.types r.type s.known).2 = answer at hj
  obtain ⟨b, known⟩ := answer
  obtain ⟨hknown, hb⟩ := hj
  cases b with
  | true =>
    rw [if_pos rfl]
    exact .shared hknown (hb.mp rfl)
  | false =>
    have hi : ¬ c.sharing.Immutable c.types (c.types.describe r.type) :=
      fun h => by simpa using hb.mpr h
    simp only [Bool.false_eq_true, if_false, CopyM.bind_apply, CopyM.get_apply]
    cases hm : s.memo.get? r with
    | some k => exact .recalled hknown hi hm
    | none =>
      cases hl : c.options.maxDepth with
      | none => exact .duplicated hknown hi hm (by simp [hl])
      | some limit =>
        by_cases hd : limit ≤ depth
        · simp only [hd, if_true]
          exact .tooDeep hknown hi hm hl hd
        · simp only [hd, if_false]
          refine .duplicated hknown hi hm fun n hn => ?_
          rw [hl] at hn
          cases hn
          omega

theorem complete_apply (copy : Value → CopyM Value) (source target : Ref) (script : Script)
    (s : CopyState) : c.complete copy source target script s =
      match script.run c.types copy (s.recording source target) with
      | (.ok _, s') => (.ok target, s')
      | (.error e, s') => (.error e, s') := by
  simp only [complete, CopyM.bind_apply, CopyM.register_apply]
  unfold CopyState.recording
  generalize script.run c.types copy _ = out
  obtain ⟨res, s'⟩ := out
  cases res <;> rfl

inductive Duplication (c : Setting) (copy : Value → CopyM Value) (depth : Nat) (r : Ref)
    (s : CopyState) : Except Halt Ref × CopyState → Prop
  | refused {known e} (hk : known.Sound c.types c.sharing) :
      Duplication c copy depth r s (.error (.failed e), s.opening r depth known)
  | byStrategy {known σ shell target s'} (hk : known.Sound c.types c.sharing)
      (hσ : c.strategies.Selects c.types c.sharing s.heap r σ)
      (hshell : σ.shell c.types s.heap s.heap.clock r = .ok shell)
      (hmake : CopyM.realize shell (s.opening r depth known) = (.ok target, s')) :
      Duplication c copy depth r s
        (c.complete copy r target (σ.fill c.types r target) s')
  | byStructure {known o shell target s'} (hk : known.Sound c.types c.sharing)
      (hskip : c.strategies.Skips c.types c.sharing s.heap r) (ho : s.heap.get? r = some o)
      (hshell : c.structuralShell (c.types.describe r.type) s.heap.clock o = .ok (some shell))
      (hmake : CopyM.make shell (s.opening r depth known) = (.ok target, s')) :
      Duplication c copy depth r s
        (c.complete copy r target (copyFields (c.types.describe r.type) r target) s')
  | original {known o} (hk : known.Sound c.types c.sharing)
      (hskip : c.strategies.Skips c.types c.sharing s.heap r) (ho : s.heap.get? r = some o)
      (hshell : c.structuralShell (c.types.describe r.type) s.heap.clock o = .ok none) :
      Duplication c copy depth r s (.ok r, (s.opening r depth known).recording r r)

theorem realize_apply (shell : Shell) (s : CopyState) :
    ∃ target s', CopyM.realize shell s = (.ok target, s') := by
  induction shell generalizing s with
  | existing r => exact ⟨r, s, rfl⟩
  | fresh o => exact ⟨_, _, rfl⟩
  | part o next ih =>
    obtain ⟨target, s', hrun⟩ := ih (s.heap.alloc o).1 (s.withHeap (s.heap.alloc o).2)
    exact ⟨target, s', hrun⟩

theorem instantiateBy_error {σ : Strategy} {e : CopyError}
    (h : σ.shell c.types s.heap s.heap.clock r = .error e) :
    c.instantiateBy σ r s = (.error (.failed e), s.withHeap s.heap.tick) := by
  simp only [instantiateBy, CopyM.bind_apply, CopyM.look_apply, h]
  rfl

theorem instantiateBy_ok {σ : Strategy} {shell : Shell}
    (h : σ.shell c.types s.heap s.heap.clock r = .ok shell) :
    c.instantiateBy σ r s = CopyM.realize shell (s.withHeap s.heap.tick) := by
  simp only [instantiateBy, CopyM.bind_apply, CopyM.look_apply, h]
  rfl

theorem duplicate_found {σ : Strategy} {s₁ : CopyState} {copy : Value → CopyM Value} {depth : Nat}
    (d : Descriptor)
    (hfind : c.findStrategy r c.strategies (s.note (.opened r depth)) = (.ok (some σ), s₁)) :
    c.duplicate copy depth d r s =
      (c.instantiateBy σ r >>= fun target => c.complete copy r target (σ.fill c.types r target))
        s₁ := by
  simp only [duplicate, copyByStrategy, CopyM.bind_apply, CopyM.modify_apply, hfind]
  generalize c.instantiateBy σ r s₁ = out
  obtain ⟨target, s₂⟩ := out
  cases target with
  | error e => rfl
  | ok target =>
    dsimp only
    generalize c.complete copy r target (σ.fill c.types r target) s₂ = out
    obtain ⟨res, s₃⟩ := out
    cases res <;> rfl

theorem duplicate_not_found {s₁ : CopyState} {copy : Value → CopyM Value} {depth : Nat}
    (d : Descriptor)
    (hfind : c.findStrategy r c.strategies (s.note (.opened r depth)) = (.ok none, s₁)) :
    c.duplicate copy depth d r s = c.copyByStructure copy d r s₁ := by
  simp only [duplicate, copyByStrategy, CopyM.bind_apply, CopyM.modify_apply, hfind]
  rfl

theorem duplicate_duplication (ht : c.types.Coherent) (hk : s.known.Sound c.types c.sharing)
    (copy : Value → CopyM Value) (depth : Nat) {r : Ref} {o : Object} (ho : s.heap.get? r = some o) :
    c.Duplication copy depth r s (c.duplicate copy depth (c.types.describe r.type) r s) := by
  obtain ⟨found, known, hknown, hfind, hfound⟩ :=
    findStrategy_apply (s := s.note (.opened r depth)) (r := r) ht c.strategies hk
  rcases hfound with ⟨σ, rfl, hsel⟩ | ⟨rfl, hskip⟩
  · rw [duplicate_found _ hfind, CopyM.bind_apply]
    cases hshell : σ.shell c.types s.heap s.heap.clock r with
    | error e =>
      rw [instantiateBy_error (by exact hshell)]
      exact .refused hknown
    | ok shell =>
      obtain ⟨target, s', hmake⟩ := realize_apply shell (s.opening r depth known)
      have hinst : c.instantiateBy σ r ((s.note (.opened r depth)).knowing known) =
          (.ok target, s') := (instantiateBy_ok (by exact hshell)).trans hmake
      rw [hinst]
      exact .byStrategy hknown hsel hshell hmake
  · rw [duplicate_not_found _ hfind]
    simp only [copyByStructure, CopyM.bind_apply, CopyM.look_apply, CopyState.knowing_heap,
      CopyState.note_heap, ho]
    cases hshell : c.structuralShell (c.types.describe r.type) s.heap.clock o with
    | error e => exact .refused hknown
    | ok found =>
      cases found with
      | none => exact .original hknown hskip ho hshell
      | some shell =>
        simp only [CopyM.bind_apply, CopyM.make_apply]
        exact .byStructure hknown hskip ho hshell (CopyM.make_apply _ _)

end Setting
end GraphCopy
