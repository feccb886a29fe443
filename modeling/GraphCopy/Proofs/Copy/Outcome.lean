import GraphCopy.Proofs.Container.Index
import GraphCopy.Proofs.Copy.Mirror
import GraphCopy.Proofs.Types.Faithful

/-!
# How copying ends

`CopyM.Ends` says what holds when a piece of copying ends well, and for which
reason it may fail. It goes along with the steps of a script.

`Ground` is what a call with the built-in strategies stands on, for types of
any kind. A state of such a call is `Tidy`: what is recorded is a new object
for one source, or the source itself. `Kept` is what a recorded copy owes to
its source in the end, which depends on the way it was made, and `Brings` says
that all copies that were recorded on the way are kept.
-/

namespace GraphCopy

namespace CopyM

variable {α β : Type} {x : CopyM α} {s : CopyState} {P P' : α → CopyState → Prop} {Q Q' : Prop}

/-- The piece ends with `P`, or is cut off, or fails for the reason `Q`. -/
def Ends (x : CopyM α) (s : CopyState) (P : α → CopyState → Prop) (Q : Prop) : Prop :=
  match x s with
  | (.ok a, s') => P a s'
  | (.error (.failed _), _) => Q
  | (.error .cutOff, _) => True

theorem Ends.of_ok {a : α} {s' : CopyState} (h : x.Ends s P Q) (hx : x s = (.ok a, s')) : P a s' := by
  simpa only [Ends, hx] using h

theorem Ends.of_failed {e : CopyError} {s' : CopyState} (h : x.Ends s P Q)
    (hx : x s = (.error (.failed e), s')) : Q := by
  simpa only [Ends, hx] using h

theorem ends_ok {a : α} {s' : CopyState} (hx : x s = (.ok a, s')) (hP : P a s') : x.Ends s P Q := by
  simpa only [Ends, hx] using hP

theorem ends_failed {e : CopyError} {s' : CopyState} (hx : x s = (.error (.failed e), s')) (hQ : Q) :
    x.Ends s P Q := by
  simpa only [Ends, hx] using hQ

theorem Ends.of_eq {y : CopyM α} {t : CopyState} (h : y.Ends t P Q) (hxy : x s = y t) :
    x.Ends s P Q := by
  simpa only [Ends, hxy] using h

theorem Ends.imp (h : x.Ends s P Q) (hP : ∀ a s', P a s' → P' a s') (hQ : Q → Q') :
    x.Ends s P' Q' := by
  unfold Ends at h ⊢
  generalize x s = out at h
  obtain ⟨res, s'⟩ := out
  cases res with
  | ok a => exact hP a s' h
  | error e =>
    cases e with
    | failed e => exact hQ h
    | cutOff => trivial

theorem Ends.bind {f : α → CopyM β} {R : β → CopyState → Prop} (h : x.Ends s P Q)
    (hf : ∀ a s', P a s' → (f a).Ends s' R Q) : (x >>= f).Ends s R Q := by
  simp only [Ends, bind_apply] at h ⊢
  generalize x s = out at h
  obtain ⟨res, s'⟩ := out
  cases res with
  | ok a => exact hf a s' h
  | error e =>
    cases e with
    | failed e => exact h
    | cutOff => trivial

end CopyM

namespace Script

open CopyM

variable {types : Types} {copy : Value → CopyM Value} {s : CopyState} {next : Script}
  {P : Unit → CopyState → Prop} {Q : Prop}

/-- The rule for a script that goes over a list: `I` holds of the members that are done. -/
theorem each_ends {α : Type} {step : α → Script → Script} {all : List α}
    {I : List α → CopyState → Prop}
    (hstep : ∀ done a after, all = done ++ a :: after → ∀ rest s, I done s →
      (∀ s', I (done ++ [a]) s' → (rest.run types copy).Ends s' P Q) →
      ((step a rest).run types copy).Ends s P Q)
    (h₀ : I [] s) (hend : ∀ s', I all s' → P () s') :
    ((Script.each step all).run types copy).Ends s P Q := by
  suffices h : ∀ xs done s, all = done ++ xs → I done s →
      ((Script.each step xs).run types copy).Ends s P Q from h all [] s rfl h₀
  intro xs
  induction xs with
  | nil =>
    intro done s hall hI
    rw [List.append_nil] at hall
    exact ends_ok rfl (hend s (hall ▸ hI))
  | cons x xs ih =>
    intro done s hall hI
    exact hstep done x xs hall _ s hI fun s' hI' => ih (done ++ [x]) s' (by simp [hall]) hI'

theorem look_ends {next : Heap → Nat → Script}
    (hn : ((next s.heap s.heap.clock).run types copy).Ends (s.withHeap s.heap.tick) P Q) :
    ((Script.look next).run types copy).Ends s P Q :=
  hn.of_eq rfl

theorem copy_ends {v : Value} {next : Except CopyError Value → Script}
    {P' : Value → CopyState → Prop} {Q' : Prop} (hcopy : (copy v).Ends s P' Q')
    (hok : ∀ w s', P' w s' → ((next (.ok w)).run types copy).Ends s' P Q)
    (hfail : ∀ e, ∃ e', next (.error e) = .fail e') (hQ : Q' → Q) :
    ((Script.copy v next).run types copy).Ends s P Q := by
  simp only [Ends, run] at hcopy ⊢
  generalize copy v s = out at hcopy
  obtain ⟨answer, s'⟩ := out
  cases answer with
  | ok w => exact hok w s' hcopy
  | error e =>
    cases e with
    | failed e =>
      obtain ⟨e', he'⟩ := hfail e
      simp only [he', run, fail_apply]
      exact hQ hcopy
    | cutOff => trivial

theorem edit_ends {target : Ref} {change : Object → Except CopyError Object} {o : Object}
    (ho : s.heap.get? target = some o)
    (hok : ∀ o', change o = .ok o' →
      (next.run types copy).Ends (s.withHeap (s.heap.tick.put target o')) P Q)
    (herr : ∀ e, change o = .error e → Q) :
    ((Script.edit target change next).run types copy).Ends s P Q := by
  refine look_ends ?_
  simp only [ho]
  cases hc : change o with
  | ok o' => exact (hok o' hc).of_eq rfl
  | error e => exact ends_failed rfl (herr e hc)

end Script

structure Ground extends Setting where
  heap : Heap
  path : TypeId → String
  layouts : Nat → Layout
  builtin : strategies = .builtin
  coherent : types.Coherent
  closed : types.ClosedOn heap
  objects : ∀ o ∈ heap.objects.toList, o.WellFormed layouts

namespace Ground

variable (g : Ground)

abbrev Mutable (r : Ref) : Prop := ¬ g.sharing.Immutable g.types (g.types.describe r.type)

abbrev Breeds (t : TypeId) : Prop := (g.types.info t).Breeds t

abbrev Faithful (t : TypeId) : Prop := g.types.Faithful g.path g.layouts t

structure Structural (i : Nat) : Prop where
  selfClone : (g.types.info (.host i)).selfClone = none
  record : (g.types.info (.host i)).SlotRecord g.path i (g.layouts i)
  breeds : g.Breeds (.host i)

inductive StandsFor : Value → Value → Prop
  | plain {v w} (hv : v.object? = none) (hvw : v.Alike w) : StandsFor v w
  | object {r k} (hk : g.Breeds r.type → k.type = r.type) : StandsFor (.object r) (.object k)

def Copyable (r : Ref) : Prop :=
  ∃ o, g.heap.get? r = some o ∧
    (∃ tick shell, g.structuralShell (g.types.describe r.type) tick o = .ok (some shell)) ∧
    ∀ f ∈ (g.types.describe r.type).instanceFields, (∃ tick v, f.get o tick = .ok v) ∧
      ∃ o₁ w o₂, o₁.type = r.type ∧ f.set o₁ w = .ok o₂

inductive Fails : Ref → Prop
  | part {q r} (hq : g.Mutable q) (hr : .object r ∈ g.heap.shown g.types q) (hf : Fails r) : Fails q
  | refused {r i o tick e} (hm : g.Mutable r) (hi : r.type = .host i) (hr : g.heap.get? r = some o)
      (he : g.structuralShell (g.types.describe r.type) tick o = .error e) : Fails r
  | unreadable {r o f tick e} (hm : g.Mutable r) (hr : g.heap.get? r = some o)
      (hf : f ∈ (g.types.describe r.type).instanceFields) (he : f.get o tick = .error e) : Fails r
  | unwritable {r o shell o₁ f moment tick v w e} (hm : g.Mutable r) (hr : g.heap.get? r = some o)
      (hshell : g.structuralShell (g.types.describe r.type) moment o = .ok (some shell))
      (hf : f ∈ (g.types.describe r.type).instanceFields) (hget : f.get o tick = .ok v)
      (hvw : g.StandsFor v w) (ht : o₁.type = shell.type)
      (hlen : o₁.slots.length = shell.slots.length) (he : f.set o₁ w = .error e) : Fails r
  | misfit {r a v w} (hm : g.Mutable r) (hr : g.heap.get? r = some (.array a)) (hv : v ∈ a.items)
      (hvw : g.StandsFor v w) (he : a.component.admits w = false) : Fails r
  | tooDeep {r limit} (hm : g.Mutable r) (hl : g.options.maxDepth = some limit) : Fails r
  | strange {r i} (hm : g.Mutable r) (hr : g.heap.Has r) (hi : r.type = .host i)
      (hs : ¬ g.Structural i) : Fails r

def FailsAt (v : Value) : Prop := ∃ r, v = .object r ∧ g.Fails r

structure Tidy (s : CopyState) : Prop where
  keeps : g.heap.Keeps g.heap.size s.heap
  known : s.known.Sound g.types g.sharing
  source : ∀ r k, s.memo.get? r = some k → g.heap.Has r ∧ g.Mutable r
  copy : ∀ r k, s.memo.get? r = some k →
    k = r ∨ (g.heap.size ≤ k.address ∧ k.address < s.heap.size)
  type : ∀ r k, s.memo.get? r = some k → g.Breeds r.type → k.type = r.type
  injective : ∀ q r k l, s.memo.get? q = some k → s.memo.get? r = some l →
    k.address = l.address → q = r

structure Kept (s : CopyState) (r k : Ref) : Prop where
  original : k = r → g.options.shareSource = true
  selfCloned : k ≠ r → ∀ f, (g.types.info r.type).selfClone = some f →
    ∃ o, g.heap.get? r = some o ∧ s.heap.get? k = some (f o)
  mirrored : k ≠ r → (g.types.info r.type).selfClone = none → g.Faithful r.type →
    g.Mirrored g.heap s r k
  copyable : k ≠ r → ∀ i, r.type = .host i → g.Structural i → g.Copyable r
  indexed : k ≠ r → r.type = .set ∨ r.type = .map →
    ∃ o, s.heap.get? k = some o ∧ o.WellIndexed
  typed : r.type = .array → k ≠ r ∧ ∃ a, s.heap.get? k = some (.array a) ∧ a.WellTyped

structure Brings (bound : Nat) (s s' : CopyState) : Prop where
  tidy : g.Tidy s'
  keeps : s.heap.Keeps bound s'.heap
  grows : s.memo.Extends s'.memo
  kept : ∀ r k, s'.memo.get? r = some k → s.memo.get? r = none → g.Kept s' r k

structure Filling (s : CopyState) (r k : Ref) : Prop where
  tidy : g.Tidy s
  recorded : s.memo.get? r = some k
  fresh : g.heap.size ≤ k.address
  exists_lt : k.address < s.heap.size

def Answering (copy : Value → CopyM Value) : Prop :=
  ∀ v s, g.heap.Holds v → g.Tidy s → (copy v).Ends s
    (fun w s' => g.Brings s.heap.size s s' ∧ g.Copied s'.memo v w) (g.FailsAt v)

variable {g} {s s₁ s₂ : CopyState} {r k : Ref} {v w : Value} {bound : Nat}

theorem Tidy.standsFor (hs : g.Tidy s) (hc : g.Copied s.memo v w) : g.StandsFor v w := by
  cases hc with
  | plain hv hvw => exact .plain hv hvw
  | shared hi => exact .object fun _ => rfl
  | recorded hi hm => exact .object fun hb => hs.type _ _ hm hb

theorem Tidy.copied_injective (hs : g.Tidy s) {q r k l : Ref} (hq : g.heap.Has q) (hr : g.heap.Has r)
    (hqk : g.Copied s.memo (.object q) (.object k)) (hrl : g.Copied s.memo (.object r) (.object l))
    (hkl : k.address = l.address) : q = r := by
  have hshared : ∀ {q r l : Ref}, g.heap.Has q → g.heap.Has r → s.memo.get? r = some l →
      q.address = l.address → q = r := by
    intro q r l hq hr hm hql
    rcases hs.copy r l hm with rfl | ⟨hge, -⟩
    · exact hq.eq_of_address_eq hr hql
    · have hlt := hq.address_lt
      omega
  rcases hqk.of_object with ⟨-, hk⟩ | ⟨_, hm, hk⟩ <;> cases hk <;>
    rcases hrl.of_object with ⟨-, hl⟩ | ⟨_, hm', hl⟩ <;> cases hl
  · exact hq.eq_of_address_eq hr hkl
  · exact hshared hq hr hm' hkl
  · exact (hshared hr hq hm hkl.symm).symm
  · exact hs.injective q r k l hm hm' hkl

/-- Values with different keys have copies with different keys. -/
theorem Tidy.key_injective (hs : g.Tidy s) {v' w' : Value} (hv : g.heap.Holds v)
    (hv' : g.heap.Holds v') (hc : g.Copied s.memo v w) (hc' : g.Copied s.memo v' w')
    (hk : w.key = w'.key) : v.key = v'.key := by
  have hplain : ∀ {v w u : Value} {q : Ref}, v.object? = none → v.Alike w → w.key = u.key →
      u ≠ .object q := by
    rintro v w - q hp hvw hk rfl
    have hkey := hvw.key_eq.trans hk
    cases v <;> simp_all [Value.object?, Value.key]
  by_cases hp : v.object? = none
  · by_cases hp' : v'.object? = none
    · cases hc with
      | plain _ hvw =>
        cases hc' with
        | plain _ hvw' => rw [hvw.key_eq, hk, hvw'.key_eq]
        | _ => cases hp'
      | _ => cases hp
    · cases hc with
      | plain _ hvw =>
        cases hc' with
        | plain hp'' _ => exact absurd hp'' hp'
        | shared _ => exact absurd rfl (hplain hp hvw hk)
        | recorded _ _ => exact absurd rfl (hplain hp hvw hk)
      | _ => cases hp
  · have hobj : ∀ {u x : Value}, u.object? ≠ none → g.Copied s.memo u x →
        ∃ q k, u = .object q ∧ x = .object k := by
      intro u x hu hux
      cases hux with
      | plain hu' _ => exact absurd hu' hu
      | shared _ => exact ⟨_, _, rfl, rfl⟩
      | recorded _ _ => exact ⟨_, _, rfl, rfl⟩
    obtain ⟨q, k, rfl, rfl⟩ := hobj hp hc
    obtain ⟨r, l, rfl, rfl⟩ : ∃ r l, v' = .object r ∧ w' = .object l := by
      cases hc' with
      | plain hp' hvw' => exact absurd rfl (hplain hp' hvw' hk.symm)
      | shared _ => exact ⟨_, _, rfl, rfl⟩
      | recorded _ _ => exact ⟨_, _, rfl, rfl⟩
    rw [hs.copied_injective (hv q rfl) (hv' r rfl) hc hc' (Key.object.inj hk)]

theorem Kept.mono (hk : g.Kept s r k) (hget : k ≠ r → s₁.heap.get? k = s.heap.get? k)
    (hgrow : s.memo.Extends s₁.memo) : g.Kept s₁ r k := by
  refine ⟨hk.original, fun hne f hf => ?_, fun hne hself hfaith => ?_, hk.copyable, fun hne ht => ?_,
    fun ht => ?_⟩
  · obtain ⟨o, ho, hcopy⟩ := hk.selfCloned hne f hf
    exact ⟨o, ho, (hget hne).trans hcopy⟩
  · exact (hk.mirrored hne hself hfaith).mono (hget hne) hgrow
  · obtain ⟨o, ho, hindex⟩ := hk.indexed hne ht
    exact ⟨o, (hget hne).trans ho, hindex⟩
  · obtain ⟨hne, a, ha, htyped⟩ := hk.typed ht
    exact ⟨hne, a, (hget hne).trans ha, htyped⟩

namespace Brings

theorem refl (hs : g.Tidy s) (bound : Nat) : g.Brings bound s s := by
  refine ⟨hs, Heap.Keeps.refl bound _, Memo.Extends.refl _, fun r k hk hn => ?_⟩
  rw [hn] at hk
  cases hk

theorem along (hb : g.Brings bound s s₁) (hk : s₂.known.Sound g.types g.sharing)
    (hobj : s₂.heap.objects = s₁.heap.objects) (hm : s₂.memo = s₁.memo) : g.Brings bound s s₂ := by
  have hsize : s₂.heap.size = s₁.heap.size := by rw [Heap.size, hobj, Heap.size]
  have hget : ∀ r, s₂.heap.get? r = s₁.heap.get? r := fun r => by rw [Heap.get?, hobj, Heap.get?]
  have hkeeps : ∀ b, s₁.heap.Keeps b s₂.heap := fun b => ⟨hsize.ge, fun r _ => hget r⟩
  refine ⟨⟨hb.tidy.keeps.trans (hkeeps _), hk, ?_, ?_, ?_, ?_⟩, hb.keeps.trans (hkeeps _), ?_, ?_⟩
  · rw [hm]
    exact hb.tidy.source
  · rw [hm, hsize]
    exact hb.tidy.copy
  · rw [hm]
    exact hb.tidy.type
  · rw [hm]
    exact hb.tidy.injective
  · rw [hm]
    exact hb.grows
  · intro r k hr hnone
    rw [hm] at hr
    exact (hb.kept r k hr hnone).mono (fun _ => hget k) (hm ▸ Memo.Extends.refl _)

theorem request (hb : g.Brings bound s s₁) (hle : bound ≤ s₁.heap.size)
    (hn : g.Brings s₁.heap.size s₁ s₂) : g.Brings bound s s₂ := by
  refine ⟨hn.tidy, Heap.Keeps.trans hb.keeps (hn.keeps.mono hle), hb.grows.trans hn.grows, ?_⟩
  intro r k hk hnone
  cases hr : s₁.memo.get? r with
  | none => exact hn.kept r k hk hr
  | some l =>
    obtain rfl : l = k := Option.some.inj ((hn.grows r l hr).symm.trans hk)
    refine (hb.kept r l hr hnone).mono (fun hne => ?_) hn.grows
    rcases hb.tidy.copy r l hr with rfl | ⟨-, hlt⟩
    · exact absurd rfl hne
    · exact hn.keeps.get?_eq l hlt

theorem put (hb : g.Brings k.address s s₁) (hf : g.Filling s r k) (o : Object) :
    g.Brings k.address s (s₁.withHeap (s₁.heap.put k o)) := by
  have hk₁ := hb.grows r k hf.recorded
  have hsize : (s₁.heap.put k o).size = s₁.heap.size := Heap.size_put ..
  refine ⟨⟨hb.tidy.keeps.trans (Heap.keeps_put hf.fresh o), hb.tidy.known, hb.tidy.source, ?_,
    hb.tidy.type, hb.tidy.injective⟩, hb.keeps.trans (Heap.keeps_put le_rfl o), hb.grows, ?_⟩
  · intro q l hq
    exact (hb.tidy.copy q l hq).imp id fun hl => ⟨hl.1, hsize ▸ hl.2⟩
  · intro q l hq hnone
    refine (hb.kept q l hq hnone).mono (fun _ => Heap.get?_put_ne fun hkl => ?_) (.refl _)
    -- another source's copy lies elsewhere
    cases hb.tidy.injective r q k l hk₁ hq hkl
    rw [hf.recorded] at hnone
    cases hnone

theorem filling (hb : g.Brings k.address s s₁) (hf : g.Filling s r k) : g.Filling s₁ r k :=
  ⟨hb.tidy, hb.grows r k hf.recorded, hf.fresh, hf.exists_lt.trans_le hb.keeps.size_le⟩

end Brings

theorem Tidy.recording (hs : g.Tidy s) (hr : g.heap.Has r) (hi : g.Mutable r) {o : Object}
    (ho : g.Breeds r.type → o.type = r.type) :
    g.Filling ((s.withHeap (s.heap.alloc o).2).recording r (s.heap.alloc o).1) r
      (s.heap.alloc o).1 := by
  have hkeeps : s.heap.Keeps s.heap.size (s.heap.alloc o).2 := Heap.keeps_alloc le_rfl o
  have hput := Memo.get?_put s.memo r (s.heap.alloc o).1
  have hlt : (s.heap.alloc o).1.address < (s.heap.alloc o).2.size := (Heap.has_alloc s.heap o).address_lt
  have hge : g.heap.size ≤ (s.heap.alloc o).1.address := hs.keeps.size_le
  refine ⟨⟨hs.keeps.trans (hkeeps.mono hs.keeps.size_le), hs.known, ?_, ?_, ?_, ?_⟩,
    Memo.get?_put_self .., hge, hlt⟩
  · intro q k hq
    rw [CopyState.recording_memo, CopyState.withHeap_memo, hput] at hq
    split_ifs at hq with hqr
    · exact hqr ▸ ⟨hr, hi⟩
    · exact hs.source q k hq
  · intro q k hq
    rw [CopyState.recording_memo, CopyState.withHeap_memo, hput] at hq
    split_ifs at hq with hqr
    · cases hq
      exact .inr ⟨hge, hlt⟩
    · exact (hs.copy q k hq).imp id fun hk => ⟨hk.1, hk.2.trans_le hkeeps.size_le⟩
  · intro q k hq hb
    rw [CopyState.recording_memo, CopyState.withHeap_memo, hput] at hq
    split_ifs at hq with hqr
    · cases hq
      exact hqr ▸ ho (hqr ▸ hb)
    · exact hs.type q k hq hb
  · -- what was recorded before lies below the new object
    have hbelow : ∀ q k, s.memo.get? q = some k → k.address ≠ (s.heap.alloc o).1.address := by
      intro q k hq
      rcases hs.copy q k hq with rfl | ⟨-, hk⟩
      · exact ((hs.source _ _ hq).1.address_lt.trans_le hs.keeps.size_le).ne
      · exact hk.ne
    intro q q' k k' hq hq' hkk
    rw [CopyState.recording_memo, CopyState.withHeap_memo, hput] at hq hq'
    split_ifs at hq hq' with h₁ h₂ h₂
    · rw [h₁, h₂]
    · cases hq
      exact absurd hkk.symm (hbelow q' k' hq')
    · cases hq'
      exact absurd hkk (hbelow q k hq)
    · exact hs.injective q q' k k' hq hq' hkk

theorem Tidy.brings_original (hs : g.Tidy s) (hr : g.heap.Has r) (hi : g.Mutable r)
    (hm : s.memo.get? r = none) (hshare : g.options.shareSource = true) (ha : r.type ≠ .array) :
    g.Brings s.heap.size s (s.recording r r) := by
  have hput := Memo.get?_put s.memo r r
  have hne : ∀ q k, s.memo.get? q = some k → k.address = r.address → q = r := by
    intro q k hq hkr
    rcases hs.copy q k hq with rfl | ⟨hge, -⟩
    · exact (hs.source _ _ hq).1.eq_of_address_eq hr hkr
    · have hlt := hr.address_lt
      omega
  refine ⟨⟨hs.keeps, hs.known, ?_, ?_, ?_, ?_⟩, .refl _ _, Memo.extends_put hm r, fun q k hq hnone => ?_⟩
  · intro q k hq
    rw [CopyState.recording_memo, hput] at hq
    split_ifs at hq with hqr
    · exact hqr ▸ ⟨hr, hi⟩
    · exact hs.source q k hq
  · intro q k hq
    rw [CopyState.recording_memo, hput] at hq
    split_ifs at hq with hqr
    · cases hq
      exact .inl hqr.symm
    · exact hs.copy q k hq
  · intro q k hq hb
    rw [CopyState.recording_memo, hput] at hq
    split_ifs at hq with hqr
    · cases hq
      rw [hqr]
    · exact hs.type q k hq hb
  · intro q q' k k' hq hq' hkk
    rw [CopyState.recording_memo, hput] at hq hq'
    split_ifs at hq hq' with h₁ h₂ h₂
    · rw [h₁, h₂]
    · cases hq
      exact h₁.trans (hne q' k' hq' hkk.symm).symm
    · cases hq'
      exact (hne q k hq hkk).trans h₂.symm
    · exact hs.injective q q' k k' hq hq' hkk
  · rw [CopyState.recording_memo, hput] at hq
    split_ifs at hq with hqr
    · cases hq
      subst hqr
      exact ⟨fun _ => hshare, fun hne => absurd rfl hne, fun hne => absurd rfl hne,
        fun hne => absurd rfl hne, fun hne => absurd rfl hne, fun ht => absurd ht ha⟩
    · rw [hnone] at hq
      cases hq

theorem Brings.complete {o : Object} (hm : s.memo.get? r = none)
    (hb : g.Brings s.heap.size ((s.withHeap (s.heap.alloc o).2).recording r (s.heap.alloc o).1) s₁)
    (hk : g.Kept s₁ r (s.heap.alloc o).1) : g.Brings s.heap.size s s₁ := by
  have hput : ∀ q, q ≠ r → (s.memo.put r (s.heap.alloc o).1).get? q = s.memo.get? q :=
    fun q hq => Memo.get?_put_ne _ _ hq
  refine ⟨hb.tidy, (Heap.keeps_alloc le_rfl o).trans hb.keeps, (Memo.extends_put hm _).trans hb.grows,
    fun q l hq hnone => ?_⟩
  by_cases hqr : q = r
  · subst hqr
    have hl := hb.grows q _ (Memo.get?_put_self s.memo q (s.heap.alloc o).1)
    obtain rfl : (s.heap.alloc o).1 = l := Option.some.inj (hl.symm.trans hq)
    exact hk
  · exact hb.kept q l hq ((hput q hqr).trans hnone)

end Ground
end GraphCopy
