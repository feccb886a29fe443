import GraphCopy.Proofs.Copy.Selection
import GraphCopy.Proofs.Graph.Related

/-!
# Copies that mirror their sources

A recorded copy mirrors its source when the two show the same, up to the copies
that are recorded for what they show. While a copy is being filled it is
recorded but does not mirror its source yet; what is recorded in the meantime
does, as soon as it has been answered.

`Setting.Carries` says this of a piece of copying from one state to another:
what the piece recorded mirrors its source in the end, and nothing below a
bound was changed. The bound is the size of the heap for a whole request, and
the address of the copy while a copy is filled.
-/

namespace GraphCopy

def Memo.Extends (m m' : Memo) : Prop := ∀ r k, m.get? r = some k → m'.get? r = some k

theorem Memo.Extends.refl (m : Memo) : m.Extends m := fun _ _ h => h

theorem Memo.Extends.trans {m m' m'' : Memo} (h₁ : m.Extends m') (h₂ : m'.Extends m'') :
    m.Extends m'' :=
  fun r k h => h₂ r k (h₁ r k h)

theorem Memo.extends_put {m : Memo} {r : Ref} (hm : m.get? r = none) (k : Ref) :
    m.Extends (m.put r k) := by
  intro q l hq
  rw [get?_put_ne]
  · exact hq
  · rintro rfl
    rw [hm] at hq
    cases hq

structure Object.Mirrors (types : Types) (R : Value → Value → Prop) (o o' : Object) : Prop where
  type : o'.type = o.type
  component : o'.component? = o.component?
  shape : (shapeOf types (types.describe o.type) o).Related R
    (shapeOf types (types.describe o.type) o')

theorem Object.Mirrors.imp {types : Types} {R S : Value → Value → Prop} {o o' : Object}
    (hrs : ∀ v w, R v w → S v w) (h : o.Mirrors types R o') : o.Mirrors types S o' :=
  ⟨h.type, h.component, h.shape.imp hrs⟩

namespace Setting

inductive Copied (c : Setting) (m : Memo) : Value → Value → Prop
  | plain {v w} (hv : v.object? = none) (hvw : v.Alike w) : Copied c m v w
  | shared {r} (hi : c.sharing.Immutable c.types (c.types.describe r.type)) :
      Copied c m (.object r) (.object r)
  | recorded {r k} (hi : ¬ c.sharing.Immutable c.types (c.types.describe r.type))
      (hm : m.get? r = some k) : Copied c m (.object r) (.object k)

structure Sane (c : Setting) (h : Heap) (s : CopyState) : Prop where
  keeps : h.Keeps h.size s.heap
  known : s.known.Sound c.types c.sharing
  source : ∀ r k, s.memo.get? r = some k →
    h.Has r ∧ ¬ c.sharing.Immutable c.types (c.types.describe r.type)
  copy : ∀ r k, s.memo.get? r = some k → s.heap.Has k ∧ k.type = r.type ∧ h.size ≤ k.address
  injective : ∀ q r k l, s.memo.get? q = some k → s.memo.get? r = some l →
    k.address = l.address → q = r

def Mirrored (c : Setting) (h : Heap) (s : CopyState) (r k : Ref) : Prop :=
  ∃ o o', h.get? r = some o ∧ s.heap.get? k = some o' ∧ o.Mirrors c.types (c.Copied s.memo) o'

structure Carries (c : Setting) (h : Heap) (bound : Nat) (s s' : CopyState) : Prop where
  sane : c.Sane h s'
  keeps : s.heap.Keeps bound s'.heap
  grows : s.memo.Extends s'.memo
  mirrored : ∀ r k, s'.memo.get? r = some k → s.memo.get? r = none → c.Mirrored h s' r k

variable {c : Setting} {h : Heap} {s s₁ s₂ : CopyState} {m m' : Memo} {v w : Value}

theorem Copied.mono (hm : m.Extends m') (hc : c.Copied m v w) : c.Copied m' v w := by
  cases hc with
  | plain hv hvw => exact .plain hv hvw
  | shared hi => exact .shared hi
  | recorded hi hr => exact .recorded hi (hm _ _ hr)

theorem Copied.source_object {k : Ref} (hc : c.Copied m v (.object k)) : ∃ r, v = .object r := by
  cases hc with
  | plain hv hvw =>
    rw [hvw.object?_eq] at hv
    cases hv
  | shared hi => exact ⟨_, rfl⟩
  | recorded hi hm => exact ⟨_, rfl⟩

theorem Copied.of_object {r : Ref} (hc : c.Copied m (.object r) w) :
    (c.sharing.Immutable c.types (c.types.describe r.type) ∧ w = .object r) ∨
      ∃ k, m.get? r = some k ∧ w = .object k := by
  cases hc with
  | plain hv => cases hv
  | shared hi => exact .inl ⟨hi, rfl⟩
  | recorded hi hm => exact .inr ⟨_, hm, rfl⟩

theorem Mirrored.mono {r k : Ref} (hm : c.Mirrored h s r k)
    (hk : s₁.heap.get? k = s.heap.get? k) (hgrow : s.memo.Extends s₁.memo) : c.Mirrored h s₁ r k := by
  obtain ⟨o, o', ho, ho', hmir⟩ := hm
  exact ⟨o, o', ho, hk.trans ho', hmir.imp fun _ _ => Copied.mono hgrow⟩

/-- What mirrors its source shows the copies of what the source shows. -/
theorem Mirrored.shape {r k : Ref} (hm : c.Mirrored h s r k) (hr : h.Has r) :
    (h.shape c.types (c.types.describe r.type) r).Related (c.Copied s.memo)
      (s.heap.shape c.types (c.types.describe r.type) k) := by
  obtain ⟨o, o', ho, ho', hmir⟩ := hm
  obtain ⟨o₁, ho₁, hot⟩ := hr
  obtain rfl : o₁ = o := Option.some.inj (ho₁.symm.trans ho)
  have hshape := hmir.shape
  rw [hot] at hshape
  simpa only [Heap.shape, ho, ho'] using hshape

namespace Carries

variable {bound : Nat} {r k : Ref}

theorem refl (hs : c.Sane h s) (bound : Nat) : c.Carries h bound s s := by
  refine ⟨hs, Heap.Keeps.refl bound _, Memo.Extends.refl _, fun r k hk hn => ?_⟩
  rw [hn] at hk
  cases hk

theorem along (hc : c.Carries h bound s s₁) (hk : s₂.known.Sound c.types c.sharing)
    (hobj : s₂.heap.objects = s₁.heap.objects) (hm : s₂.memo = s₁.memo) :
    c.Carries h bound s s₂ := by
  have hsize : s₂.heap.size = s₁.heap.size := by rw [Heap.size, hobj, Heap.size]
  have hget : ∀ r, s₂.heap.get? r = s₁.heap.get? r := fun r => by rw [Heap.get?, hobj, Heap.get?]
  have hkeeps : ∀ b, s₁.heap.Keeps b s₂.heap := fun b => ⟨hsize.ge, fun r _ => hget r⟩
  refine ⟨⟨hc.sane.keeps.trans (hkeeps _), hk, ?_, ?_, ?_⟩, hc.keeps.trans (hkeeps _), ?_, ?_⟩
  · rw [hm]
    exact hc.sane.source
  · intro r k hr
    rw [hm] at hr
    obtain ⟨⟨o, ho, hot⟩, hrest⟩ := hc.sane.copy r k hr
    exact ⟨⟨o, (hget k).trans ho, hot⟩, hrest⟩
  · rw [hm]
    exact hc.sane.injective
  · rw [hm]
    exact hc.grows
  · intro r k hr hnone
    rw [hm] at hr
    obtain ⟨o, o', ho, ho', hmir⟩ := hc.mirrored r k hr hnone
    exact ⟨o, o', ho, (hget k).trans ho', hm ▸ hmir⟩

theorem put (hc : c.Carries h k.address s s₁) (hk : s.memo.get? r = some k) {o : Object}
    (ho : o.type = k.type) : c.Carries h k.address s (s₁.withHeap (s₁.heap.put k o)) := by
  have hk₁ := hc.grows r k hk
  obtain ⟨hhas, -, hge⟩ := hc.sane.copy r k hk₁
  have hget : ∀ l : Ref, l.address ≠ k.address → (s₁.heap.put k o).get? l = s₁.heap.get? l :=
    fun l hl => Heap.get?_put_ne (Ne.symm hl)
  refine ⟨⟨?_, hc.sane.known, hc.sane.source, fun q l hq => ?_, hc.sane.injective⟩, ?_, hc.grows, ?_⟩
  · exact hc.sane.keeps.trans (Heap.keeps_put hge o)
  · obtain ⟨hl, htype, hsize⟩ := hc.sane.copy q l hq
    refine ⟨?_, htype, hsize⟩
    by_cases hlk : l.address = k.address
    · cases hl.eq_of_address_eq hhas hlk
      exact ⟨o, Heap.get?_put_self hhas.address_lt, ho⟩
    · obtain ⟨o', ho', hot'⟩ := hl
      exact ⟨o', (hget l hlk).trans ho', hot'⟩
  · exact hc.keeps.trans (Heap.keeps_put le_rfl o)
  · intro q l hq hnone
    obtain ⟨o₁, o', ho₁, ho', hmir⟩ := hc.mirrored q l hq hnone
    refine ⟨o₁, o', ho₁, (hget l fun hlk => ?_).trans ho', hmir⟩
    cases hc.sane.injective q r l k hq hk₁ hlk
    rw [hk] at hnone
    cases hnone

end Carries

theorem Sane.recording (hs : c.Sane h s) {r : Ref} (hr : h.Has r)
    (hi : ¬ c.sharing.Immutable c.types (c.types.describe r.type)) {o : Object} (ho : o.type = r.type) :
    c.Sane h ((s.withHeap (s.heap.alloc o).2).recording r (s.heap.alloc o).1) := by
  have hkeeps : s.heap.Keeps s.heap.size (s.heap.alloc o).2 := Heap.keeps_alloc le_rfl o
  have hput := Memo.get?_put s.memo r (s.heap.alloc o).1
  refine ⟨hs.keeps.trans (hkeeps.mono hs.keeps.size_le), hs.known, ?_, ?_, ?_⟩
  · intro q k hq
    rw [CopyState.recording_memo, CopyState.withHeap_memo, hput] at hq
    split_ifs at hq with hqr
    · exact hqr ▸ ⟨hr, hi⟩
    · exact hs.source q k hq
  · intro q k hq
    rw [CopyState.recording_memo, CopyState.withHeap_memo, hput] at hq
    split_ifs at hq with hqr
    · cases hq
      exact ⟨Heap.has_alloc s.heap o, hqr ▸ ho, hs.keeps.size_le⟩
    · obtain ⟨hk, hrest⟩ := hs.copy q k hq
      exact ⟨hkeeps.has hk, hrest⟩
  · have hlt : ∀ q k, s.memo.get? q = some k → k.address ≠ (s.heap.alloc o).1.address :=
      fun q k hq => (hs.copy q k hq).1.address_lt.ne
    intro q q' k k' hq hq' hkk
    rw [CopyState.recording_memo, CopyState.withHeap_memo, hput] at hq hq'
    split_ifs at hq hq' with h₁ h₂ h₂
    · rw [h₁, h₂]
    · cases hq
      exact absurd hkk.symm (hlt q' k' hq')
    · cases hq'
      exact absurd hkk (hlt q k hq)
    · exact hs.injective q q' k k' hq hq' hkk

end Setting
end GraphCopy
