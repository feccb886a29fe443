import GraphCopy.Proofs.Copy.Confinement
import GraphCopy.Proofs.Copy.Selection

/-!
# The steps of a call

`Setting.Step` says all that one step of a copying call may do to the state:
knowledge grows and stays right, the clock moves on, an object is made, an
object at or above a bound is changed, or an event is noted. A copy is recorded
only for a source that has none, and a source that has one is answered with it
at once.

`cloneWithin_steps` says that a call whose strategies are confined is a chain of
such steps and never runs against the bound on its nesting: each nested request
that goes on is for another object of the heap from which the call started.
-/

namespace GraphCopy

namespace Memo

/-- How many objects of a heap have no recorded copy. -/
def room (h : Heap) (m : Memo) : Nat :=
  (h.refs.toFinset.filter fun r => m.get? r = none).card

variable {h : Heap} {m m' : Memo} {r : Ref}

theorem room_le (h : Heap) (m : Memo) : m.room h ≤ h.size :=
  (Finset.card_filter_le _ _).trans h.card_refs_le

theorem room_mono (hm : ∀ q k, m.get? q = some k → m'.get? q = some k) : m'.room h ≤ m.room h := by
  refine Finset.card_le_card fun q hq => ?_
  simp only [Finset.mem_filter] at hq ⊢
  refine ⟨hq.1, ?_⟩
  cases hk : m.get? q with
  | none => rfl
  | some k =>
    rw [hm q k hk] at hq
    cases hq.2

theorem room_pos (hr : h.Has r) (hm : m.get? r = none) : 0 < m.room h :=
  Finset.card_pos.mpr ⟨r, by simpa [Heap.mem_refs] using ⟨hr, hm⟩⟩

theorem room_put_lt (k : Ref) (hr : h.Has r) (hm : m.get? r = none) :
    (m.put r k).room h < m.room h := by
  refine Finset.card_lt_card (Finset.ssubset_iff_of_subset ?_ |>.mpr ⟨r, ?_, ?_⟩)
  · intro q hq
    simp only [Finset.mem_filter, get?_put] at hq ⊢
    refine ⟨hq.1, ?_⟩
    split_ifs at hq
    · cases hq.2
    · exact hq.2
  · simpa [Heap.mem_refs] using ⟨hr, hm⟩
  · simp [get?_put_self]

end Memo

theorem CopyState.room_recording_lt {h : Heap} {s : CopyState} {r : Ref} {n : Nat} (target : Ref)
    (hr : h.Has r) (hm : s.memo.get? r = none) (hn : s.memo.room h < n + 1) :
    (s.recording r target).memo.room h < n :=
  (Memo.room_put_lt target hr hm).trans_le (Nat.le_of_lt_succ hn)

namespace Setting

inductive Step (c : Setting) (h : Heap) (bound : Nat) : CopyState → CopyState → Prop
  | learn {s known} (hk : known.Sound c.types c.sharing) : Step c h bound s (s.knowing known)
  | look {s} : Step c h bound s (s.withHeap s.heap.tick)
  | make {s} (o : Object) : Step c h bound s (s.withHeap (s.heap.alloc o).2)
  | put {s target} (o : Object) (ht : bound ≤ target.address) :
      Step c h bound s (s.withHeap (s.heap.put target o))
  | remind {s source copy} (hm : s.memo.get? source = some copy) :
      Step c h bound s ((s.note (.asked source)).note (.answered source (.ok copy)))
  | ask {s source} (hm : s.memo.get? source = none) : Step c h bound s (s.note (.asked source))
  | begin {s source depth} (hd : depth < h.size) : Step c h bound s (s.note (.opened source depth))
  | record {s source} (copy : Ref) (hr : h.Has source)
      (hi : ¬ c.sharing.Immutable c.types (c.types.describe source.type))
      (hm : s.memo.get? source = none) : Step c h bound s (s.recording source copy)
  | answer {s source} (answer : Except Halt Ref) :
      Step c h bound s (s.note (.answered source answer))

abbrev Steps (c : Setting) (h : Heap) (bound : Nat) : CopyState → CopyState → Prop :=
  Relation.ReflTransGen (c.Step h bound)

structure Fits (c : Setting) (h : Heap) (bound : Nat) (s : CopyState) : Prop where
  keeps : h.Keeps h.size s.heap
  bound_le : bound ≤ s.heap.size
  known : s.known.Sound c.types c.sharing
  memo : ∀ r k, s.memo.get? r = some k →
    h.Has r ∧ ¬ c.sharing.Immutable c.types (c.types.describe r.type)

variable {c : Setting} {h : Heap} {bound : Nat} {s s' : CopyState}

theorem Fits.start (h : Heap) {known : Knowledge} {journal : List Event}
    (hk : known.Sound c.types c.sharing) : c.Fits h h.size ⟨h, known, .empty, journal⟩ :=
  ⟨.refl _ _, le_rfl, hk, by simp [Memo.get?, Memo.empty]⟩

theorem Step.keeps (hs : c.Step h bound s s') (hb : bound ≤ s.heap.size) :
    s.heap.Keeps bound s'.heap := by
  cases hs with
  | look => exact Heap.keeps_tick bound s.heap
  | make o => exact Heap.keeps_alloc hb o
  | put o ht => exact Heap.keeps_put ht o
  | _ => exact Heap.Keeps.refl bound s.heap

theorem Step.memo (hs : c.Step h bound s s') {r k : Ref} (hm : s.memo.get? r = some k) :
    s'.memo.get? r = some k := by
  cases hs with
  | @record source copy hr hi hnone =>
    have hne : r ≠ source := by
      rintro rfl
      rw [hnone] at hm
      cases hm
    rwa [CopyState.recording_memo, Memo.get?_put_ne _ _ hne]
  | _ => exact hm

theorem Step.fits (hs : c.Step h bound s s') (hb : h.size ≤ bound) (hf : c.Fits h bound s) :
    c.Fits h bound s' := by
  have hk := hs.keeps hf.bound_le
  refine ⟨hf.keeps.trans (hk.mono hb), hf.bound_le.trans hk.size_le, ?_, ?_⟩
  · cases hs with
    | learn hknown => exact hknown
    | _ => exact hf.known
  · intro r k hm
    cases hs with
    | @record source copy hr hi hnone =>
      rw [CopyState.recording_memo, Memo.get?_put] at hm
      split_ifs at hm with hrs
      · exact hrs ▸ ⟨hr, hi⟩
      · exact hf.memo r k hm
    | _ => exact hf.memo r k hm

theorem Steps.fits (hs : c.Steps h bound s s') (hb : h.size ≤ bound) (hf : c.Fits h bound s) :
    c.Fits h bound s' := by
  induction hs with
  | refl => exact hf
  | tail _ hstep ih => exact hstep.fits hb ih

theorem Steps.memo (hs : c.Steps h bound s s') {r k : Ref} (hm : s.memo.get? r = some k) :
    s'.memo.get? r = some k := by
  induction hs with
  | refl => exact hm
  | tail _ hstep ih => exact hstep.memo ih

theorem Steps.room_le (hs : c.Steps h bound s s') : s'.memo.room h ≤ s.memo.room h :=
  Memo.room_mono fun _ _ => hs.memo

structure Goes (c : Setting) (h : Heap) (bound : Nat) {α : Type} (s : CopyState)
    (out : Except Halt α × CopyState) : Prop where
  ends : out.1 ≠ .error .cutOff
  steps : c.Steps h bound s out.2

/-- A way to copy values, as long as fewer than `n` objects have no recorded copy. -/
def Serves (c : Setting) (h : Heap) (bound n : Nat) (copy : Value → CopyM Value) : Prop :=
  ∀ v s, h.Holds v → c.Fits h bound s → s.memo.room h < n → c.Goes h bound s (copy v s)

theorem run_goes (hb : h.size ≤ bound) {n : Nat} {copy : Value → CopyM Value}
    (hcopy : c.Serves h bound n copy) {script : Script}
    (hs : script.Confined c.types h bound) (hf : c.Fits h bound s) (hn : s.memo.room h < n) :
    c.Goes h bound s (script.run c.types copy s) := by
  induction hs generalizing s with
  | done => exact ⟨by simp [Script.run], .refl⟩
  | fail e => exact ⟨by simp [Script.run], .refl⟩
  | look _ ih =>
    have hstep : c.Step h bound s (s.withHeap s.heap.tick) := .look
    have hrest := ih s.heap s.heap.clock hf.keeps (hstep.fits hb hf) hn
    exact ⟨hrest.ends, .head hstep hrest.steps⟩
  | @describe t next _ ih =>
    have hstep : c.Step h bound s (s.knowing (s.known.describe c.types t).2) :=
      .learn (hf.known.describe_snd t)
    have hrest := ih (hstep.fits hb hf) hn
    have hrun : (Script.describe t next).run c.types copy s =
        (next (c.types.describe t)).run c.types copy
          (s.knowing (s.known.describe c.types t).2) := by
      rw [← hf.known.describe_fst t]
      rfl
    rw [hrun]
    exact ⟨hrest.ends, .head hstep hrest.steps⟩
  | @make o next _ ih =>
    have hstep : c.Step h bound s (s.withHeap (s.heap.alloc o).2) := .make o
    have hrest := ih (s.heap.alloc o).1 hf.bound_le (hstep.fits hb hf) hn
    exact ⟨hrest.ends, .head hstep hrest.steps⟩
  | @put target o next ht _ ih =>
    have hstep : c.Step h bound s (s.withHeap (s.heap.put target o)) := .put o ht
    have hrest := ih (hstep.fits hb hf) hn
    exact ⟨hrest.ends, .head hstep hrest.steps⟩
  | @copy v next hv _ ih =>
    obtain ⟨hends, hsteps⟩ := hcopy v s hv hf hn
    generalize hout : copy v s = out at hends hsteps
    obtain ⟨answer, s'⟩ := out
    have hf' := hsteps.fits hb hf
    have hn' := hsteps.room_le.trans_lt hn
    simp only [Script.run, hout]
    cases answer with
    | ok w =>
      have hrest := ih (.ok w) hf' hn'
      exact ⟨hrest.ends, hsteps.trans hrest.steps⟩
    | error e =>
      cases e with
      | failed e =>
        have hrest := ih (.error e) hf' hn'
        exact ⟨hrest.ends, hsteps.trans hrest.steps⟩
      | cutOff => exact absurd rfl hends

theorem realize_steps {shell : Shell} {target : Ref} (hf : c.Fits h bound s)
    (hmake : CopyM.realize shell s = (.ok target, s')) :
    c.Steps h bound s s' ∧ shell.Yields bound target ∧ s'.memo = s.memo := by
  induction shell generalizing s with
  | existing r =>
    cases hmake
    exact ⟨.refl, rfl, rfl⟩
  | fresh o =>
    cases hmake
    exact ⟨.single (.make o), ⟨hf.bound_le, rfl⟩, rfl⟩
  | part o next ih =>
    have hstep : c.Step h bound s (s.withHeap (s.heap.alloc o).2) := .make o
    have hfits : c.Fits h bound (s.withHeap (s.heap.alloc o).2) := by
      refine ⟨hf.keeps.trans (Heap.keeps_alloc hf.keeps.size_le o), ?_, hf.known, hf.memo⟩
      exact hf.bound_le.trans (Heap.keeps_alloc hf.bound_le o).size_le
    obtain ⟨hsteps, hy, hm⟩ := ih (s.heap.alloc o).1 hfits hmake
    exact ⟨.head hstep hsteps, ⟨_, hy⟩, hm⟩

variable {r : Ref}

theorem opening_steps {depth : Nat} {known : Knowledge} (hd : depth < h.size)
    (hk : known.Sound c.types c.sharing) : c.Steps h bound s (s.opening r depth known) :=
  .head (.begin hd) (.head (.learn hk) (.single .look))

theorem complete_goes (hb : h.size ≤ bound) {n : Nat} {copy : Value → CopyM Value}
    (hcopy : c.Serves h bound n copy) (target : Ref) {script : Script}
    (hs : script.Confined c.types h bound) (hf : c.Fits h bound s) (hr : h.Has r)
    (hi : ¬ c.sharing.Immutable c.types (c.types.describe r.type))
    (hm : s.memo.get? r = none) (hn : s.memo.room h < n + 1) :
    c.Goes h bound s (c.complete copy r target script s) := by
  have hstep : c.Step h bound s (s.recording r target) := .record target hr hi hm
  have hrun := run_goes hb hcopy hs (hstep.fits hb hf) (CopyState.room_recording_lt target hr hm hn)
  rw [complete_apply]
  generalize script.run c.types copy (s.recording r target) = out at hrun
  obtain ⟨res, s'⟩ := out
  cases res with
  | ok _ => exact ⟨by simp, .head hstep hrun.steps⟩
  | error e => exact ⟨fun he => hrun.ends (by rw [Except.error.inj he]), .head hstep hrun.steps⟩

theorem duplicate_goes (ht : c.types.Coherent) (hc : c.types.ClosedOn h) (hb : h.size ≤ bound)
    (hσ : ∀ σ ∈ c.strategies, σ.Confined c.types h bound) {n : Nat} {copy : Value → CopyM Value}
    (hcopy : c.Serves h bound n copy) {depth : Nat} (hd : depth < h.size) (hf : c.Fits h bound s)
    (hr : h.Has r) (hi : ¬ c.sharing.Immutable c.types (c.types.describe r.type))
    (hm : s.memo.get? r = none) (hn : s.memo.room h < n + 1) :
    c.Goes h bound s (c.duplicate copy depth (c.types.describe r.type) r s) := by
  have ⟨o, ho, _⟩ := hr
  have hdup := duplicate_duplication ht hf.known copy depth (hf.keeps.get?_eq_some ho)
  generalize c.duplicate copy depth (c.types.describe r.type) r s = out at hdup
  cases hdup with
  | refused hk => exact ⟨by simp, opening_steps hd hk⟩
  | @byStrategy known σ shell target s' hk hsel hshell hmake =>
    have hopen : c.Steps h bound s (s.opening r depth known) := opening_steps hd hk
    obtain ⟨hsteps, hy, hmemo⟩ := realize_steps (hopen.fits hb hf) hmake
    have hsteps' := hopen.trans hsteps
    have hconf := hσ σ hsel.mem s.heap _ r shell target hf.keeps hr hshell hy
    have hm' : s'.memo.get? r = none := by rw [hmemo]; exact hm
    have hn' : s'.memo.room h < n + 1 := by rw [hmemo]; exact hn
    have hgo := complete_goes hb hcopy target hconf (Steps.fits hsteps' hb hf) hr hi hm' hn'
    exact ⟨hgo.ends, hsteps'.trans hgo.steps⟩
  | @byStructure known o' shell target s' hk hskip ho' hshell hmake =>
    have hopen : c.Steps h bound s (s.opening r depth known) := opening_steps hd hk
    have hmake' : CopyM.realize (.fresh shell) (s.opening r depth known) = (.ok target, s') := hmake
    obtain ⟨hsteps, hy, hmemo⟩ := realize_steps (hopen.fits hb hf) hmake'
    have hsteps' := hopen.trans hsteps
    have hm' : s'.memo.get? r = none := by rw [hmemo]; exact hm
    have hn' : s'.memo.room h < n + 1 := by rw [hmemo]; exact hn
    have hgo := complete_goes hb hcopy target (copyFields_confined hc hr hy.1)
      (Steps.fits hsteps' hb hf) hr hi hm' hn'
    exact ⟨hgo.ends, hsteps'.trans hgo.steps⟩
  | original hk =>
    exact ⟨by simp, (opening_steps hd hk).tail (.record r hr hi hm)⟩

theorem cloneRefWith_goes (ht : c.types.Coherent) (hc : c.types.ClosedOn h) (hb : h.size ≤ bound)
    (hσ : ∀ σ ∈ c.strategies, σ.Confined c.types h bound) {n : Nat} {copy : Value → CopyM Value}
    (hcopy : c.Serves h bound n copy) {depth : Nat} (hd : n + depth ≤ h.size)
    (hf : c.Fits h bound s) (hr : h.Has r) (hn : s.memo.room h < n + 1) :
    c.Goes h bound s (c.cloneRefWith copy depth r s) := by
  have hres := resolve_resolution (s := s.note (.asked r)) ht hf.known copy depth r
  unfold cloneRefWith CopyM.answering
  generalize c.resolve copy depth r (s.note (.asked r)) = out at hres
  cases hres with
  | shared hk hi =>
    have hm : s.memo.get? r = none := by
      cases hm : s.memo.get? r with
      | none => rfl
      | some k => exact absurd hi (hf.memo r k hm).2
    exact ⟨by simp, .head (.ask hm) (.head (.learn hk) (.single (.answer _)))⟩
  | @recalled known k hk hi hm =>
    have hm' : (s.knowing known).memo.get? r = some k := hm
    exact ⟨by simp, .head (.learn hk) (.single (.remind hm'))⟩
  | tooDeep hk hi hm =>
    exact ⟨by simp, .head (.ask hm) (.head (.learn hk) (.single (.answer _)))⟩
  | @duplicated known hk hi hm hl =>
    have hask : c.Steps h bound s ((s.note (.asked r)).knowing known) :=
      .head (.ask hm) (.single (.learn hk))
    have hpos : 0 < s.memo.room h := Memo.room_pos hr hm
    have hgo := duplicate_goes ht hc hb hσ hcopy (by omega : depth < h.size)
      (Steps.fits hask hb hf) hr hi hm hn
    exact ⟨hgo.ends, (hask.trans hgo.steps).tail (.answer _)⟩

/-- A call whose strategies are confined is a chain of steps, and is not cut off as long as its bound
exceeds the number of objects without a recorded copy. -/
theorem cloneWithin_serves (ht : c.types.Coherent) (hc : c.types.ClosedOn h) (hb : h.size ≤ bound)
    (hσ : ∀ σ ∈ c.strategies, σ.Confined c.types h bound) {n depth : Nat}
    (hd : n + depth ≤ h.size + 1) : c.Serves h bound n (c.cloneWithin n depth) := by
  -- a nested request has one step less, and one object less without a recorded copy
  induction n generalizing depth with
  | zero => exact fun v s _ _ hn => absurd hn (by omega)
  | succ n ih =>
    intro v s hv hf hn
    cases v with
    | object r =>
      have hcopy : c.Serves h bound n (c.cloneWithin n (depth + 1)) := ih (by omega)
      have hgo := cloneRefWith_goes ht hc hb hσ hcopy (by omega : n + depth ≤ h.size) hf (hv r rfl) hn
      simp only [cloneWithin, CopyM.bind_apply]
      generalize c.cloneRefWith (c.cloneWithin n (depth + 1)) depth r s = out at hgo
      obtain ⟨res, s'⟩ := out
      cases res with
      | ok k => exact ⟨by simp, hgo.steps⟩
      | error e => exact ⟨fun he => hgo.ends (by rw [Except.error.inj he]), hgo.steps⟩
    | _ => exact ⟨by simp [cloneWithin], .refl⟩

end Setting
end GraphCopy
