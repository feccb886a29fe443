import GraphCopy.Proofs.Copy.Answers
import GraphCopy.Proofs.Copy.Conduct

/-!
# What holds throughout a call

A call with the built-in strategies asks only for what is in reach of its
root, begins to duplicate an object only if it is mutable and has no recorded
copy, and answers with a recorded copy or with an immutable object itself. A
statement on the state and the number of objects in the course of being
duplicated that is handed on by these steps is an invariant;
`Invariant.cloneWithin` says that it holds at the end of every request at the
start of which it does.
-/

namespace GraphCopy

inductive Heap.Offers (types : Types) (h : Heap) (q : Ref) (v : Value) : Prop
  | shown (hv : v ∈ h.shown types q)
  | field {o f tick} (hs : types.ShowsFields q.type) (ho : h.get? q = some o)
      (hf : f ∈ (types.describe q.type).instanceFields) (hv : f.get o tick = .ok v)

inductive Heap.Attains (types : Types) (h : Heap) (v : Value) : Ref → Prop
  | root {r : Ref} (hv : v = .object r) : Attains types h v r
  | step {q r : Ref} (hq : Attains types h v q) (hr : h.Offers types q (.object r)) :
      Attains types h v r

namespace Heap

variable {types : Types} {h : Heap} {v : Value} {q r : Ref}

theorem Offers.holds (hc : types.ClosedOn h) (hq : h.Has q) (ho : h.Offers types q v) :
    h.Holds v := by
  cases ho with
  | shown hv => exact holds_of_mem_shown hc hq hv
  | @field o f tick _ ho hf hv =>
    obtain ⟨o', ho', hot⟩ := hq
    obtain rfl : o' = o := Option.some.inj (ho'.symm.trans ho)
    exact hc.fields q o' ho f (hot ▸ hf) tick v hv

theorem Attains.has (hc : types.ClosedOn h) (hv : h.Holds v) (hr : h.Attains types v r) :
    h.Has r := by
  induction hr with
  | root hr => exact hv _ hr
  | step _ hr ih => exact hr.holds hc ih _ rfl

/-- Where the object that a field reads is the same at all moments, this is what is in reach. -/
theorem attains_iff_reaches (hc : types.ClosedOn h) (hv : h.Holds v)
    (hread : ∀ q o, h.get? q = some o → ∀ f ∈ (types.describe q.type).instanceFields, ∀ tick p,
      f.get o tick = .ok (.object p) → f.get o 0 = .ok (.object p)) :
    h.Attains types v r ↔ h.Reaches types v r := by
  constructor
  · intro hr
    induction hr with
    | root hr => exact .root hr
    | @step q r hq hr ih =>
      apply ih.step
      cases hr with
      | shown hr => exact hr
      | @field o f tick hs ho hf hget =>
        obtain ⟨o', ho', hot⟩ := hq.has hc hv
        obtain rfl : o' = o := Option.some.inj (ho'.symm.trans ho)
        obtain ⟨i, hi⟩ := Types.host_of_mem_instanceFields hf
        rw [hs.mem_shown ho hot (Object.array?_of_host (hot.trans hi))]
        exact ⟨f, hf, hread q o' ho f hf tick r hget⟩
  · intro hr
    induction hr with
    | root hr => exact .root hr
    | step _ hr ih => exact ih.step (.shown hr)

end Heap

namespace Setting

variable {c : Setting} {h : Heap} {root v : Value} {r target : Ref} {s s' : CopyState}

/-- No instance can be made of the source, and it may be shared instead. -/
def ReturnsOriginal (c : Setting) (h : Heap) (r : Ref) : Prop :=
  c.options.shareSource = true ∧ ∃ o tick, h.get? r = some o ∧
    c.structuralShell (c.types.describe r.type) tick o = .ok none

structure Due (c : Setting) (h : Heap) (root : Value) (s : CopyState) (r : Ref) : Prop where
  attained : h.Attains c.types root r
  has : h.Has r
  mutable : ¬ c.sharing.Immutable c.types (c.types.describe r.type)
  unrecorded : s.memo.get? r = none

def MayCopy (c : Setting) (h : Heap) (s : CopyState) (r k : Ref) : Prop :=
  (k = r ∧ c.ReturnsOriginal h r) ∨ (h.size ≤ k.address ∧ k.address < s.heap.size)

structure Invariant (c : Setting) (h : Heap) (root : Value) (I : Nat → CopyState → Prop) : Prop where
  keeps : ∀ {depth s}, I depth s → h.Keeps h.size s.heap
  known : ∀ {depth s}, I depth s → s.known.Sound c.types c.sharing
  heap : ∀ {depth s h'}, I depth s → s.heap.Keeps h.size h' → I depth (s.withHeap h')
  learn : ∀ {depth s known}, I depth s → known.Sound c.types c.sharing → I depth (s.knowing known)
  ask : ∀ {depth s r}, I depth s → I depth (s.note (.asked r))
  begin : ∀ {depth s r}, I depth s → c.Due h root s r → I depth (s.note (.opened r depth))
  record : ∀ {depth s r k}, I depth s → c.Due h root s r → c.MayCopy h s r k →
    I (depth + 1) (s.recording r k)
  leave : ∀ {depth s}, I (depth + 1) s → I depth s
  answer : ∀ {depth s r answer}, I depth s → h.Has r →
    (∀ k, answer = .ok k → c.Copied s.memo (.object r) (.object k)) →
    I depth (s.note (.answered r answer))

abbrev Askable (c : Setting) (h : Heap) (root v : Value) : Prop :=
  ∀ q, v = .object q → h.Attains c.types root q

structure Upheld (J : CopyState → Prop) (s s' : CopyState) : Prop where
  holds : J s'
  grows : s.memo.Extends s'.memo

structure Replies (c : Setting) (J : CopyState → Prop) (v : Value) (s : CopyState)
    (out : Except Halt Value × CopyState) : Prop where
  upheld : Upheld J s out.2
  copied : ∀ w, out.1 = .ok w → c.Copied out.2.memo v w

abbrev Upholds (c : Setting) (h : Heap) (root : Value) (J : CopyState → Prop)
    (copy : Value → CopyM Value) : Prop :=
  ∀ v s, c.Askable h root v → J s → c.Replies J v s (copy v s)

structure Records (J : CopyState → Prop) (r : Ref) (s : CopyState)
    (out : Except Halt Ref × CopyState) : Prop where
  upheld : Upheld J s out.2
  recorded : ∀ k, out.1 = .ok k → out.2.memo.get? r = some k

theorem Upheld.trans {J : CopyState → Prop} {t : CopyState} (h₁ : Upheld J s s')
    (h₂ : Upheld J s' t) : Upheld J s t :=
  ⟨h₂.holds, h₁.grows.trans h₂.grows⟩

theorem fill_askable (hr : h.Attains c.types root r) (hhas : h.Has r)
    (hi : ¬ c.sharing.Immutable c.types (c.types.describe r.type)) {h' : Heap} {σ : Strategy}
    (hσ : Registry.builtin.Selects c.types c.sharing h' r σ) (hb : h.size ≤ target.address) :
    (σ.fill c.types r target).Proper (fun h' => h.Keeps h.size h') h.size (c.Askable h root) := by
  have hstep : ∀ v, h.Offers c.types r v → c.Askable h root v := by
    rintro v hv q rfl
    exact hr.step hv
  have hsame : ∀ {h' : Heap} {o : Object}, h.Keeps h.size h' → h'.get? r = some o →
      h.get? r = some o := fun hk ho => (hk.get?_eq r hhas.address_lt).symm.trans ho
  have htype : ∀ {o : Object}, h.get? r = some o → o.type = r.type := by
    intro o ho
    obtain ⟨o', ho', hot⟩ := hhas
    exact Option.some.inj (ho'.symm.trans ho) ▸ hot
  rcases Registry.builtin_cases hi hσ with ⟨-, rfl⟩ | ⟨f, -, rfl⟩ | ⟨hne, -, col, hcol, rfl⟩ |
    ⟨hne, -, hcol, m, hmap, rfl⟩
  · apply Strategy.array_proper hb
    intro h' a hk ha v hv
    have ho := hsame hk (Strategy.arrayAt_eq_some.mp ha).2
    apply hstep
    apply Heap.Offers.shown
    rwa [Heap.shown_array ho]
  · exact .done
  · apply Strategy.collection_proper hb
    intro h' o col' hk ho hcol' v hv
    have ho := hsame hk ho
    apply hstep
    apply Heap.Offers.shown
    rwa [Heap.shown_collection ho (htype ho ▸ hne) (htype ho ▸ hcol')]
  · apply Strategy.map_proper hb
    intro h' o m' hk ho hmap' e he
    have ho := hsame hk ho
    have hshown := Heap.shown_map ho (htype ho ▸ hne) (htype ho ▸ hcol) (htype ho ▸ hmap')
    have hmem : ∀ v, v = e.1 ∨ v = e.2 → c.Askable h root v := by
      intro v hv
      apply hstep
      apply Heap.Offers.shown
      rw [hshown]
      exact List.mem_flatMap.mpr ⟨e, he, by simpa using hv⟩
    exact ⟨hmem _ (.inl rfl), hmem _ (.inr rfl)⟩

namespace Invariant

variable {I : Nat → CopyState → Prop} (hI : c.Invariant h root I) {depth : Nat}
  {copy : Value → CopyM Value}

include hI

theorem realize {shell : Shell} (hs : I depth s) (hmake : CopyM.realize shell s = (.ok target, s')) :
    I depth s' ∧ s'.memo = s.memo := by
  induction shell generalizing s with
  | existing r =>
    cases hmake
    exact ⟨hs, rfl⟩
  | fresh o =>
    cases hmake
    exact ⟨hI.heap hs (Heap.keeps_alloc (hI.keeps hs).size_le o), rfl⟩
  | part o next ih =>
    have hnext := hI.heap hs (Heap.keeps_alloc (hI.keeps hs).size_le o)
    exact ih (s.heap.alloc o).1 (s := s.withHeap (s.heap.alloc o).2) hnext hmake

theorem run (hcopy : c.Upholds h root (I depth) copy) {script : Script}
    (hp : script.Proper (fun h' => h.Keeps h.size h') h.size (c.Askable h root)) (hs : I depth s) :
    Upheld (I depth) s (script.run c.types copy s).2 := by
  induction hp generalizing s with
  | done => exact ⟨hs, .refl _⟩
  | fail _ => exact ⟨hs, .refl _⟩
  | look _ ih =>
    have hrest := ih s.heap s.heap.clock (hI.keeps hs) (hI.heap hs (Heap.keeps_tick _ _))
    exact ⟨hrest.holds, hrest.grows⟩
  | @put target o next ht _ ih =>
    have hrest := ih (hI.heap hs (Heap.keeps_put ht o))
    exact ⟨hrest.holds, hrest.grows⟩
  | @copy v next hv _ herr hdeep ih =>
    have hv := (hcopy v s hv hs).upheld
    simp only [Script.run]
    generalize copy v s = out at hv
    obtain ⟨answer, t⟩ := out
    cases answer with
    | ok w => exact hv.trans (ih w hv.holds)
    | error e =>
      cases e with
      | cutOff => exact hv
      | failed e =>
        obtain ⟨e', hfail⟩ := Script.exists_fail herr hdeep e
        dsimp only
        rw [hfail]
        exact hv

omit hI in
theorem selects_holds {types : Types} {sharing : SharingRules} {rs : Registry} {σ : Strategy}
    (hσ : rs.Selects types sharing h r σ) : σ.guard.Holds types sharing h r := by
  induction hσ with
  | here hs => exact hs
  | later _ _ ih => exact ih

theorem complete (hcopy : c.Upholds h root (I (depth + 1)) copy) {script : Script}
    (hp : script.Proper (fun h' => h.Keeps h.size h') h.size (c.Askable h root)) (hs : I depth s')
    (hm : s'.memo = s.memo) (hr : c.Due h root s r) (hk : c.MayCopy h s' r target) :
    Records (I depth) r s (c.complete copy r target script s') := by
  have hr' : c.Due h root s' r := ⟨hr.attained, hr.has, hr.mutable, hm ▸ hr.unrecorded⟩
  have hrun := hI.run hcopy hp (hI.record hs hr' hk)
  have hrec : s.memo.Extends (s'.recording r target).memo := by
    rw [CopyState.recording_memo, hm]
    exact Memo.extends_put hr.unrecorded target
  have hkeep := hrun.grows r target (Memo.get?_put_self _ _ _)
  rw [complete_apply]
  generalize script.run c.types copy (s'.recording r target) = out at hrun hkeep
  obtain ⟨answer, t⟩ := out
  cases answer with
  | ok _ =>
    refine ⟨⟨hI.leave hrun.holds, hrec.trans hrun.grows⟩, ?_⟩
    rintro _ ⟨⟩
    exact hkeep
  | error e => exact ⟨⟨hI.leave hrun.holds, hrec.trans hrun.grows⟩, nofun⟩

theorem duplicate (ht : c.types.Coherent) (hc : c.strategies = .builtin)
    (hcopy : c.Upholds h root (I (depth + 1)) copy) (hs : I depth s) (hr : c.Due h root s r) :
    Records (I depth) r s (c.duplicate copy depth (c.types.describe r.type) r s) := by
  have ⟨o, ho, _⟩ := hr.has
  have hdup := duplicate_duplication ht (hI.known hs) copy depth ((hI.keeps hs).get?_eq_some ho)
  have hopen : ∀ {known}, known.Sound c.types c.sharing → I depth (s.opening r depth known) :=
    fun hk => hI.heap (hI.learn (hI.begin hs hr) hk) (Heap.keeps_tick _ _)
  have hnew : ∀ {known o target s'}, known.Sound c.types c.sharing →
      CopyM.realize (.fresh o) (s.opening r depth known) = (.ok target, s') →
      h.size ≤ target.address ∧ target.address < s'.heap.size := by
    rintro known o target s' hk hmake
    cases hmake
    exact ⟨(hI.keeps (hopen hk)).size_le, (Heap.has_alloc _ o).address_lt⟩
  generalize c.duplicate copy depth (c.types.describe r.type) r s = out at hdup
  cases hdup with
  | refused hk => exact ⟨⟨hopen hk, .refl _⟩, nofun⟩
  | @byStrategy known σ shell target s' hk hσ hshell hmake =>
    obtain ⟨hs', hm⟩ := hI.realize (hopen hk) hmake
    rw [hc] at hσ
    rcases Strategy.builtin_fresh hσ.mem hshell with rfl | ⟨o', rfl⟩
    · exact absurd (selects_holds hσ) hr.mutable
    · have htarget := hnew hk hmake
      exact hI.complete hcopy (fill_askable hr.attained hr.has hr.mutable hσ htarget.1) hs' hm hr
        (.inr htarget)
  | @byStructure known o' shell target s' hk hskip ho' hshell hmake =>
    have hmake' : CopyM.realize (.fresh shell) (s.opening r depth known) = (.ok target, s') := hmake
    obtain ⟨hs', hm⟩ := hI.realize (hopen hk) hmake'
    have hm : s'.memo = s.memo := hm
    have htarget := hnew hk hmake'
    rw [hc] at hskip
    have hshows := (Registry.showsFields_of_builtin_skips hskip).2
    apply hI.complete hcopy _ hs' hm hr (.inr htarget)
    apply copyFields_proper htarget.1
    rintro h' o' hk' ho' f hf tick v hv q rfl
    have ho := (hk'.get?_eq r hr.has.address_lt).symm.trans ho'
    exact hr.attained.step (.field hshows ho hf hv)
  | @original known o' hk hskip ho' hshell =>
    have hshare := shareSource_of_structuralShell hshell
    have ho := ((hI.keeps hs).get?_eq r hr.has.address_lt).symm.trans ho'
    exact hI.complete hcopy .done (hopen hk) rfl hr (.inl ⟨rfl, hshare, o', _, ho, hshell⟩)

theorem cloneRefWith (ht : c.types.Coherent) (hc : c.strategies = .builtin)
    (hcopy : c.Upholds h root (I (depth + 1)) copy) (hr : h.Attains c.types root r) (hhas : h.Has r)
    (hs : I depth s) :
    let out := c.cloneRefWith copy depth r s
    Upheld (I depth) s out.2 ∧ ∀ k, out.1 = .ok k → c.Copied out.2.memo (.object r) (.object k) := by
  have hask : I depth (s.note (.asked r)) := hI.ask hs
  suffices hres : let out := c.resolve copy depth r (s.note (.asked r))
      Upheld (I depth) s out.2 ∧
        ∀ k, out.1 = .ok k → c.Copied out.2.memo (.object r) (.object k) from
    ⟨⟨hI.answer hres.1.holds hhas hres.2, hres.1.grows⟩, hres.2⟩
  have hres := resolve_resolution ht (hI.known hask) copy depth r
  generalize c.resolve copy depth r (s.note (.asked r)) = out at hres
  cases hres with
  | shared hk hi =>
    refine ⟨⟨hI.learn hask hk, .refl _⟩, ?_⟩
    rintro _ ⟨⟩
    exact .shared hi
  | recalled hk hi hm =>
    refine ⟨⟨hI.learn hask hk, .refl _⟩, ?_⟩
    rintro _ ⟨⟩
    exact .recorded hi hm
  | tooDeep hk _ _ _ _ => exact ⟨⟨hI.learn hask hk, .refl _⟩, nofun⟩
  | duplicated hk hi hm _ =>
    have hdup := hI.duplicate ht hc hcopy (hI.learn hask hk) ⟨hr, hhas, hi, hm⟩
    exact ⟨⟨hdup.upheld.holds, hdup.upheld.grows⟩, fun k hk => .recorded hi (hdup.recorded k hk)⟩

omit hI in
theorem replies_plain {J : CopyState → Prop} (hv : v.object? = none) (hs : J s) (fuel depth : Nat) :
    c.Replies J v s (c.cloneWithin fuel depth v s) := by
  have hrun : c.cloneWithin fuel depth v s = (.ok v, s) := by
    cases v with
    | object r => cases hv
    | _ => cases fuel <;> rfl
  rw [hrun]
  refine ⟨⟨hs, .refl _⟩, ?_⟩
  rintro _ ⟨⟩
  exact .plain hv (.refl _)

/-- Requests for what is in reach of the root, however deep they are nested, uphold an invariant, and are
answered with copies. -/
theorem cloneWithin (ht : c.types.Coherent) (hc : c.strategies = .builtin)
    (hclosed : c.types.ClosedOn h) (hroot : h.Holds root) (fuel depth : Nat) :
    c.Upholds h root (I depth) (c.cloneWithin fuel depth) := by
  induction fuel generalizing depth with
  | zero =>
    intro v s hv hs
    cases v with
    | object r =>
      refine ⟨⟨hs, .refl _⟩, fun w hw => ?_⟩
      cases hw
    | _ => exact replies_plain rfl hs _ _
  | succ fuel ih =>
    intro v s hv hs
    cases v with
    | object r =>
      have hr := hv r rfl
      have hreply := hI.cloneRefWith ht hc (ih (depth + 1)) hr (hr.has hclosed hroot) hs
      simp only [Setting.cloneWithin, CopyM.bind_apply]
      generalize c.cloneRefWith (c.cloneWithin fuel (depth + 1)) depth r s = out at hreply
      obtain ⟨answer, t⟩ := out
      refine ⟨?_, fun w hw => ?_⟩
      · cases answer <;> exact hreply.1
      · cases answer with
        | error e => cases hw
        | ok k =>
          cases hw
          exact hreply.2 k rfl
    | _ => exact replies_plain rfl hs _ _

end Invariant
end Setting
end GraphCopy
