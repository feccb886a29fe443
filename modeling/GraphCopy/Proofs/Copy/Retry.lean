import GraphCopy.Proofs.Copy.Abandoned
import GraphCopy.Proofs.Copy.Once

/-!
# Going on after an error

A session serves one request after the other, and keeps what is recorded when
one of them fails. Between two requests every recorded copy mirrors its source
or is abandoned. So a later copy is isomorphic to its source if nothing in
reach of the source is abandoned, and where the source itself is abandoned
the answer is the copy as far as it was filled.

That answer does escape, through a second request of a session as well as
through one call with a strategy of the host that goes on after an error:
`half_filled_list_escapes` is an instance of both.
-/

namespace GraphCopy

theorem Abandoned.mem_recorded {journal : List Event} {r : Ref} (ha : Abandoned journal r) :
    r ∈ journal.filterMap Event.recordedSource? := by
  obtain ⟨later, e, earlier, k, rfl, hk⟩ := ha
  exact List.mem_filterMap.mpr ⟨.recorded r k, by simp [hk], rfl⟩

namespace Memo

open Classical in
noncomputable def restrict (m : Memo) (S : Set Ref) : Memo := ⟨m.kept.filter fun e => e.1 ∈ S⟩

theorem get?_restrict {m : Memo} {S : Set Ref} {r k : Ref} :
    (m.restrict S).get? r = some k ↔ r ∈ S ∧ m.get? r = some k := by
  obtain ⟨kept⟩ := m
  simp only [restrict, get?]
  induction kept with
  | nil => simp
  | cons e rest ih =>
    obtain ⟨q, l⟩ := e
    by_cases hq : q ∈ S
    · simp only [List.filter_cons, hq, decide_true, if_true, List.lookup_cons]
      by_cases hrq : r = q
      · subst hrq
        simp [hq]
      · simp [beq_eq_false_iff_ne.mpr hrq, ih]
    · simp only [List.filter_cons, hq, decide_false, Bool.false_eq_true, if_false, List.lookup_cons, ih]
      by_cases hrq : r = q
      · subst hrq
        simp [hq]
      · simp [beq_eq_false_iff_ne.mpr hrq]

end Memo

namespace Setting

variable {c : Setting} {h : Heap} {s s' : CopyState} {r k : Ref} {v w : Value} {S : Set Ref}

theorem Copied.restrict {m : Memo} (hv : ∀ r, v = .object r → r ∈ S) (hc : c.Copied m v w) :
    c.Copied (m.restrict S) v w := by
  cases hc with
  | plain hp hvw => exact .plain hp hvw
  | shared hi => exact .shared hi
  | recorded hi hm => exact .recorded hi (Memo.get?_restrict.mpr ⟨hv _ rfl, hm⟩)

theorem Sane.restrict (hs : c.Sane h s) (S : Set Ref) :
    c.Sane h { s with memo := s.memo.restrict S } := by
  have hmem : ∀ {r k}, (s.memo.restrict S).get? r = some k → s.memo.get? r = some k :=
    fun hr => (Memo.get?_restrict.mp hr).2
  exact ⟨hs.keeps, hs.known, fun r k hr => hs.source r k (hmem hr),
    fun r k hr => hs.copy r k (hmem hr),
    fun q r k l hq hr => hs.injective q r k l (hmem hq) (hmem hr)⟩

theorem Mirrored.restrict (hm : c.Mirrored h s r k) (hr : h.Has r)
    (hS : ∀ q, .object q ∈ h.shown c.types r → q ∈ S) :
    c.Mirrored h { s with memo := s.memo.restrict S } r k := by
  obtain ⟨o, o', ho, ho', hmir⟩ := hm
  obtain ⟨o₁, ho₁, hot⟩ := hr
  obtain rfl : o₁ = o := Option.some.inj (ho₁.symm.trans ho)
  refine ⟨o₁, o', ho, ho', hmir.type, hmir.component, hmir.shape.imp_of_mem fun v hv w hvw => ?_⟩
  refine hvw.restrict fun q hq => hS q ?_
  simpa only [Heap.shown, Heap.shape, ho, ← hot, ← hq] using hv

structure Settled (c : Setting) (h : Heap) (s : CopyState) : Prop where
  sane : c.Sane h s
  recorded : ∀ r k, s.memo.get? r = some k → c.Mirrored h s r k ∨ Abandoned s.journal r

theorem Settled.start {known : Knowledge} (hk : known.Sound c.types c.sharing)
    (journal : List Event) : c.Settled h ⟨h, known, .empty, journal⟩ :=
  ⟨.start hk journal, fun r k hr => by simp [Memo.empty, Memo.get?] at hr⟩

theorem Settles.settled_of (hc : c.Settles h s.heap.size s s') (hs : c.Settled h s) :
    c.Settled h s' := by
  refine ⟨hc.sane, fun r k hk => ?_⟩
  cases hr : s.memo.get? r with
  | none => exact hc.settled r k hk hr
  | some l =>
    obtain rfl : l = k := Option.some.inj ((hc.grows r l hr).symm.trans hk)
    have hlt := (hs.sane.copy r l hr).1.address_lt
    exact (hs.recorded r l hr).imp (·.mono (hc.keeps.get?_eq l hlt) hc.grows) (·.mono hc.logs)

def serve (c : Setting) (requests : List Value) (s : CopyState) : CopyState :=
  requests.foldl (fun s v => (c.cloneValue v s).2) s

variable {path : TypeId → String} {layouts : Nat → Layout}

theorem serve_settled (hc : c.Plain) (ht : c.types.Coherent)
    (hp : c.types.PlainRecords path layouts h) (hw : h.WellFormed layouts) {requests : List Value}
    (hr : ∀ v ∈ requests, h.Holds v) (hs : c.Settled h s) : c.Settled h (c.serve requests s) := by
  induction requests generalizing s with
  | nil => exact hs
  | cons v rest ih =>
    have hv := cloneWithin_settles hc ht hp hw (s.heap.size + 1) 0 v s (hr v (by simp)) hs.sane
    exact ih (fun u hu => hr u (by simp [hu])) (hv.settled_of hs)

/-- A copy that is answered is isomorphic to its source, unless something in reach was abandoned
before. -/
theorem Settled.isomorphism (hc : c.Plain) (hplain : c.sharing = .plain) (ht : c.types.Coherent)
    (hp : c.types.PlainRecords path layouts h) (hw : h.WellFormed layouts) (hs : c.Settled h s)
    (hv : h.Holds v) (hrun : c.cloneValue v s = (.ok w, s'))
    (hclear : ∀ r, h.Reaches c.types v r → ¬ Abandoned s.journal r) :
    ∃ φ, h.Isomorphism c.types c.sharing s'.heap v w φ := by
  have hclosed := hp.closedOn hw
  obtain ⟨hcarry, hcop⟩ :=
    cloneWithin_answers hc ht hp hw (s.heap.size + 1) 0 v s w s' hv hs.sane hrun
  have hmir : ∀ r k, h.Reaches c.types v r → s'.memo.get? r = some k → c.Mirrored h s' r k := by
    intro r k hr hk
    cases hold : s.memo.get? r with
    | none => exact hcarry.mirrored r k hk hold
    | some l =>
      obtain rfl : l = k := Option.some.inj ((hcarry.grows r l hold).symm.trans hk)
      have hlt := (hs.sane.copy r l hold).1.address_lt
      refine ((hs.recorded r l hold).resolve_right (hclear r hr)).mono ?_ hcarry.grows
      exact hcarry.keeps.get?_eq l hlt
  -- what lies out of reach may be abandoned, so only the reach of the source is looked at
  have hf : c.Finished h { s' with memo := s'.memo.restrict {r | h.Reaches c.types v r} } := by
    refine ⟨hcarry.sane.restrict _, hclosed, fun r k hk => ?_, fun q r hq hi hr => ?_⟩
    · obtain ⟨hr, hk⟩ := Memo.get?_restrict.mp hk
      exact (hmir r k hr hk).restrict (Heap.Reaches.has hclosed hv hr) fun q hq =>
        Heap.Reaches.step hr hq
    · rw [hplain] at hi ⊢
      exact hp.immutable_of_shown hw hq hi hr
  exact ⟨_, hf.isomorphism hv (hcop.restrict fun r hr => .root hr)⟩

/-- A source that has a copy is answered with it at once, finished or not. -/
theorem cloneValue_recorded (ht : c.types.Coherent) (hs : c.Sane h s)
    (hk : s.memo.get? r = some k) :
    ∃ s', c.cloneValue (.object r) s = (.ok (.object k), s') ∧ s'.heap = s.heap := by
  have hres := resolve_resolution ht (s := s.note (.asked r)) hs.known
    (c.cloneWithin s.heap.size 1) 0 r
  simp only [cloneValue, CopyM.bind_apply, CopyM.get_apply, cloneWithin, cloneRefWith,
    CopyM.answering]
  generalize c.resolve (c.cloneWithin s.heap.size 1) 0 r (s.note (.asked r)) = out at hres
  cases hres with
  | shared _ hi => exact absurd hi (hs.source r k hk).2
  | recalled _ _ hm =>
    obtain rfl := Option.some.inj (hm.symm.trans hk)
    exact ⟨_, rfl, rfl⟩
  | tooDeep _ _ hm => exact absurd (hm.symm.trans hk) (by simp)
  | duplicated _ _ hm => exact absurd (hm.symm.trans hk) (by simp)

/-- After any requests, a copy that is answered is isomorphic to its source if nothing in reach of the
source was abandoned; and what is recorded, whether it mirrors its source or is abandoned, is the answer
to a request for the source. -/
theorem cloneValue_after_requests (hc : c.Plain) (hplain : c.sharing = .plain)
    (ht : c.types.Coherent) (hp : c.types.PlainRecords path layouts h) (hw : h.WellFormed layouts)
    {known : Knowledge} (hk : known.Sound c.types c.sharing) {requests : List Value}
    (hr : ∀ v ∈ requests, h.Holds v) :
    let s := c.serve requests ⟨h, known, .empty, []⟩
    (∀ v w s', h.Holds v → c.cloneValue v s = (.ok w, s') →
      (∀ r, h.Reaches c.types v r → ¬ Abandoned s.journal r) →
        ∃ φ, h.Isomorphism c.types c.sharing s'.heap v w φ) ∧
    ∀ r k, s.memo.get? r = some k → (c.Mirrored h s r k ∨ Abandoned s.journal r) ∧
      ∃ s', c.cloneValue (.object r) s = (.ok (.object k), s') ∧ s'.heap = s.heap := by
  intro s
  have hs : c.Settled h s := serve_settled hc ht hp hw hr (.start hk [])
  exact ⟨fun v w s' hv hrun hclear => hs.isomorphism hc hplain ht hp hw hv hrun hclear,
    fun r k hrk => ⟨hs.recorded r k hrk, cloneValue_recorded ht hs.sane hrk⟩⟩

def socketSpecs : Specs where
  hosts := [{ TypeSpec.bare "Socket" "Socket" with fields := [.plain "peer" .value] }]
  containerPath := ""

/-- A socket, a list that holds it after a number, a list that holds itself, and an array that holds
the first list twice. -/
def socketHeap : Heap :=
  ⟨#[.host 0 [.value .null] [], .list [.int 1, .object ⟨.host 0, 0⟩],
    .list [.int 5, .object ⟨.list, 2⟩],
    .array ⟨.dynamic, [.object ⟨.list, 1⟩, .object ⟨.list, 1⟩]⟩], 1⟩

def socketSetting : Setting := ⟨socketSpecs.types, .standard, .plain, .builtin⟩

theorem socketHeap_wellFormed : socketHeap.WellFormed socketSpecs.layout := by
  refine ⟨by decide, fun o ho => ?_⟩
  simp only [socketHeap, List.mem_cons, List.not_mem_nil, or_false] at ho
  rcases ho with rfl | rfl | rfl | rfl
  · intro place hplace
    obtain rfl : place = (0, .value) := by
      simpa [socketSpecs, Specs.layout, placesFrom, FieldSpec.plain] using hplace
    exact ⟨_, rfl, trivial⟩
  · trivial
  · trivial
  · trivial

def socketSession : CopyState :=
  socketSetting.serve [.object ⟨.list, 1⟩] ⟨socketHeap, .empty, .empty, []⟩

theorem socketHeap_clear {r : Ref} (hr : socketHeap.Reaches socketSpecs.types (.object ⟨.list, 2⟩) r) :
    ¬ Abandoned socketSession.journal r := by
  have hself : r = ⟨.list, 2⟩ := by
    refine hr.closed (S := (· = ⟨.list, 2⟩)) (fun r hr => (Value.object.inj hr).symm) ?_
    rintro q rfl r hr
    simpa [Heap.shown, Heap.shape, Heap.get?, socketHeap, shapeOf, Object.array?, Object.type,
      Types.info, Collection.ofLists, Object.listItems, Shape.values] using hr
  have hnot : (⟨.list, 2⟩ : Ref) ∉ socketSession.journal.filterMap Event.recordedSource? := by
    decide +kernel
  exact hself ▸ fun ha => hnot ha.mem_recorded

theorem cloneValue_socketHeap :
    (socketSetting.cloneValue (.object ⟨.list, 2⟩) socketSession).1 = .ok (.object ⟨.list, 5⟩) := by
  decide +kernel

theorem cloneValue_after_failed_list :
    let call := socketSetting.cloneValue (.object ⟨.list, 2⟩) socketSession
    socketSession.memo.get? ⟨.list, 1⟩ = some ⟨.list, 4⟩ ∧ call.1 = .ok (.object ⟨.list, 5⟩) ∧
      ∃ φ, socketHeap.Isomorphism socketSpecs.types .plain call.2.heap (.object ⟨.list, 2⟩)
        (.object ⟨.list, 5⟩) φ := by
  intro call
  have hk : Knowledge.empty.Sound socketSpecs.types .plain :=
    Knowledge.sound_of_no_verdicts (DescriptorCache.faithful_empty _)
  have hr : ∀ v ∈ [Value.object ⟨.list, 1⟩], socketHeap.Holds v := by decide
  have hmain := cloneValue_after_requests (c := socketSetting) ⟨rfl, rfl⟩ rfl
    socketSpecs.types_coherent (Specs.plainRecords (h := socketHeap) (by decide))
    socketHeap_wellFormed hk hr
  have hiso := hmain.1 _ _ _ (by decide) (Prod.ext cloneValue_socketHeap rfl) fun r hr =>
    socketHeap_clear hr
  exact ⟨by decide +kernel, cloneValue_socketHeap, hiso⟩

/-- Copies arrays item by item; an item whose copy fails stays null. -/
def tolerantArray : Strategy :=
  { Strategy.array with
    fill := fun _ source target => .look fun h _ =>
      match Strategy.arrayAt h source with
      | none => .done
      | some a => Script.each (fun item rest => .copy item.1 fun
          | .ok w => .edit target (Strategy.setItem item.2 w) rest
          | .error _ => rest) a.items.zipIdx }

/-- The list cannot be copied. A second request for it is answered with a list that lacks the socket;
and a call answers with an array that holds such a list, if arrays are copied by a strategy that goes on
after an error. -/
theorem half_filled_list_escapes :
    let list : Ref := ⟨.list, 1⟩
    let first := socketSetting.cloneValue (.object list) ⟨socketHeap, .empty, .empty, []⟩
    let second := socketSetting.cloneValue (.object list) first.2
    let call := ((Cloner.create .standard).addStrategy tolerantArray .first).deepClone
      socketSpecs.types socketHeap .empty (.object ⟨.array, 3⟩)
    socketHeap.get? list = some (.list [.int 1, .object ⟨.host 0, 0⟩]) ∧
    (∃ e, first.1 = .error (.failed e)) ∧
    second.1 = .ok (.object ⟨.list, 4⟩) ∧ second.2.heap.get? ⟨.list, 4⟩ = some (.list [.int 1]) ∧
    call.1 = .ok (.object ⟨.array, 4⟩) ∧
    call.2.heap.get? ⟨.array, 4⟩ = some (.array ⟨.dynamic, [.null, .object ⟨.list, 5⟩]⟩) ∧
    call.2.heap.get? ⟨.list, 5⟩ = some (.list [.int 1]) := by
  refine ⟨by decide, ⟨.instantiation "Socket" ("no accessible no-arg or copy constructor; "
    ++ "serialization fallback failed: type is not serializable"), ?_⟩, ?_, ?_, ?_, ?_, ?_⟩ <;>
  decide +kernel

end Setting
end GraphCopy
