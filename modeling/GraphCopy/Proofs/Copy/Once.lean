import GraphCopy.Proofs.Copy.Discipline

/-!
# Every source is copied once

The journal of a call is orderly: a source gets a copy at most once, a request
that comes after that is answered at once with that copy, also while the copy
is being filled, and what is recorded in the end is what was recorded then.

The steps of a call keep the journal so. The strategies may be built-in ones
and any strategies of the host, as long as a script of the host asks only for
what existed before the call and changes only what was made during it.
-/

namespace GraphCopy

def Event.recordedSource? : Event → Option Ref
  | .recorded source _ => some source
  | _ => none

/-- A request for a source that has a copy is answered at once with it. The latest event comes
first. -/
def AnswersLater (journal : List Event) : Prop :=
  ∀ later earlier source copy, journal = later ++ .asked source :: earlier →
    .recorded source copy ∈ earlier → later.getLast? = some (.answered source (.ok copy))

structure Orderly (h : Heap) (journal : List Event) (memo : Memo) : Prop where
  once : (journal.filterMap Event.recordedSource?).Nodup
  answers : AnswersLater journal
  memo_iff : ∀ source copy, memo.get? source = some copy ↔ .recorded source copy ∈ journal
  depth_lt : ∀ source depth, .opened source depth ∈ journal → depth < h.size

theorem AnswersLater.cons {journal : List Event} {e : Event} (hj : AnswersLater journal)
    (he : ∀ source copy, e = .asked source → .recorded source copy ∉ journal) :
    AnswersLater (e :: journal) := by
  intro later earlier source copy hsplit hrec
  -- the new event is the request itself, or stands before an answer that is there already
  cases later with
  | nil =>
    obtain ⟨rfl, rfl⟩ := List.cons.inj hsplit
    exact absurd hrec (he source copy rfl)
  | cons e' later =>
    obtain ⟨-, hsplit⟩ := List.cons.inj hsplit
    have hlast := hj later earlier source copy hsplit hrec
    rw [List.getLast?_cons, hlast]
    rfl

theorem AnswersLater.remind {journal : List Event} {source copy : Ref} (hj : AnswersLater journal)
    (hcopy : ∀ k, .recorded source k ∈ journal → k = copy) :
    AnswersLater (.answered source (.ok copy) :: .asked source :: journal) := by
  intro later earlier r k hsplit hrec
  rcases later with - | ⟨e, - | ⟨e', later⟩⟩
  · simp at hsplit
  · simp only [List.cons_append, List.nil_append, List.cons.injEq, Event.asked.injEq] at hsplit
    obtain ⟨rfl, rfl, rfl⟩ := hsplit
    rw [hcopy k hrec]
    rfl
  · simp only [List.cons_append, List.cons.injEq] at hsplit
    obtain ⟨rfl, rfl, hsplit⟩ := hsplit
    have hlast := hj later earlier r k hsplit hrec
    simp [List.getLast?_cons, hlast]

namespace Orderly

variable {h : Heap} {journal : List Event} {memo : Memo}

theorem start (h : Heap) : Orderly h [] .empty := by
  refine ⟨List.nodup_nil, ?_, by simp [Memo.get?, Memo.empty], by simp⟩
  intro later earlier source copy hsplit
  simp at hsplit

theorem answer (ho : Orderly h journal memo) (source : Ref) (answer : Except Halt Ref) :
    Orderly h (.answered source answer :: journal) memo := by
  refine ⟨ho.once, ho.answers.cons (by simp), ?_, ?_⟩
  · simpa using ho.memo_iff
  · simpa using ho.depth_lt

theorem ask (ho : Orderly h journal memo) {source : Ref} (hm : memo.get? source = none) :
    Orderly h (.asked source :: journal) memo := by
  refine ⟨ho.once, ho.answers.cons ?_, ?_, ?_⟩
  · rintro r k hr hrec
    cases hr
    rw [(ho.memo_iff source k).mpr hrec] at hm
    cases hm
  · simpa using ho.memo_iff
  · simpa using ho.depth_lt

theorem remind (ho : Orderly h journal memo) {source copy : Ref}
    (hm : memo.get? source = some copy) :
    Orderly h (.answered source (.ok copy) :: .asked source :: journal) memo := by
  refine ⟨ho.once, ho.answers.remind fun k hk => ?_, ?_, ?_⟩
  · have hsame := (ho.memo_iff source k).mpr hk
    rw [hm] at hsame
    exact (Option.some.inj hsame).symm
  · simpa using ho.memo_iff
  · simpa using ho.depth_lt

theorem begin (ho : Orderly h journal memo) (source : Ref) {depth : Nat} (hd : depth < h.size) :
    Orderly h (.opened source depth :: journal) memo := by
  refine ⟨ho.once, ho.answers.cons (by simp), ?_, ?_⟩
  · simpa using ho.memo_iff
  · intro r d hr
    rcases List.mem_cons.mp hr with hr | hr
    · cases hr
      exact hd
    · exact ho.depth_lt r d hr

theorem record (ho : Orderly h journal memo) {source : Ref} (copy : Ref)
    (hm : memo.get? source = none) :
    Orderly h (.recorded source copy :: journal) (memo.put source copy) := by
  have hnew : ∀ k, .recorded source k ∉ journal := by
    intro k hk
    rw [(ho.memo_iff source k).mpr hk] at hm
    cases hm
  refine ⟨?_, ho.answers.cons (by simp), fun r k => ?_, by simpa using ho.depth_lt⟩
  · have hnot : source ∉ journal.filterMap Event.recordedSource? := by
      intro hmem
      obtain ⟨e, he, hes⟩ := List.mem_filterMap.mp hmem
      cases e with
      | recorded r k =>
        cases hes
        exact hnew k he
      | _ => cases hes
    exact List.nodup_cons.mpr ⟨hnot, ho.once⟩
  · rw [Memo.get?_put]
    split_ifs with hr
    · subst hr
      simp [hnew, eq_comm]
    · simp [hr, ho.memo_iff]

end Orderly

namespace Setting

variable {c : Setting} {h : Heap} {bound : Nat} {s s' : CopyState}

theorem Step.orderly (hs : c.Step h bound s s') (ho : Orderly h s.journal s.memo) :
    Orderly h s'.journal s'.memo := by
  cases hs with
  | remind hm => exact ho.remind hm
  | ask hm => exact ho.ask hm
  | begin hd => exact ho.begin _ hd
  | record copy _ _ hm => exact ho.record copy hm
  | answer answer => exact ho.answer _ answer
  | _ => exact ho

theorem Steps.orderly (hs : c.Steps h bound s s') (ho : Orderly h s.journal s.memo) :
    Orderly h s'.journal s'.memo := by
  induction hs with
  | refl => exact ho
  | tail _ hstep ih => exact hstep.orderly ih

theorem cloneValue_goes (ht : c.types.Coherent) (hc : c.types.ClosedOn s.heap)
    (hσ : ∀ σ ∈ c.strategies, σ.Confined c.types s.heap s.heap.size)
    (hk : s.known.Sound c.types c.sharing) (hm : s.memo = .empty) {v : Value} (hv : s.heap.Holds v) :
    c.Goes s.heap s.heap.size s (c.cloneValue v s) := by
  have hf : c.Fits s.heap s.heap.size s := by
    refine ⟨.refl _ _, le_rfl, hk, fun r k hr => ?_⟩
    rw [hm] at hr
    cases hr
  exact cloneWithin_serves ht hc le_rfl hσ (by omega) v s hv hf
    (Nat.lt_succ_of_le (Memo.room_le s.heap s.memo))

end Setting

namespace Cloner

/-- Copying ends, and every source gets at most one copy, which is the answer to all that is asked for
it later. -/
theorem deepClone_orderly (c : Cloner) (members : List Member) (types : Types) (h : Heap)
    (cache : DescriptorCache) (v : Value) (ht : types.Coherent) (hc : types.ClosedOn h)
    (hk : Knowledge.Sound types c.sharing ⟨cache, c.verdicts⟩) (hv : h.Holds v)
    (hd : c.Disciplined types h cache members v) :
    let call := (c.withMembers members).deepClone types h cache v
    call.1 ≠ .error .cutOff ∧ Orderly h call.2.journal call.2.memo ∧
      Knowledge.Sound types c.sharing ⟨call.2.cache, call.2.cloner.verdicts⟩ := by
  have hgo := Setting.cloneValue_goes
    (c := ((c.withMembers members).setting types).withStrategies (members.map (Member.checked h)))
    (s := ⟨h, ⟨cache, c.verdicts⟩, .empty, []⟩) ht hc
    (by
      intro σ hσ
      obtain ⟨m, -, rfl⟩ := List.mem_map.mp hσ
      exact m.checked_confined hc) hk rfl hv
  rw [← hd] at hgo
  refine ⟨hgo.ends, Setting.Steps.orderly hgo.steps (Orderly.start h), ?_⟩
  exact (Setting.Steps.fits hgo.steps le_rfl (.start h hk)).known

/-- Two lists that hold each other, the first also itself, copied by a strategy of the host: the copies
refer to each other in the same way. -/
theorem ringOfLists_orderly :
    let specs : Specs := ⟨[], ""⟩
    let first : Ref := ⟨.list, 0⟩
    let h : Heap := ⟨#[.list [.object ⟨.list, 1⟩, .object first], .list [.object first]], 1⟩
    let members : List Member :=
      [.host (.custom specs "lists" (.ofType .list) (.blank .list) .elements)]
    let call := ((create .standard).withMembers members).deepClone specs.types h .empty (.object first)
    specs.types.Coherent ∧ specs.types.ClosedOn h ∧
      Knowledge.Sound specs.types .plain ⟨.empty, []⟩ ∧ h.Holds (.object first) ∧
      (create .standard).Disciplined specs.types h .empty members (.object first) ∧
      call.1 = .ok (.object ⟨.list, 2⟩) ∧ Orderly h call.2.journal call.2.memo := by
  intro specs first h members call
  have ht : specs.types.Coherent := specs.types_coherent
  have hw : h.WellFormed specs.layout := ⟨by decide, by simp [h, Object.WellFormed]⟩
  have hp : specs.types.PlainRecords specs.path specs.layout h := Specs.plainRecords (by decide)
  have hk : Knowledge.Sound specs.types .plain ⟨.empty, []⟩ :=
    Knowledge.sound_of_no_verdicts (DescriptorCache.faithful_empty _)
  have hv : h.Holds (.object first) := by decide
  have hc : specs.types.ClosedOn h := hp.closedOn hw
  have hd : (create .standard).Disciplined specs.types h .empty members (.object first) := by
    refine disciplined_of_confined ht hc hk hv fun s hs => ?_
    obtain rfl : s = _ := by simpa [members] using hs
    exact Strategy.custom_confined hc specs "lists" _ (by simp) .elements
  have hcall : call.1 = .ok (.object ⟨.list, 2⟩) := by decide +kernel
  have ho := deepClone_orderly (create .standard) members specs.types h .empty _ ht hc hk hv hd
  exact ⟨ht, hc, hk, hv, hd, hcall, ho.2.1⟩

end Cloner
end GraphCopy
