import GraphCopy.Copy.Session
import GraphCopy.Proofs.Copy.Invariant
import GraphCopy.Proofs.Copy.Isomorphism
import GraphCopy.Proofs.Copy.Limit

/-!
# What the limit on the depth means

Let a call without a limit have at most `D` objects in the course of being
duplicated at a time. With the limit `n` the call comes to the same if `D ≤ n`,
and else it fails with the limit.

A duplication begins only while the objects above it have been recorded, and
these are different mutable objects in reach of the root; so `D` is at most
their number.
-/

namespace GraphCopy

open Journal

namespace Setting

structure Charted (c : Setting) (h : Heap) (M : Finset Ref) (depth : Nat) (s : CopyState) : Prop where
  keeps : h.Keeps h.size s.heap
  known : s.known.Sound c.types c.sharing
  depth_le : depth ≤ (M.filter fun q => (s.memo.get? q).isSome).card
  within : Within M.card s.journal

namespace Charted

variable {c : Setting} {h : Heap} {M : Finset Ref} {depth : Nat} {s : CopyState} {r : Ref}

theorem note (hs : c.Charted h M depth s) {e : Event}
    (he : ∀ r d, e = .opened r d → d < M.card) : c.Charted h M depth (s.note e) :=
  ⟨hs.keeps, hs.known, hs.depth_le, hs.within.cons he⟩

theorem depth_lt (hs : c.Charted h M depth s) (hr : r ∈ M) (hm : s.memo.get? r = none) :
    depth < M.card := by
  apply hs.depth_le.trans_lt
  apply Finset.card_lt_card
  rw [Finset.ssubset_iff_of_subset (Finset.filter_subset _ _)]
  exact ⟨r, hr, by simp [hm]⟩

theorem recording (hs : c.Charted h M depth s) (hr : r ∈ M) (hm : s.memo.get? r = none) (k : Ref) :
    c.Charted h M (depth + 1) (s.recording r k) := by
  refine ⟨hs.keeps, hs.known, ?_, hs.within.cons nofun⟩
  have hnot : r ∉ M.filter fun q => (s.memo.get? q).isSome := by simp [hm]
  have hsub : insert r (M.filter fun q => (s.memo.get? q).isSome) ⊆
      M.filter fun q => ((s.memo.put r k).get? q).isSome := by
    intro q hq
    rw [Finset.mem_filter, Memo.get?_put]
    rcases Finset.mem_insert.mp hq with rfl | hq
    · exact ⟨hr, by simp⟩
    · obtain ⟨hqM, hqs⟩ := Finset.mem_filter.mp hq
      refine ⟨hqM, ?_⟩
      split_ifs
      · rfl
      · exact hqs
  calc depth + 1
    _ ≤ (insert r (M.filter fun q => (s.memo.get? q).isSome)).card := by
      rw [Finset.card_insert_of_notMem hnot]
      exact Nat.succ_le_succ hs.depth_le
    _ ≤ _ := Finset.card_le_card hsub

theorem invariant {root : Value}
    (hM : ∀ r, h.Attains c.types root r →
      ¬ c.sharing.Immutable c.types (c.types.describe r.type) → r ∈ M) :
    c.Invariant h root (c.Charted h M) where
  keeps hs := hs.keeps
  known hs := hs.known
  heap hs hk := ⟨hs.keeps.trans hk, hs.known, hs.depth_le, hs.within⟩
  learn hs hk := ⟨hs.keeps, hk, hs.depth_le, hs.within⟩
  ask hs := hs.note nofun
  begin hs hr := by
    have hlt := hs.depth_lt (hM _ hr.attained hr.mutable) hr.unrecorded
    apply hs.note
    rintro _ _ ⟨⟩
    exact hlt
  record hs hr _ := hs.recording (hM _ hr.attained hr.mutable) hr.unrecorded _
  leave hs := ⟨hs.keeps, hs.known, (Nat.le_succ _).trans hs.depth_le, hs.within⟩
  answer hs _ _ := hs.note nofun

end Charted
end Setting

namespace Cloner

structure SameOutcome (x y : Except Halt Value × Aftermath) : Prop where
  result : x.1 = y.1
  heap : x.2.heap = y.2.heap
  cache : x.2.cache = y.2.cache
  verdicts : x.2.cloner.verdicts = y.2.cloner.verdicts
  memo : x.2.memo = y.2.memo
  journal : x.2.journal = y.2.journal

namespace SameOutcome

variable {x y z : Except Halt Value × Aftermath}

theorem symm (h : SameOutcome x y) : SameOutcome y x :=
  ⟨h.result.symm, h.heap.symm, h.cache.symm, h.verdicts.symm, h.memo.symm, h.journal.symm⟩

theorem trans (h₁ : SameOutcome x y) (h₂ : SameOutcome y z) : SameOutcome x z :=
  ⟨h₁.result.trans h₂.result, h₁.heap.trans h₂.heap, h₁.cache.trans h₂.cache,
    h₁.verdicts.trans h₂.verdicts, h₁.memo.trans h₂.memo, h₁.journal.trans h₂.journal⟩

end SameOutcome

variable (options : CopyOptions) (sharing : SharingRules) (verdicts : Verdicts) (types : Types)
  (h : Heap) (cache : DescriptorCache) (v : Value)

/-- With the built-in strategies, the limit `n` makes no difference to a call that duplicates at most `n`
objects at a time, and else the call fails with the limit. -/
theorem deepClone_depth_limit :
    let run (limit : Option Nat) := (Cloner.mk { options with maxDepth := limit } sharing .builtin
      verdicts).deepClone types h cache v
    let most := Journal.peak (run none).2.journal
    (∀ n, most ≤ n → SameOutcome (run (some n)) (run none)) ∧
    (∀ n, (run (some n)).1 = .error (.failed (.depthExceeded n)) ↔ n < most) ∧
    (∀ n m, n ≤ m → (run (some n)).1 ≠ .error (.failed (.depthExceeded n)) →
      SameOutcome (run (some m)) (run (some n))) ∧
    ∀ (M : Finset Ref) n, types.Coherent → types.ClosedOn h →
      Knowledge.Sound types sharing ⟨cache, verdicts⟩ → h.Holds v →
      (∀ r, h.Attains types v r → ¬ sharing.Immutable types (types.describe r.type) → r ∈ M) →
      M.card ≤ n → (run (some n)).1 ≠ .error (.failed (.depthExceeded n)) := by
  intro run most
  let c : Setting := ⟨types, options, sharing, .builtin⟩
  let start : CopyState := ⟨h, ⟨cache, verdicts⟩, .empty, []⟩
  have hwithin : ∀ n, most ≤ n ↔ Journal.Within n (run none).2.journal :=
    (Setting.cloneWithin_levelled (c := c.limited none) rfl (h.size + 1) 0 v start (Nat.zero_le _)
      .start).peak_le
  have hfollows : ∀ n, CopyM.Follows n ((c.limited none).cloneWithin (h.size + 1) 0 v)
      ((c.limited (some n)).cloneWithin (h.size + 1) 0 v) :=
    fun n => Setting.cloneWithin_follows rfl _ 0 v
  have hsame : ∀ n, most ≤ n → SameOutcome (run (some n)) (run none) := by
    intro n hn
    have hrun := (hfollows n).same start ((hwithin n).mp hn)
    have hstate := congrArg Prod.snd hrun
    have hknown := congrArg CopyState.known hstate
    exact ⟨(congrArg Prod.fst hrun :), (congrArg CopyState.heap hstate :),
      (congrArg Knowledge.cache hknown :), (congrArg Knowledge.verdicts hknown :),
      (congrArg CopyState.memo hstate :), (congrArg CopyState.journal hstate :)⟩
  have hexceeds : ∀ n, (run (some n)).1 = .error (.failed (.depthExceeded n)) ↔ n < most := by
    intro n
    constructor
    · intro hrun
      by_contra hn
      rw [(hsame n (Nat.le_of_not_lt hn)).result] at hrun
      exact (hfollows n).free start _ hrun n rfl
    · intro hn
      exact (hfollows n).exceeds start nofun fun hw => absurd ((hwithin n).mpr hw) (by omega)
  have hmost : ∀ n, (run (some n)).1 ≠ .error (.failed (.depthExceeded n)) → most ≤ n :=
    fun n hn => Nat.le_of_not_lt fun hlt => hn ((hexceeds n).mpr hlt)
  refine ⟨hsame, hexceeds, fun n m hnm hn => ?_, fun M n ht hc hk hv hM hcard => ?_⟩
  · exact (hsame m ((hmost n hn).trans hnm)).trans (hsame n (hmost n hn)).symm
  · have hI : (c.limited none).Invariant h v ((c.limited none).Charted h M) :=
      Setting.Charted.invariant hM
    have hstart : (c.limited none).Charted h M 0 start := ⟨.refl _ _, hk, Nat.zero_le _, nofun⟩
    have hreply := hI.cloneWithin ht rfl hc hv (h.size + 1) 0 v start (fun q hq => .root hq) hstart
    have hle : most ≤ M.card := (hwithin M.card).mpr hreply.upheld.holds.within
    intro hrun
    have hlt := (hexceeds n).mp hrun
    omega

/-- Two nodes that are linked to each other and share a list: three objects are in reach of the first
node, and while the list is copied all of them are being duplicated. -/
theorem deepClone_nodeHeap_depth_limit :
    let root : Value := .object ⟨.host 0, 0⟩
    let run (limit : Option Nat) := (Cloner.mk { CopyOptions.standard with maxDepth := limit } .plain
      .builtin []).deepClone nodeSpecs.types nodeHeap .empty root
    nodeHeap.refs.toFinset.card = 3 ∧ Journal.peak (run none).2.journal = 3 ∧
      (run (some 2)).1 = .error (.failed (.depthExceeded 2)) ∧
      (run (some 3)).1 ≠ .error (.failed (.depthExceeded 3)) ∧
      SameOutcome (run (some 5)) (run (some 3)) ∧ (run (some 3)).1 = .ok (.object ⟨.host 0, 3⟩) := by
  intro root run
  obtain ⟨hsame, hexceeds, hmono, hreach⟩ :=
    deepClone_depth_limit .standard .plain [] nodeSpecs.types nodeHeap .empty root
  have hpeak : Journal.peak (run none).2.journal = 3 := by decide +kernel
  have hcard : nodeHeap.refs.toFinset.card = 3 := by decide
  have hv : nodeHeap.Holds root := by decide
  have hclosed := nodeSpecs_plainRecords.closedOn nodeHeap_wellFormed
  have hthree : (run (some 3)).1 ≠ .error (.failed (.depthExceeded 3)) := by
    apply hreach nodeHeap.refs.toFinset 3 nodeSpecs.types_coherent hclosed nodeHeap_known hv _ hcard.le
    intro r hr _
    exact List.mem_toFinset.mpr (Heap.mem_refs.mpr (hr.has hclosed hv))
  refine ⟨hcard, hpeak, (hexceeds 2).mpr ?_, hthree, hmono 3 5 (by decide) hthree, ?_⟩
  · exact hpeak.symm ▸ (by decide : 2 < 3)
  · rw [(hsame 3 hpeak.le).result]
    exact deepClone_nodeHeap

end Cloner
end GraphCopy
