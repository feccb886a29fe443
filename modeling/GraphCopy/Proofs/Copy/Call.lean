import GraphCopy.Copy.Session
import GraphCopy.Proofs.Copy.Answers
import GraphCopy.Proofs.Copy.Steps

/-!
# What a whole call comes to

A call starts with nothing recorded. It is never cut off; it fails for one of
the reasons in `Ground.Fails`, or it ends in a state where all recorded copies
are kept.
-/

namespace GraphCopy

namespace Ground

variable {g : Ground} {s : CopyState} {v w : Value} {r k : Ref}

theorem Tidy.start {known : Knowledge} (hk : known.Sound g.types g.sharing) (journal : List Event) :
    g.Tidy ⟨g.heap, known, .empty, journal⟩ := by
  have hnone : ∀ r k, Memo.empty.get? r ≠ some k := by simp [Memo.empty, Memo.get?]
  exact ⟨.refl _ _, hk, fun r k hr => absurd hr (hnone r k), fun r k hr => absurd hr (hnone r k),
    fun r k hr => absurd hr (hnone r k), fun q r k l hq => absurd hq (hnone q k)⟩

structure Settled (g : Ground) (v w : Value) (s : CopyState) : Prop where
  tidy : g.Tidy s
  kept : ∀ r k, s.memo.get? r = some k → g.Kept s r k
  copied : g.Copied s.memo v w

theorem Settled.ne_of_recorded (hs : g.Settled v w s) (hshare : g.options.shareSource = false)
    (hk : s.memo.get? r = some k) : k ≠ r := fun hkr => by
  have horig := (hs.kept r k hk).original hkr
  rw [hshare] at horig
  cases horig

theorem Settled.sane (hs : g.Settled v w s) (hw : g.Whole) :
    g.Sane g.heap s ∧ ∀ r k, s.memo.get? r = some k → g.Mirrored g.heap s r k := by
  have hall := fun r k hk => (hs.kept r k hk).whole hw hs.tidy hk
  exact ⟨⟨hs.tidy.keeps, hs.tidy.known, hs.tidy.source, fun r k hk => (hall r k hk).2,
    hs.tidy.injective⟩, fun r k hk => (hall r k hk).1⟩

end Ground

namespace Cloner

variable {g : Ground} {cache : DescriptorCache} {verdicts : Verdicts} {v : Value}

def ofGround (g : Ground) (verdicts : Verdicts) : Cloner := ⟨g.options, g.sharing, .builtin, verdicts⟩

theorem deepClone_ofGround : (ofGround g verdicts).deepClone g.types g.heap cache v =
    let out := g.cloneWithin (g.heap.size + 1) 0 v ⟨g.heap, ⟨cache, verdicts⟩, .empty, []⟩
    (out.1, ⟨out.2.heap, { ofGround g verdicts with verdicts := out.2.known.verdicts },
      out.2.known.cache, out.2.memo, out.2.journal⟩) := by
  have hset : (ofGround g verdicts).setting g.types = g.toSetting := by
    obtain ⟨⟨types, options, sharing, strategies⟩, heap, path, layouts, hbuiltin, _⟩ := g
    cases hbuiltin
    rfl
  simp only [deepClone, perform, hset]
  rfl

theorem deepClone_eq_ofGround {c : Cloner} (hc : c.setting g.types = g.toSetting) :
    c.deepClone g.types g.heap cache v =
      (ofGround g c.verdicts).deepClone g.types g.heap cache v := by
  have hcloner : c = ofGround g c.verdicts := by
    obtain ⟨options, sharing, strategies, verdicts⟩ := c
    have hσ : strategies = .builtin := (congrArg Setting.strategies hc).trans g.builtin
    have ho : options = g.options := congrArg Setting.options hc
    have hs : sharing = g.sharing := congrArg Setting.sharing hc
    rw [hσ, ho, hs]
    rfl
  exact congrArg (fun c : Cloner => c.deepClone g.types g.heap cache v) hcloner

theorem deepClone_ne_cutOff (hk : Knowledge.Sound g.types g.sharing ⟨cache, verdicts⟩)
    (hv : g.heap.Holds v) :
    ((ofGround g verdicts).deepClone g.types g.heap cache v).1 ≠ .error .cutOff := by
  have hserves := Setting.cloneWithin_serves (c := g.toSetting) (n := g.heap.size + 1) g.coherent g.closed
    le_rfl (fun σ hσ => Strategy.builtin_confined g.closed σ (g.builtin ▸ hσ)) (Nat.add_zero _).le
  rw [deepClone_ofGround]
  exact (hserves v _ hv (.start g.heap hk) (Nat.lt_succ_of_le (Memo.room_le g.heap _))).ends

theorem deepClone_fails (hk : Knowledge.Sound g.types g.sharing ⟨cache, verdicts⟩)
    (hv : g.heap.Holds v) {e : CopyError}
    (hrun : ((ofGround g verdicts).deepClone g.types g.heap cache v).1 = .error (.failed e)) :
    g.FailsAt v := by
  rw [deepClone_ofGround] at hrun
  exact (g.cloneWithin_answering _ 0 v _ hv (.start hk [])).of_failed (Prod.ext hrun rfl)

theorem deepClone_settled (hk : Knowledge.Sound g.types g.sharing ⟨cache, verdicts⟩)
    (hv : g.heap.Holds v) {w : Value} {after : Aftermath}
    (hrun : (ofGround g verdicts).deepClone g.types g.heap cache v = (.ok w, after)) :
    ∃ s, g.Settled v w s ∧ after.heap = s.heap ∧ after.memo = s.memo := by
  rw [deepClone_ofGround] at hrun
  obtain ⟨hw, hafter⟩ := Prod.mk.inj hrun
  obtain ⟨hb, hcop⟩ := (g.cloneWithin_answering _ 0 v _ hv (.start hk [])).of_ok (Prod.ext hw rfl)
  exact ⟨_, ⟨hb.tidy, fun r k hr => hb.kept r k hr rfl, hcop⟩, hafter ▸ rfl, hafter ▸ rfl⟩

end Cloner
end GraphCopy
