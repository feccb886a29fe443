import GraphCopy.Copy.Session
import GraphCopy.Proofs.Copy.Steps

/-!
# The discipline of the host

A registry has members: built-in strategies and strategies of the host. A call
is disciplined if no script of the host steps out of its bounds, that is, if
the call goes as it goes with these scripts checked.

The check is passed by scripts that are confined in every situation, which
`disciplined_of_confined` says. A host may also keep to the bounds only in the
situations that come up in a call.
-/

namespace GraphCopy

inductive Member
  | builtin (s : Strategy) (hs : s ∈ Registry.builtin)
  | host (s : Strategy)

namespace Member

def strategy : Member → Strategy
  | builtin s _ => s
  | host s => s

def checked (h : Heap) : Member → Strategy
  | builtin s _ => s
  | host s => s.checked h

theorem checked_confined {types : Types} {h : Heap} (hc : types.ClosedOn h) (m : Member) :
    (m.checked h).Confined types h h.size := by
  cases m with
  | builtin s hs => exact Strategy.builtin_confined hc s hs
  | host s => exact s.checked_confined types h

theorem strategy_confined {types : Types} {h : Heap} (hc : types.ClosedOn h) {m : Member}
    (hs : ∀ s, m = .host s → s.Confined types h h.size) : m.strategy.Confined types h h.size := by
  cases m with
  | builtin s hmem => exact Strategy.builtin_confined hc s hmem
  | host s => exact hs s rfl

end Member

namespace Setting

def withStrategies (c : Setting) (rs : Registry) : Setting := { c with strategies := rs }

def Agree (c : Setting) (h : Heap) (n : Nat) (copy' copy : Value → CopyM Value) : Prop :=
  ∀ v s, h.Holds v → c.Fits h h.size s → s.memo.room h < n → copy' v s = copy v s

variable {c : Setting} {h : Heap} {s : CopyState} {n depth : Nat} {r target : Ref}
  {copy copy' : Value → CopyM Value} {script : Script}

theorem run_checked (hcopy : c.Serves h h.size n copy) (hsame : c.Agree h n copy' copy)
    (hs : script.Confined c.types h h.size) (hf : c.Fits h h.size s) (hn : s.memo.room h < n) :
    (script.checked h).run c.types copy' s = script.run c.types copy s := by
  induction hs generalizing s with
  | done => rfl
  | fail e => rfl
  | look _ ih => exact ih s.heap s.heap.clock hf.keeps (Step.fits .look le_rfl hf) hn
  | @describe t next _ ih =>
    have hstep : c.Step h h.size s (s.knowing (s.known.describe c.types t).2) :=
      .learn (hf.known.describe_snd t)
    have hrest := ih (hstep.fits le_rfl hf) hn
    rw [← hf.known.describe_fst t] at hrest
    exact hrest
  | @make o next _ ih =>
    exact ih (s.heap.alloc o).1 hf.bound_le (Step.fits (.make o) le_rfl hf) hn
  | @put target o next ht _ ih =>
    rw [Script.checked, if_pos ht]
    exact ih (Step.fits (.put o ht) le_rfl hf) hn
  | @copy v next hv _ ih =>
    have hgo := hcopy v s hv hf hn
    rw [Script.checked, if_pos hv]
    simp only [Script.run, hsame v s hv hf hn]
    generalize copy v s = out at hgo
    obtain ⟨answer, s'⟩ := out
    have hf' := Steps.fits hgo.steps le_rfl hf
    have hn' := (Steps.room_le hgo.steps).trans_lt hn
    cases answer with
    | ok w => exact ih (.ok w) hf' hn'
    | error e =>
      cases e with
      | failed e => exact ih (.error e) hf' hn'
      | cutOff => rfl

theorem run_congr (hcopy : c.Serves h h.size n copy) (hsame : c.Agree h n copy' copy)
    (hs : script.Confined c.types h h.size) (hf : c.Fits h h.size s) (hn : s.memo.room h < n) :
    script.run c.types copy' s = script.run c.types copy s := by
  have hcopy' : c.Serves h h.size n copy' := fun v s hv hf hn => by
    rw [hsame v s hv hf hn]
    exact hcopy v s hv hf hn
  calc script.run c.types copy' s
    _ = (script.checked h).run c.types copy' s :=
      (run_checked hcopy' (fun _ _ _ _ _ => rfl) hs hf hn).symm
    _ = script.run c.types copy s := run_checked hcopy hsame hs hf hn

theorem run_fill (hcopy : c.Serves h h.size n copy) (hsame : c.Agree h n copy' copy) (m : Member)
    (hs : (m.strategy.fill c.types r target).Confined c.types h h.size)
    (hf : c.Fits h h.size s) (hn : s.memo.room h < n) :
    ((m.checked h).fill c.types r target).run c.types copy' s =
      (m.strategy.fill c.types r target).run c.types copy s := by
  cases m with
  | builtin σ _ => exact run_congr hcopy hsame hs hf hn
  | host σ => exact run_checked hcopy hsame hs hf hn

variable {rs : Registry}

theorem complete_congr {script' : Script} (hr : h.Has r)
    (hi : ¬ c.sharing.Immutable c.types (c.types.describe r.type)) (hm : s.memo.get? r = none)
    (hf : c.Fits h h.size s) (hn : s.memo.room h < n + 1)
    (hrun : ∀ s, c.Fits h h.size s → s.memo.room h < n →
      script'.run c.types copy' s = script.run c.types copy s) :
    (c.withStrategies rs).complete copy' r target script' s = c.complete copy r target script s := by
  have hstep : c.Step h h.size s (s.recording r target) := .record target hr hi hm
  rw [complete_apply, complete_apply]
  rw [← hrun _ (hstep.fits le_rfl hf) (CopyState.room_recording_lt target hr hm hn)]
  rfl

theorem findStrategy_members (c : Setting) (h : Heap) (rs : Registry) (r : Ref)
    (members : List Member) (s : CopyState) : ∃ (found : Option Member) (s' : CopyState),
      (∀ m, found = some m → m ∈ members) ∧
      c.findStrategy r (members.map Member.strategy) s =
        (.ok (found.map Member.strategy), s') ∧
      (c.withStrategies rs).findStrategy r (members.map (Member.checked h)) s =
        (.ok (found.map (Member.checked h)), s') := by
  induction members generalizing s with
  | nil => exact ⟨none, s, by simp, rfl, rfl⟩
  | cons m rest ih =>
    have hguard : (c.withStrategies rs).isMeantFor (m.checked h) r s =
        c.isMeantFor m.strategy r s := by
      cases m <;> rfl
    have hmeant : ∃ b s', c.isMeantFor m.strategy r s = (.ok b, s') := by
      unfold isMeantFor
      cases m.strategy.guard with
      | immutableType => exact ⟨_, _, rfl⟩
      | holds p => exact ⟨_, _, rfl⟩
    obtain ⟨b, s₁, hb⟩ := hmeant
    simp only [List.map_cons, findStrategy, CopyM.bind_apply, hguard, hb]
    cases b with
    | true => exact ⟨some m, s₁, by simp, rfl, rfl⟩
    | false =>
      obtain ⟨found, s', hmem, hfind, hfind'⟩ := ih s₁
      exact ⟨found, s', fun m hm => by simp [hmem m hm], hfind, hfind'⟩

theorem structuralShell_withStrategies (d : Descriptor) (tick : Nat) (o : Object) :
    (c.withStrategies rs).structuralShell d tick o = c.structuralShell d tick o :=
  rfl

theorem instantiateBy_checked (m : Member) (s : CopyState) :
    (c.withStrategies rs).instantiateBy (m.checked h) r s = c.instantiateBy m.strategy r s := by
  cases m <;> rfl

theorem duplicate_members (ht : c.types.Coherent) (hc : c.types.ClosedOn h) {members : List Member}
    (hmembers : c.strategies = members.map Member.strategy)
    (hσ : ∀ m ∈ members, m.strategy.Confined c.types h h.size)
    (hcopy : c.Serves h h.size n copy) (hsame : c.Agree h n copy' copy) (hd : depth < h.size)
    (hf : c.Fits h h.size s) (hr : h.Has r)
    (hi : ¬ c.sharing.Immutable c.types (c.types.describe r.type))
    (hm : s.memo.get? r = none) (hn : s.memo.room h < n + 1) :
    (c.withStrategies (members.map (Member.checked h))).duplicate copy' depth
        (c.types.describe r.type) r s =
      c.duplicate copy depth (c.types.describe r.type) r s := by
  obtain ⟨found, s₁, hmem, hfind, hfind'⟩ :=
    findStrategy_members c h (members.map (Member.checked h)) r members (s.note (.opened r depth))
  obtain ⟨found₀, known, hk, hfind₀, -⟩ := findStrategy_apply (s := s.note (.opened r depth))
    (r := r) ht (members.map Member.strategy) hf.known
  -- both runs go on from the state in which the member was found
  obtain ⟨-, rfl⟩ := Prod.mk.inj (hfind.symm.trans hfind₀)
  have hopen : c.Steps h h.size s (s.opening r depth known) := opening_steps hd hk
  have hfits := Steps.fits hopen le_rfl hf
  rw [← hmembers] at hfind
  cases found with
  | none =>
    obtain ⟨o, ho, hot⟩ := hr
    rw [duplicate_not_found _ hfind, duplicate_not_found _ hfind']
    simp only [copyByStructure, CopyM.bind_apply, CopyM.look_apply, CopyState.knowing_heap,
      CopyState.note_heap, hf.keeps.get?_eq_some ho, structuralShell_withStrategies]
    cases c.structuralShell (c.types.describe r.type) s.heap.clock o with
    | error e => rfl
    | ok made =>
      cases made with
      | none => rfl
      | some shell =>
        have hmake : CopyM.realize (.fresh shell) (s.opening r depth known) = (.ok _, _) := rfl
        obtain ⟨hsteps, hy, hmemo⟩ := realize_steps hfits hmake
        refine complete_congr ⟨o, ho, hot⟩ hi (hmemo.symm ▸ hm) (Steps.fits hsteps le_rfl hfits)
          (hmemo.symm ▸ hn) fun s hf hn => ?_
        exact run_congr hcopy hsame (copyFields_confined hc ⟨o, ho, hot⟩ hy.1) hf hn
  | some m =>
    rw [duplicate_found _ hfind, duplicate_found _ hfind', CopyM.bind_apply, CopyM.bind_apply,
      instantiateBy_checked]
    cases hshell : m.strategy.shell c.types s.heap s.heap.clock r with
    | error e =>
      rw [instantiateBy_error (by exact hshell)]
    | ok shell =>
      obtain ⟨target, s₂, hmake⟩ := realize_apply shell (s.opening r depth known)
      have hinst : c.instantiateBy m.strategy r ((s.note (.opened r depth)).knowing known) =
          (.ok target, s₂) := (instantiateBy_ok (by exact hshell)).trans hmake
      obtain ⟨hsteps, hy, hmemo⟩ := realize_steps hfits hmake
      have hconf := hσ m (hmem m rfl) s.heap _ r shell target hf.keeps hr hshell hy
      rw [hinst]
      exact complete_congr hr hi (hmemo.symm ▸ hm) (Steps.fits hsteps le_rfl hfits)
        (hmemo.symm ▸ hn) fun s hf hn => run_fill hcopy hsame m hconf hf hn

theorem resolve_congr (ht : c.types.Coherent) (hk : s.known.Sound c.types c.sharing)
    (hdup : ∀ known, known.Sound c.types c.sharing →
      ¬ c.sharing.Immutable c.types (c.types.describe r.type) → s.memo.get? r = none →
      (c.withStrategies rs).duplicate copy' depth (c.types.describe r.type) r (s.knowing known) =
        c.duplicate copy depth (c.types.describe r.type) r (s.knowing known)) :
    (c.withStrategies rs).resolve copy' depth r s = c.resolve copy depth r s := by
  have hj := SharingRules.isImmutable_judges ht (hk.describe_snd r.type) (t := r.type)
  have hsharing : (c.withStrategies rs).sharing = c.sharing := rfl
  have htypes : (c.withStrategies rs).types = c.types := rfl
  have hoptions : (c.withStrategies rs).options = c.options := rfl
  simp only [resolve, describe, isImmutable, CopyM.bind_apply, CopyM.learn_apply, hsharing, htypes,
    hoptions, hk.describe_fst r.type]
  generalize c.sharing.isImmutable c.types (c.types.describe r.type)
    (Knowledge.describe c.types r.type s.known).2 = answer at hj
  obtain ⟨b, known⟩ := answer
  obtain ⟨hknown, hb⟩ := hj
  cases b with
  | true => rw [if_pos rfl, if_pos rfl]
  | false =>
    have hi : ¬ c.sharing.Immutable c.types (c.types.describe r.type) :=
      fun h => by simpa using hb.mpr h
    simp only [Bool.false_eq_true, if_false, CopyM.bind_apply, CopyM.get_apply]
    cases hm : s.memo.get? r with
    | some k => simp only
    | none =>
      have hsame := hdup known hknown hi hm
      cases c.options.maxDepth with
      | none => exact hsame
      | some limit =>
        by_cases hd : limit ≤ depth
        · simp only [hd, if_true]
        · simp only [hd, if_false]
          exact hsame

theorem cloneWithin_members (ht : c.types.Coherent) (hc : c.types.ClosedOn h) {members : List Member}
    (hmembers : c.strategies = members.map Member.strategy)
    (hσ : ∀ m ∈ members, m.strategy.Confined c.types h h.size) (hd : n + depth ≤ h.size + 1) :
    c.Agree h n ((c.withStrategies (members.map (Member.checked h))).cloneWithin n depth)
      (c.cloneWithin n depth) := by
  have hconf : ∀ σ ∈ c.strategies, σ.Confined c.types h h.size := by
    intro σ hmem
    obtain ⟨m, hm, rfl⟩ := List.mem_map.mp (hmembers ▸ hmem)
    exact hσ m hm
  induction n generalizing depth with
  | zero => exact fun v s _ _ hn => absurd hn (Nat.not_lt_zero _)
  | succ n ih =>
    intro v s hv hf hn
    cases v with
    | object r =>
      have hr : h.Has r := hv r rfl
      have hcopy : c.Serves h h.size n (c.cloneWithin n (depth + 1)) :=
        cloneWithin_serves ht hc le_rfl hconf (by omega)
      have hres : (c.withStrategies (members.map (Member.checked h))).resolve
            ((c.withStrategies (members.map (Member.checked h))).cloneWithin n (depth + 1)) depth r
            (s.note (.asked r)) =
          c.resolve (c.cloneWithin n (depth + 1)) depth r (s.note (.asked r)) := by
        refine resolve_congr ht hf.known fun known hk hi hm => ?_
        have hask : c.Steps h h.size s ((s.note (.asked r)).knowing known) :=
          .head (.ask hm) (.single (.learn hk))
        have hpos : 0 < s.memo.room h := Memo.room_pos hr hm
        exact duplicate_members ht hc hmembers hσ hcopy (ih (by omega)) (by omega)
          (Steps.fits hask le_rfl hf) hr hi hm hn
      simp only [cloneWithin, cloneRefWith, CopyM.bind_apply, CopyM.answering, hres]
    | _ => simp only [cloneWithin]

end Setting

namespace Cloner

def withMembers (c : Cloner) (members : List Member) : Cloner :=
  { c with strategies := members.map Member.strategy }

/-- No script of the host steps out of its bounds during a call: it goes as it goes with checks. -/
def Disciplined (c : Cloner) (types : Types) (h : Heap) (cache : DescriptorCache)
    (members : List Member) (v : Value) : Prop :=
  let b := (c.withMembers members).setting types
  let s : CopyState := ⟨h, ⟨cache, c.verdicts⟩, .empty, []⟩
  b.cloneValue v s = (b.withStrategies (members.map (Member.checked h))).cloneValue v s

theorem disciplined_of_confined {c : Cloner} {members : List Member} {types : Types} {h : Heap}
    {cache : DescriptorCache} {v : Value} (ht : types.Coherent) (hc : types.ClosedOn h)
    (hk : Knowledge.Sound types c.sharing ⟨cache, c.verdicts⟩) (hv : h.Holds v)
    (hσ : ∀ s, .host s ∈ members → s.Confined types h h.size) :
    c.Disciplined types h cache members v := by
  have hconf : ∀ m ∈ members, m.strategy.Confined types h h.size := fun m hm =>
    Member.strategy_confined hc fun s hs => hσ s (hs ▸ hm)
  have hagree := Setting.cloneWithin_members (c := (c.withMembers members).setting types)
    (n := h.size + 1) ht hc rfl hconf (Nat.add_zero _).le
  exact (hagree v ⟨h, ⟨cache, c.verdicts⟩, .empty, []⟩ hv (.start h hk)
    (Nat.lt_succ_of_le (Memo.room_le h _))).symm

end Cloner
end GraphCopy
