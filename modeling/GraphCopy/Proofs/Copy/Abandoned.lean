import GraphCopy.Proofs.Copy.Isomorphism
import GraphCopy.Proofs.Copy.Journal

/-!
# What a request that failed leaves behind

A copy is recorded before it is filled, and stays recorded when the filling
stops with an error: it is abandoned. The session goes on with it, so a later
request for its source is answered with the copy as far as it was filled.

`Setting.Settles` is what a request does whatever it comes to: all that it
recorded mirrors its source or is abandoned. After any requests, a copy that
is answered is isomorphic to its source as long as no object in reach of the
source is abandoned.
-/

namespace GraphCopy

/-- The source got a copy, and then the request for it ended with an error. -/
def Abandoned (journal : List Event) (source : Ref) : Prop :=
  ∃ later e earlier copy, journal = later ++ .answered source (.error e) :: earlier ∧
    .recorded source copy ∈ earlier

theorem Abandoned.mono {journal journal' : List Event} {r : Ref} (hj : journal <:+ journal')
    (ha : Abandoned journal r) : Abandoned journal' r := by
  obtain ⟨front, rfl⟩ := hj
  obtain ⟨later, e, earlier, k, rfl, hk⟩ := ha
  exact ⟨front ++ later, e, earlier, k, by simp, hk⟩

namespace Script

inductive Fills (h : Heap) (k : Ref) : Script → Prop
  | done : Fills h k .done
  | fail (e : CopyError) : Fills h k (.fail e)
  | look {next : Heap → Nat → Script}
      (hn : ∀ h' tick, h.Keeps h.size h' → h'.Has k → Fills h k (next h' tick)) :
      Fills h k (.look next)
  | put {o : Object} {next : Script} (ho : o.type = k.type) (hn : Fills h k next) :
      Fills h k (.put k o next)
  | copy {v : Value} {next : Except CopyError Value → Script} (hv : h.Holds v)
      (hn : ∀ answer, Fills h k (next answer)) : Fills h k (.copy v next)

variable {h : Heap} {k : Ref}

theorem Fills.each {α : Type} {step : α → Script → Script} {xs : List α}
    (hs : ∀ a ∈ xs, ∀ rest, Fills h k rest → Fills h k (step a rest)) :
    Fills h k (Script.each step xs) := by
  induction xs with
  | nil => exact .done
  | cons a xs ih => exact hs a (by simp) _ (ih fun b hb => hs b (by simp [hb]))

theorem Fills.copyOrFail {v : Value} {next : Value → Script} (hv : h.Holds v)
    (hn : ∀ w, Fills h k (next w)) : Fills h k (Script.copyOrFail v next) := by
  refine .copy hv fun answer => ?_
  cases answer with
  | ok w => exact hn w
  | error e => exact .fail e

theorem Fills.edit {change : Object → Except CopyError Object} {next : Script}
    (hc : ∀ o o', o.type = k.type → change o = .ok o' → o'.type = o.type) (hn : Fills h k next) :
    Fills h k (Script.edit k change next) := by
  refine .look fun h' _ _ hk => ?_
  obtain ⟨o, ho, hot⟩ := hk
  rw [ho]
  cases hco : change o with
  | ok o' => simpa only [hco] using Fills.put ((hc o o' hot hco).trans hot) hn
  | error e => simpa only [hco] using Fills.fail e

end Script

open Script

section Builtin

variable {types : Types} {h : Heap} {r k : Ref}

theorem Strategy.setItem_type {i : Nat} {v : Value} {o o' : Object} (ho : setItem i v o = .ok o') :
    o'.type = o.type := by
  unfold setItem at ho
  split at ho
  · split at ho
    · cases ho
      rfl
    · cases ho
  · cases ho

theorem Strategy.array_fills (hc : types.ClosedOn h) (hr : h.Has r) :
    (Strategy.array.fill types r k).Fills h k := by
  refine .look fun h' _ hk _ => ?_
  cases ha : arrayAt h' r with
  | none => exact .fail _
  | some a =>
    rw [arrayAt_eq_some, hk.get?_eq r hr.address_lt] at ha
    refine .each fun p hp rest hrest => ?_
    refine .copy (hc.items r a ha.2 p.1 (List.fst_mem_of_mem_zipIdx hp)) fun answer => ?_
    cases answer with
    | ok w => exact .edit (fun o o' _ ho => setItem_type ho) hrest
    | error e => exact .fail _

theorem Collection.push_type {c : Collection} {t : TypeId} (ht : t = .list ∨ t = .set)
    (hcol : (types.info t).collection = some c) {o o' : Object} {v : Value}
    (ho : c.push o v = .ok o') : o'.type = o.type := by
  rcases ht with rfl | rfl <;>
  · cases hcol
    cases ho
    cases o <;> rfl

theorem Strategy.collection_fills (hc : types.ClosedOn h) (hr : h.Has r)
    (ht : r.type = .list ∨ r.type = .set) (hkt : k.type = r.type) :
    (Strategy.collection.fill types r k).Fills h k := by
  refine .look fun h' _ hk _ => .each fun v hv rest hrest => ?_
  have hheld : h.Holds v := by
    obtain ⟨o, ho, hot⟩ := hr
    simp only [hk.get?_eq_some ho] at hv
    cases hcol : (types.info r.type).collection with
    | none => simp [hcol] at hv
    | some c =>
      simp only [hcol] at hv
      exact hc.elements r o ho c (hot ▸ hcol) v hv
  refine .copyOrFail hheld fun w => .edit (fun o o' _ ho => ?_) hrest
  cases hcol : (types.info k.type).collection with
  | none =>
    rw [hcol] at ho
    cases ho
  | some c =>
    rw [hcol] at ho
    exact Collection.push_type (hkt ▸ ht) hcol (Except.ok_of_mapError ho)

theorem Strategy.map_fills (hc : types.ClosedOn h) (hr : h.Has r) (ht : r.type = .map)
    (hkt : k.type = r.type) : (Strategy.map.fill types r k).Fills h k := by
  refine .look fun h' _ hk _ => .each fun e he rest hrest => ?_
  have hheld : h.Holds e.1 ∧ h.Holds e.2 := by
    obtain ⟨o, ho, hot⟩ := hr
    simp only [hk.get?_eq_some ho] at he
    cases hmap : (types.info r.type).map with
    | none => simp [hmap] at he
    | some m =>
      simp only [hmap] at he
      exact hc.entries r o ho m (hot ▸ hmap) e he
  refine .copyOrFail hheld.1 fun _ => .copyOrFail hheld.2 fun _ => .edit (fun o o' _ ho => ?_) hrest
  rw [hkt, ht] at ho
  cases ho
  cases o <;> rfl

theorem Setting.copyFields_fills {path : TypeId → String} {layouts : Nat → Layout}
    (hp : types.PlainRecords path layouts h) (hw : h.WellFormed layouts) (hr : h.Has r) {i : Nat}
    (ht : r.type = .host i) : (copyFields (types.describe r.type) r k).Fills h k := by
  refine .each fun f hf rest hrest => .look fun h' tick hk _ => ?_
  obtain ⟨o, ho, hot⟩ := hr
  simp only [hk.get?_eq_some ho]
  cases hget : f.get o tick with
  | error cause => exact .fail _
  | ok v =>
    have hheld : h.Holds v := (hp.closedOn hw).fields r o ho f (hot ▸ hf) tick v hget
    have hrec := hp.record ho (hot.trans ht)
    rw [ht] at hf
    obtain ⟨place, -, hlies⟩ := hrec.fields.exists_of_mem_left hf
    exact .copyOrFail hheld fun w =>
      .edit (fun o o' _ ho => (hlies.set_eq_ok (Except.ok_of_mapError ho)).1) hrest

end Builtin

namespace Setting

structure Settles (c : Setting) (h : Heap) (bound : Nat) (s s' : CopyState) : Prop where
  sane : c.Sane h s'
  keeps : s.heap.Keeps bound s'.heap
  grows : s.memo.Extends s'.memo
  logs : s.journal <:+ s'.journal
  settled : ∀ r k, s'.memo.get? r = some k → s.memo.get? r = none →
    c.Mirrored h s' r k ∨ Abandoned s'.journal r

variable {c : Setting} {h : Heap} {bound : Nat} {s s' s₁ s₂ : CopyState} {r k : Ref} {v w : Value}

theorem Carries.settles (hc : c.Carries h bound s s') (hj : s.journal <:+ s'.journal) :
    c.Settles h bound s s' :=
  ⟨hc.sane, hc.keeps, hc.grows, hj, fun r k hk hn => .inl (hc.mirrored r k hk hn)⟩

namespace Settles

theorem refl (hs : c.Sane h s) (bound : Nat) : c.Settles h bound s s :=
  (Carries.refl hs bound).settles (List.suffix_refl _)

theorem along (hc : c.Settles h bound s s₁) (hk : s₂.known.Sound c.types c.sharing)
    (hobj : s₂.heap.objects = s₁.heap.objects) (hm : s₂.memo = s₁.memo)
    (hj : s₁.journal <:+ s₂.journal) : c.Settles h bound s s₂ := by
  have hstep : c.Carries h bound s₁ s₂ := (Carries.refl hc.sane bound).along hk hobj hm
  have hget : ∀ k, s₂.heap.get? k = s₁.heap.get? k := fun k => by rw [Heap.get?, hobj, Heap.get?]
  refine ⟨hstep.sane, Heap.Keeps.trans hc.keeps hstep.keeps, hc.grows.trans hstep.grows,
    hc.logs.trans hj, fun r k hr hn => ?_⟩
  rw [hm] at hr
  exact (hc.settled r k hr hn).imp (·.mono (hget k) hstep.grows) (·.mono hj)

theorem request (hc : c.Settles h bound s s₁) (hb : bound ≤ s₁.heap.size)
    (hn : c.Settles h s₁.heap.size s₁ s₂) : c.Settles h bound s s₂ := by
  refine ⟨hn.sane, Heap.Keeps.trans hc.keeps (hn.keeps.mono hb), hc.grows.trans hn.grows,
    hc.logs.trans hn.logs, fun r k hk hnone => ?_⟩
  cases hr : s₁.memo.get? r with
  | none => exact hn.settled r k hk hr
  | some l =>
    obtain rfl : l = k := Option.some.inj ((hn.grows r l hr).symm.trans hk)
    have hlt := (hc.sane.copy r l hr).1.address_lt
    exact (hc.settled r l hr hnone).imp (·.mono (hn.keeps.get?_eq l hlt) hn.grows) (·.mono hn.logs)

theorem put (hc : c.Settles h k.address s s₁) (hk : s.memo.get? r = some k) {o : Object}
    (ho : o.type = k.type) : c.Settles h k.address s (s₁.withHeap (s₁.heap.put k o)) := by
  have hstep := (Carries.refl hc.sane k.address).put (hc.grows r k hk) ho
  refine ⟨hstep.sane, Heap.Keeps.trans hc.keeps hstep.keeps, hc.grows, hc.logs,
    fun q l hq hnone => ?_⟩
  have hne : k.address ≠ l.address := by
    intro heq
    obtain rfl := hc.sane.injective r q k l (hc.grows r k hk) hq heq
    rw [hk] at hnone
    cases hnone
  exact (hc.settled q l hq hnone).imp (·.mono (Heap.get?_put_ne hne) (Memo.Extends.refl _)) id

def By (c : Setting) (h : Heap) (copy : Value → CopyM Value) : Prop :=
  ∀ v s, h.Holds v → c.Sane h s → c.Settles h s.heap.size s (copy v s).2

theorem run {copy : Value → CopyM Value} (hcopy : By c h copy) {script : Script}
    (hs : script.Fills h k) (hc : c.Settles h k.address s s₁) (hk : s.memo.get? r = some k) :
    c.Settles h k.address s (script.run c.types copy s₁).2 := by
  have hhas : ∀ {s₁}, c.Settles h k.address s s₁ → s₁.heap.Has k :=
    fun hc => (hc.sane.copy r k (hc.grows r k hk)).1
  induction hs generalizing s₁ with
  | done => exact hc
  | fail e => exact hc
  | look _ ih =>
    exact ih s₁.heap s₁.heap.clock hc.sane.keeps (hhas hc)
      (hc.along hc.sane.known rfl rfl (List.suffix_refl _))
  | put ho _ ih => exact ih (hc.put hk ho)
  | @copy v next hv _ ih =>
    have hask := hc.request (hhas hc).address_lt.le (hcopy v s₁ hv hc.sane)
    simp only [Script.run]
    generalize copy v s₁ = out at hask
    obtain ⟨answer, s₂⟩ := out
    cases answer with
    | ok w => exact ih (.ok w) hask
    | error e =>
      cases e with
      | failed e => exact ih (.error e) hask
      | cutOff => exact hask

end Settles

variable {path : TypeId → String} {layouts : Nat → Layout} {copy : Value → CopyM Value} {depth : Nat}

theorem complete_settles (hcopy : Settles.By c h copy) (hs : c.Sane h s) {known : Knowledge}
    (hk : known.Sound c.types c.sharing) (hr : h.Has r)
    (hi : ¬ c.sharing.Immutable c.types (c.types.describe r.type)) (hm : s.memo.get? r = none)
    {shell : Object} {target : Ref}
    (hmake : CopyM.make shell (s.opening r depth known) = (.ok target, s₁))
    (hshell : shell.type = r.type) {script : Script}
    (hfill : target.type = r.type → script.Fills h target) {e : Halt}
    (hrun : c.complete copy r target script s₁ = (.error e, s')) :
    c.Settles h s.heap.size s (s'.note (.answered r (.error e))) := by
  obtain ⟨rfl, rfl⟩ : (((s.opening r depth known).heap.alloc shell).1 = target) ∧
      (s.opening r depth known).withHeap ((s.opening r depth known).heap.alloc shell).2 = s₁ := by
    cases hmake
    exact ⟨rfl, rfl⟩
  have hopen : c.Settles h s.heap.size s (s.opening r depth known) :=
    (Settles.refl hs s.heap.size).along hk rfl rfl (List.suffix_cons _ _)
  rw [complete_apply] at hrun
  have hgo := Settles.run hcopy (hfill hshell)
    (Settles.refl (hopen.sane.recording hr hi hshell) _) (Memo.get?_put_self _ _ _)
  generalize script.run c.types copy _ = out at hrun hgo
  obtain ⟨res, s₂⟩ := out
  cases res with
  | ok _ => cases hrun
  | error e' =>
    cases hrun
    have hrec : c.Settles h _ _ (s'.note (.answered r (.error e))) :=
      hgo.along hgo.sane.known rfl rfl (List.suffix_cons _ _)
    refine hopen.request le_rfl ⟨hrec.sane, (Heap.keeps_alloc le_rfl shell).trans hrec.keeps, ?_, ?_,
      fun q l hq hnone => ?_⟩
    · intro q l hq
      have hqr : q ≠ r := by
        rintro rfl
        rw [show (s.opening q depth known).memo = s.memo from rfl, hm] at hq
        cases hq
      exact hrec.grows q l ((Memo.get?_put_ne _ _ hqr).trans hq)
    · exact (List.suffix_cons _ _).trans hrec.logs
    · by_cases hqr : q = r
      · subst hqr
        exact .inr ⟨[], e, s'.journal, _, rfl, hgo.logs.subset (List.mem_cons_self ..)⟩
      · exact hrec.settled q l hq ((Memo.get?_put_ne _ _ hqr).trans hnone)

theorem duplicate_settles (hc : c.Plain) (ht : c.types.Coherent)
    (hp : c.types.PlainRecords path layouts h) (hw : h.WellFormed layouts)
    (hcopy : Settles.By c h copy) (hs : c.Sane h s) (hr : h.Has r)
    (hi : ¬ c.sharing.Immutable c.types (c.types.describe r.type)) (hm : s.memo.get? r = none)
    {e : Halt} (hrun : c.duplicate copy depth (c.types.describe r.type) r s = (.error e, s')) :
    c.Settles h s.heap.size s (s'.note (.answered r (.error e))) := by
  have hclosed := hp.closedOn hw
  have ⟨o, ho, hot⟩ := hr
  have hos := hs.keeps.get?_eq_some ho
  have hdup := duplicate_duplication ht hs.known copy depth hos
  rw [hrun] at hdup
  generalize hout : (Except.error e, s') = out at hdup
  cases hdup with
  | refused hk =>
    cases hout
    exact (Settles.refl hs _).along hk rfl rfl ((List.suffix_cons _ _).trans (List.suffix_cons _ _))
  | @byStrategy known σ shell target s₁ hk hσ hshell hmake =>
    rw [hc.strategies] at hσ
    rcases Registry.builtin_selects hp hr hi hσ with ⟨ht, rfl⟩ | ⟨ht | ht, rfl⟩ | ⟨ht, rfl⟩
    · obtain ⟨a, rfl⟩ := Object.exists_array (hot.trans ht)
      have hat : Strategy.arrayAt s.heap r = some a := Strategy.arrayAt_eq_some.mpr ⟨ht, hos⟩
      simp only [Strategy.array, hat, Except.ok.injEq] at hshell
      subst hshell
      exact complete_settles hcopy hs hk hr hi hm hmake ht.symm
        (fun _ => Strategy.array_fills hclosed hr) hout.symm
    · obtain ⟨items, rfl⟩ := Object.exists_list (hot.trans ht)
      simp only [Strategy.collection, ht, hos, Types.info, Except.ok.injEq] at hshell
      subst hshell
      exact complete_settles hcopy hs hk hr hi hm hmake ht.symm
        (fun hkt => Strategy.collection_fills hclosed hr (.inl ht) hkt) hout.symm
    · obtain ⟨m, rfl⟩ := Object.exists_set (hot.trans ht)
      simp only [Strategy.collection, ht, hos, Types.info, Except.ok.injEq] at hshell
      subst hshell
      exact complete_settles hcopy hs hk hr hi hm hmake ht.symm
        (fun hkt => Strategy.collection_fills hclosed hr (.inr ht) hkt) hout.symm
    · obtain ⟨m, rfl⟩ := Object.exists_map (hot.trans ht)
      simp only [Strategy.map, ht, hos, Types.info, Except.ok.injEq] at hshell
      subst hshell
      exact complete_settles hcopy hs hk hr hi hm hmake ht.symm
        (fun hkt => Strategy.map_fills hclosed hr ht hkt) hout.symm
  | @byStructure known o' shell target s₁ hk hskip ho' hshell hmake =>
    obtain ⟨i, ht⟩ := Registry.host_of_builtin_skips (hc.strategies ▸ hskip)
    obtain rfl : o = o' := Option.some.inj (hos.symm.trans ho')
    rw [ht] at hshell
    have hrec := hp.record ho (hot.trans ht)
    have htype := structuralShell_type hrec.breeds (hot.trans ht) hshell
    exact complete_settles hcopy hs hk hr hi hm hmake (htype.trans ht.symm)
      (fun _ => copyFields_fills hp hw hr ht) hout.symm
  | original hk => cases hout

theorem cloneRefWith_settles (hc : c.Plain) (ht : c.types.Coherent)
    (hp : c.types.PlainRecords path layouts h) (hw : h.WellFormed layouts)
    (hcopy : Settles.By c h copy) (hs : c.Sane h s) (hr : h.Has r) {e : Halt}
    (hrun : c.cloneRefWith copy depth r s = (.error e, s')) : c.Settles h s.heap.size s s' := by
  have hask : ∀ {known : Knowledge}, known.Sound c.types c.sharing →
      c.Settles h s.heap.size s ((s.note (.asked r)).knowing known) :=
    fun hk => (Settles.refl hs _).along hk rfl rfl (List.suffix_cons _ _)
  have hres := resolve_resolution ht (s := s.note (.asked r)) hs.known copy depth r
  unfold cloneRefWith CopyM.answering at hrun
  generalize c.resolve copy depth r (s.note (.asked r)) = out at hres hrun
  cases hres with
  | shared hk hi => cases hrun
  | recalled hk hi hm => cases hrun
  | tooDeep hk hi hm hl hd =>
    cases hrun
    exact (hask hk).along hk rfl rfl (List.suffix_cons _ _)
  | @duplicated known hk hi hm hl =>
    generalize hdup : c.duplicate copy depth _ r _ = out at hrun
    obtain ⟨res, s₁⟩ := out
    cases res with
    | ok l => cases hrun
    | error e' =>
      cases hrun
      exact (hask hk).request le_rfl
        (duplicate_settles hc ht hp hw hcopy (hask hk).sane hr hi hm hdup)

/-- Whatever a request comes to, what it recorded mirrors its source or is abandoned. -/
theorem cloneWithin_settles (hc : c.Plain) (ht : c.types.Coherent)
    (hp : c.types.PlainRecords path layouts h) (hw : h.WellFormed layouts) (n depth : Nat) :
    Settles.By c h (c.cloneWithin n depth) := by
  induction n generalizing depth with
  | zero =>
    intro v s _ hs
    cases v <;> exact .refl hs _
  | succ n ih =>
    intro v s hv hs
    have hlogs := cloneWithin_logs (c := c) (n + 1) depth v s
    have hok := cloneWithin_answers hc ht hp hw (n + 1) depth v s
    cases v with
    | object r =>
      simp only [cloneWithin, CopyM.bind_apply] at hlogs hok ⊢
      generalize hout : c.cloneRefWith (c.cloneWithin n (depth + 1)) depth r s = out at hlogs hok ⊢
      obtain ⟨res, s'⟩ := out
      cases res with
      | ok k => exact (hok _ _ hv hs rfl).1.settles hlogs
      | error e => exact cloneRefWith_settles hc ht hp hw (ih (depth + 1)) hs (hv r rfl) hout
    | _ => exact .refl hs _

end Setting
end GraphCopy
