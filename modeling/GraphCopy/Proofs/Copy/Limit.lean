import GraphCopy.Proofs.Copy.Journal
import GraphCopy.Proofs.Copy.Nesting

/-!
# Copying with a limit on the depth

A piece of copying follows another with the limit `n` if it does the same as
long as the other keeps within `n`, and fails with the limit as soon as the
other goes deeper. The same call with a limit follows the call without one:
on the way out every script hands the failure on, arrays included.
-/

namespace GraphCopy

open Journal

namespace CopyM

variable {α β : Type} {n : Nat}

structure Follows (n : Nat) (x y : CopyM α) : Prop where
  logs : x.Logs
  free : ∀ s e, (x s).1 = .error (.failed e) → e.Shallow
  same : ∀ s, Within n (x s).2.journal → y s = x s
  exceeds : ∀ s, Within n s.journal → ¬ Within n (x s).2.journal →
    (y s).1 = .error (.failed (.depthExceeded n))

theorem follows_self {x : CopyM α} (hl : x.Logs)
    (hq : ∀ s, Within n s.journal → Within n (x s).2.journal)
    (hf : ∀ s e, (x s).1 = .error (.failed e) → e.Shallow) : Follows n x x :=
  ⟨hl, hf, fun _ _ => rfl, fun s hs hd => absurd (hq s hs) hd⟩

theorem follows_pure (a : α) : Follows n (pure a : CopyM α) (pure a) :=
  follows_self (logs_pure a) (fun _ => id) nofun

theorem follows_fail {e : CopyError} (he : e.Shallow) : Follows n (fail e : CopyM α) (fail e) := by
  apply follows_self (logs_fail e) fun _ => id
  rintro s _ ⟨⟩
  exact he

theorem follows_cutOff : Follows n (throw .cutOff : CopyM α) (throw .cutOff) :=
  follows_self (fun _ => List.suffix_refl _) (fun _ => id) nofun

theorem follows_get : Follows n get get := follows_self logs_get (fun _ => id) nofun

theorem follows_learn (f : Knowledge → α × Knowledge) : Follows n (learn f) (learn f) :=
  follows_self (logs_learn f) (fun _ => id) nofun

theorem follows_look : Follows n look look := follows_self logs_look (fun _ => id) nofun

theorem follows_make (o : Object) : Follows n (make o) (make o) :=
  follows_self (logs_make o) (fun _ => id) nofun

theorem follows_register (source copy : Ref) :
    Follows n (register source copy) (register source copy) :=
  follows_self (logs_register source copy) (fun _ hs => hs.cons nofun) nofun

theorem follows_put (target : Ref) (o : Object) :
    Follows n (modify fun s => { s with heap := s.heap.put target o } : CopyM PUnit)
      (modify fun s => { s with heap := s.heap.put target o }) :=
  follows_self (fun _ => List.suffix_refl _) (fun _ => id) nofun

theorem follows_begin {depth : Nat} (hd : depth < n) (source : Ref) :
    Follows n (modify fun s => s.note (.opened source depth) : CopyM PUnit)
      (modify fun s => s.note (.opened source depth)) := by
  refine follows_self (fun _ => List.suffix_cons _ _) (fun s hs => hs.cons ?_) nofun
  rintro _ _ ⟨⟩
  exact hd

def onward (x : CopyM α) (k : Except Halt α → CopyM β) : CopyM β := fun s => k (x s).1 (x s).2

theorem bind_eq_onward (x : CopyM α) (f : α → CopyM β) :
    x >>= f = x.onward fun
      | .ok a => f a
      | .error e => throw e := by
  funext s
  rw [bind_apply, onward]
  cases x s with
  | mk answer t => cases answer <;> rfl

/-- After the first piece either both go on in the same state, or the second has failed and goes on
failing. -/
theorem Follows.onward {x y : CopyM α} {k l : Except Halt α → CopyM β} (hxy : Follows n x y)
    (hkl : ∀ s, Follows n (k (x s).1) (l (x s).1))
    (hdeep : ∀ t, (l (.error (.failed (.depthExceeded n))) t).1 =
      .error (.failed (.depthExceeded n))) : Follows n (x.onward k) (y.onward l) := by
  refine ⟨fun s => ?_, fun s => (hkl s).free _, fun s hw => ?_, fun s hs hd => ?_⟩
  · exact (hxy.logs s).trans ((hkl s).logs _)
  · have hsame := hxy.same s (hw.of_suffix ((hkl s).logs _))
    simp only [CopyM.onward, hsame]
    exact (hkl s).same _ hw
  · by_cases hw : Within n (x s).2.journal
    · have hsame := hxy.same s hw
      simp only [CopyM.onward, hsame]
      exact (hkl s).exceeds _ hw hd
    · have hexc := hxy.exceeds s hs hw
      simp only [CopyM.onward, hexc]
      exact hdeep _

theorem Follows.bindOf {x y : CopyM α} {f g : α → CopyM β} (hxy : Follows n x y)
    (hfg : ∀ s a t, x s = (.ok a, t) → Follows n (f a) (g a)) : Follows n (x >>= f) (y >>= g) := by
  rw [bind_eq_onward, bind_eq_onward]
  apply hxy.onward
  · intro s
    have hfree := hxy.free s
    cases hx : x s with
    | mk answer t =>
      rw [hx] at hfree
      cases answer with
      | ok a => exact hfg s a t hx
      | error e =>
        cases e with
        | failed e => exact follows_fail (hfree e rfl)
        | cutOff => exact follows_cutOff
  · exact fun t => rfl

theorem Follows.bind {x y : CopyM α} {f g : α → CopyM β} (hxy : Follows n x y)
    (hfg : ∀ a, Follows n (f a) (g a)) : Follows n (x >>= f) (y >>= g) :=
  hxy.bindOf fun _ a _ _ => hfg a

theorem follows_realize (shell : Shell) : Follows n (realize shell) (realize shell) := by
  induction shell with
  | existing r => exact follows_pure r
  | fresh o => exact follows_make o
  | part o next ih => exact (follows_make o).bind ih

theorem Follows.answering {x y : CopyM Ref} (hxy : Follows n x y) (source : Ref) :
    Follows n (answering source x) (answering source y) := by
  have hask : ∀ {s : CopyState}, Within n s.journal → Within n (s.note (.asked source)).journal :=
    fun hs => hs.cons nofun
  have hback : ∀ s, Within n (CopyM.answering source x s).2.journal →
      Within n (x (s.note (.asked source))).2.journal :=
    fun s hs => hs.of_suffix (List.suffix_cons _ _)
  refine ⟨hxy.logs.answering source, fun s => hxy.free _, fun s hw => ?_, fun s hs hd => ?_⟩
  · simp only [CopyM.answering, hxy.same _ (hback s hw)]
  · refine hxy.exceeds _ (hask hs) fun hw => hd (hw.cons nofun)

end CopyM

open CopyM

variable {n : Nat} {copy copy' : Value → CopyM Value}

theorem Script.run_copy (types : Types) (copy : Value → CopyM Value) (v : Value)
    (next : Except CopyError Value → Script) :
    (Script.copy v next).run types copy = (copy v).onward fun
      | .ok w => (next (.ok w)).run types copy
      | .error (.failed e) => (next (.error e)).run types copy
      | .error .cutOff => throw .cutOff := by
  funext s
  simp only [run, onward]
  cases copy v s with
  | mk answer t =>
    cases answer with
    | ok w => rfl
    | error e => cases e <;> rfl

theorem Script.run_follows {types : Types} (hcopy : ∀ v, Follows n (copy v) (copy' v))
    {script : Script} (hs : script.Proper (fun _ => True) 0 fun _ => True) :
    Follows n (script.run types copy) (script.run types copy') := by
  induction hs with
  | done => exact follows_pure ()
  | fail he => exact follows_fail he
  | look _ ih => exact follows_look.bind fun seen => ih seen.1 seen.2 trivial
  | put ht _ ih => exact (follows_put _ _).bind fun _ => ih
  | @copy v next _ _ herr hdeep ih =>
    rw [run_copy, run_copy]
    apply (hcopy v).onward
    · intro s
      have hfree := (hcopy v).free s
      cases hanswer : (copy v s).1 with
      | ok w => exact ih w
      | error e =>
        cases e with
        | cutOff => exact follows_cutOff
        | failed e =>
          obtain ⟨e', he', hfail⟩ := herr e (hfree e hanswer)
          dsimp only
          rw [hfail]
          exact follows_fail he'
    · intro t
      dsimp only
      rw [hdeep]
      rfl

namespace Setting

def limited (c : Setting) (limit : Option Nat) : Setting :=
  { c with options := { c.options with maxDepth := limit } }

variable {c : Setting}

theorem isMeantFor_follows (σ : Strategy) (r : Ref) :
    Follows n ((c.limited none).isMeantFor σ r) ((c.limited (some n)).isMeantFor σ r) := by
  unfold isMeantFor
  cases σ.guard with
  | immutableType => exact follows_learn _
  | holds p => exact follows_get.bind fun s => follows_pure _

theorem findStrategy_follows (r : Ref) (rs : Registry) :
    Follows n ((c.limited none).findStrategy r rs) ((c.limited (some n)).findStrategy r rs) := by
  induction rs with
  | nil => exact follows_pure none
  | cons σ rest ih =>
    apply (isMeantFor_follows σ r).bind
    intro meant
    cases meant with
    | true => exact follows_pure _
    | false => exact ih

theorem complete_follows (hcopy : ∀ v, Follows n (copy v) (copy' v)) (source target : Ref)
    {script : Script} (hs : script.Proper (fun _ => True) 0 fun _ => True) :
    Follows n ((c.limited none).complete copy source target script)
      ((c.limited (some n)).complete copy' source target script) := by
  apply (follows_register source target).bind
  intro _
  apply (Script.run_follows hcopy hs).bind
  exact fun _ => follows_pure target

theorem copyByStructure_follows (hcopy : ∀ v, Follows n (copy v) (copy' v)) (d : Descriptor)
    (source : Ref) : Follows n ((c.limited none).copyByStructure copy d source)
      ((c.limited (some n)).copyByStructure copy' d source) := by
  apply follows_look.bind
  rintro ⟨h, tick⟩
  dsimp only
  cases h.get? source with
  | none => exact follows_pure source
  | some o =>
    have hsame : (c.limited (some n)).structuralShell d tick o =
        (c.limited none).structuralShell d tick o := rfl
    dsimp only
    rw [hsame]
    cases hshell : (c.limited none).structuralShell d tick o with
    | error e => exact follows_fail (structuralShell_shallow hshell)
    | ok made =>
      cases made with
      | none => exact (follows_register source source).bind fun _ => follows_pure source
      | some shell =>
        apply (follows_make shell).bind
        intro target
        exact complete_follows hcopy _ _
          (copyFields_proper (Nat.zero_le _) fun _ _ _ _ _ _ _ _ _ => trivial)

theorem instantiateBy_follows {σ : Strategy} (hσ : σ ∈ Registry.builtin) (source : Ref) :
    Follows n ((c.limited none).instantiateBy σ source)
      ((c.limited (some n)).instantiateBy σ source) := by
  apply follows_look.bind
  rintro ⟨h, tick⟩
  have hsame : σ.shell (c.limited (some n)).types h tick source =
      σ.shell (c.limited none).types h tick source := rfl
  dsimp only
  rw [hsame]
  cases hshell : σ.shell (c.limited none).types h tick source with
  | ok shell => exact follows_realize shell
  | error e => exact follows_fail (Strategy.builtin_shell_shallow hσ hshell)

theorem copyByStrategy_follows (hcopy : ∀ v, Follows n (copy v) (copy' v)) {rs : Registry}
    (hrs : rs ⊆ .builtin) (source : Ref) :
    Follows n ((c.limited none).copyByStrategy copy rs source)
      ((c.limited (some n)).copyByStrategy copy' rs source) := by
  apply (findStrategy_follows source rs).bindOf
  intro s found t hfind
  cases found with
  | none => exact follows_pure none
  | some σ =>
    have hσ := hrs (findStrategy_mem hfind)
    apply (instantiateBy_follows hσ source).bind
    intro target
    apply (complete_follows hcopy source target
      (Strategy.builtin_fill_proper hσ (Nat.zero_le _))).bind
    exact fun _ => follows_pure _

theorem body_follows (hc : c.strategies = .builtin) (hcopy : ∀ v, Follows n (copy v) (copy' v))
    (d : Descriptor) (source : Ref) :
    Follows n
      (do
        match ← (c.limited none).copyByStrategy copy c.strategies source with
        | some target => pure target
        | none => (c.limited none).copyByStructure copy d source)
      (do
        match ← (c.limited (some n)).copyByStrategy copy' c.strategies source with
        | some target => pure target
        | none => (c.limited (some n)).copyByStructure copy' d source) := by
  have hrs : c.strategies ⊆ .builtin := hc ▸ List.Subset.refl _
  apply (copyByStrategy_follows hcopy hrs source).bind
  intro found
  cases found with
  | some target => exact follows_pure target
  | none => exact copyByStructure_follows hcopy d source

theorem resolve_follows (hc : c.strategies = .builtin) (hcopy : ∀ v, Follows n (copy v) (copy' v))
    (depth : Nat) (source : Ref) : Follows n ((c.limited none).resolve copy depth source)
      ((c.limited (some n)).resolve copy' depth source) := by
  apply (follows_learn _).bind
  intro d
  apply (follows_learn _).bind
  intro immutable
  cases immutable with
  | true => exact follows_pure source
  | false =>
    apply follows_get.bind
    intro s
    cases s.memo.get? source with
    | some known => exact follows_pure known
    | none =>
      have hbody := body_follows hc hcopy d source
      simp only [limited]
      split_ifs with hn
      · -- the duplication begins at a depth that the limit does not allow
        have hlogs := duplicate_logs (c := c.limited none) (fun v => (hcopy v).logs) depth d source
        have hbegins : ∀ s, ¬ Within n ((c.limited none).duplicate copy depth d source s).2.journal := by
          intro s hw
          have hopen := hbody.logs (s.note (.opened source depth))
          have hlt := hw source depth (hopen.mem (List.mem_cons_self ..))
          omega
        refine ⟨hlogs, fun s => hbody.free _, fun s hw => absurd hw (hbegins s), fun _ _ _ => rfl⟩
      · exact (follows_begin (Nat.lt_of_not_le hn) source).bind fun _ => hbody

theorem cloneWithin_follows (hc : c.strategies = .builtin) (fuel depth : Nat) (v : Value) :
    Follows n ((c.limited none).cloneWithin fuel depth v)
      ((c.limited (some n)).cloneWithin fuel depth v) := by
  induction fuel generalizing depth v with
  | zero =>
    cases v with
    | object r => exact follows_cutOff
    | _ => exact follows_pure _
  | succ fuel ih =>
    cases v with
    | object r =>
      apply ((resolve_follows hc (ih (depth + 1)) depth r).answering r).bind
      exact fun k => follows_pure _
    | _ => exact follows_pure _

end Setting
end GraphCopy
