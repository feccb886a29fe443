import GraphCopy.Copy.Cloner

/-!
# The journal only grows

Whatever strategies a cloner has and however a call ends, what the journal
said before the call it says afterwards: events are put before it and none is
taken away.
-/

namespace GraphCopy

namespace CopyM

def Logs {α : Type} (x : CopyM α) : Prop := ∀ s, s.journal <:+ (x s).2.journal

variable {α β : Type} {x : CopyM α}

theorem logs_pure (a : α) : (pure a : CopyM α).Logs := fun _ => List.suffix_refl _

theorem logs_fail (e : CopyError) : (fail e : CopyM α).Logs := fun _ => List.suffix_refl _

theorem Logs.bind {f : α → CopyM β} (hx : x.Logs) (hf : ∀ a, (f a).Logs) : (x >>= f).Logs := by
  intro s
  have hxs := hx s
  rw [bind_apply]
  generalize x s = out at hxs
  obtain ⟨res, s'⟩ := out
  cases res with
  | ok a => exact hxs.trans (hf a s')
  | error e => exact hxs

theorem logs_learn (f : Knowledge → α × Knowledge) : (learn f).Logs := fun _ => List.suffix_refl _

theorem logs_get : (get : CopyM CopyState).Logs := fun _ => List.suffix_refl _

theorem logs_look : look.Logs := fun _ => List.suffix_refl _

theorem logs_make (o : Object) : (make o).Logs := fun _ => List.suffix_refl _

theorem logs_register (source copy : Ref) : (register source copy).Logs :=
  fun _ => List.suffix_cons _ _

theorem logs_realize (shell : Shell) : (realize shell).Logs := by
  induction shell with
  | existing r => exact logs_pure r
  | fresh o => exact logs_make o
  | part o next ih => exact (logs_make o).bind ih

theorem Logs.answering {work : CopyM Ref} (hw : work.Logs) (source : Ref) :
    (answering source work).Logs :=
  fun s => (List.suffix_cons _ _).trans ((hw (s.note (.asked source))).trans (List.suffix_cons _ _))

end CopyM

open CopyM

theorem Script.run_logs {types : Types} {copy : Value → CopyM Value} (hc : ∀ v, (copy v).Logs)
    (script : Script) : (script.run types copy).Logs := by
  induction script with
  | done => exact logs_pure _
  | fail e => exact logs_fail e
  | look next ih => exact logs_look.bind fun seen => ih seen.1 seen.2
  | describe t next ih => exact (logs_learn _).bind ih
  | make o next ih => exact (logs_make o).bind ih
  | put target o next ih => exact Logs.bind (fun _ => List.suffix_refl _) fun _ => ih
  | copy v next ih =>
    intro s
    have hv := hc v s
    simp only [run]
    generalize copy v s = out at hv
    obtain ⟨res, s'⟩ := out
    cases res with
    | ok w => exact hv.trans (ih (.ok w) s')
    | error e =>
      cases e with
      | failed e => exact hv.trans (ih (.error e) s')
      | cutOff => exact hv

namespace Setting

variable {c : Setting} {copy : Value → CopyM Value}

theorem isMeantFor_logs (σ : Strategy) (r : Ref) : (c.isMeantFor σ r).Logs := by
  unfold isMeantFor
  cases σ.guard with
  | immutableType => exact logs_learn _
  | holds p => exact logs_get.bind fun _ => logs_pure _

theorem findStrategy_logs (r : Ref) (rs : Registry) : (c.findStrategy r rs).Logs := by
  induction rs with
  | nil => exact logs_pure none
  | cons σ rest ih =>
    refine (isMeantFor_logs σ r).bind fun b => ?_
    cases b with
    | true => exact logs_pure _
    | false => exact ih

theorem instantiateBy_logs (σ : Strategy) (source : Ref) : (c.instantiateBy σ source).Logs := by
  refine logs_look.bind ?_
  rintro ⟨h, tick⟩
  dsimp only
  cases σ.shell c.types h tick source with
  | ok shell => exact logs_realize shell
  | error e => exact logs_fail e

theorem complete_logs (hc : ∀ v, (copy v).Logs) (source target : Ref) (script : Script) :
    (c.complete copy source target script).Logs :=
  (logs_register source target).bind fun _ => (script.run_logs hc).bind fun _ => logs_pure target

theorem copyByStructure_logs (hc : ∀ v, (copy v).Logs) (d : Descriptor) (source : Ref) :
    (c.copyByStructure copy d source).Logs := by
  refine logs_look.bind ?_
  rintro ⟨h, tick⟩
  dsimp only
  cases h.get? source with
  | none => exact logs_pure source
  | some o =>
    dsimp only
    cases c.structuralShell d tick o with
    | error e => exact logs_fail e
    | ok made =>
      cases made with
      | none => exact (logs_register source source).bind fun _ => logs_pure source
      | some shell => exact (logs_make shell).bind fun target => complete_logs hc _ _ _

theorem copyByStrategy_logs (hc : ∀ v, (copy v).Logs) (rs : Registry) (source : Ref) :
    (c.copyByStrategy copy rs source).Logs := by
  refine (findStrategy_logs source rs).bind fun found => ?_
  cases found with
  | none => exact logs_pure none
  | some σ =>
    exact (instantiateBy_logs σ source).bind fun target =>
      (complete_logs hc _ _ _).bind fun _ => logs_pure _

theorem duplicate_logs (hc : ∀ v, (copy v).Logs) (depth : Nat) (d : Descriptor) (source : Ref) :
    (c.duplicate copy depth d source).Logs := by
  refine Logs.bind (fun s => List.suffix_cons _ _) fun _ => ?_
  refine (copyByStrategy_logs hc _ _).bind fun found => ?_
  cases found with
  | none => exact copyByStructure_logs hc d source
  | some target => exact logs_pure target

theorem resolve_logs (hc : ∀ v, (copy v).Logs) (depth : Nat) (source : Ref) :
    (c.resolve copy depth source).Logs := by
  refine (logs_learn _).bind fun d => (logs_learn _).bind fun immutable => ?_
  cases immutable with
  | true => exact logs_pure source
  | false =>
    refine logs_get.bind fun s => ?_
    cases s.memo.get? source with
    | some known => exact logs_pure known
    | none =>
      dsimp only
      cases c.options.maxDepth with
      | none => exact duplicate_logs hc depth d source
      | some limit =>
        dsimp only
        split
        · exact logs_fail _
        · exact duplicate_logs hc depth d source

theorem cloneWithin_logs (n depth : Nat) (v : Value) : (c.cloneWithin n depth v).Logs := by
  induction n generalizing depth v with
  | zero => cases v <;> exact fun s => List.suffix_refl _
  | succ n ih =>
    cases v with
    | object r =>
      exact ((resolve_logs (ih (depth + 1)) depth r).answering r).bind fun _ => logs_pure _
    | _ => exact fun s => List.suffix_refl _

end Setting
end GraphCopy
