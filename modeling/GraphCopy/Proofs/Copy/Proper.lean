import GraphCopy.Proofs.Copy.Confinement

/-!
# The scripts of the built-in strategies

Whatever a script is shown by the heap, it is proper if it changes nothing
below a bound, asks only for values of a kind, and goes on after no error: it
fails, and it fails with the depth limit when it was answered so, and only
then. A proper script looks up no descriptions and makes no objects.

The built-in strategies and copying by structure fill their copies by proper
scripts, for any types and on any heap.
-/

namespace GraphCopy

def CopyError.Shallow (e : CopyError) : Prop := ∀ limit, e ≠ .depthExceeded limit

namespace Script

inductive Proper (L : Heap → Prop) (bound : Nat) (A : Value → Prop) : Script → Prop
  | done : Proper L bound A .done
  | fail {e : CopyError} (he : e.Shallow) : Proper L bound A (.fail e)
  | look {next : Heap → Nat → Script} (hn : ∀ h tick, L h → Proper L bound A (next h tick)) :
      Proper L bound A (.look next)
  | put {target : Ref} {o : Object} {next : Script} (ht : bound ≤ target.address)
      (hn : Proper L bound A next) : Proper L bound A (.put target o next)
  | copy {v : Value} {next : Except CopyError Value → Script} (hv : A v)
      (hok : ∀ w, Proper L bound A (next (.ok w)))
      (herr : ∀ e : CopyError, e.Shallow → ∃ e' : CopyError, e'.Shallow ∧ next (.error e) = .fail e')
      (hdeep : ∀ limit, next (.error (.depthExceeded limit)) = .fail (.depthExceeded limit)) :
      Proper L bound A (.copy v next)

theorem exists_fail {next : Except CopyError Value → Script}
    (herr : ∀ e : CopyError, e.Shallow → ∃ e' : CopyError, e'.Shallow ∧ next (.error e) = .fail e')
    (hdeep : ∀ limit, next (.error (.depthExceeded limit)) = .fail (.depthExceeded limit))
    (e : CopyError) : ∃ e', next (.error e) = .fail e' := by
  by_cases he : e.Shallow
  · obtain ⟨e', -, hfail⟩ := herr e he
    exact ⟨e', hfail⟩
  · obtain ⟨limit, rfl⟩ := not_forall_not.mp he
    exact ⟨_, hdeep limit⟩

variable {L : Heap → Prop} {bound : Nat} {A : Value → Prop}

theorem Proper.each {α : Type} {step : α → Script → Script} {xs : List α}
    (hs : ∀ a ∈ xs, ∀ rest, Proper L bound A rest → Proper L bound A (step a rest)) :
    Proper L bound A (Script.each step xs) := by
  induction xs with
  | nil => exact .done
  | cons a xs ih =>
    apply hs a (List.mem_cons_self ..)
    exact ih fun b hb => hs b (List.mem_cons_of_mem a hb)

theorem Proper.copyOrFail {v : Value} {next : Value → Script} (hv : A v)
    (hn : ∀ w, Proper L bound A (next w)) : Proper L bound A (Script.copyOrFail v next) :=
  .copy hv hn (fun e he => ⟨e, he, rfl⟩) fun _ => rfl

theorem Proper.edit {target : Ref} {change : Object → Except CopyError Object} {next : Script}
    (ht : bound ≤ target.address) (hc : ∀ o e, change o = .error e → e.Shallow)
    (hn : Proper L bound A next) : Proper L bound A (Script.edit target change next) := by
  apply Proper.look
  intro h tick _
  cases h.get? target with
  | none => exact hn
  | some o =>
    cases ho : change o with
    | ok o' => simpa only [ho] using Proper.put ht hn
    | error e => simpa only [ho] using Proper.fail (hc o e ho)

end Script

theorem CopyError.shallow_instantiation (name cause : String) :
    (CopyError.instantiation name cause).Shallow := by
  intro limit h
  cases h

theorem CopyError.shallow_fieldAccess (name field cause : String) :
    (CopyError.fieldAccess name field cause).Shallow := by
  intro limit h
  cases h

theorem CopyError.shallow_of_mapError {α ε : Type} {x : Except ε α} {f : ε → CopyError}
    (hf : ∀ e, (f e).Shallow) {e : CopyError} (h : x.mapError f = .error e) : e.Shallow := by
  cases x with
  | ok a => cases h
  | error e' =>
    cases h
    exact hf e'

namespace Strategy

variable {types : Types} {L : Heap → Prop} {bound : Nat} {A : Value → Prop} {source target : Ref}

theorem arrayFailure_shallow {e : CopyError} (he : e.Shallow) : (arrayFailure e).Shallow := by
  cases e with
  | depthExceeded limit => exact absurd rfl (he limit)
  | _ => exact CopyError.shallow_instantiation _ _

theorem setItem_shallow {index : Nat} {w : Value} {o : Object} {e : CopyError}
    (h : setItem index w o = .error e) : e.Shallow := by
  cases o with
  | array a =>
    simp only [setItem] at h
    split at h
    · cases h
    · cases h
      exact CopyError.shallow_instantiation _ _
  | _ =>
    cases h
    exact CopyError.shallow_instantiation _ _

theorem array_proper (hb : bound ≤ target.address)
    (hA : ∀ h a, L h → arrayAt h source = some a → ∀ v ∈ a.items, A v) :
    (array.fill types source target).Proper L bound A := by
  apply Script.Proper.look
  intro h tick hL
  cases ha : arrayAt h source with
  | none => exact .fail (CopyError.shallow_instantiation _ _)
  | some a =>
    apply Script.Proper.each
    intro p hp rest hrest
    apply Script.Proper.copy
    · exact hA h a hL ha p.1 (List.fst_mem_of_mem_zipIdx hp)
    · exact fun w => .edit hb (fun o e => setItem_shallow) hrest
    · exact fun e he => ⟨arrayFailure e, arrayFailure_shallow he, rfl⟩
    · exact fun limit => rfl

theorem collection_proper (hb : bound ≤ target.address)
    (hA : ∀ h o c, L h → h.get? source = some o → (types.info source.type).collection = some c →
      ∀ v ∈ c.elements o, A v) : (collection.fill types source target).Proper L bound A := by
  apply Script.Proper.look
  intro h tick hL
  apply Script.Proper.each
  intro v hv rest hrest
  apply Script.Proper.copyOrFail
  · cases hcol : (types.info source.type).collection with
    | none => simp [hcol] at hv
    | some c =>
      cases ho : h.get? source with
      | none => simp [hcol, ho] at hv
      | some o =>
        simp only [hcol, ho] at hv
        exact hA h o c hL ho hcol v hv
  · intro w
    apply Script.Proper.edit hb _ hrest
    intro o e he
    cases hcol : (types.info target.type).collection with
    | none =>
      rw [hcol] at he
      cases he
      exact CopyError.shallow_instantiation _ _
    | some c =>
      rw [hcol] at he
      exact CopyError.shallow_of_mapError (CopyError.shallow_instantiation _) he

theorem map_proper (hb : bound ≤ target.address)
    (hA : ∀ h o m, L h → h.get? source = some o → (types.info source.type).map = some m →
      ∀ e ∈ m.entries o, A e.1 ∧ A e.2) : (map.fill types source target).Proper L bound A := by
  apply Script.Proper.look
  intro h tick hL
  apply Script.Proper.each
  intro e he rest hrest
  have hAe : A e.1 ∧ A e.2 := by
    cases hmap : (types.info source.type).map with
    | none => simp [hmap] at he
    | some m =>
      cases ho : h.get? source with
      | none => simp [hmap, ho] at he
      | some o =>
        simp only [hmap, ho] at he
        exact hA h o m hL ho hmap e he
  apply Script.Proper.copyOrFail hAe.1
  intro key
  apply Script.Proper.copyOrFail hAe.2
  intro value
  apply Script.Proper.edit hb _ hrest
  intro o e he
  cases hmap : (types.info target.type).map with
  | none =>
    rw [hmap] at he
    cases he
    exact CopyError.shallow_instantiation _ _
  | some m =>
    rw [hmap] at he
    exact CopyError.shallow_of_mapError (CopyError.shallow_instantiation _) he

theorem builtin_fill_proper {σ : Strategy} (hσ : σ ∈ Registry.builtin)
    (hb : bound ≤ target.address) :
    (σ.fill types source target).Proper (fun _ => True) bound fun _ => True := by
  simp only [Registry.builtin, List.mem_cons, List.not_mem_nil, or_false] at hσ
  rcases hσ with rfl | rfl | rfl | rfl | rfl
  · exact .done
  · exact array_proper hb fun _ _ _ _ _ _ => trivial
  · exact .done
  · exact collection_proper hb fun _ _ _ _ _ _ _ _ => trivial
  · exact map_proper hb fun _ _ _ _ _ _ _ _ => ⟨trivial, trivial⟩

theorem builtin_fresh {σ : Strategy} (hσ : σ ∈ Registry.builtin) {h : Heap} {tick : Nat}
    {shell : Shell} (hshell : σ.shell types h tick source = .ok shell) :
    σ = .immutable ∨ ∃ o, shell = .fresh o := by
  simp only [Registry.builtin, List.mem_cons, List.not_mem_nil, or_false] at hσ
  rcases hσ with rfl | rfl | rfl | rfl | rfl
  · exact .inl rfl
  all_goals
    simp only [array, selfClone, leaf, collection, map] at hshell
    split at hshell
    · exact .inr ⟨_, (Except.ok.inj hshell).symm⟩
    · cases hshell

theorem builtin_proper {σ : Strategy} (hσ : σ ∈ Registry.builtin) {h : Heap} {tick : Nat}
    {shell : Shell} (hshell : σ.shell types h tick source = .ok shell)
    (hy : shell.Yields bound target) :
    (σ.fill types source target).Proper (fun _ => True) bound fun _ => True := by
  rcases builtin_fresh hσ hshell with rfl | ⟨o, rfl⟩
  · exact .done
  · exact builtin_fill_proper hσ hy.1

theorem builtin_shell_shallow {σ : Strategy} (hσ : σ ∈ Registry.builtin) {h : Heap} {tick : Nat}
    {e : CopyError} (hshell : σ.shell types h tick source = .error e) : e.Shallow := by
  simp only [Registry.builtin, List.mem_cons, List.not_mem_nil, or_false] at hσ
  rcases hσ with rfl | rfl | rfl | rfl | rfl
  · cases hshell
  all_goals
    simp only [array, selfClone, leaf, collection, map] at hshell
    split at hshell
    · cases hshell
    · cases hshell
      exact CopyError.shallow_instantiation _ _

end Strategy

namespace Setting

variable {L : Heap → Prop} {bound : Nat} {A : Value → Prop} {source target : Ref} {d : Descriptor}

theorem copyFields_proper (hb : bound ≤ target.address)
    (hA : ∀ h o, L h → h.get? source = some o → ∀ f ∈ d.instanceFields, ∀ tick v,
      f.get o tick = .ok v → A v) : (copyFields d source target).Proper L bound A := by
  apply Script.Proper.each
  intro f hf rest hrest
  apply Script.Proper.look
  intro h tick hL
  cases ho : h.get? source with
  | none => exact hrest
  | some o =>
    dsimp only
    cases hget : f.get o tick with
    | error cause => exact .fail (CopyError.shallow_fieldAccess _ _ _)
    | ok v =>
      apply Script.Proper.copyOrFail (hA h o hL ho f hf tick v hget)
      intro w
      apply Script.Proper.edit hb _ hrest
      exact fun t e he => CopyError.shallow_of_mapError (CopyError.shallow_fieldAccess _ _) he

theorem structuralShell_shallow {c : Setting} {tick : Nat} {o : Object} {e : CopyError}
    (h : c.structuralShell d tick o = .error e) : e.Shallow := by
  simp only [structuralShell] at h
  split at h
  · cases h
  · split at h
    · cases h
    · simp only [fallbackShell] at h
      split at h
      · cases h
      · split at h
        · cases h
        · cases h
          exact CopyError.shallow_instantiation _ _

end Setting
end GraphCopy
