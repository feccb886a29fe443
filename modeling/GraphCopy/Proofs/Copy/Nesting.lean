import GraphCopy.Proofs.Copy.Conduct

/-!
# How many objects are copied at a time

Requests are nested: the journal tells which of them are open and for which of
these an object is being duplicated. An event says of itself how many others
are in the course of it; `cloneWithin_levelled` says that this is what the
nesting of the requests comes to, so that the largest number of objects that
are duplicated at a time can be read off the events.
-/

namespace GraphCopy

namespace Journal

/-- For every request without an answer, the latest first, whether its object is being duplicated. The
latest event of a journal comes first. -/
def openRequests : List Event → List Bool
  | [] => []
  | .asked _ :: earlier => false :: openRequests earlier
  | .opened _ _ :: earlier => true :: (openRequests earlier).tail
  | .recorded _ _ :: earlier => openRequests earlier
  | .answered _ _ :: earlier => (openRequests earlier).tail

def underway (journal : List Event) : Nat := (openRequests journal).count true

/-- The largest number of objects that were ever being duplicated at a time. -/
def peak : List Event → Nat
  | [] => 0
  | e :: earlier => max (underway (e :: earlier)) (peak earlier)

def Within (n : Nat) (journal : List Event) : Prop := ∀ r depth, .opened r depth ∈ journal → depth < n

variable {journal later : List Event} {n : Nat}

theorem underway_le_peak (journal : List Event) : underway journal ≤ peak journal := by
  cases journal with
  | nil => exact le_rfl
  | cons e earlier => exact le_max_left _ _

theorem Within.of_suffix (hw : Within n later) (h : journal <:+ later) : Within n journal :=
  fun r depth hr => hw r depth (h.mem hr)

theorem Within.cons {e : Event} (hw : Within n journal) (he : ∀ r depth, e = .opened r depth → depth < n) :
    Within n (e :: journal) := by
  intro r depth hr
  rcases List.mem_cons.mp hr with h | h
  · exact he r depth h.symm
  · exact hw r depth h

structure Levelled (requests : List Bool) (journal : List Event) : Prop where
  requests_eq : openRequests journal = requests
  peak_le : ∀ n, peak journal ≤ n ↔ Within n journal

namespace Levelled

variable {requests : List Bool} {b : Bool} (hl : Levelled requests journal)

theorem start : Levelled [] [] := ⟨rfl, fun n => ⟨fun _ => nofun, fun _ => n.zero_le⟩⟩

theorem peak_le_cons {e : Event} (hpeak : ∀ n, peak journal ≤ n ↔ Within n journal)
    (he : ∀ r depth, e ≠ .opened r depth) (hu : underway (e :: journal) ≤ underway journal) (n : Nat) :
    peak (e :: journal) ≤ n ↔ Within n (e :: journal) := by
  have hmax : peak (e :: journal) = peak journal :=
    max_eq_right (hu.trans (underway_le_peak journal))
  rw [hmax, hpeak n]
  constructor
  · exact fun hw => hw.cons fun r depth h => absurd h (he r depth)
  · exact fun hw => hw.of_suffix (List.suffix_cons e journal)

include hl

theorem ask (r : Ref) : Levelled (false :: requests) (.asked r :: journal) := by
  refine ⟨by rw [openRequests, hl.requests_eq], peak_le_cons hl.peak_le (by simp) ?_⟩
  simp [underway, openRequests]

theorem record (r k : Ref) : Levelled requests (.recorded r k :: journal) :=
  ⟨hl.requests_eq, peak_le_cons hl.peak_le (by simp) le_rfl⟩

omit hl in
theorem answer (hl : Levelled (b :: requests) journal) (r : Ref) (answer : Except Halt Ref) :
    Levelled requests (.answered r answer :: journal) := by
  refine ⟨by rw [openRequests, hl.requests_eq, List.tail_cons], ?_⟩
  apply peak_le_cons hl.peak_le (by simp)
  rw [underway, underway, openRequests]
  exact (List.tail_sublist _).count_le true

omit hl in
theorem begin (hl : Levelled (false :: requests) journal) (r : Ref) {depth : Nat}
    (hd : requests.count true = depth) :
    Levelled (true :: requests) (.opened r depth :: journal) := by
  have hopen : openRequests (.opened r depth :: journal) = true :: requests := by
    rw [openRequests, hl.requests_eq, List.tail_cons]
  refine ⟨hopen, fun n => ?_⟩
  have hunder : underway (.opened r depth :: journal) = depth + 1 := by
    rw [underway, hopen, List.count_cons_self, hd]
  rw [peak, max_le_iff, hunder, hl.peak_le n]
  constructor
  · rintro ⟨hlt, hw⟩
    apply hw.cons
    rintro _ _ ⟨⟩
    exact hlt
  · intro hw
    exact ⟨hw r depth (List.mem_cons_self ..), hw.of_suffix (List.suffix_cons _ _)⟩

end Levelled
end Journal

open Journal

theorem levelled_conduct (requests : List Bool) :
    Conduct 0 fun s t => Levelled requests s.journal → Levelled requests t.journal where
  refl _ := id
  trans hst htu h := htu (hst h)
  bound_le _ _ := Nat.zero_le _
  learn _ _ := id
  heap _ _ _ _ := id
  record _ source copy h := h.record source copy

namespace Setting

variable {c : Setting} {copy : Value → CopyM Value} {depth : Nat}

abbrev Levels (depth : Nat) {α : Type} (x : CopyM α) : Prop :=
  x.Obeys 0 fun s t => Levelled (.replicate depth true) s.journal →
    Levelled (.replicate depth true) t.journal

theorem duplicate_levelled (hc : c.strategies = .builtin) (hcopy : ∀ v, Levels (depth + 1) (copy v))
    (d : Descriptor) (source : Ref) {s : CopyState}
    (hs : Levelled (false :: .replicate depth true) s.journal) :
    Levelled (true :: .replicate depth true) (c.duplicate copy depth d source s).2.journal := by
  have hR := levelled_conduct (.replicate (depth + 1) true)
  apply hR.duplicate hcopy hc depth d source s (Nat.zero_le _)
  exact hs.begin source List.count_replicate_self

theorem resolve_levelled (hc : c.strategies = .builtin) (hcopy : ∀ v, Levels (depth + 1) (copy v))
    (source : Ref) {s : CopyState} (hs : Levelled (false :: .replicate depth true) s.journal) :
    ∃ b, Levelled (b :: .replicate depth true) (c.resolve copy depth source s).2.journal := by
  simp only [resolve, describe, isImmutable, CopyM.bind_apply, CopyM.learn_apply]
  generalize c.sharing.isImmutable c.types _ _ = verdict
  obtain ⟨immutable, known⟩ := verdict
  cases immutable with
  | true => exact ⟨false, hs⟩
  | false =>
    simp only [Bool.false_eq_true, if_false, CopyM.bind_apply, CopyM.get_apply]
    cases s.memo.get? source with
    | some known => exact ⟨false, hs⟩
    | none =>
      dsimp only
      cases c.options.maxDepth with
      | none => exact ⟨true, duplicate_levelled hc hcopy _ source hs⟩
      | some limit =>
        dsimp only
        split
        · exact ⟨false, hs⟩
        · exact ⟨true, duplicate_levelled hc hcopy _ source hs⟩

theorem cloneWithin_levelled (hc : c.strategies = .builtin) (n depth : Nat) (v : Value) :
    Levels depth (c.cloneWithin n depth v) := by
  induction n generalizing depth v with
  | zero => cases v <;> exact fun s _ => id
  | succ n ih =>
    have hR := levelled_conduct (.replicate depth true)
    cases v with
    | object r =>
      have hask : Levels depth (c.cloneRefWith (c.cloneWithin n (depth + 1)) depth r) := by
        intro s _ hs
        obtain ⟨b, hb⟩ := resolve_levelled hc (ih (depth + 1)) r (s := s.note (.asked r)) (hs.ask r)
        exact hb.answer r _
      exact hask.andThen hR fun k => hR.pure _
    | _ => exact fun s _ => id

end Setting
end GraphCopy
