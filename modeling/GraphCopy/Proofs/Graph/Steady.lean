import GraphCopy.Graph.Reachable
import GraphCopy.Proofs.Sharing.History

/-!
# What is known does not show

Descriptions and verdicts are kept, so a question is asked with more or less
known beforehand. As long as what is known is right, the answer is the same:
to questions on types, to the text of a graph, to comparisons and to walks.
-/

namespace GraphCopy

def Knowledge.Fixes {α : Type} (types : Types) (s : SharingRules) (f out : Knowledge → α) : Prop :=
  ∀ k, k.Sound types s → ∃ k', k'.Sound types s ∧ f k = out k'

def Knowledge.Determines {α : Type} (types : Types) (s : SharingRules)
    (f : Knowledge → α × Knowledge) : Prop :=
  ∃ a, Fixes types s f fun k => (a, k)

namespace Knowledge

variable {α β : Type} {types : Types} {s : SharingRules} {t : TypeId}

theorem Fixes.andThen {f mid : Knowledge → α} {g : α → β} {out : Knowledge → β}
    (hf : Fixes types s f mid) (hg : Fixes types s (fun k => g (mid k)) out) :
    Fixes types s (fun k => g (f k)) out := by
  intro k hk
  obtain ⟨k₁, hk₁, hfk⟩ := hf k hk
  obtain ⟨k₂, hk₂, hgk⟩ := hg k₁ hk₁
  exact ⟨k₂, hk₂, (congrArg g hfk).trans hgk⟩

theorem Fixes.done (out : Knowledge → α) : Fixes types s out out := fun k hk => ⟨k, hk, rfl⟩

theorem Determines.andThen {f : Knowledge → α × Knowledge} {g : α → Knowledge → β × Knowledge}
    (hf : Determines types s f) (hg : ∀ a, Determines types s (g a)) :
    Determines types s fun k => g (f k).1 (f k).2 := by
  obtain ⟨a, ha⟩ := hf
  obtain ⟨b, hb⟩ := hg a
  exact ⟨b, ha.andThen (g := fun out => g out.1 out.2) hb⟩

theorem Determines.map {f : Knowledge → α × Knowledge} (hf : Determines types s f) (g : α → β) :
    Determines types s fun k => (g (f k).1, (f k).2) :=
  hf.andThen fun a => ⟨g a, .done _⟩

theorem describe_fixed (t : TypeId) :
    Fixes types s (Knowledge.describe types t) fun k => (types.describe t, k) := by
  intro k hk
  exact ⟨_, hk.describe_snd t, Prod.ext (hk.describe_fst t) rfl⟩

open Classical in
theorem determines_of_judges {f : Knowledge → Bool × Knowledge} {P : Prop}
    (hf : ∀ k, k.Sound types s → s.Judges types (f k) P) : Determines types s f := by
  refine ⟨decide P, fun k hk => ?_⟩
  obtain ⟨hknown, hverdict⟩ := hf k hk
  refine ⟨_, hknown, Prod.ext (Bool.eq_iff_iff.mpr ?_) rfl⟩
  rw [hverdict, decide_eq_true_iff]

theorem isImmutable_determined (ht : types.Coherent) (t : TypeId) :
    Determines types s (s.isImmutable types (types.describe t)) :=
  determines_of_judges fun _ hk => SharingRules.isImmutable_judges ht hk

theorem query_determined (ht : types.Coherent) (q : Query) : Determines types s (q.evaluate types s) :=
  determines_of_judges fun _ hk => q.evaluate_judges ht hk

end Knowledge

open Knowledge

/-- What is written and visited does not depend on what is known. -/
def Rendering.Steady (types : Types) (s : SharingRules) (f : Tour → Rendering) : Prop :=
  ∀ seen, ∃ p seen', Fixes types s (fun k => f ⟨seen, k⟩) fun k => (p, ⟨seen', k⟩)

namespace Rendering

variable {types : Types} {s : SharingRules} {f : Tour → Rendering} {one : Value → Tour → Rendering}

theorem steady_written (p : List Piece) : Steady types s fun t => (p, t) :=
  fun seen => ⟨p, seen, .done _⟩

theorem Steady.andThen {g : List Piece → Tour → Rendering} (hf : Steady types s f)
    (hg : ∀ p, Steady types s (g p)) : Steady types s fun t => g (f t).1 (f t).2 := by
  intro seen
  obtain ⟨p, seen₁, hp⟩ := hf seen
  obtain ⟨q, seen₂, hq⟩ := hg p seen₁
  exact ⟨q, seen₂, hp.andThen (g := fun out => g out.1 out.2) hq⟩

variable (hone : ∀ v, Steady types s (one v))

include hone

theorem sequence_steady (sep : String) (vs : List Value) : Steady types s (sequence one sep vs) := by
  induction vs with
  | nil => exact steady_written []
  | cons v vs ih =>
    cases vs with
    | nil => exact hone v
    | cons w ws =>
      exact (hone v).andThen fun p => ih.andThen fun ps => steady_written (p ++ .plain sep :: ps)

theorem entry_steady (e : Value × Value) : Steady types s (entry one e) := by
  exact (hone e.1).andThen fun p => (hone e.2).andThen fun q => steady_written (p ++ .plain " => " :: q)

theorem entries_steady (es : List (Value × Value)) : Steady types s (entries one es) := by
  induction es with
  | nil => exact steady_written []
  | cons e es ih =>
    cases es with
    | nil => exact entry_steady hone e
    | cons f fs =>
      exact (entry_steady hone e).andThen fun p =>
        ih.andThen fun ps => steady_written (p ++ .plain ", " :: ps)

theorem field_steady (f : String × Option Value) : Steady types s (field one f) := by
  obtain ⟨name, v⟩ := f
  cases v with
  | none => exact steady_written [.plain (name ++ ": <unreadable>")]
  | some v => exact (hone v).andThen fun p => steady_written (.plain (name ++ ": ") :: p)

theorem fields_steady (fs : List (String × Option Value)) : Steady types s (fields one fs) := by
  induction fs with
  | nil => exact steady_written []
  | cons f fs ih =>
    cases fs with
    | nil => exact field_steady hone f
    | cons g gs =>
      exact (field_steady hone f).andThen fun p =>
        ih.andThen fun ps => steady_written (p ++ .plain ", " :: ps)

theorem shape_steady (sh : Shape) : Steady types s (shape one sh) := by
  cases sh with
  | sequence items =>
    exact (sequence_steady hone ", " items).andThen fun p => steady_written (.plain "[" :: p ++ [.plain "]"])
  | entries es =>
    exact (entries_steady hone es).andThen fun p =>
      steady_written (.plain "\x7b" :: p ++ [.plain "\x7d"])
  | record fs =>
    exact (fields_steady hone fs).andThen fun p =>
      steady_written (.plain "\x7b" :: p ++ [.plain "\x7d"])

end Rendering

namespace Scene

variable {s : Scene} (ht : s.types.Coherent)

include ht

theorem renderRef_steady {one : Value → Tour → Rendering}
    (hone : ∀ v, Rendering.Steady s.types s.sharing (one v)) (r : Ref) :
    Rendering.Steady s.types s.sharing (s.renderRef one r) := by
  intro seen
  -- the verdict is found before it is seen whether the object was visited
  obtain ⟨b, hb⟩ := isImmutable_determined ht (s := s.sharing) r.type
  cases hseen : seen.idxOf? r.address with
  | some i =>
    refine ⟨label (s.types.describe r.type) b r i ++ [.plain "^"], seen, fun k hk => ?_⟩
    obtain ⟨k', hk', hverdict⟩ := hb _ (hk.describe_snd r.type)
    exact ⟨k', hk', by simp only [renderRef, hk.describe_fst, hverdict, hseen]⟩
  | none =>
    let shape := s.heap.shape s.types (s.types.describe r.type) r
    obtain ⟨p, seen', hp⟩ := Rendering.shape_steady hone shape (seen ++ [r.address])
    refine ⟨label (s.types.describe r.type) b r seen.length ++ p, seen', fun k hk => ?_⟩
    obtain ⟨k₁, hk₁, hverdict⟩ := hb _ (hk.describe_snd r.type)
    obtain ⟨k₂, hk₂, hshape⟩ := hp k₁ hk₁
    exact ⟨k₂, hk₂, by simp only [renderRef, hk.describe_fst, hverdict, hseen, shape, hshape]⟩

theorem renderWithin_steady (fuel : Nat) (v : Value) :
    Rendering.Steady s.types s.sharing (s.renderWithin fuel v) := by
  induction fuel generalizing v with
  | zero => cases v <;> exact Rendering.steady_written _
  | succ fuel ih =>
    cases v with
    | object r => exact renderRef_steady ht ih r
    | _ => exact Rendering.steady_written _

theorem render_determined (v : Value) : Determines s.types s.sharing (s.render v) := by
  obtain ⟨p, seen, hp⟩ := renderWithin_steady ht (s.heap.size + 2) v []
  exact ⟨String.join (p.map Piece.text), hp.andThen
    (g := fun out => (String.join (out.1.map Piece.text), out.2.known)) (.done _)⟩

theorem deepEquals_determined (a b : Value) : Determines s.types s.sharing (s.deepEquals a b) := by
  exact (render_determined ht a).andThen fun x =>
    (render_determined ht b).map fun y => normalize x == normalize y

theorem visit_fixed (r : Ref) (seen found : List Nat) :
    ∃ next found', Fixes s.types s.sharing (fun k => s.visit r ⟨seen, found, k⟩)
      fun k => (next, ⟨r.address :: seen, found', k⟩) := by
  obtain ⟨b, hb⟩ := isImmutable_determined ht (s := s.sharing) r.type
  refine ⟨(s.heap.shape s.types (s.types.describe r.type) r).values,
    if b then found else r.address :: found, fun k hk => ?_⟩
  obtain ⟨k', hk', hverdict⟩ := hb _ (hk.describe_snd r.type)
  exact ⟨k', hk', by simp only [visit, hk.describe_fst, hverdict]⟩

theorem walk_fixed (fuel : Nat) (pending : List Value) (seen found : List Nat) :
    ∃ seen' found', Fixes s.types s.sharing (fun k => s.walk fuel pending ⟨seen, found, k⟩)
      fun k => ⟨seen', found', k⟩ := by
  induction fuel generalizing pending seen found with
  | zero => exact ⟨seen, found, .done _⟩
  | succ fuel ih =>
    simp only [walk]
    cases hdrop : pending.dropWhile fun v => !isNew seen v with
    | nil => exact ⟨seen, found, .done _⟩
    | cons v rest =>
      cases v with
      | object r =>
        obtain ⟨next, found₁, hvisit⟩ := visit_fixed ht r seen found
        obtain ⟨seen₂, found₂, hrest⟩ := ih (next.reverse ++ rest) (r.address :: seen) found₁
        exact ⟨seen₂, found₂, hvisit.andThen (g := fun out => s.walk fuel (out.1.reverse ++ rest) out.2)
          hrest⟩
      | _ => exact ⟨seen, found, .done _⟩

theorem mutableObjects_determined (v : Value) :
    Determines s.types s.sharing (s.mutableObjects v) := by
  obtain ⟨seen, found, hwalk⟩ := walk_fixed ht (s.heap.size + 1) [v] [] []
  exact ⟨found, hwalk.andThen (g := fun w => (w.found, w.known)) (.done _)⟩

theorem referenceDistinct_determined (a b : Value) :
    Determines s.types s.sharing (s.referenceDistinct a b) := by
  exact (mutableObjects_determined ht b).andThen fun theirs =>
    (mutableObjects_determined ht a).map fun ours => ours.all fun x => !theirs.contains x

end Scene
end GraphCopy
