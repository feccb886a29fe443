import GraphCopy.Proofs.Graph.Reach
import GraphCopy.Proofs.Graph.Related

/-!
# The outline of a graph

A graph is visited depth first. Its outline keeps what the visit met, in order:
leaves, objects met again, and objects met for the first time together with the
outline of what they show. An object has its type and a number, its place among
the objects that were visited before: among all of them if its type is
immutable, else among the mutable ones.

`Outline.print` writes an outline as the text that a rendering with renumbered
identities comes to.
-/

namespace GraphCopy

def Shape.places : Shape → List (Option Value)
  | .sequence items => items.map some
  | .entries es => es.flatMap fun e => [some e.1, some e.2]
  | .record fields => fields.map Prod.snd

inductive Format
  | items (more : Bool)
  | keys (more : Bool)
  | contents
  | fields (more : Bool) (names : List String)

namespace Format

def comma (more : Bool) : List Char := if more then [',', ' '] else []

def before : Format → List Char
  | items more => comma more
  | keys more => comma more
  | contents => " => ".toList
  | fields more names => comma more ++ (names.headD "").toList ++ [':', ' ']

def next : Format → Format
  | items _ => items true
  | keys _ => contents
  | contents => keys true
  | fields _ names => fields true names.tail

def opening : Format → Char
  | items _ => '['
  | _ => '\x7b'

def closing : Format → Char
  | items _ => ']'
  | _ => '\x7d'

end Format

def Types.format (types : Types) (t : TypeId) : Format :=
  if t = .array ∨ (types.info t).collection.isSome then .items false
  else if (types.info t).map.isSome then .keys false
  else .fields false ((types.describe t).instanceFields.map Field.name)

inductive Shape.Fits : Shape → Format → Prop
  | sequence (vs : List Value) : Fits (.sequence vs) (.items false)
  | entries (es : List (Value × Value)) : Fits (.entries es) (.keys false)
  | record (fs : List (String × Option Value)) : Fits (.record fs) (.fields false (fs.map Prod.fst))

namespace Shape

variable {R : Value → Value → Prop} {sh sh' : Shape} {F : Format}

theorem mem_places {v : Value} : some v ∈ sh.places ↔ v ∈ sh.values := by
  cases sh with
  | sequence vs => simp [places, values]
  | entries es => simp [places, values]
  | record fs => simp [places, values, List.mem_filterMap]

theorem rel_some {v w : Value} : Option.Rel R (some v) (some w) ↔ R v w :=
  ⟨fun h => by cases h with | some h => exact h, .some⟩

theorem forall₂_entries {es fs : List (Value × Value)} :
    List.Forall₂ (fun e f => R e.1 f.1 ∧ R e.2 f.2) es fs ↔
      List.Forall₂ (Option.Rel R) (places (.entries es)) (places (.entries fs)) := by
  induction es generalizing fs with
  | nil => cases fs <;> simp [places]
  | cons e es ih =>
    cases fs with
    | nil => simp [places]
    | cons f fs =>
      simp only [places, List.flatMap_cons, List.cons_append, List.nil_append,
        List.forall₂_cons, rel_some, and_assoc]
      exact and_congr_right fun _ => and_congr_right fun _ => ih

theorem forall₂_fields {fs gs : List (String × Option Value)}
    (hnames : fs.map Prod.fst = gs.map Prod.fst) :
    List.Forall₂ (fun f g => f.1 = g.1 ∧ Option.Rel R f.2 g.2) fs gs ↔
      List.Forall₂ (Option.Rel R) (places (.record fs)) (places (.record gs)) := by
  induction fs generalizing gs with
  | nil => cases gs <;> simp [places]
  | cons f fs ih =>
    cases gs with
    | nil => simp [places]
    | cons g gs =>
      simp only [List.map_cons, List.cons.injEq] at hnames
      simp only [places, List.map_cons, List.forall₂_cons, hnames.1, true_and]
      exact and_congr_right fun _ => ih hnames.2

theorem related_iff (hf : sh.Fits F) (hf' : sh'.Fits F) :
    sh.Related R sh' ↔ List.Forall₂ (Option.Rel R) sh.places sh'.places := by
  cases hf with
  | sequence vs =>
    cases hf' with
    | sequence ws =>
      simp only [places, List.forall₂_map_left_iff, List.forall₂_map_right_iff, rel_some]
      exact ⟨fun h => by cases h with | sequence h => exact h, .sequence⟩
  | entries es =>
    cases hf' with
    | entries fs =>
      rw [← forall₂_entries]
      exact ⟨fun h => by cases h with | entries h => exact h, .entries⟩
  | record fs =>
    generalize hF : Format.fields false (fs.map Prod.fst) = F at hf'
    cases hf' with
    | record gs =>
      rw [← forall₂_fields (Format.fields.inj hF).2]
      exact ⟨fun h => by cases h with | record h => exact h, .record⟩
    | _ => cases hF

theorem shapeOf_fits (types : Types) (o : Object) :
    (shapeOf types (types.describe o.type) o).Fits (types.format o.type) := by
  unfold shapeOf Types.format
  cases harr : o.array? with
  | some a =>
    obtain rfl := Object.eq_array_of_array? harr
    rw [if_pos (.inl rfl)]
    exact .sequence _
  | none =>
    have harray : o.type ≠ .array := by
      intro hot
      obtain ⟨a, rfl⟩ := Object.exists_array hot
      cases harr
    simp only [harray, false_or]
    cases hcol : (types.info o.type).collection with
    | some c => exact .sequence _
    | none =>
      cases hmap : (types.info o.type).map with
      | some m => exact .entries _
      | none =>
        have hnames : (types.describe o.type).instanceFields.map Field.name =
            (((types.describe o.type).readings o).map fun f => (f.1, f.2.toOption)).map Prod.fst := by
          simp [Descriptor.readings]
        simp only [Option.isSome_none, Bool.false_eq_true, if_false, hnames]
        exact .record _

end Shape

theorem Heap.shape_fits (types : Types) {h : Heap} {r : Ref} (hr : h.Has r) :
    (h.shape types (types.describe r.type) r).Fits (types.format r.type) := by
  obtain ⟨o, ho, hot⟩ := hr
  rw [Heap.shape, ho, ← hot]
  exact Shape.shapeOf_fits types o

theorem Heap.map_fst_of_shape {types : Types} {h : Heap} {r : Ref} (hr : h.Has r)
    {fs : List (String × Option Value)}
    (hshape : h.shape types (types.describe r.type) r = .record fs) :
    fs.map Prod.fst = (types.describe r.type).instanceFields.map Field.name := by
  have hfits := shape_fits types hr
  rw [hshape] at hfits
  generalize hF : types.format r.type = F at hfits
  cases hfits
  unfold Types.format at hF
  split at hF
  · cases hF
  · split at hF
    · cases hF
    · exact (Format.fields.inj hF).2.symm

inductive Outline (α : Type)
  | nil
  | leaf (x : α) (rest : Outline α)
  | again (type : TypeId) (number : Nat) (rest : Outline α)
  | first (type : TypeId) (number : Nat) (inner rest : Outline α)

namespace Outline

variable {α β : Type}

def append : Outline α → Outline α → Outline α
  | nil, o => o
  | leaf x rest, o => leaf x (append rest o)
  | again t n rest, o => again t n (append rest o)
  | first t n inner rest, o => first t n inner (append rest o)

def map (f : α → β) : Outline α → Outline β
  | nil => nil
  | leaf x rest => leaf (f x) (map f rest)
  | again t n rest => again t n (map f rest)
  | first t n inner rest => first t n (map f inner) (map f rest)

def All (P : TypeId → Prop) (Q : α → Prop) : Outline α → Prop
  | nil => True
  | leaf x rest => Q x ∧ All P Q rest
  | again t _ rest => P t ∧ All P Q rest
  | first t _ inner rest => P t ∧ All P Q inner ∧ All P Q rest

end Outline

structure Leaf where
  kind : Option ScalarKind
  text : String
deriving DecidableEq

def Leaf.of : Option Value → Leaf
  | some v => ⟨v.scalarKind?, v.scalarText⟩
  | none => ⟨none, "<unreadable>"⟩

namespace Scene

variable (s : Scene)

noncomputable def Shares (t : TypeId) : Bool :=
  open Classical in decide (s.sharing.Immutable s.types (s.types.describe t))

/-- The visited objects among which the objects of a type are numbered. -/
noncomputable def counted (seen : List Ref) (t : TypeId) : List Ref :=
  if s.Shares t then seen else seen.filter fun q => !s.Shares q.type

noncomputable def number (seen : List Ref) (r : Ref) : Nat := (s.counted seen r.type).idxOf r + 1

def placesOf (r : Ref) : List (Option Value) :=
  (s.heap.shape s.types (s.types.describe r.type) r).places

noncomputable def tag (t : TypeId) (n : Nat) : List Char :=
  (s.types.name t).toList ++ (if s.Shares t then '#' else '@') :: (toString n).toList

noncomputable def print (s : Scene) : Format → Outline Leaf → List Char
  | _, .nil => []
  | F, .leaf x rest => F.before ++ x.text.toList ++ print s F.next rest
  | F, .again t n rest => F.before ++ s.tag t n ++ '^' :: print s F.next rest
  | F, .first t n inner rest =>
    F.before ++ s.tag t n ++ (s.types.format t).opening ::
      (print s (s.types.format t) inner ++ (s.types.format t).closing :: print s F.next rest)

inductive Visits {α : Type} (s : Scene) (look : Option Value → α) :
    List (Option Value) → List Ref → Outline α → List Ref → Prop
  | done (seen) : Visits s look [] seen .nil seen
  | leaf {p ps seen o seen'} (hp : ∀ r, p ≠ some (.object r))
      (hrest : Visits s look ps seen o seen') :
      Visits s look (p :: ps) seen (.leaf (look p) o) seen'
  | again {r ps seen o seen'} (hr : r ∈ seen) (hrest : Visits s look ps seen o seen') :
      Visits s look (some (.object r) :: ps) seen (.again r.type (s.number seen r) o) seen'
  | first {r ps seen i seen₁ o seen₂} (hr : r ∉ seen)
      (hinner : Visits s look (s.placesOf r) (seen ++ [r]) i seen₁)
      (hrest : Visits s look ps seen₁ o seen₂) :
      Visits s look (some (.object r) :: ps) seen (.first r.type (s.number seen r) i o) seen₂

variable {s} {α β : Type} {look : Option Value → α} {ps qs : List (Option Value)}
  {seen seen₁ seen₂ : List Ref} {o o' : Outline α} {F : Format}

theorem Visits.map (f : α → β) (h : s.Visits look ps seen o seen₁) :
    s.Visits (f ∘ look) ps seen (o.map f) seen₁ := by
  induction h with
  | done seen => exact .done seen
  | leaf hp _ ih => exact .leaf hp ih
  | again hr _ ih => exact .again hr ih
  | first hr _ _ ihi ih => exact .first hr ihi ih

theorem Visits.append (h : s.Visits look ps seen o seen₁) (h' : s.Visits look qs seen₁ o' seen₂) :
    s.Visits look (ps ++ qs) seen (o.append o') seen₂ := by
  induction h with
  | done seen => exact h'
  | leaf hp _ ih => exact .leaf hp (ih h')
  | again hr _ ih => exact .again hr (ih h')
  | first hr hinner _ _ ih => exact .first hr hinner (ih h')

theorem Visits.print_append {look : Option Value → Leaf} {o : Outline Leaf}
    (h : s.Visits look ps seen o seen₁) (o' : Outline Leaf) (F : Format) :
    s.print F (o.append o') = s.print F o ++ s.print (Format.next^[ps.length] F) o' := by
  induction h generalizing F with
  | done seen => rfl
  | leaf hp _ ih => simp [Outline.append, print, ih]
  | again hr _ ih => simp [Outline.append, print, ih]
  | first hr _ _ _ ih => simp [Outline.append, print, ih]

theorem Visits.prefix_nodup (h : s.Visits look ps seen o seen₁) (hn : seen.Nodup) :
    seen <+: seen₁ ∧ seen₁.Nodup := by
  induction h with
  | done seen => exact ⟨List.prefix_refl _, hn⟩
  | leaf _ _ ih => exact ih hn
  | again _ _ ih => exact ih hn
  | first hr _ _ ihi ih =>
    have hr' := hn.append (List.nodup_singleton _) (by simpa using hr)
    obtain ⟨hpre, hn₁⟩ := ihi hr'
    obtain ⟨hpre', hn₂⟩ := ih hn₁
    exact ⟨((List.prefix_append _ _).trans hpre).trans hpre', hn₂⟩

end Scene
end GraphCopy
