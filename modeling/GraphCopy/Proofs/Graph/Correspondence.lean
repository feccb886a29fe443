import GraphCopy.Proofs.Graph.Decoding

/-!
# Deep equality is correspondence

Two graphs correspond when their objects, mutable and immutable alike, can be
renamed one to one such that types keep their names, paired objects show the
same at the same places, and corresponding scalars are of one kind and print
the same text. Where names are plain and tell types apart, and no identity
token stands in a text, deep equality decides correspondence.
-/

namespace GraphCopy

open Text

/-- Objects are the same, and scalars are of one kind and print the same. -/
def Value.PrintsAs (v w : Value) : Prop :=
  v.object? = w.object? ∧ v.scalarKind? = w.scalarKind? ∧ v.scalarText = w.scalarText

theorem Value.printsAs_object {r : Ref} {w : Value} :
    (Value.object r).PrintsAs w ↔ w = .object r := by
  constructor
  · rintro ⟨hobj, -⟩
    cases w with
    | object q =>
      cases hobj
      rfl
    | _ => cases hobj
  · rintro rfl
    exact ⟨rfl, rfl, rfl⟩

theorem Leaf.of_eq_iff {p p' : Option Value} (hp : ∀ r, p ≠ some (.object r))
    (hp' : ∀ r, p' ≠ some (.object r)) : of p = of p' ↔ Option.Rel Value.PrintsAs p p' := by
  have hobject : ∀ {v : Value}, (∀ r, some v ≠ some (.object r)) → v.object? = none := by
    intro v hv
    cases v with
    | object r => exact absurd rfl (hv r)
    | _ => rfl
  have hunreadable : ∀ {v : Value}, (∀ r, some v ≠ some (.object r)) → of none ≠ of (some v) := by
    intro v hv heq
    have hkind : v.scalarKind? = none := (congrArg Leaf.kind heq).symm
    rcases Value.scalarKind?_eq_none.mp hkind with rfl | ⟨r, rfl⟩
    · exact absurd heq (by decide)
    · exact hv r rfl
  cases p with
  | none =>
    cases p' with
    | none => exact ⟨fun _ => .none, fun _ => rfl⟩
    | some w => exact ⟨fun h => absurd h (hunreadable hp'), fun h => nomatch h⟩
  | some v =>
    cases p' with
    | none => exact ⟨fun h => absurd h.symm (hunreadable hp), fun h => nomatch h⟩
    | some w =>
      rw [Shape.rel_some]
      constructor
      · intro h
        have hobj : v.object? = w.object? := (hobject hp).trans (hobject hp').symm
        exact ⟨hobj, congrArg Leaf.kind h, congrArg Leaf.text h⟩
      · rintro ⟨-, hkind, htext⟩
        simp only [of, hkind, htext]

namespace Scene

variable {s : Scene} {a b root : Value} {φ : Ref → Ref} {G : Ref → Ref → Prop} {r q : Ref}

/-- What is in reach of `a` looks, after renaming, like what is in reach of `b`. -/
structure Correspondence (s : Scene) (a b : Value) (φ : Ref → Ref) : Prop where
  root : (a.renamed φ).PrintsAs b
  bijOn : Set.BijOn φ {r | s.heap.Reaches s.types a r} {k | s.heap.Reaches s.types b k}
  name : ∀ r, s.heap.Reaches s.types a r → s.types.name (φ r).type = s.types.name r.type
  shape : ∀ r, s.heap.Reaches s.types a r →
    (s.heap.shape s.types (s.types.describe r.type) r).Related
      (fun v w => (v.renamed φ).PrintsAs w)
      (s.heap.shape s.types (s.types.describe (φ r).type) (φ r))

theorem mem_placesOf : some (.object r) ∈ s.placesOf q ↔ .object r ∈ s.heap.shown s.types q :=
  Shape.mem_places

theorem twin_iff {p p' : Option Value} :
    Twin Leaf.of (fun r k => φ r = k) p p' ↔
      Option.Rel (fun v w => (v.renamed φ).PrintsAs w) p p' := by
  constructor
  · intro h
    cases h with
    | object h => exact .some (Value.printsAs_object.mpr (by rw [h]))
    | leaf hp hp' h =>
      have hrel := (Leaf.of_eq_iff hp hp').mp h
      cases hrel with
      | none => exact .none
      | @some v w hvw =>
        refine .some ?_
        cases v with
        | object r => exact absurd rfl (hp r)
        | _ => exact hvw
  · intro h
    cases h with
    | none => exact .leaf (by simp) (by simp) rfl
    | @some v w hvw =>
      cases v with
      | object r =>
        rw [Value.printsAs_object.mp hvw]
        exact .object rfl
      | _ =>
        cases w with
        | object k => cases hvw.1
        | _ => exact .leaf (by simp) (by simp) ((Leaf.of_eq_iff (by simp) (by simp)).mpr (.some hvw))

theorem Twin.imp {α : Type} {look : Option Value → α} {H : Ref → Ref → Prop} {p p' : Option Value}
    (h : Twin look G p p') (hGH : ∀ r k, p = some (.object r) → G r k → H r k) : Twin look H p p' := by
  cases h with
  | object hrk => exact .object (hGH _ _ rfl hrk)
  | leaf hp hp' hlook => exact .leaf hp hp' hlook

theorem related_iff_places {R : Value → Value → Prop} (hr : s.heap.Has r) (hq : s.heap.Has q)
    (htype : q.type = r.type) :
    (s.heap.shape s.types (s.types.describe r.type) r).Related R
      (s.heap.shape s.types (s.types.describe q.type) q) ↔
      List.Forall₂ (Option.Rel R) (s.placesOf r) (s.placesOf q) := by
  have hfits := Heap.shape_fits s.types hr
  have hfits' := Heap.shape_fits s.types hq
  rw [placesOf, placesOf]
  rw [htype] at hfits' ⊢
  exact Shape.related_iff hfits hfits'

theorem Bisimulation.exists_partner {α : Type} {look : Option Value → α} (hG : s.Bisimulation look G)
    (hab : Twin look G (some a) (some b)) (hr : s.heap.Reaches s.types a r) :
    ∃ k, G r k ∧ s.heap.Reaches s.types b k := by
  induction hr with
  | root hroot =>
    subst hroot
    cases hab with
    | object hrk => exact ⟨_, hrk, .root rfl⟩
    | leaf hp _ _ => exact absurd rfl (hp _)
  | step _ hr ih =>
    obtain ⟨k, hqk, hk⟩ := ih
    obtain ⟨p, hp, htwin⟩ := (hG.places _ _ hqk).exists_of_mem_left (mem_placesOf.mpr hr)
    cases htwin with
    | object hrk => exact ⟨_, hrk, hk.step (mem_placesOf.mp hp)⟩
    | leaf hp _ _ => exact absurd rfl (hp _)

theorem Twin.flip {α : Type} {look : Option Value → α} {p p' : Option Value}
    (h : Twin look G p p') : Twin look (fun r k => G k r) p' p := by
  cases h with
  | object hrk => exact .object hrk
  | leaf hp hp' hlook => exact .leaf hp' hp hlook.symm

theorem Bisimulation.flip {α : Type} {look : Option Value → α} (hG : s.Bisimulation look G) :
    s.Bisimulation look fun r k => G k r :=
  ⟨fun r k h => (hG.type k r h).symm, fun r k q l h h' => (hG.partner k r l q h h').symm,
    fun r k h => List.Forall₂.flip ((hG.places k r h).imp fun _ _ => Twin.flip)⟩

/-- A bisimulation renames what is in reach, by any map that finds the partners. -/
theorem Bisimulation.correspondence_of (hG : s.Bisimulation Leaf.of G) (hφ : ∀ r k, G r k → φ r = k)
    (ha : s.Grounded a) (hb : s.Grounded b) (hab : Twin Leaf.of G (some a) (some b)) :
    s.Correspondence a b φ := by
  have hto : ∀ r, s.heap.Reaches s.types a r → G r (φ r) ∧ s.heap.Reaches s.types b (φ r) := by
    intro r hr
    obtain ⟨k, hrk, hk⟩ := hG.exists_partner hab hr
    rw [hφ r k hrk]
    exact ⟨hrk, hk⟩
  have hfrom : ∀ k, s.heap.Reaches s.types b k → ∃ r, s.heap.Reaches s.types a r ∧ φ r = k := by
    intro k hk
    obtain ⟨r, hrk, hr⟩ := hG.flip.exists_partner hab.flip hk
    exact ⟨r, hr, hφ r k hrk⟩
  have htype : ∀ r, s.heap.Reaches s.types a r → (φ r).type = r.type :=
    fun r hr => (hG.type _ _ (hto r hr).1).symm
  refine ⟨?_, ⟨fun r hr => (hto r hr).2, ?_, hfrom⟩, fun r hr => by rw [htype r hr],
    fun r hr => ?_⟩
  · cases twin_iff.mp (hab.imp fun r k _ hrk => hφ r k hrk) with
    | some h => exact h
  · intro r hr r' hr' heq
    have h := (hto r hr).1
    rw [heq] at h
    exact (hG.partner _ _ _ _ h (hto r' hr').1).mpr rfl
  · rw [related_iff_places (ha r hr) (hb _ (hto r hr).2) (htype r hr)]
    exact (hG.places _ _ (hto r hr).1).imp fun p p' h =>
      twin_iff.mp (h.imp fun q k _ hqk => hφ q k hqk)

theorem Bisimulation.correspondence (hG : s.Bisimulation Leaf.of G) (ha : s.Grounded a)
    (hb : s.Grounded b) (hab : Twin Leaf.of G (some a) (some b)) : ∃ φ, s.Correspondence a b φ := by
  classical
  let φ : Ref → Ref := fun r => if h : ∃ k, G r k then h.choose else r
  refine ⟨φ, hG.correspondence_of (fun r k hrk => ?_) ha hb hab⟩
  have hex : ∃ k, G r k := ⟨k, hrk⟩
  simp only [φ, dif_pos hex]
  exact ((hG.partner _ _ _ _ hrk hex.choose_spec).mp rfl).symm

theorem bisimulation_of_bijOn {α : Type} {look : Option Value → α}
    (hbij : Set.BijOn φ {r | s.heap.Reaches s.types a r} {k | s.heap.Reaches s.types b k})
    (htype : ∀ r, s.heap.Reaches s.types a r → (φ r).type = r.type)
    (hroot : Twin look (fun r k => φ r = k) (some a) (some b))
    (hplaces : ∀ r, s.heap.Reaches s.types a r →
      List.Forall₂ (Twin look (fun r k => φ r = k)) (s.placesOf r) (s.placesOf (φ r))) :
    s.Bisimulation look (fun r k => s.heap.Reaches s.types a r ∧ φ r = k) ∧
      Twin look (fun r k => s.heap.Reaches s.types a r ∧ φ r = k) (some a) (some b) := by
  refine ⟨⟨?_, ?_, ?_⟩, hroot.imp fun r k hra hrk => ⟨.root (Option.some.inj hra), hrk⟩⟩
  · rintro r k ⟨hr, rfl⟩
    exact (htype r hr).symm
  · rintro r k q l ⟨hr, rfl⟩ ⟨hq, rfl⟩
    exact ⟨congrArg φ, hbij.injOn hr hq⟩
  · rintro r k ⟨hr, rfl⟩
    refine (hplaces r hr).imp_of_mem fun p hp p' htwin => htwin.imp fun q k hpq hqk => ?_
    rw [hpq] at hp
    exact ⟨hr.step (mem_placesOf.mp hp), hqk⟩

theorem Correspondence.bisimulation (h : s.Correspondence a b φ)
    (htype : ∀ r, s.heap.Reaches s.types a r → (φ r).type = r.type) (ha : s.Grounded a)
    (hb : s.Grounded b) :
    s.Bisimulation Leaf.of (fun r k => s.heap.Reaches s.types a r ∧ φ r = k) ∧
      Twin Leaf.of (fun r k => s.heap.Reaches s.types a r ∧ φ r = k) (some a) (some b) := by
  refine bisimulation_of_bijOn h.bijOn htype (twin_iff.mpr (.some h.root)) fun r hr => ?_
  have hplaces := (related_iff_places (ha r hr) (hb _ (h.bijOn.mapsTo hr)) (htype r hr)).mp (h.shape r hr)
  exact hplaces.imp fun p p' hrel => twin_iff.mpr hrel

theorem Visits.all {P : TypeId → Prop} {S : Ref → Prop} {ps : List (Option Value)}
    {seen seen' : List Ref} {o : Outline Leaf} (h : s.Visits Leaf.of ps seen o seen')
    (hps : ∀ r, some (.object r) ∈ ps → S r)
    (hS : ∀ q, S q → ∀ r, some (.object r) ∈ s.placesOf q → S r) (hP : ∀ r, S r → P r.type) :
    o.All P IsRead := by
  induction h with
  | done seen => trivial
  | @leaf p _ _ _ _ hp _ ih => exact ⟨⟨p, hp, rfl⟩, ih fun r hr => hps r (List.mem_cons_of_mem _ hr)⟩
  | @again r _ _ _ _ _ _ ih =>
    exact ⟨hP r (hps r (by simp)), ih fun r hr => hps r (List.mem_cons_of_mem _ hr)⟩
  | @first r _ _ _ _ _ _ _ _ _ ihi ih =>
    have hr := hps r (by simp)
    exact ⟨hP r hr, ihi (hS r hr), ih fun r hr => hps r (List.mem_cons_of_mem _ hr)⟩

structure Legible (s : Scene) (root : Value) : Prop where
  names : ∀ r, s.heap.Reaches s.types root r → s.PlainType r.type
  contents : ∀ v, s.Within root v → v.Tokenless

theorem Legible.tokenless (h : s.Legible root) : s.Tokenless root := by
  have hplain : ∀ {cs : List Char}, Over isPlain cs → GraphCopy.Tokenless cs :=
    fun hcs => tokenless_of_not_mem (hcs.not_mem (by decide))
  exact ⟨fun r hr => hplain (h.names r hr).name, fun r hr f hf => hplain ((h.names r hr).fields f hf),
    h.contents⟩

section Decision

variable {known : Knowledge}

theorem deepEquals_iff_print (htypes : s.types.Coherent) (ha : s.Grounded a) (hb : s.Grounded b)
    (hta : s.Tokenless a) (htb : s.Tokenless b) (hk : known.Sound s.types s.sharing) :
    ∃ o o' seen seen', s.Visits Leaf.of [some a] [] o seen ∧ s.Visits Leaf.of [some b] [] o' seen' ∧
      ((s.deepEquals a b known).1 = true ↔
        s.print (.items false) o = s.print (.items false) o') := by
  obtain ⟨o, seen, hvisits, htext, hk'⟩ := normalize_render htypes ha hta hk
  obtain ⟨o', seen', hvisits', htext', -⟩ := normalize_render htypes hb htb hk'
  refine ⟨o, o', seen, seen', hvisits, hvisits', ?_⟩
  simp only [deepEquals, htext, htext', beq_iff_eq, String.ofList_inj]

theorem deepEquals_of_correspondence (htypes : s.types.Coherent) (ha : s.Grounded a)
    (hb : s.Grounded b) (hta : s.Tokenless a) (htb : s.Tokenless b) (hk : known.Sound s.types s.sharing)
    (h : s.Correspondence a b φ) (htype : ∀ r, s.heap.Reaches s.types a r → (φ r).type = r.type) :
    (s.deepEquals a b known).1 = true := by
  obtain ⟨o, o', seen, seen', hvisits, hvisits', hiff⟩ :=
    deepEquals_iff_print htypes ha hb hta htb hk
  obtain ⟨hG, htwin⟩ := h.bisimulation htype ha hb
  rw [hiff, (hvisits.lockstep hG hvisits' (.cons htwin .nil) .nil).1]

/-- Where names are plain and tell types apart, and no identity token stands in a text, two values are
deeply equal just when their graphs correspond. -/
theorem deepEquals_iff_correspondence (htypes : s.types.Coherent) (ha : s.Grounded a)
    (hb : s.Grounded b) (hla : s.Legible a) (hlb : s.Legible b)
    (hdistinct : ∀ r q, s.heap.Reaches s.types a r ∨ s.heap.Reaches s.types b r →
      s.heap.Reaches s.types a q ∨ s.heap.Reaches s.types b q →
      s.types.name r.type = s.types.name q.type → r.type = q.type)
    (hk : known.Sound s.types s.sharing) :
    (s.deepEquals a b known).1 = true ↔ ∃ φ, s.Correspondence a b φ := by
  constructor
  · intro heq
    obtain ⟨o, o', seen, seen', hvisits, hvisits', hiff⟩ :=
      deepEquals_iff_print htypes ha hb hla.tokenless hlb.tokenless hk
    let P : TypeId → Prop := fun t =>
      ∃ r, (s.heap.Reaches s.types a r ∨ s.heap.Reaches s.types b r) ∧ r.type = t
    have hall : ∀ {v o seen}, s.Visits Leaf.of [some v] [] o seen →
        (∀ r, s.heap.Reaches s.types v r → P r.type) → o.All P IsRead := by
      intro v o seen hvisits hP
      refine hvisits.all (S := s.heap.Reaches s.types v) (fun r hr => ?_)
        (fun q hq r hr => hq.step (mem_placesOf.mp hr)) hP
      exact .root (Option.some.inj (List.mem_singleton.mp hr)).symm
    have hnames : ∀ t t', P t → P t' → s.types.name t = s.types.name t' → t = t' := by
      rintro - - ⟨r, hr, rfl⟩ ⟨q, hq, rfl⟩ hname
      exact hdistinct r q hr hq hname
    have hplain : ∀ t, P t → s.PlainType t := by
      rintro - ⟨r, hr | hr, rfl⟩
      · exact hla.names r hr
      · exact hlb.names r hr
    have hprint : s.print (.items false) o ++ [] = s.print (.items false) o' ++ [] := by
      simpa using hiff.mp heq
    obtain ⟨rfl, -⟩ := print_append_inj hnames hplain
      (hall hvisits fun r hr => ⟨r, .inl hr, rfl⟩) (hall hvisits' fun r hr => ⟨r, .inr hr, rfl⟩)
      (show (Format.items false).Plain from trivial) (.inl rfl) (.inl rfl) hprint
    obtain ⟨G, hG, htwins⟩ := hvisits.bisimulation hvisits'
    cases htwins with
    | cons htwin _ => exact hG.correspondence ha hb htwin
  · rintro ⟨φ, hφ⟩
    refine deepEquals_of_correspondence htypes ha hb hla.tokenless hlb.tokenless hk hφ
      fun r hr => ?_
    exact hdistinct _ _ (.inr (hφ.bijOn.mapsTo hr)) (.inl hr) (hφ.name r hr)

end Decision

def ringSpecs : Specs where
  hosts :=
    [{ TypeSpec.bare "Ring" "Ring" with
        fields := [.plain "next" (.optional (.handle (.host 0))), .plain "label" (.required .ownText)] }]
  containerPath := ""

def ring (next : Nat) : Object := .host 0 [.datum (.object ⟨.host 0, next⟩), .datum (.ownText "a")] []

def rings : Scene := ⟨ringSpecs.types, .plain, ⟨#[ring 0, ring 1], 1⟩⟩

theorem rings_closed : rings.types.ClosedOn rings.heap := by
  have hplain : rings.types.PlainRecords ringSpecs.path ringSpecs.layout rings.heap :=
    Specs.plainRecords (by decide)
  have hring : ∀ next, (ring next).WellFormed ringSpecs.layout := by
    intro next place hplace
    have hcases : place = (0, .optional (.handle (.host 0))) ∨ place = (1, .required .ownText) := by
      simpa [ringSpecs, Specs.layout, placesFrom, FieldSpec.plain] using hplace
    rcases hcases with rfl | rfl
    · exact ⟨_, rfl, rfl⟩
    · exact ⟨_, rfl, trivial⟩
  refine hplain.closedOn ⟨by decide, fun o ho => ?_⟩
  simp only [rings, List.mem_cons, List.not_mem_nil, or_false] at ho
  rcases ho with rfl | rfl
  · exact hring 0
  · exact hring 1

theorem rings_type {r : Ref} (hr : rings.heap.Has r) : r.type = .host 0 := by
  have hall : ∀ r ∈ rings.heap.refs, r.type = .host 0 := by decide
  exact hall r (Heap.mem_refs.mpr hr)

theorem rings_grounded (hroot : rings.heap.Holds root) : rings.Grounded root :=
  grounded_of_closedOn rings_closed hroot

theorem rings_legible (hroot : rings.heap.Holds root) (hr : root.atFree = true) :
    rings.Legible root := by
  have hshown : ∀ r ∈ rings.heap.refs, ∀ v ∈ rings.heap.shown rings.types r, v.atFree = true := by
    decide
  refine ⟨fun r hr => ?_, fun v hv => ?_⟩
  · rw [rings_type (rings_grounded hroot r hr)]
    exact ⟨by decide, by decide⟩
  · rcases hv with rfl | ⟨r, hr, hv⟩
    · exact Value.tokenless_of_atFree hr
    · exact Value.tokenless_of_atFree
        (hshown r (Heap.mem_refs.mpr (rings_grounded hroot r hr)) v hv)

theorem rings_deepEquals :
    (rings.deepEquals (.object ⟨.host 0, 0⟩) (.object ⟨.host 0, 1⟩) .empty).1 = true := by
  decide +kernel

theorem rings_known_sound : Knowledge.empty.Sound rings.types rings.sharing :=
  Knowledge.sound_of_no_verdicts (DescriptorCache.faithful_empty _)

theorem rings_correspondence :
    ∃ φ, rings.Correspondence (.object ⟨.host 0, 0⟩) (.object ⟨.host 0, 1⟩) φ := by
  have ha : rings.heap.Holds (.object ⟨.host 0, 0⟩) := by decide
  have hb : rings.heap.Holds (.object ⟨.host 0, 1⟩) := by decide
  refine (deepEquals_iff_correspondence (s := rings) ringSpecs.types_coherent (rings_grounded ha)
    (rings_grounded hb) (rings_legible ha rfl) (rings_legible hb rfl) (fun r q hr hq _ => ?_)
    rings_known_sound).mp rings_deepEquals
  have htype : ∀ {r}, rings.heap.Reaches rings.types (.object ⟨.host 0, 0⟩) r ∨
      rings.heap.Reaches rings.types (.object ⟨.host 0, 1⟩) r → r.type = .host 0 := by
    rintro r (hr | hr)
    · exact rings_type (rings_grounded ha r hr)
    · exact rings_type (rings_grounded hb r hr)
  rw [htype hr, htype hq]

end Scene

end GraphCopy
