import GraphCopy.Proofs.Graph.Correspondence
import GraphCopy.Proofs.Value.Shown

/-!
# Deep equality of graphs of one shape

When the objects of two graphs correspond one to one, with scalars at the same
places, their outlines differ at most in the leaves, and deep equality finds
corresponding scalars equal in value. Names need not tell types apart here, but
no identity token may stand in a text: the numbers of such tokens are written
anew like those of objects, so two texts that differ only there are found equal.
-/

namespace GraphCopy.Scene

open Text

variable {s : Scene} {a b : Value} {φ : Ref → Ref} {known : Knowledge}

structure Alignment (s : Scene) (a b : Value) (φ : Ref → Ref) : Prop where
  root : (a.renamed φ).object? = b.object?
  bijOn : Set.BijOn φ {r | s.heap.Reaches s.types a r} {k | s.heap.Reaches s.types b k}
  type : ∀ r, s.heap.Reaches s.types a r → (φ r).type = r.type
  shape : ∀ r, s.heap.Reaches s.types a r →
    (s.heap.shape s.types (s.types.describe r.type) r).Related
      (fun v w => (v.renamed φ).object? = w.object?)
      (s.heap.shape s.types (s.types.describe (φ r).type) (φ r))

theorem twin_unit {p p' : Option Value}
    (h : Option.Rel (fun v w => (v.renamed φ).object? = w.object?) p p') :
    Twin (fun _ => ()) (fun r k => φ r = k) p p' := by
  cases h with
  | none => exact .leaf (by simp) (by simp) rfl
  | @some v w hvw =>
    cases v with
    | object r =>
      cases w with
      | object k => exact .object (Option.some.inj hvw)
      | _ => cases hvw
    | _ =>
      cases w with
      | object k => cases hvw
      | _ => exact .leaf (by simp) (by simp) rfl

theorem Twin.meet {α β : Type} {look : Option Value → α} {look' : Option Value → β}
    {G H : Ref → Ref → Prop} {p p' : Option Value} (h : Twin look G p p') (h' : Twin look' H p p') :
    Twin look' (fun r k => G r k ∧ H r k) p p' := by
  cases h with
  | object hrk =>
    cases h' with
    | object hrk' => exact .object ⟨hrk, hrk'⟩
    | leaf hp _ _ => exact absurd rfl (hp _)
  | leaf hp hp' _ =>
    cases h' with
    | object _ => exact absurd rfl (hp _)
    | leaf _ _ hlook => exact .leaf hp hp' hlook

theorem Bisimulation.meet {α β : Type} {look : Option Value → α} {look' : Option Value → β}
    {G H : Ref → Ref → Prop} (hG : s.Bisimulation look G) (hH : s.Bisimulation look' H) :
    s.Bisimulation look' (fun r k => G r k ∧ H r k) :=
  ⟨fun r k h => hG.type r k h.1, fun r k q l hr hq => hG.partner r k q l hr.1 hq.1,
    fun r k h => (hG.places r k h.1).mp (fun _ _ => Twin.meet) (hH.places r k h.2)⟩

theorem eq_of_print_eq {F : Format} {o o' : Outline Leaf} {k k' : List Char}
    (hshape : o.map (fun _ => ()) = o'.map (fun _ => ())) (ho : o.All (fun _ => True) IsRead)
    (ho' : o'.All (fun _ => True) IsRead) (hk : Ends k) (hk' : Ends k')
    (h : s.print F o ++ k = s.print F o' ++ k') : o = o' ∧ k = k' := by
  induction o generalizing o' F k k' with
  | nil =>
    cases o' with
    | nil => exact ⟨rfl, h⟩
    | _ => cases hshape
  | leaf x rest ih =>
    cases o' with
    | leaf x' rest' =>
      obtain ⟨⟨p, hp, rfl⟩, ho⟩ := ho
      obtain ⟨⟨p', hp', rfl⟩, ho'⟩ := ho'
      simp only [print, List.append_assoc, List.append_cancel_left_eq] at h
      obtain ⟨hleaf, hrest⟩ := Leaf.append_inj hp hp' (follows_print F.next_later rest hk)
        (follows_print F.next_later rest' hk') h
      obtain ⟨rfl, hkk⟩ := ih (Outline.leaf.inj hshape).2 ho ho' hk hk' hrest
      exact ⟨by rw [hleaf], hkk⟩
    | _ => cases hshape
  | again t n rest ih =>
    cases o' with
    | again t' n' rest' =>
      obtain ⟨rfl, rfl, hrest⟩ := Outline.again.inj hshape
      simp only [print, List.append_assoc, List.append_cancel_left_eq, List.cons_append,
        List.cons.injEq, true_and] at h
      obtain ⟨rfl, hkk⟩ := ih hrest ho.2 ho'.2 hk hk' h
      exact ⟨rfl, hkk⟩
    | _ => cases hshape
  | first t n inner rest ihi ih =>
    cases o' with
    | first t' n' inner' rest' =>
      obtain ⟨rfl, rfl, hinner, hrest⟩ := Outline.first.inj hshape
      simp only [print, List.append_assoc, List.append_cancel_left_eq, List.cons_append,
        List.cons.injEq, true_and] at h
      obtain ⟨rfl, htail⟩ := ihi hinner ho.2.1 ho'.2.1
        (Format.ends_closing _ (follows_print F.next_later rest hk))
        (Format.ends_closing _ (follows_print F.next_later rest' hk')) h
      obtain ⟨rfl, hkk⟩ := ih hrest ho.2.2 ho'.2.2 hk hk' (List.cons.inj htail).2
      exact ⟨rfl, hkk⟩
    | _ => cases hshape

namespace Alignment

theorem bisimulation (h : s.Alignment a b φ) (ha : s.Grounded a) (hb : s.Grounded b) :
    s.Bisimulation (fun _ => ()) (fun r k => s.heap.Reaches s.types a r ∧ φ r = k) ∧
      Twin (fun _ => ()) (fun r k => s.heap.Reaches s.types a r ∧ φ r = k) (some a) (some b) := by
  refine bisimulation_of_bijOn h.bijOn h.type (twin_unit (.some h.root)) fun r hr => ?_
  have hplaces := (related_iff_places (ha r hr) (hb _ (h.bijOn.mapsTo hr)) (h.type r hr)).mp (h.shape r hr)
  exact hplaces.imp fun p p' hrel => twin_unit hrel

theorem correspondence (h : s.Alignment a b φ) (htypes : s.types.Coherent) (ha : s.Grounded a)
    (hb : s.Grounded b) (hta : s.Tokenless a) (htb : s.Tokenless b) (hk : known.Sound s.types s.sharing)
    (heq : (s.deepEquals a b known).1 = true) : s.Correspondence a b φ := by
  obtain ⟨o, o', seen, seen', hvisits, hvisits', hiff⟩ :=
    deepEquals_iff_print htypes ha hb hta htb hk
  obtain ⟨hG, htwin⟩ := h.bisimulation ha hb
  have hshape := ((hvisits.map fun _ => ()).lockstep hG (hvisits'.map fun _ => ())
    (.cons htwin .nil) .nil).1
  have hread : ∀ {v o seen}, s.Visits Leaf.of [some v] [] o seen → o.All (fun _ => True) IsRead :=
    fun hvisits => hvisits.all (S := fun _ => True) (fun _ _ => trivial) (fun _ _ _ _ => trivial)
      fun _ _ => trivial
  have hprint : s.print (.items false) o ++ [] = s.print (.items false) o' ++ [] := by
    simpa using hiff.mp heq
  obtain ⟨rfl, -⟩ := eq_of_print_eq hshape (hread hvisits) (hread hvisits') (.inl rfl) (.inl rfl) hprint
  obtain ⟨H, hH, htwins⟩ := hvisits.bisimulation hvisits'
  -- both pairings agree on what is met, so the pairing of the visits is the renaming
  cases htwins with
  | cons hroot _ => exact (hG.meet hH).correspondence_of (fun r k h => h.1.2) ha hb (htwin.meet hroot)

end Alignment

/-- Where no identity token stands in a text, graphs of one shape are deeply equal only if scalars at
corresponding places are of one kind and equal in value. -/
theorem equals_of_deepEquals (htypes : s.types.Coherent) (ha : s.Grounded a) (hb : s.Grounded b)
    (hta : s.Tokenless a) (htb : s.Tokenless b) (hk : known.Sound s.types s.sharing)
    (h : s.Alignment a b φ) (heq : (s.deepEquals a b known).1 = true) :
    (a.renamed φ).Equals b ∧ ∀ r, s.heap.Reaches s.types a r →
      (s.heap.shape s.types (s.types.describe r.type) r).Related (fun v w => (v.renamed φ).Equals w)
        (s.heap.shape s.types (s.types.describe (φ r).type) (φ r)) := by
  have hcorr := h.correspondence htypes ha hb hta htb hk heq
  have hequals : ∀ v w : Value, v.PrintsAs w → v.Equals w :=
    fun v w hvw => Value.equals_of_scalarText hvw.1 hvw.2.1 hvw.2.2
  exact ⟨hequals _ _ hcorr.root, fun r hr => (hcorr.shape r hr).imp fun v w => hequals _ _⟩

theorem rings_reaches {i : Nat} (hi : rings.heap.Has ⟨.host 0, i⟩) {r : Ref} :
    rings.heap.Reaches rings.types (.object ⟨.host 0, i⟩) r ↔ r = ⟨.host 0, i⟩ := by
  have hshown : ∀ q ∈ rings.heap.refs, ∀ v ∈ rings.heap.shown rings.types q,
      v.object?.isNone ∨ v = .object q := by
    decide
  constructor
  · intro hr
    refine hr.closed (S := fun r => r = ⟨.host 0, i⟩) (fun r hr => (Value.object.inj hr).symm) ?_
    rintro q rfl r hr
    rcases hshown _ (Heap.mem_refs.mpr hi) _ hr with hnone | hself
    · cases hnone
    · exact Value.object.inj hself
  · rintro rfl
    exact .root rfl

theorem rings_alignment :
    rings.Alignment (.object ⟨.host 0, 0⟩) (.object ⟨.host 0, 1⟩) fun _ => ⟨.host 0, 1⟩ := by
  have hsource := fun r => rings_reaches (i := 0) (by decide) (r := r)
  have htarget := fun r => rings_reaches (i := 1) (by decide) (r := r)
  refine ⟨rfl, ?_, fun r hr => ?_, fun r hr => ?_⟩
  · simp only [hsource, htarget]
    exact ⟨fun _ _ => rfl, fun r hr q hq _ => Eq.trans hr hq.symm, fun k hk => ⟨_, rfl, Eq.symm hk⟩⟩
  · rw [(hsource r).mp hr]
  · rw [(hsource r).mp hr]
    exact .record (.cons ⟨rfl, .some rfl⟩ (.cons ⟨rfl, .some rfl⟩ .nil))

theorem rings_equals :
    (Value.object ⟨.host 0, 1⟩).Equals (.object ⟨.host 0, 1⟩) ∧
      ∀ r, rings.heap.Reaches rings.types (.object ⟨.host 0, 0⟩) r →
        (rings.heap.shape rings.types (rings.types.describe r.type) r).Related
          (fun v w => (v.renamed fun _ => ⟨.host 0, 1⟩).Equals w)
          (rings.heap.shape rings.types (rings.types.describe (.host 0)) ⟨.host 0, 1⟩) := by
  have ha : rings.heap.Holds (.object ⟨.host 0, 0⟩) := by decide
  have hb : rings.heap.Holds (.object ⟨.host 0, 1⟩) := by decide
  exact equals_of_deepEquals (s := rings) ringSpecs.types_coherent (rings_grounded ha) (rings_grounded hb)
    (rings_legible ha rfl).tokenless (rings_legible hb rfl).tokenless rings_known_sound rings_alignment
    rings_deepEquals

/-- Two texts that look like identity tokens are deeply equal, although they are not the same. -/
theorem identity_texts_deepEquals :
    rings.Alignment (.text ⟨"@0x1", .initial⟩) (.text ⟨"@0x2", .initial⟩) id ∧
      (rings.deepEquals (.text ⟨"@0x1", .initial⟩) (.text ⟨"@0x2", .initial⟩) .empty).1 = true ∧
      ¬ (Value.text ⟨"@0x1", .initial⟩).Equals (.text ⟨"@0x2", .initial⟩) := by
  have hnone : ∀ {t : Shared String} {r}, ¬ rings.heap.Reaches rings.types (.text t) r := by
    intro t r hr
    exact hr.closed (S := fun _ => False) (fun r hr => by cases hr) (fun q hq => hq.elim)
  refine ⟨⟨rfl, ?_, fun r hr => (hnone hr).elim, fun r hr => (hnone hr).elim⟩, by decide +kernel, ?_⟩
  · exact ⟨fun r hr => (hnone hr).elim, fun r hr => (hnone hr).elim, fun r hr => (hnone hr).elim⟩
  · rintro ⟨-, heqv | hnan⟩
    · exact absurd heqv (by decide)
    · exact absurd hnan.1 (by decide)

end GraphCopy.Scene
