import GraphCopy.Proofs.Graph.Outline

/-!
# Two visits in step

A bisimulation pairs objects one to one such that paired objects have the same
type and show twins at the same places: paired objects, or leaves that look the
same. Two visits of twins have one outline, whatever the addresses. The other
way round, two visits with one outline pair what they met, and this pairing is
a bisimulation. So the outline is a complete invariant.
-/

theorem List.idxOf_eq_of_forall₂ {α β : Type} [DecidableEq α] [DecidableEq β] {R : α → β → Prop}
    {xs : List α} {ys : List β} {a : α} {b : β} (h : List.Forall₂ R xs ys)
    (hab : ∀ x y, R x y → (x = a ↔ y = b)) : xs.idxOf a = ys.idxOf b := by
  induction h with
  | nil => rfl
  | @cons x y xs ys hxy _ ih =>
    by_cases hx : x = a
    · have hy := (hab x y hxy).mp hx
      rw [hx, hy, List.idxOf_cons_self, List.idxOf_cons_self]
    · have hy : y ≠ b := fun h => hx ((hab x y hxy).mpr h)
      rw [List.idxOf_cons_ne _ hx, List.idxOf_cons_ne _ hy, ih]

theorem List.mem_zip_of_idxOf_eq {α β : Type} [DecidableEq α] [DecidableEq β] {xs : List α}
    {ys : List β} {a : α} {b : β} (ha : a ∈ xs) (hb : b ∈ ys) (hab : xs.idxOf a = ys.idxOf b) :
    (a, b) ∈ xs.zip ys := by
  have hx : xs.idxOf a < xs.length := List.idxOf_lt_length_iff.mpr ha
  have hy : xs.idxOf a < ys.length := hab ▸ List.idxOf_lt_length_iff.mpr hb
  refine List.mem_iff_getElem.mpr ⟨xs.idxOf a, by simp [hx, hy], ?_⟩
  rw [List.getElem_zip, List.getElem_idxOf, Prod.mk.injEq]
  refine ⟨rfl, ?_⟩
  simp only [hab, List.getElem_idxOf]

theorem List.eq_iff_of_mem_zip {α β : Type} {xs : List α} {ys : List β} (hx : xs.Nodup)
    (hy : ys.Nodup) {a a' : α} {b b' : β} (h : (a, b) ∈ xs.zip ys) (h' : (a', b') ∈ xs.zip ys) :
    a = a' ↔ b = b' := by
  obtain ⟨i, hi, hia⟩ := List.mem_iff_getElem.mp h
  obtain ⟨j, hj, hja⟩ := List.mem_iff_getElem.mp h'
  simp only [List.getElem_zip, Prod.mk.injEq] at hia hja
  obtain ⟨rfl, rfl⟩ := hia
  obtain ⟨rfl, rfl⟩ := hja
  rw [hx.getElem_inj_iff, hy.getElem_inj_iff]

theorem List.mem_zip_of_filter {α β : Type} {R : α → β → Prop} {p : α → Bool} {q : β → Bool}
    {xs : List α} {ys : List β} (h : List.Forall₂ R xs ys) (hpq : ∀ x y, R x y → p x = q y)
    {e : α × β} (he : e ∈ (xs.filter p).zip (ys.filter q)) : e ∈ xs.zip ys := by
  induction h with
  | nil => exact he
  | @cons x y xs ys hxy _ ih =>
    have hq := hpq x y hxy
    cases hp : p x with
    | true =>
      rw [List.filter_cons_of_pos hp, List.filter_cons_of_pos (hq ▸ hp)] at he
      rcases List.mem_cons.mp he with rfl | he
      · exact List.mem_cons_self
      · exact List.mem_cons_of_mem _ (ih he)
    | false =>
      rw [List.filter_cons_of_neg (by simp [hp]), List.filter_cons_of_neg (by simp [← hq, hp])] at he
      exact List.mem_cons_of_mem _ (ih he)

namespace GraphCopy.Scene

variable {s : Scene} {α : Type} {look : Option Value → α} {G : Ref → Ref → Prop}

inductive Twin (look : Option Value → α) (G : Ref → Ref → Prop) :
    Option Value → Option Value → Prop
  | object {r r'} (h : G r r') : Twin look G (some (.object r)) (some (.object r'))
  | leaf {p p'} (hp : ∀ r, p ≠ some (.object r)) (hp' : ∀ r, p' ≠ some (.object r))
      (h : look p = look p') : Twin look G p p'

structure Bisimulation (s : Scene) (look : Option Value → α) (G : Ref → Ref → Prop) : Prop where
  type : ∀ r r', G r r' → r.type = r'.type
  partner : ∀ r r' q q', G r r' → G q q' → (r = q ↔ r' = q')
  places : ∀ r r', G r r' → List.Forall₂ (Twin look G) (s.placesOf r) (s.placesOf r')

variable {ps ps' : List (Option Value)} {seen seen' seen₁ seen₁' : List Ref} {o o' : Outline α}
  {r r' : Ref}

theorem Bisimulation.number_eq (hG : s.Bisimulation look G) (hseen : List.Forall₂ G seen seen')
    (hr : G r r') : s.number seen r = s.number seen' r' := by
  have hcounted : List.Forall₂ G (s.counted seen r.type) (s.counted seen' r'.type) := by
    simp only [counted, ← hG.type r r' hr]
    split
    · exact hseen
    · refine List.rel_filter (fun q q' hq => ?_) hseen
      simp only [hG.type q q' hq]
  rw [number, number, List.idxOf_eq_of_forall₂ hcounted fun q q' hq => hG.partner q q' r r' hq hr]

theorem Bisimulation.mem_iff (hG : s.Bisimulation look G) (hseen : List.Forall₂ G seen seen')
    (hr : G r r') : r ∈ seen ↔ r' ∈ seen' := by
  constructor
  · intro hin
    obtain ⟨q, hq, hrq⟩ := hseen.exists_of_mem_left hin
    rwa [(hG.partner _ _ _ _ hr hrq).mp rfl]
  · intro hin
    obtain ⟨q, hq, hrq⟩ := hseen.exists_of_mem_right hin
    rwa [(hG.partner _ _ _ _ hr hrq).mpr rfl]

/-- Visits of twins go in step: one outline, and partners are visited at the same time. -/
theorem Visits.lockstep (hG : s.Bisimulation look G) (h : s.Visits look ps seen o seen₁)
    (h' : s.Visits look ps' seen' o' seen₁') (hps : List.Forall₂ (Twin look G) ps ps')
    (hseen : List.Forall₂ G seen seen') : o = o' ∧ List.Forall₂ G seen₁ seen₁' := by
  induction h generalizing ps' seen' o' seen₁' with
  | done seen =>
    cases hps
    cases h'
    exact ⟨rfl, hseen⟩
  | leaf hp _ ih =>
    cases hps with
    | cons htwin hps =>
      cases htwin with
      | object _ => exact absurd rfl (hp _)
      | leaf _ hp' hlook =>
        cases h' with
        | leaf _ hrest' =>
          obtain ⟨rfl, hseen₁⟩ := ih hrest' hps hseen
          exact ⟨by rw [hlook], hseen₁⟩
        | again _ _ => exact absurd rfl (hp' _)
        | first _ _ _ => exact absurd rfl (hp' _)
  | again hr _ ih =>
    cases hps with
    | cons htwin hps =>
      cases htwin with
      | leaf hp _ _ => exact absurd rfl (hp _)
      | object hrr' =>
        cases h' with
        | leaf hp' _ => exact absurd rfl (hp' _)
        | again hr' hrest' =>
          obtain ⟨rfl, hseen₁⟩ := ih hrest' hps hseen
          exact ⟨by rw [hG.type _ _ hrr', hG.number_eq hseen hrr'], hseen₁⟩
        | first hr' _ _ => exact absurd ((hG.mem_iff hseen hrr').mp hr) hr'
  | first hr _ _ ihi ih =>
    cases hps with
    | cons htwin hps =>
      cases htwin with
      | leaf hp _ _ => exact absurd rfl (hp _)
      | object hrr' =>
        cases h' with
        | leaf hp' _ => exact absurd rfl (hp' _)
        | again hr' _ => exact absurd ((hG.mem_iff hseen hrr').mpr hr') hr
        | first hr' hinner' hrest' =>
          have hvisited := List.rel_append hseen (.cons hrr' .nil)
          obtain ⟨rfl, hseen₁⟩ := ihi hinner' (hG.places _ _ hrr') hvisited
          obtain ⟨rfl, hseen₂⟩ := ih hrest' hps hseen₁
          exact ⟨by rw [hG.type _ _ hrr', hG.number_eq hseen hrr'], hseen₂⟩

def SameType (r r' : Ref) : Prop := r.type = r'.type

theorem mem_zip_of_number_eq (hseen : List.Forall₂ SameType seen seen') (hr : r ∈ seen)
    (hr' : r' ∈ seen') (htype : r.type = r'.type) (hn : s.number seen r = s.number seen' r') :
    (r, r') ∈ seen.zip seen' := by
  have hidx := Nat.succ.inj hn
  simp only [counted, htype] at hidx
  split at hidx
  · exact List.mem_zip_of_idxOf_eq hr hr' hidx
  · next hm =>
    have hzip := List.mem_zip_of_idxOf_eq (List.mem_filter.mpr ⟨hr, by simp [htype, hm]⟩)
      (List.mem_filter.mpr ⟨hr', by simp [hm]⟩) hidx
    exact List.mem_zip_of_filter hseen (fun q q' hq => by rw [hq]) hzip

structure Pairing (s : Scene) (look : Option Value → α) (ps ps' : List (Option Value))
    (before after : List (Ref × Ref)) : Prop where
  grows : before ⊆ after
  twins : ∀ G : Ref → Ref → Prop, (∀ e ∈ after, G e.1 e.2) →
    List.Forall₂ (Twin look G) ps ps' ∧
      ∀ e ∈ after, e ∈ before ∨ List.Forall₂ (Twin look G) (s.placesOf e.1) (s.placesOf e.2)

/-- Visits with one outline pair what they meet. -/
theorem Visits.pairing (h : s.Visits look ps seen o seen₁) (h' : s.Visits look ps' seen' o seen₁')
    (hseen : List.Forall₂ SameType seen seen') :
    List.Forall₂ SameType seen₁ seen₁' ∧
      s.Pairing look ps ps' (seen.zip seen') (seen₁.zip seen₁') := by
  induction h generalizing ps' seen' seen₁' with
  | done seen =>
    cases h'
    exact ⟨hseen, .refl _, fun G _ => ⟨.nil, fun e he => .inl he⟩⟩
  | @leaf p ps seen o seen₁ hp _ ih =>
    generalize hlook : look p = x at h'
    cases h' with
    | leaf hp' hrest' =>
      obtain ⟨htypes, hgrows, htwins⟩ := ih hrest' hseen
      refine ⟨htypes, hgrows, fun G hG => ?_⟩
      obtain ⟨hps, hnew⟩ := htwins G hG
      exact ⟨.cons (.leaf hp hp' hlook) hps, hnew⟩
  | @again r ps seen o seen₁ hr _ ih =>
    generalize htype : r.type = t at h'
    generalize hn : s.number seen r = n at h'
    cases h' with
    | again hr' hrest' =>
      obtain ⟨htypes, hgrows, htwins⟩ := ih hrest' hseen
      refine ⟨htypes, hgrows, fun G hG => ?_⟩
      obtain ⟨hps, hnew⟩ := htwins G hG
      have hpair := hgrows (mem_zip_of_number_eq hseen hr hr' htype hn)
      exact ⟨.cons (.object (hG _ hpair)) hps, hnew⟩
  | @first r ps seen i seen₁ o seen₂ hr _ _ ihi ih =>
    generalize htype : r.type = t at h'
    generalize hn : s.number seen r = n at h'
    cases h' with
    | @first r' _ _ _ _ _ _ hr' hinner' hrest' =>
      obtain ⟨htypes₁, hgrows₁, htwins₁⟩ :=
        ihi hinner' (List.rel_append hseen (.cons htype .nil))
      obtain ⟨htypes₂, hgrows₂, htwins₂⟩ := ih hrest' htypes₁
      rw [List.zip_append hseen.length_eq] at hgrows₁ htwins₁
      refine ⟨htypes₂, fun e he => hgrows₂ (hgrows₁ (List.mem_append_left _ he)), fun G hG => ?_⟩
      obtain ⟨hps, hnew₂⟩ := htwins₂ G hG
      obtain ⟨hplaces, hnew₁⟩ := htwins₁ G fun e he => hG e (hgrows₂ he)
      have hpair : G r r' := hG (r, r') (hgrows₂ (hgrows₁ (List.mem_append_right _ (by simp))))
      refine ⟨.cons (.object hpair) hps, fun e he => ?_⟩
      rcases hnew₂ e he with he | he
      · rcases hnew₁ e he with he | he
        · rcases List.mem_append.mp he with he | he
          · exact .inl he
          · obtain rfl : e = (r, r') := by simpa using he
            exact .inr hplaces
        · exact .inr he
      · exact .inr he

theorem Visits.bisimulation (h : s.Visits look ps [] o seen₁) (h' : s.Visits look ps' [] o seen₁') :
    ∃ G, s.Bisimulation look G ∧ List.Forall₂ (Twin look G) ps ps' := by
  obtain ⟨htypes, -, htwins⟩ := h.pairing h' .nil
  obtain ⟨hps, hplaces⟩ := htwins (fun r r' => (r, r') ∈ seen₁.zip seen₁') fun e he => he
  refine ⟨_, ⟨fun r r' hr => ?_, fun r r' q q' hr hq => ?_, fun r r' hr => ?_⟩, hps⟩
  · exact List.forall₂_iff_zip.mp htypes |>.2 hr
  · exact List.eq_iff_of_mem_zip (h.prefix_nodup List.nodup_nil).2
      (h'.prefix_nodup List.nodup_nil).2 hr hq
  · exact (hplaces _ hr).resolve_left (by simp)

end GraphCopy.Scene
