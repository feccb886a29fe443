import GraphCopy.Proofs.Graph.Outline
import GraphCopy.Proofs.Graph.Tokens
import GraphCopy.Proofs.Text.Alphabet
import GraphCopy.Proofs.Text.Quoting

/-!
# A rendering spells an outline

As long as no identity token stands in a name, a text or a resource identifier,
a rendered graph with its identities renumbered is the printed outline of the
graph. The addresses are gone from it, and the bound on the nesting plays no
part.
-/

namespace GraphCopy

def Value.Tokenless : Value → Prop
  | .text t => GraphCopy.Tokenless t.content.toList
  | .uri u => GraphCopy.Tokenless u.content.text.toList
  | _ => True

def Value.atFree : Value → Bool
  | .text t => !t.content.toList.contains '@'
  | .char c => c != '@'
  | .uri u => !u.content.text.toList.contains '@'
  | _ => true

theorem Value.tokenless_of_atFree {v : Value} (h : v.atFree = true) : v.Tokenless := by
  cases v with
  | text t => exact tokenless_of_not_mem (by simpa [atFree] using h)
  | uri u => exact tokenless_of_not_mem (by simpa [atFree] using h)
  | _ => trivial

theorem tokenless_of_length {cs : List Char} (h : cs.length < 4) : Tokenless cs := by
  intro d _ hin
  have := hin.length_le
  simp at this
  omega

open Piece

theorem Piece.sealed_quoted {quote : Char} {cs : List Char} (hq : quote = '"' ∨ quote = '\'')
    (hcs : Tokenless cs) : Sealed [plain (String.ofList (Text.quotedChars quote cs))] := by
  have hopen : ¬ Segment.BeginsToken (quote :: cs.flatMap (Text.escaped quote)) :=
    Segment.not_begins_of_ne (by rcases hq with rfl | rfl <;> decide)
  have hbreaks : Breaks [quote] := breaks_cons (by rcases hq with rfl | rfl <;> decide) []
  refine sealed_nil.cons_of_tokenless (quote :: cs.flatMap (Text.escaped quote)) [quote]
    ?_ ?_ hbreaks (by simp) (by rcases hq with rfl | rfl <;> decide)
  · rw [String.toList_ofList]
    rfl
  · exact Segment.tokenless_cons.mpr ⟨hopen, Text.tokenless_flatMap_escaped hq hcs⟩

theorem Value.sealed_scalarText {v : Value} (hv : v.Tokenless) : Sealed [plain v.scalarText] := by
  have hover : ∀ p : Char → Bool, p '@' = false → ∀ s : String, Text.Over p s.toList →
      Sealed [plain s] := fun p hp s hs => sealed_nil.cons_of_not_mem (hs.not_mem hp)
  cases v with
  | null => exact sealed_nil.cons_of_not_mem (by decide)
  | bool b => exact sealed_nil.cons_of_not_mem (by cases b <;> decide)
  | int i => exact hover _ (by decide) _ (Text.over_toString_int i.toInt)
  | float x =>
    rcases x.text_numeral with ⟨-, hnan⟩ | ⟨-, hinf⟩ | ⟨hnum, -⟩
    · simp only [scalarText, hnan]
      exact sealed_nil.cons_of_not_mem (by decide)
    · simp only [scalarText, hinf]
      exact sealed_nil.cons_of_not_mem (by split <;> decide)
    · exact hover _ (by decide) _ hnum
  | char c => exact sealed_quoted (.inr rfl) (tokenless_of_length (by simp))
  | text t => exact sealed_quoted (.inl rfl) hv
  | decimal d =>
    refine sealed_nil.cons_of_not_mem ?_
    simp only [scalarText, String.toList_append, List.mem_append, not_or]
    exact ⟨d.content.over_text.not_mem (by decide), by decide⟩
  | timestamp t => exact hover _ (by decide) _ t.over_text
  | date d => exact hover _ (by decide) _ d.over_text
  | uri u =>
    have hname : GraphCopy.Tokenless ('<' :: u.content.text.toList) :=
      Segment.tokenless_cons.mpr ⟨Segment.not_begins_of_ne (by decide), hv⟩
    refine sealed_nil.cons_of_tokenless ('<' :: u.content.text.toList) ['>'] ?_ hname
      (breaks_cons (by decide) []) (by simp) (by decide)
    simp [scalarText]
  | object r => exact sealed_nil.cons_of_not_mem (by simp [scalarText])

namespace Scene

variable {s : Scene} {root v : Value} {r : Ref}

def Within (s : Scene) (root v : Value) : Prop :=
  v = root ∨ ∃ r, s.heap.Reaches s.types root r ∧ v ∈ s.heap.shown s.types r

theorem Within.reaches (h : s.Within root (.object r)) : s.heap.Reaches s.types root r := by
  rcases h with h | ⟨q, hq, hr⟩
  · exact .root h.symm
  · exact hq.step hr

def Grounded (s : Scene) (root : Value) : Prop :=
  ∀ r, s.heap.Reaches s.types root r → s.heap.Has r

theorem grounded_of_closedOn (hclosed : s.types.ClosedOn s.heap) (hroot : s.heap.Holds root) :
    s.Grounded root :=
  fun _ hr => hr.has hclosed hroot

structure Tokenless (s : Scene) (root : Value) : Prop where
  names : ∀ r, s.heap.Reaches s.types root r → GraphCopy.Tokenless (s.types.name r.type).toList
  fields : ∀ r, s.heap.Reaches s.types root r → ∀ f ∈ (s.types.describe r.type).instanceFields,
    GraphCopy.Tokenless f.name.toList
  contents : ∀ v, s.Within root v → v.Tokenless

structure Tracks (s : Scene) (seen : List Ref) (t : Tour) (met : List Nat) : Prop where
  visited : t.seen = seen.map Ref.address
  mutable : met = (seen.filter fun q => !s.Shares q.type).map Ref.address
  known : t.known.Sound s.types s.sharing
  has : ∀ q ∈ seen, s.heap.Has q
  nodup : seen.Nodup

namespace Tracks

variable {seen : List Ref} {t : Tour} {met : List Nat}

theorem length_le (h : s.Tracks seen t met) : seen.length ≤ s.heap.size := by
  have hsub : seen.toFinset ⊆ s.heap.refs.toFinset := by
    intro q hq
    rw [List.mem_toFinset] at hq ⊢
    exact Heap.mem_refs.mpr (h.has q hq)
  have hcard := Finset.card_le_card hsub
  rw [List.toFinset_card_of_nodup h.nodup] at hcard
  exact hcard.trans s.heap.card_refs_le

theorem idxOf? (h : s.Tracks seen t met) (hr : s.heap.Has r) :
    t.seen.idxOf? r.address = if r ∈ seen then some (seen.idxOf r) else none := by
  rw [h.visited, List.idxOf?_map_of_inj fun q hq haddr => (h.has q hq).eq_of_address_eq hr haddr,
    List.idxOf?_eq_ite]

theorem place (h : s.Tracks seen t met) (hr : s.heap.Has r) (hm : s.Shares r.type = false) :
    Piece.place met r.address =
      (s.number seen r, if r ∈ seen then met else met ++ [r.address]) := by
  have hcounted : s.counted seen r.type = seen.filter fun q => !s.Shares q.type := by
    simp [counted, hm]
  have hidx : met.idxOf? r.address = if r ∈ seen then some ((s.counted seen r.type).idxOf r)
      else none := by
    rw [h.mutable, List.idxOf?_map_of_inj fun q hq haddr =>
      (h.has q (List.mem_of_mem_filter hq)).eq_of_address_eq hr haddr, List.idxOf?_eq_ite, hcounted]
    simp [hm]
  by_cases hin : r ∈ seen
  · simp [Piece.place, hidx, hin, number]
  · have hnot : r ∉ s.counted seen r.type := by simp [hcounted, hin]
    have hlen : met.length = (s.counted seen r.type).length := by
      rw [h.mutable, List.length_map, hcounted]
    simp only [Piece.place, hidx, hin, if_false, number, List.idxOf_of_notMem hnot, hlen]

theorem visit (h : s.Tracks seen t met) (hr : s.heap.Has r) (hnew : r ∉ seen) {known : Knowledge}
    (hk : known.Sound s.types s.sharing) :
    s.Tracks (seen ++ [r]) ⟨t.seen ++ [r.address], known⟩
      (if s.Shares r.type then met else met ++ [r.address]) := by
  refine ⟨by simp [h.visited], ?_, hk, ?_, h.nodup.append (List.nodup_singleton _) (by simpa using hnew)⟩
  · cases hm : s.Shares r.type <;> simp [h.mutable, hm]
  · intro q hq
    rcases List.mem_append.mp hq with hq | hq
    · exact h.has q hq
    · rw [List.mem_singleton.mp hq]
      exact hr

end Tracks

structure Spells (s : Scene) (x : Rendering) (met : List Nat) (cs : List Char) (seen : List Ref) :
    Prop where
  isSealed : Sealed x.1
  text : (numbered x.1 met).1 = cs
  tracks : s.Tracks seen x.2 (numbered x.1 met).2

/-- Running spells the printed outline of some places, wherever it begins with enough visited. -/
def Spelled (s : Scene) (bound : Nat) (run : Tour → Rendering) (F : Format)
    (ps : List (Option Value)) : Prop :=
  ∀ seen t met, s.Tracks seen t met → bound ≤ seen.length →
    ∃ o seen', s.Visits Leaf.of ps seen o seen' ∧ s.Spells (run t) met (s.print F o) seen'

variable {bound : Nat} {run run' : Tour → Rendering} {F G : Format} {ps qs : List (Option Value)}

theorem spelled_nil : s.Spelled bound (fun t => ([], t)) F [] :=
  fun seen _ _ ht _ => ⟨.nil, seen, .done seen, sealed_nil, rfl, ht⟩

theorem Spelled.join (h : s.Spelled bound run F ps) (h' : s.Spelled bound run' G qs)
    (sep : String) (hsep : '@' ∉ sep.toList)
    (hprint : ∀ o seen seen', s.Visits Leaf.of qs seen o seen' →
      s.print (Format.next^[ps.length] F) o = sep.toList ++ s.print G o) :
    s.Spelled bound (fun t => ((run t).1 ++ .plain sep :: (run' (run t).2).1, (run' (run t).2).2))
      F (ps ++ qs) := by
  intro seen t met ht hb
  obtain ⟨o, seen₁, hvisits, hspells⟩ := h seen t met ht hb
  have hb₁ : bound ≤ seen₁.length := hb.trans (hvisits.prefix_nodup ht.nodup).1.length_le
  obtain ⟨o', seen₂, hvisits', hspells'⟩ := h' seen₁ _ _ hspells.tracks hb₁
  refine ⟨_, seen₂, hvisits.append hvisits',
    hspells.isSealed.append (hspells'.isSealed.cons_of_not_mem hsep), ?_, ?_⟩
  · rw [hvisits.print_append, hprint _ _ _ hvisits', numbered_append, hspells.text]
    simp only [numbered, hspells'.text]
  · rw [numbered_append]
    exact hspells'.tracks

theorem print_of_before {o : Outline Leaf} {cs : List Char} (hne : o ≠ .nil)
    (hbefore : F.before = cs ++ G.before) (hnext : F.next = G.next) :
    s.print F o = cs ++ s.print G o := by
  cases o with
  | nil => exact absurd rfl hne
  | _ => simp [print, hbefore, hnext]

theorem Visits.ne_nil {α : Type} {look : Option Value → α} {o : Outline α} {p : Option Value}
    {seen seen' : List Ref} (h : s.Visits look (p :: ps) seen o seen') : o ≠ .nil := by
  rintro rfl
  cases h

theorem Visits.print_single {o : Outline Leaf} {p : Option Value} {seen seen' : List Ref}
    (h : s.Visits Leaf.of [p] seen o seen') (F : Format) :
    s.print F o = F.before ++ s.print (.items false) o := by
  cases h with
  | leaf _ hrest => cases hrest; simp [print, Format.before, Format.comma]
  | again _ hrest => cases hrest; simp [print, Format.before, Format.comma]
  | first _ _ hrest => cases hrest; simp [print, Format.before, Format.comma]

theorem Spelled.single {p : Option Value} (h : s.Spelled bound run (.items false) [p])
    (hF : F.before = []) : s.Spelled bound run F [p] := by
  intro seen t met ht hb
  obtain ⟨o, seen', hvisits, hspells⟩ := h seen t met ht hb
  refine ⟨o, seen', hvisits, hspells.isSealed, ?_, hspells.tracks⟩
  rw [hvisits.print_single F, hF, List.nil_append, hspells.text]

section Shapes

variable {one : Value → Tour → Rendering}

theorem sequence_spelled {vs : List Value}
    (hone : ∀ v ∈ vs, s.Spelled bound (one v) (.items false) [some v]) :
    s.Spelled bound (Rendering.sequence one ", " vs) (.items false) (vs.map some) := by
  induction vs with
  | nil => exact spelled_nil
  | cons v vs ih =>
    have ih := ih fun w hw => hone w (List.mem_cons_of_mem _ hw)
    cases vs with
    | nil => exact hone v (by simp)
    | cons w vs =>
      refine (hone v (by simp)).join ih ", " (by decide) fun o _ _ h => ?_
      exact print_of_before h.ne_nil rfl rfl

theorem entry_spelled {e : Value × Value}
    (hkey : s.Spelled bound (one e.1) (.items false) [some e.1])
    (hvalue : s.Spelled bound (one e.2) (.items false) [some e.2]) :
    s.Spelled bound (Rendering.entry one e) (.keys false) [some e.1, some e.2] :=
  (hkey.single rfl).join hvalue " => " (by decide) fun _ _ _ h => h.print_single _

theorem entries_spelled {es : List (Value × Value)}
    (hone : ∀ v ∈ (Shape.entries es).values, s.Spelled bound (one v) (.items false) [some v]) :
    s.Spelled bound (Rendering.entries one es) (.keys false) (Shape.places (.entries es)) := by
  induction es with
  | nil => exact spelled_nil
  | cons e es ih =>
    have ih := ih fun w hw => hone w (List.mem_append_right _ hw)
    have he := entry_spelled (hone e.1 (by simp [Shape.values])) (hone e.2 (by simp [Shape.values]))
    cases es with
    | nil => exact he
    | cons e' es =>
      refine he.join ih ", " (by decide) fun o _ _ h => ?_
      exact print_of_before h.ne_nil rfl rfl

theorem Piece.Sealed.cons_field {name : String} {ps : List Piece} (rest : String)
    (hname : GraphCopy.Tokenless name.toList) (hrest : '@' ∉ rest.toList) (hp : Sealed ps) :
    Sealed (.plain (name ++ (": " ++ rest)) :: ps) := by
  refine hp.cons_of_tokenless name.toList (':' :: ' ' :: rest.toList) ?_ hname
    (breaks_cons (by decide) _) (by simp) (by simp [hrest])
  simp

theorem field_spelled {f : String × Option Value} {names : List String}
    (hname : GraphCopy.Tokenless f.1.toList)
    (hone : ∀ v, f.2 = some v → s.Spelled bound (one v) (.items false) [some v]) :
    s.Spelled bound (Rendering.field one f) (.fields false (f.1 :: names)) [f.2] := by
  intro seen t met ht hb
  obtain ⟨name, value⟩ := f
  cases value with
  | some v =>
    obtain ⟨o, seen', hvisits, hspells⟩ := hone v rfl seen t met ht hb
    refine ⟨o, seen', hvisits, ?_, ?_, hspells.tracks⟩
    · exact Piece.Sealed.cons_field "" hname (by decide) hspells.isSealed
    · rw [hvisits.print_single]
      simp [Rendering.field, numbered, hspells.text, Format.before, Format.comma]
  | none =>
    refine ⟨_, seen, .leaf (by simp) (.done seen), ?_, ?_, ht⟩
    · exact Piece.Sealed.cons_field "<unreadable>" hname (by decide) sealed_nil
    · simp [Rendering.field, numbered, print, Leaf.of, Format.before, Format.comma]

theorem fields_spelled {fs : List (String × Option Value)}
    (hnames : ∀ f ∈ fs, GraphCopy.Tokenless f.1.toList)
    (hone : ∀ v ∈ (Shape.record fs).values, s.Spelled bound (one v) (.items false) [some v]) :
    s.Spelled bound (Rendering.fields one fs) (.fields false (fs.map Prod.fst))
      (Shape.places (.record fs)) := by
  induction fs with
  | nil => exact spelled_nil
  | cons f fs ih =>
    have hf : s.Spelled bound (Rendering.field one f) (.fields false (f.1 :: fs.map Prod.fst)) [f.2] :=
      field_spelled (hnames f (by simp)) fun v hv =>
        hone v (List.mem_filterMap.mpr ⟨f, by simp, hv⟩)
    have ih := ih (fun g hg => hnames g (List.mem_cons_of_mem _ hg)) fun w hw => by
      obtain ⟨g, hg, hgw⟩ := List.mem_filterMap.mp hw
      exact hone w (List.mem_filterMap.mpr ⟨g, List.mem_cons_of_mem _ hg, hgw⟩)
    cases fs with
    | nil => exact hf
    | cons g fs =>
      refine hf.join ih ", " (by decide) fun o _ _ h => ?_
      exact print_of_before h.ne_nil rfl rfl

theorem shape_spelled {sh : Shape} (hfits : sh.Fits F)
    (hnames : ∀ fs, sh = .record fs → ∀ f ∈ fs, GraphCopy.Tokenless f.1.toList)
    (hone : ∀ v ∈ sh.values, s.Spelled bound (one v) (.items false) [some v])
    {seen : List Ref} {t : Tour} {met : List Nat} (ht : s.Tracks seen t met)
    (hb : bound ≤ seen.length) :
    ∃ o seen', s.Visits Leaf.of sh.places seen o seen' ∧
      s.Spells (Rendering.shape one sh t) met (F.opening :: (s.print F o ++ [F.closing])) seen' ∧
      ∀ k, Breaks (chars (Rendering.shape one sh t).1 ++ k) := by
  -- whatever is spelled between brackets
  have hwrap : ∀ {x : Rendering} {o : Outline Leaf} {seen' : List Ref} (left right : String),
      s.Spells x met (s.print F o) seen' → left.toList = [F.opening] → right.toList = [F.closing] →
      s.Spells (.plain left :: x.1 ++ [.plain right], x.2) met
          (F.opening :: (s.print F o ++ [F.closing])) seen' ∧
        ∀ k, Breaks (chars (.plain left :: x.1 ++ [.plain right]) ++ k) := by
    intro x o seen' left right hspells hleft hright
    have hopen : F.opening ≠ 'x' ∧ isHexDigit F.opening = false ∧ F.opening ≠ '@' ∧
        F.closing ≠ '@' := by
      cases hfits <;> simp only [Format.opening, Format.closing] <;> decide
    refine ⟨⟨?_, ?_, ?_⟩, fun k => ?_⟩
    · refine Sealed.cons_of_not_mem ?_ (hspells.isSealed.append (sealed_nil.cons_of_not_mem ?_))
      · simpa [hleft] using hopen.2.2.1.symm
      · simpa [hright] using hopen.2.2.2.symm
    · simp [numbered, numbered_append, hspells.text, hleft, hright]
    · simpa [numbered, numbered_append] using hspells.tracks
    · rw [List.cons_append, chars_plain, hleft]
      exact breaks_cons ⟨hopen.1, hopen.2.1⟩ _
  cases hfits with
  | sequence vs =>
    obtain ⟨o, seen', hvisits, hspells⟩ := sequence_spelled hone seen t met ht hb
    exact ⟨o, seen', hvisits, hwrap "[" "]" hspells rfl rfl⟩
  | entries es =>
    obtain ⟨o, seen', hvisits, hspells⟩ := entries_spelled hone seen t met ht hb
    exact ⟨o, seen', hvisits, hwrap "\x7b" "\x7d" hspells rfl rfl⟩
  | record fs =>
    obtain ⟨o, seen', hvisits, hspells⟩ := fields_spelled (hnames fs rfl) hone seen t met ht hb
    exact ⟨o, seen', hvisits, hwrap "\x7b" "\x7d" hspells rfl rfl⟩

end Shapes

section Objects

variable {seen : List Ref} {t : Tour} {met : List Nat}

theorem label_spelled (ht : s.Tracks seen t met) (hr : s.heap.Has r)
    (hname : GraphCopy.Tokenless (s.types.name r.type).toList) (ps : List Piece) (hps : Sealed ps)
    (hbreaks : ∀ k, Breaks (chars ps ++ k)) :
    let met' := if s.Shares r.type ∨ r ∈ seen then met else met ++ [r.address]
    Sealed (label (s.types.describe r.type) (s.Shares r.type) r (seen.idxOf r) ++ ps) ∧
      numbered (label (s.types.describe r.type) (s.Shares r.type) r (seen.idxOf r) ++ ps) met =
        (s.tag r.type (s.number seen r) ++ (numbered ps met').1, (numbered ps met').2) := by
  have hdesc : (s.types.describe r.type).name = s.types.name r.type := rfl
  cases hm : s.Shares r.type with
  | true =>
    have hnumber : s.number seen r = seen.idxOf r + 1 := by simp [number, counted, hm]
    have hdigits : '@' ∉ (toString (seen.idxOf r + 1)).toList :=
      (Text.over_toString _).not_mem (by decide)
    refine ⟨?_, ?_⟩
    · refine hps.cons_of_tokenless (s.types.name r.type).toList
        ('#' :: (toString (seen.idxOf r + 1)).toList) ?_ hname (breaks_cons (by decide) _)
        (by simp) (by simpa using hdigits)
      simp [hdesc]
    · simp [label, numbered, tag, hm, hnumber, hdesc]
  | false =>
    refine ⟨hps.cons_label hname hbreaks, ?_⟩
    have hplace := ht.place hr hm
    simp [label, numbered, tag, hm, hplace, hdesc]

/-- What is known of types does not show in what is written of an object. -/
theorem renderRef_eq (htypes : s.types.Coherent) (ht : s.Tracks seen t met) (hr : s.heap.Has r)
    (one : Value → Tour → Rendering) : ∃ known, known.Sound s.types s.sharing ∧
      s.renderRef one r t =
        if r ∈ seen then
          (label (s.types.describe r.type) (s.Shares r.type) r (seen.idxOf r) ++ [.plain "^"],
            ⟨t.seen, known⟩)
        else
          let out := Rendering.shape one (s.heap.shape s.types (s.types.describe r.type) r)
            ⟨t.seen ++ [r.address], known⟩
          (label (s.types.describe r.type) (s.Shares r.type) r (seen.idxOf r) ++ out.1, out.2) := by
  obtain ⟨hknown, hverdict⟩ := SharingRules.isImmutable_judges (s := s.sharing) htypes
    (ht.known.describe_snd r.type) (t := r.type)
  have hshares : (s.sharing.isImmutable s.types (s.types.describe r.type)
      (Knowledge.describe s.types r.type t.known).2).1 = s.Shares r.type := by
    rw [Bool.eq_iff_iff, hverdict]
    simp [Shares]
  refine ⟨_, hknown, ?_⟩
  simp only [renderRef, ht.known.describe_fst r.type, hshares, ht.idxOf? hr]
  by_cases hin : r ∈ seen
  · simp only [hin, if_true]
  · have hidx : t.seen.length = seen.idxOf r := by
      rw [List.idxOf_of_notMem hin, ht.visited, List.length_map]
    simp only [hin, if_false, hidx]

theorem Tokenless.shown_fields (hplain : s.Tokenless root) (hreach : s.heap.Reaches s.types root r)
    (hr : s.heap.Has r) {fs : List (String × Option Value)}
    (hfs : s.heap.shape s.types (s.types.describe r.type) r = .record fs) :
    ∀ f ∈ fs, GraphCopy.Tokenless f.1.toList := by
  intro f hf
  have hmem : f.1 ∈ fs.map Prod.fst := List.mem_map_of_mem hf
  rw [Heap.map_fst_of_shape hr hfs] at hmem
  obtain ⟨g, hg, hgf⟩ := List.mem_map.mp hmem
  rw [← hgf]
  exact hplain.fields r hreach g hg

theorem renderRef_spelled (htypes : s.types.Coherent) (hplain : s.Tokenless root)
    (hreach : s.heap.Reaches s.types root r) (hr : s.heap.Has r) {one : Value → Tour → Rendering}
    (hone : ∀ v ∈ s.heap.shown s.types r, s.Spelled (bound + 1) (one v) (.items false) [some v]) :
    s.Spelled bound (s.renderRef one r) (.items false) [some (.object r)] := by
  intro seen t met ht hb
  obtain ⟨known, hknown, hrender⟩ := renderRef_eq htypes ht hr one
  rw [hrender]
  by_cases hin : r ∈ seen
  · obtain ⟨hsealed, hnumbered⟩ := label_spelled ht hr (hplain.names r hreach)
      [.plain "^"] (sealed_nil.cons_of_not_mem (by decide))
      fun k => breaks_cons (by decide) k
    simp only [hin, or_true, if_true] at hnumbered ⊢
    refine ⟨_, seen, .again hin (.done seen), hsealed, ?_, ?_⟩
    · rw [hnumbered]
      simp [numbered, print, Format.before, Format.comma]
    · rw [hnumbered]
      exact ⟨ht.visited, ht.mutable, hknown, ht.has, ht.nodup⟩
  · obtain ⟨i, seen', hvisits, hspells, hbreaks⟩ := shape_spelled (Heap.shape_fits s.types hr)
      (fun fs => hplain.shown_fields hreach hr) hone (ht.visit hr hin hknown) (by simpa using hb)
    obtain ⟨hsealed, hnumbered⟩ := label_spelled ht hr (hplain.names r hreach) _
      hspells.isSealed hbreaks
    simp only [hin, or_false, if_false] at hnumbered ⊢
    refine ⟨_, seen', .first hin hvisits (.done seen'), hsealed, ?_, ?_⟩
    · rw [hnumbered, hspells.text]
      simp [print, Format.before, Format.comma]
    · rw [hnumbered]
      exact hspells.tracks

/-- At each depth, rendering a value in reach spells it, if no more objects than the depth allows are
left to be visited. -/
theorem renderWithin_spelled (htypes : s.types.Coherent) (hroot : s.Grounded root)
    (hplain : s.Tokenless root) (fuel bound : Nat)
    (hbound : s.heap.size + 1 ≤ fuel + bound) {v : Value} (hv : s.Within root v) :
    s.Spelled bound (s.renderWithin fuel v) (.items false) [some v] := by
  induction fuel generalizing bound v with
  | zero =>
    intro seen t met ht hb
    have hlen := ht.length_le
    omega
  | succ fuel ih =>
    cases v with
    | object r =>
      exact renderRef_spelled htypes hplain hv.reaches (hroot r hv.reaches)
        fun v hshown => ih (bound + 1) (by omega) (.inr ⟨r, hv.reaches, hshown⟩)
    | _ =>
      intro seen t met ht hb
      refine ⟨_, seen, .leaf (by simp) (.done seen), Value.sealed_scalarText (hplain.contents _ hv),
        ?_, ht⟩
      simp [renderWithin, numbered, print, Leaf.of, Format.before, Format.comma]

/-- The rendered text of a value with renumbered identities is its printed outline. -/
theorem normalize_render (htypes : s.types.Coherent) (hroot : s.Grounded root)
    (hplain : s.Tokenless root) {known : Knowledge} (hk : known.Sound s.types s.sharing) :
    ∃ o seen, s.Visits Leaf.of [some root] [] o seen ∧
      normalize (s.render root known).1 = String.ofList (s.print (.items false) o) ∧
      (s.render root known).2.Sound s.types s.sharing := by
  have hstart : s.Tracks [] ⟨[], known⟩ [] := ⟨rfl, rfl, hk, by simp, List.nodup_nil⟩
  obtain ⟨o, seen, hvisits, hspells⟩ := renderWithin_spelled htypes hroot hplain
    (s.heap.size + 2) 0 (by omega) (.inl rfl) [] _ _ hstart (Nat.zero_le _)
  refine ⟨o, seen, hvisits, ?_, hspells.tracks.known⟩
  rw [← hspells.text]
  exact normalize_of_sealed hspells.isSealed

end Objects

end Scene
end GraphCopy
