import GraphCopy.Proofs.Graph.Spelling

/-!
# Renumbering captures renaming

A text is scanned from the left, and a token extends over all the digits that
follow it. Renumbering writes at each token its place among the tokens that
have appeared, and so it forgets just what an injective renaming of the tokens
may change.

Whatever is written in place of tokens begins with an at sign, which is no part
of a token except in front. So no new token arises around it, and the text
that was written is scanned as it was before.
-/

namespace GraphCopy.Segment

open Text

variable {c : Char} {cs cs' ds : List Char} {ss tt : List Segment} {f : Segment → List Char}
  {seen T T' : List (List Char)} {ρ : List Char → List Char}

/-- Reading from the left, a token where one begins, as long as it can be, and else a character. -/
inductive Scans : List Char → List Segment → Prop
  | nil : Scans [] []
  | char {c : Char} {cs : List Char} {ss : List Segment} (hc : ¬ BeginsToken (c :: cs))
      (h : Scans cs ss) : Scans (c :: cs) (char c :: ss)
  | token {ds cs : List Char} {ss : List Segment} (hne : ds ≠ []) (hds : Over isHexDigit ds)
      (hstop : ∀ c ∈ cs.head?, isHexDigit c = false) (h : Scans cs ss) :
      Scans ('@' :: '0' :: 'x' :: (ds ++ cs)) (token ds :: ss)

theorem Scans.read_eq (h : Scans cs ss) : read cs = ss := by
  induction h with
  | nil => rfl
  | char hc _ ih => rw [read_of_not_begins hc, ih]
  | token hne hds hstop _ ih => rw [read_token hne hds hstop, ih]

theorem Scans.write_eq (h : Scans cs ss) : write ss = cs := by
  induction h with
  | nil => rfl
  | char _ _ ih => rw [write, List.flatMap_cons, ← write, ih, chars, List.singleton_append]
  | token _ _ _ _ ih => rw [write, List.flatMap_cons, ← write, ih]; rfl

theorem exists_digits (hd : isHexDigit c = true) (cs : List Char) :
    ∃ ds k, c :: cs = ds ++ k ∧ ds ≠ [] ∧ Over isHexDigit ds ∧
      ∀ c' ∈ k.head?, isHexDigit c' = false := by
  refine ⟨(c :: cs).takeWhile isHexDigit, (c :: cs).dropWhile isHexDigit,
    (List.takeWhile_append_dropWhile).symm, ?_, List.all_eq_true.mp List.all_takeWhile, ?_⟩
  · rw [List.takeWhile_cons_of_pos hd]
    exact List.cons_ne_nil _ _
  · intro c' hc'
    have hstop := List.head?_dropWhile_not isHexDigit (c :: cs)
    rw [Option.mem_def.mp hc'] at hstop
    simpa using hstop

theorem exists_scans (cs : List Char) : ∃ ss, Scans cs ss := by
  induction hn : cs.length using Nat.strong_induction_on generalizing cs with
  | _ n ih =>
    cases cs with
    | nil => exact ⟨[], .nil⟩
    | cons c cs =>
      by_cases hc : BeginsToken (c :: cs)
      · obtain ⟨d, rest, heq, hd⟩ := hc
        obtain ⟨ds, k, hsplit, hne, hds, hstop⟩ := exists_digits hd rest
        rw [hsplit] at heq
        obtain ⟨ss, hss⟩ := ih k.length (by rw [← hn, heq]; simp; omega) k rfl
        rw [heq]
        exact ⟨_, .token hne hds hstop hss⟩
      · obtain ⟨ss, hss⟩ := ih cs.length (by simp [← hn]) cs rfl
        exact ⟨_, .char hc hss⟩

theorem Scans.digits (h : Scans cs ss) (hds : Segment.token ds ∈ ss) : ds ≠ [] ∧ Over isHexDigit ds := by
  induction h with
  | nil => cases hds
  | char _ _ ih => exact ih (by simpa using hds)
  | token hne hover _ _ ih =>
    rcases List.mem_cons.mp hds with heq | hds
    · cases heq
      exact ⟨hne, hover⟩
    · exact ih hds

structure Written (f : Segment → List Char) : Prop where
  char (c : Char) : f (char c) = [c]
  token (ds : List Char) : ∃ k, f (token ds) = '@' :: k

namespace Written

theorem eq_cons (h : Written f) (hc : c ≠ '@') (heq : ss.flatMap f = c :: cs) :
    ∃ ss', ss = Segment.char c :: ss' ∧ ss'.flatMap f = cs := by
  cases ss with
  | nil => cases heq
  | cons g ss =>
    rw [List.flatMap_cons] at heq
    cases g with
    | char c' =>
      rw [h.char] at heq
      obtain ⟨rfl, htail⟩ := List.cons.inj heq
      exact ⟨ss, rfl, htail⟩
    | token ds =>
      obtain ⟨k, hk⟩ := h.token ds
      rw [hk] at heq
      exact absurd (List.cons.inj heq).1.symm hc

theorem begins (h : Written f) (hb : BeginsToken (c :: ss.flatMap f)) :
    BeginsToken (c :: write ss) := by
  obtain ⟨d, rest, heq, hd⟩ := hb
  obtain ⟨rfl, htail⟩ := List.cons.inj heq
  have hdat : d ≠ '@' := by
    rintro rfl
    exact absurd hd (by decide)
  obtain ⟨ss₁, rfl, htail₁⟩ := h.eq_cons (by decide) htail
  obtain ⟨ss₂, rfl, htail₂⟩ := h.eq_cons (by decide) htail₁
  obtain ⟨ss₃, rfl, -⟩ := h.eq_cons hdat htail₂
  exact ⟨d, write ss₃, rfl, hd⟩

theorem head? (h : Written f) : (ss.flatMap f).head? = (write ss).head? := by
  cases ss with
  | nil => rfl
  | cons g ss =>
    cases g with
    | char c => simp [write, h.char, chars]
    | token ds =>
      obtain ⟨k, hk⟩ := h.token ds
      simp [write, hk, chars]

end Written

def rename (ρ : List Char → List Char) : Segment → Segment
  | char c => char c
  | token ds => token (ρ ds)

theorem write_map_rename (ρ : List Char → List Char) (ss : List Segment) :
    write (ss.map (rename ρ)) = ss.flatMap fun g => chars (rename ρ g) := by
  rw [write, List.flatMap_map]

theorem written_rename (ρ : List Char → List Char) : Written fun g => chars (rename ρ g) :=
  ⟨fun _ => rfl, fun _ => ⟨_, rfl⟩⟩

theorem Scans.rename (h : Scans cs ss)
    (hρ : ∀ ds, Segment.token ds ∈ ss → ρ ds ≠ [] ∧ Over isHexDigit (ρ ds)) :
    Scans (write (ss.map (rename ρ))) (ss.map (rename ρ)) := by
  have hwritten := written_rename ρ
  rw [write_map_rename]
  induction h with
  | nil => exact .nil
  | char hc h ih =>
    refine .char (fun hb => hc ?_) (ih fun ds hds => hρ ds (List.mem_cons_of_mem _ hds))
    rw [← h.write_eq]
    exact hwritten.begins hb
  | @token ds cs ss hne hds hstop h ih =>
    obtain ⟨hne', hds'⟩ := hρ ds (by simp)
    rw [← h.write_eq, ← hwritten.head?] at hstop
    rw [List.flatMap_cons]
    exact .token hne' hds' hstop (ih fun ds hds => hρ ds (List.mem_cons_of_mem _ hds))

def table (seen : List (List Char)) : List Segment → List (List Char)
  | [] => seen
  | char _ :: ss => table seen ss
  | token ds :: ss => table (ordinal seen ds).2 ss

def numbered (T : List (List Char)) : Segment → List Char
  | char c => [c]
  | token ds => '@' :: (toString (T.idxOf ds + 1)).toList

theorem written_numbered (T : List (List Char)) : Written (numbered T) :=
  ⟨fun _ => rfl, fun _ => ⟨_, rfl⟩⟩

theorem ordinal_eq (seen : List (List Char)) (ds : List Char) :
    ordinal seen ds = (seen.idxOf ds + 1, if ds ∈ seen then seen else seen ++ [ds]) := by
  unfold ordinal
  rw [List.idxOf?_eq_ite]
  by_cases hin : ds ∈ seen
  · simp [hin]
  · simp [hin]

theorem ordinal_map (hρ : ∀ es ∈ seen, ρ es = ρ ds → es = ds) :
    ordinal (seen.map ρ) (ρ ds) = ((ordinal seen ds).1, (ordinal seen ds).2.map ρ) := by
  unfold ordinal
  rw [List.idxOf?_map_of_inj hρ]
  cases seen.idxOf? ds <;> simp

theorem mem_ordinal {es : List Char} : es ∈ (ordinal seen ds).2 ↔ es ∈ seen ∨ es = ds := by
  rw [ordinal_eq]
  by_cases hin : ds ∈ seen
  · simp only [hin, if_true]
    exact ⟨.inl, fun h => h.elim id fun heq => heq ▸ hin⟩
  · simp [hin]

theorem prefix_ordinal (seen : List (List Char)) (ds : List Char) :
    seen <+: (ordinal seen ds).2 := by
  rw [ordinal_eq]
  by_cases hin : ds ∈ seen <;> simp [hin]

theorem prefix_table (seen : List (List Char)) (ss : List Segment) : seen <+: table seen ss := by
  induction ss generalizing seen with
  | nil => exact List.prefix_rfl
  | cons g ss ih =>
    cases g with
    | char c => exact ih seen
    | token ds => exact (prefix_ordinal seen ds).trans (ih _)

theorem mem_table (h : token ds ∈ ss) : ds ∈ table seen ss := by
  induction ss generalizing seen with
  | nil => cases h
  | cons g ss ih =>
    cases g with
    | char c => exact ih (by simpa using h)
    | token es =>
      rcases List.mem_cons.mp h with heq | h
      · cases heq
        exact (prefix_table _ ss).subset (mem_ordinal.mpr (.inr rfl))
      · exact ih h

theorem idxOf_table (seen : List (List Char)) (ds : List Char) (ss : List Segment) :
    (table seen (token ds :: ss)).idxOf ds = seen.idxOf ds := by
  obtain ⟨k, hk⟩ := prefix_table (ordinal seen ds).2 ss
  rw [table, ← hk, List.idxOf_append_of_mem (mem_ordinal.mpr (.inr rfl)), ordinal_eq]
  by_cases hin : ds ∈ seen
  · simp [hin]
  · simp [hin, List.idxOf_append]

/-- Renumbering writes each token as its place among all that appear. -/
theorem renumberFrom_eq (seen : List (List Char)) (ss : List Segment) :
    renumberFrom seen ss = ss.flatMap (numbered (table seen ss)) := by
  induction ss generalizing seen with
  | nil => rfl
  | cons g ss ih =>
    rw [List.flatMap_cons]
    cases g with
    | char c =>
      rw [renumberFrom, ih]
      rfl
    | token ds =>
      rw [numbered, idxOf_table, table, ← ih, renumberFrom, ordinal_eq]

theorem renumberFrom_map_rename (hρ : Set.InjOn ρ {ds | ds ∈ seen ∨ token ds ∈ ss}) :
    renumberFrom (seen.map ρ) (ss.map (rename ρ)) = renumberFrom seen ss := by
  induction ss generalizing seen with
  | nil => rfl
  | cons g ss ih =>
    cases g with
    | char c =>
      rw [List.map_cons, rename, renumberFrom, renumberFrom, ih]
      exact hρ.mono fun ds hds => by simpa using hds
    | token ds =>
      have hds : ∀ es ∈ seen, ρ es = ρ ds → es = ds :=
        fun es hes heq => hρ (.inl hes) (.inr (by simp)) heq
      rw [List.map_cons, rename, renumberFrom, renumberFrom, ordinal_map hds]
      dsimp only
      rw [ih]
      refine hρ.mono ?_
      rintro es (hes | hes)
      · refine (mem_ordinal.mp hes).imp_right ?_
        rintro rfl
        exact List.mem_cons_self
      · exact .inr (List.mem_cons_of_mem _ hes)

theorem isHexDigit_of_isDigit (h : c.isDigit = true) : isHexDigit c = true := by
  rw [isHexDigit, Bool.or_eq_true]
  exact .inl h

theorem Scans.stop_numbered (h : Scans cs ss) (T : List (List Char))
    (hstop : ∀ c ∈ cs.head?, isHexDigit c = false) :
    ∀ c ∈ (ss.flatMap (numbered T)).head?, c.isDigit = false := by
  rw [(written_numbered T).head?, h.write_eq]
  intro c hc
  rw [Bool.eq_false_iff]
  intro hdigit
  have hno := hstop c hc
  rw [isHexDigit_of_isDigit hdigit] at hno
  cases hno

theorem not_begins_ordinal {n : Nat} {k : List Char} (hk : ∀ c ∈ k.head?, c.isDigit = false) :
    ¬ BeginsToken ('@' :: (toString (n + 1)).toList ++ k) := by
  rintro ⟨d, rest, heq, -⟩
  have htail : (toString (n + 1)).toList ++ k = (toString 0).toList ++ 'x' :: d :: rest :=
    (List.cons.inj heq).2
  obtain ⟨hzero, -⟩ := (over_toString _).append_inj (over_toString 0) hk
    (fun c hc => by cases hc; decide) htail
  exact absurd (toList_toString_injective hzero) (by omega)

theorem Scans.tokenless (h : Scans cs ss) (T : List (List Char)) :
    Tokenless (ss.flatMap (numbered T)) := by
  induction h with
  | nil => exact tokenless_of_length (by simp)
  | char hc h ih =>
    rw [List.flatMap_cons]
    refine tokenless_cons.mpr ⟨fun hb => hc ?_, ih⟩
    rw [← h.write_eq]
    exact (written_numbered T).begins hb
  | @token ds cs ss _ _ hstop h ih =>
    have hat : '@' ∉ (toString (T.idxOf ds + 1)).toList :=
      (over_toString _).not_mem (by decide)
    rw [List.flatMap_cons]
    exact tokenless_cons.mpr ⟨not_begins_ordinal (h.stop_numbered T hstop), tokenless_append hat ih⟩

theorem Scans.normalize_eq {s : String} (h : Scans s.toList ss) :
    (normalize s).toList = ss.flatMap (numbered (table [] ss)) := by
  rw [normalize, h.read_eq, String.toList_ofList, renumberFrom_eq]

theorem normalize_of_tokenless {s : String} (h : Tokenless s.toList) : normalize s = s := by
  have hread := read_append h (k := []) (by simp [Breaks])
  have hplain := Piece.renumberFrom_map_char [] s.toList (read [])
  rw [List.append_nil] at hread
  rw [normalize, hread, hplain, show renumberFrom [] (read []) = [] from rfl, List.append_nil,
    String.ofList_toList]

theorem normalize_normalize (s : String) : normalize (normalize s) = normalize s := by
  obtain ⟨ss, hss⟩ := exists_scans s.toList
  refine normalize_of_tokenless ?_
  rw [hss.normalize_eq]
  exact hss.tokenless _

/-- Two numberings tell which token of the one stands for a token of the other. -/
def translate (T T' : List (List Char)) (ds : List Char) : List Char := T'.getD (T.idxOf ds) ds

theorem translate_eq {ds' : List Char} (hin : ds' ∈ T') (h : T.idxOf ds = T'.idxOf ds') :
    translate T T' ds = ds' := by
  have hlt : T'.idxOf ds' < T'.length := List.idxOf_lt_length_iff.mpr hin
  rw [translate, h, ← List.getElem_eq_getD (h := hlt), List.getElem_idxOf]

theorem Scans.number_inj {ds' : List Char} (h : Scans cs ss) (h' : Scans cs' tt)
    (hstop : ∀ c ∈ cs.head?, isHexDigit c = false) (hstop' : ∀ c ∈ cs'.head?, isHexDigit c = false)
    (heq : (Segment.token ds :: ss).flatMap (numbered T) =
      (Segment.token ds' :: tt).flatMap (numbered T')) :
    T.idxOf ds = T'.idxOf ds' ∧ ss.flatMap (numbered T) = tt.flatMap (numbered T') := by
  have hnumbers : (toString (T.idxOf ds + 1)).toList ++ ss.flatMap (numbered T) =
      (toString (T'.idxOf ds' + 1)).toList ++ tt.flatMap (numbered T') := (List.cons.inj heq).2
  obtain ⟨hnumber, hrest⟩ := (over_toString _).append_inj (over_toString _)
    (h.stop_numbered T hstop) (h'.stop_numbered T' hstop') hnumbers
  exact ⟨Nat.succ.inj (toList_toString_injective hnumber), hrest⟩

/-- A numbered text is read off from the left, if at signs stand before numbers only. -/
theorem Scans.decode (h : Scans cs ss) (h' : Scans cs' tt) (hat : Segment.char '@' ∉ ss)
    (hat' : Segment.char '@' ∉ tt) (hT' : ∀ ds, Segment.token ds ∈ tt → ds ∈ T')
    (heq : ss.flatMap (numbered T) = tt.flatMap (numbered T')) :
    tt = ss.map (Segment.rename (translate T T')) ∧
      ∀ ds, Segment.token ds ∈ ss → T'.idxOf (translate T T' ds) = T.idxOf ds := by
  induction h generalizing cs' tt with
  | nil =>
    cases h' with
    | nil => exact ⟨rfl, by simp⟩
    | char => simp [numbered] at heq
    | token => simp [numbered] at heq
  | @char c cs ss _ h ih =>
    rw [List.mem_cons, not_or] at hat
    cases h' with
    | nil => simp [numbered] at heq
    | @char c' cs' tt _ h' =>
      obtain ⟨rfl, hrest⟩ : c = c' ∧ _ := List.cons.inj heq
      obtain ⟨htt, htokens⟩ := ih h' hat.2 (fun hin => hat' (List.mem_cons_of_mem _ hin))
        (fun ds hds => hT' ds (List.mem_cons_of_mem _ hds)) hrest
      exact ⟨by rw [htt]; rfl, fun ds hds => htokens ds (by simpa using hds)⟩
    | token =>
      obtain ⟨rfl, -⟩ : c = '@' ∧ _ := List.cons.inj heq
      exact absurd rfl hat.1
  | @token ds cs ss _ _ hstop h ih =>
    rw [List.mem_cons, not_or] at hat
    cases h' with
    | nil => simp [numbered] at heq
    | @char c' cs' tt _ h' =>
      obtain ⟨rfl, -⟩ : '@' = c' ∧ _ := List.cons.inj heq
      exact absurd (List.mem_cons_self) hat'
    | @token ds' cs' tt _ _ hstop' h' =>
      obtain ⟨hidx, hrest⟩ := h.number_inj h' hstop hstop' heq
      have hds' : translate T T' ds = ds' := translate_eq (hT' ds' List.mem_cons_self) hidx
      obtain ⟨htt, htokens⟩ := ih h' hat.2 (fun hin => hat' (List.mem_cons_of_mem _ hin))
        (fun ds hds => hT' ds (List.mem_cons_of_mem _ hds)) hrest
      refine ⟨by rw [List.map_cons, ← htt, Segment.rename, hds'], ?_⟩
      intro es hes
      rcases List.mem_cons.mp hes with heq | hes
      · cases heq
        rw [hds', hidx]
      · exact htokens es hes

theorem Scans.char_not_mem (h : Scans cs ss)
    (hat : ∀ rest, '@' :: rest <:+ cs → BeginsToken ('@' :: rest)) : Segment.char '@' ∉ ss := by
  induction h with
  | nil => simp
  | @char c cs ss hc h ih =>
    rw [List.mem_cons, not_or]
    refine ⟨?_, ih fun rest hrest => hat rest (hrest.trans (List.suffix_cons c cs))⟩
    intro heq
    cases heq
    exact hc (hat cs List.suffix_rfl)
  | @token ds cs ss _ _ _ h ih =>
    rw [List.mem_cons, not_or]
    refine ⟨by simp, ih fun rest hrest => hat rest (hrest.trans ?_)⟩
    exact ⟨'@' :: '0' :: 'x' :: ds, by simp⟩

structure Renaming (ρ : List Char → List Char) (ss : List Segment) : Prop where
  digits (ds : List Char) (hds : token ds ∈ ss) : ρ ds ≠ [] ∧ Over isHexDigit (ρ ds)
  injOn : Set.InjOn ρ {ds | token ds ∈ ss}

def renamed (ρ : List Char → List Char) (ss : List Segment) : String :=
  String.ofList (write (ss.map (rename ρ)))

theorem Scans.normalize_renamed {s : String} (h : Scans s.toList ss) (hρ : Renaming ρ ss) :
    normalize (renamed ρ ss) = normalize s := by
  have hscans : Scans (renamed ρ ss).toList (ss.map (Segment.rename ρ)) := by
    rw [renamed, String.toList_ofList]
    exact h.rename hρ.digits
  have hnumbers : renumberFrom ([].map ρ) (ss.map (Segment.rename ρ)) = renumberFrom [] ss :=
    renumberFrom_map_rename (hρ.injOn.mono fun ds hds => by simpa using hds)
  rw [normalize, normalize, hscans.read_eq, h.read_eq, ← hnumbers]
  rfl

def AtSignsBegin (s : String) : Prop :=
  ∀ rest, '@' :: rest <:+ s.toList → BeginsToken ('@' :: rest)

theorem Scans.exists_renaming {s t : String} (h : Scans s.toList ss) (hs : AtSignsBegin s)
    (ht : AtSignsBegin t) (heq : normalize s = normalize t) :
    ∃ ρ, Renaming ρ ss ∧ t = renamed ρ ss := by
  obtain ⟨tt, h'⟩ := exists_scans t.toList
  have hnumbered : ss.flatMap (numbered (table [] ss)) = tt.flatMap (numbered (table [] tt)) := by
    rw [← h.normalize_eq, ← h'.normalize_eq, heq]
  obtain ⟨htt, htokens⟩ := h.decode h' (h.char_not_mem hs) (h'.char_not_mem ht)
    (fun ds hds => mem_table hds) hnumbered
  generalize translate (table [] ss) (table [] tt) = ρ at htt htokens
  refine ⟨ρ, ⟨?_, ?_⟩, ?_⟩
  · intro ds hds
    refine h'.digits ?_
    rw [htt]
    exact List.mem_map_of_mem hds
  · intro ds hds es hes hρ
    have hidx : (table [] ss).idxOf ds = (table [] ss).idxOf es := by
      rw [← htokens ds hds, ← htokens es hes, hρ]
    exact (List.idxOf_inj (mem_table hds)).mp hidx
  · rw [renamed, ← htt, h'.write_eq, String.ofList_toList]

/-- Renumbering forgets just what an injective renaming of the tokens may change. -/
theorem normalize_captures_renaming (s : String) :
    ∃ ss, (∀ ss', Scans s.toList ss' ↔ ss' = ss) ∧
      normalize (normalize s) = normalize s ∧
      (∀ ρ, Renaming ρ ss → normalize (renamed ρ ss) = normalize s) ∧
      ∀ t, AtSignsBegin s → AtSignsBegin t → normalize s = normalize t →
        ∃ ρ, Renaming ρ ss ∧ t = renamed ρ ss := by
  obtain ⟨ss, h⟩ := exists_scans s.toList
  refine ⟨ss, fun ss' => ⟨fun h' => ?_, fun heq => heq ▸ h⟩, normalize_normalize s,
    fun ρ hρ => h.normalize_renamed hρ, fun t hs ht heq => h.exists_renaming hs ht heq⟩
  rw [← h'.read_eq, h.read_eq]

/-- Two texts that have exchanged their tokens are numbered alike, so a renaming leads from one to the
other. -/
theorem normalize_captures_swap :
    let s := "A@0x1f[B@0x2a{up: A@0x1f^}]"
    let t := "A@0x2a[B@0x1f{up: A@0x2a^}]"
    normalize s = "A@1[B@2{up: A@1^}]" ∧ AtSignsBegin s ∧ AtSignsBegin t ∧
      ∃ ss ρ, Scans s.toList ss ∧ Renaming ρ ss ∧ t = renamed ρ ss := by
  intro s t
  have hs : AtSignsBegin s := by
    intro rest hrest
    simp [s, List.suffix_cons_iff] at hrest
    rcases hrest with rfl | rfl | rfl <;> exact ⟨_, _, rfl, by decide⟩
  have ht : AtSignsBegin t := by
    intro rest hrest
    simp [t, List.suffix_cons_iff] at hrest
    rcases hrest with rfl | rfl | rfl <;> exact ⟨_, _, rfl, by decide⟩
  obtain ⟨ss, hscans, -, -, hconverse⟩ := normalize_captures_renaming s
  obtain ⟨ρ, hρ, heq⟩ := hconverse t hs ht (by decide +kernel)
  exact ⟨by decide +kernel, hs, ht, ss, ρ, (hscans ss).mpr rfl, hρ, heq⟩

end GraphCopy.Segment
