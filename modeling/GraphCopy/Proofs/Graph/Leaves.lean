import GraphCopy.Proofs.Graph.Outline
import GraphCopy.Proofs.Text.Alphabet
import GraphCopy.Proofs.Text.Quoting

/-!
# Leaves are read back

A leaf is a bare word, a quoted text or something in angle brackets. What
follows a leaf is a blank, a comma with a blank, or closing brackets and then
one of these. So a bare word ends at the first character that is not its own, a
quoted text at its quote, and a text in angle brackets at the last closing one
before a blank, for it has no blank in it but may have anything else.

The text of a leaf tells its kind.
-/

namespace GraphCopy

namespace Text

def isBare (c : Char) : Bool := c.isAlphanum || c == '-' || c == '+' || c == '.' || c == ':'

theorem Over.bare_of_numeral {cs : List Char} (h : Over isNumeral cs) : Over isBare cs := by
  refine h.mono fun c hc => ?_
  simp only [isNumeral, isSigned, Bool.or_eq_true, beq_iff_eq] at hc
  rcases hc with ((((hc | rfl) | rfl) | rfl) | rfl) | rfl
  · simp [isBare, Char.isAlphanum, hc]
  all_goals decide

theorem Over.bare_of_time {cs : List Char} (h : Over isTime cs) : Over isBare cs := by
  refine h.mono fun c hc => ?_
  simp only [isTime, isSigned, Bool.or_eq_true, beq_iff_eq] at hc
  rcases hc with ((((hc | rfl) | rfl) | rfl) | rfl) | rfl
  · simp [isBare, Char.isAlphanum, hc]
  all_goals decide

/-- What can stand after a leaf or an object. -/
def Follows : List Char → Prop
  | [] => True
  | c :: k => c = ' ' ∨ (c = ',' ∧ ∃ k', k = ' ' :: k') ∨ ((c = ']' ∨ c = '\x7d') ∧ Follows k)

def isStop (c : Char) : Bool := c == ' ' || c == ',' || c == ']' || c == '\x7d'

variable {p : Char → Bool} {c : Char} {k k' cs cs' m : List Char}

theorem Follows.isStop (h : Follows (c :: k)) : isStop c = true := by
  rcases h with rfl | ⟨rfl, -⟩ | ⟨rfl | rfl, -⟩ <;> rfl

theorem not_isBare_of_isStop (h : isStop c = true) : isBare c = false := by
  simp only [Text.isStop, Bool.or_eq_true, beq_iff_eq] at h
  rcases h with ((rfl | rfl) | rfl) | rfl <;> decide

theorem not_follows_of_bracket (hm : ∀ c ∈ m, isBlank c = false) : ¬ Follows (m ++ '>' :: k) := by
  induction m with
  | nil =>
    intro h
    exact absurd h.isStop (by decide)
  | cons c m ih =>
    rintro (rfl | ⟨rfl, k', hk'⟩ | ⟨-, h⟩)
    · exact absurd (hm ' ' (by simp)) (by decide)
    · cases m with
      | nil => exact absurd (List.cons.inj hk').1 (by decide)
      | cons d m =>
        obtain ⟨rfl, -⟩ := List.cons.inj hk'
        exact absurd (hm ' ' (by simp)) (by decide)
    · exact ih (fun d hd => hm d (List.mem_cons_of_mem _ hd)) h

theorem bracketed_append_inj (hcs : ∀ c ∈ cs, isBlank c = false)
    (hcs' : ∀ c ∈ cs', isBlank c = false) (hk : Follows k) (hk' : Follows k')
    (h : cs ++ '>' :: k = cs' ++ '>' :: k') : cs = cs' ∧ k = k' := by
  rcases List.append_eq_append_iff.mp h with ⟨m, rfl, hm⟩ | ⟨m, rfl, hm⟩
  · cases m with
    | nil => exact ⟨by simp, (List.cons.inj hm).2⟩
    | cons d m =>
      obtain ⟨-, rfl⟩ := List.cons.inj hm
      exact absurd hk (not_follows_of_bracket fun c hc => hcs' c (by simp [hc]))
  · cases m with
    | nil => exact ⟨by simp, (List.cons.inj hm).2.symm⟩
    | cons d m =>
      obtain ⟨-, rfl⟩ := List.cons.inj hm
      exact absurd hk' (not_follows_of_bracket fun c hc => hcs c (by simp [hc]))

end Text

open Text

inductive Leaf.Form : List Char → Prop
  | bare {cs : List Char} (hne : cs ≠ []) (h : Over isBare cs) : Form cs
  | quoted {quote : Char} (hq : quote = '"' ∨ quote = '\'') (cs : List Char) :
      Form (quotedChars quote cs)
  | bracketed {cs : List Char} (h : ∀ c ∈ cs, isBlank c = false) : Form ('<' :: (cs ++ ['>']))

namespace Leaf.Form

variable {cs cs' k k' name rest : List Char} {c : Char}

theorem head (h : Form cs) : ∃ c cs', cs = c :: cs' ∧ isStop c = false ∧
    (isBare c = true ∧ Over isBare cs ∨ (c = '"' ∨ c = '\'') ∧ (∃ s, cs = quotedChars c s) ∨
      c = '<' ∧ ∃ s, cs' = s ++ ['>'] ∧ ∀ c ∈ s, isBlank c = false) := by
  cases h with
  | bare hne h =>
    obtain ⟨c, cs', rfl⟩ := List.exists_cons_of_ne_nil hne
    have hc := (over_cons.mp h).1
    refine ⟨c, cs', rfl, ?_, .inl ⟨hc, h⟩⟩
    cases hstop : isStop c with
    | false => rfl
    | true =>
      rw [not_isBare_of_isStop hstop] at hc
      cases hc
  | quoted hq s =>
    refine ⟨_, _, rfl, ?_, .inr (.inl ⟨hq, s, rfl⟩)⟩
    rcases hq with rfl | rfl <;> decide
  | bracketed h => exact ⟨'<', _, rfl, by decide, .inr (.inr ⟨rfl, _, rfl, h⟩)⟩

theorem append_inj (h : Form cs) (h' : Form cs') (hk : Follows k) (hk' : Follows k')
    (heq : cs ++ k = cs' ++ k') : cs = cs' ∧ k = k' := by
  have hstop : ∀ {k}, Follows k → ∀ c ∈ k.head?, isBare c = false := by
    intro k hk c hc
    cases k with
    | nil => cases hc
    | cons d k =>
      cases hc
      exact not_isBare_of_isStop hk.isStop
  obtain ⟨c, t, rfl, -, hform⟩ := h.head
  obtain ⟨c', t', rfl, -, hform'⟩ := h'.head
  obtain ⟨rfl, -⟩ := List.cons.inj heq
  have hquote : ∀ q : Char, q = '"' ∨ q = '\'' → isBare q = false ∧ q ≠ '<' := by
    rintro q (rfl | rfl) <;> decide
  rcases hform with ⟨hc, hover⟩ | ⟨hq, s, hs⟩ | ⟨rfl, s, rfl, hs⟩
  · rcases hform' with ⟨-, hover'⟩ | ⟨hq, -⟩ | ⟨rfl, -⟩
    · exact hover.append_inj hover' (hstop hk) (hstop hk') heq
    · exact absurd hc (by simp [(hquote _ hq).1])
    · exact absurd hc (by decide)
  · rcases hform' with ⟨hc, -⟩ | ⟨-, s', hs'⟩ | ⟨rfl, -⟩
    · exact absurd hc (by simp [(hquote _ hq).1])
    · rw [hs, hs'] at heq
      obtain ⟨rfl, hkk⟩ := quotedChars_append_inj hq heq
      exact ⟨hs.trans hs'.symm, hkk⟩
    · exact absurd rfl (hquote _ hq).2
  · rcases hform' with ⟨hc, -⟩ | ⟨hq, -⟩ | ⟨-, s', rfl, hs'⟩
    · exact absurd hc (by decide)
    · exact absurd rfl (hquote _ hq).2
    · simp only [List.cons_append, List.append_assoc, List.nil_append, List.cons.injEq,
        true_and] at heq
      obtain ⟨rfl, hkk⟩ := bracketed_append_inj hs hs' hk hk' heq
      exact ⟨rfl, hkk⟩

end Leaf.Form

namespace Text

theorem yearText_ne_nil (y : Int) : (yearText y).toList ≠ [] := by
  unfold yearText
  dsimp only
  split <;> simp

theorem not_isBlank_of_isSchemeChar {c : Char} (h : isSchemeChar c = true) : isBlank c = false := by
  have hrange : 33 ≤ c.toNat ∧ c.toNat ≤ 126 := by
    simp only [isSchemeChar, isAsciiLetter, Bool.or_eq_true, Bool.and_eq_true, decide_eq_true_eq,
      beq_iff_eq] at h
    have hle : ∀ a b : Char, a ≤ b → a.toNat ≤ b.toNat := fun _ _ h => h
    rcases h with ((((⟨h₁, h₂⟩ | ⟨h₁, h₂⟩) | ⟨h₁, h₂⟩) | rfl) | rfl) | rfl
    · exact ⟨Nat.le_trans (by decide) (hle _ _ h₁), Nat.le_trans (hle _ _ h₂) (by decide)⟩
    · exact ⟨Nat.le_trans (by decide) (hle _ _ h₁), Nat.le_trans (hle _ _ h₂) (by decide)⟩
    · exact ⟨Nat.le_trans (by decide) (hle _ _ h₁), Nat.le_trans (hle _ _ h₂) (by decide)⟩
    all_goals decide
  simp only [isBlank, Bool.or_eq_false_iff, Bool.and_eq_false_iff, decide_eq_false_iff_not,
    beq_eq_false_iff_ne]
  omega

theorem not_isBlank_of_schemeRest {cs : List Char} (h : schemeRest cs = true) :
    ∀ c ∈ cs, isBlank c = false := by
  induction cs with
  | nil => simp
  | cons c cs ih =>
    rw [schemeRest] at h
    split at h
    · next hc =>
      subst hc
      simpa using ⟨(by decide : isBlank ':' = false), by simpa using h⟩
    · rw [Bool.and_eq_true] at h
      simpa using ⟨not_isBlank_of_isSchemeChar h.1, ih h.2⟩

theorem colon_mem_of_schemeRest {cs : List Char} (h : schemeRest cs = true) : ':' ∈ cs := by
  induction cs with
  | nil => cases h
  | cons c cs ih =>
    rw [schemeRest] at h
    split at h
    · next hc =>
      subst hc
      simp
    · rw [Bool.and_eq_true] at h
      simp [ih h.2]

end Text

theorem Uri.schemeRest_tail (u : Uri) : ∃ c cs, u.text.toList = c :: cs ∧ isAsciiLetter c = true ∧
    schemeRest cs = true := by
  have hvalid := u.valid
  cases htext : u.text.toList with
  | nil =>
    rw [htext] at hvalid
    cases hvalid
  | cons c cs =>
    rw [htext, isUriChars, Bool.and_eq_true] at hvalid
    exact ⟨c, cs, rfl, hvalid⟩

theorem Uri.not_isBlank (u : Uri) : ∀ c ∈ u.text.toList, isBlank c = false := by
  obtain ⟨c, cs, htext, hc, hcs⟩ := u.schemeRest_tail
  rw [htext]
  have hscheme : isSchemeChar c = true := by simp [isSchemeChar, hc]
  simpa using ⟨not_isBlank_of_isSchemeChar hscheme, not_isBlank_of_schemeRest hcs⟩

theorem Uri.colon_mem (u : Uri) : ':' ∈ u.text.toList := by
  obtain ⟨c, cs, htext, -, hcs⟩ := u.schemeRest_tail
  rw [htext]
  exact List.mem_cons_of_mem _ (colon_mem_of_schemeRest hcs)

namespace Leaf

def kindOf (cs : List Char) : Option ScalarKind :=
  if cs.head? = some '"' then some .text
  else if cs.head? = some '\'' then some .char
  else if cs = "<unreadable>".toList ∨ cs = "null".toList then none
  else if cs.head? = some '<' then some .uri
  else if cs = "true".toList ∨ cs = "false".toList then some .bool
  else if 'd' ∈ cs then some .decimal
  else if 'T' ∈ cs then some .timestamp
  else if '.' ∈ cs ∨ 'e' ∈ cs ∨ 'N' ∈ cs ∨ 'i' ∈ cs then some .float
  else if '-' ∈ cs.tail then some .date
  else some .int

theorem form {p : Option Value} (hp : ∀ r, p ≠ some (.object r)) : Form (of p).text.toList := by
  cases p with
  | none =>
    have hblank : ("unreadable".toList.all fun c => !isBlank c) = true := by decide
    exact show Form ('<' :: ("unreadable".toList ++ ['>'])) from .bracketed fun c hc => by
      simpa using List.all_eq_true.mp hblank c hc
  | some v =>
    cases v with
    | null => exact .bare (by decide) (by decide)
    | bool b => cases b <;> exact .bare (by decide) (by decide)
    | int i =>
      refine .bare ?_ (over_toString_int i.toInt).numeral.bare_of_numeral
      simp only [of, Value.scalarText, toList_toString_int]
      exact List.append_ne_nil_of_right_ne_nil _ (toString_ne_nil _)
    | float x =>
      rcases x.text_numeral with ⟨-, hnan⟩ | ⟨-, hinf⟩ | ⟨hnum, hmark⟩
      · simp only [of, Value.scalarText, hnan]
        exact .bare (by decide) (by decide)
      · simp only [of, Value.scalarText, hinf]
        split <;> exact .bare (by decide) (by decide)
      · refine .bare ?_ hnum.bare_of_numeral
        rcases hmark with hmark | hmark <;> exact List.ne_nil_of_mem hmark
    | char c =>
      simp only [of, Value.scalarText, quotedChar, String.toList_ofList]
      exact .quoted (.inr rfl) _
    | text t =>
      simp only [of, Value.scalarText, quoted, String.toList_ofList]
      exact .quoted (.inl rfl) _
    | decimal d =>
      simp only [of, Value.scalarText, String.toList_append]
      exact .bare (by simp) (over_append.mpr ⟨d.content.over_text.bare_of_numeral, by decide⟩)
    | timestamp t => exact .bare (by simp [of, Value.scalarText, Timestamp.text]) t.over_text.bare_of_time
    | date d =>
      exact .bare (by simp [of, Value.scalarText, Date.text]) d.over_text.numeral.bare_of_numeral
    | uri u =>
      simp only [of, Value.scalarText, String.toList_append]
      exact .bracketed u.content.not_isBlank
    | object r => exact absurd rfl (hp r)

section Kinds

variable {cs : List Char}

theorem ne_of_not_mem {word : List Char} (c : Char) (hc : c ∈ word) (h : c ∉ cs) : cs ≠ word := by
  rintro rfl
  exact h hc

theorem ne_of_mem {word : List Char} (c : Char) (hc : c ∉ word) (h : c ∈ cs) : cs ≠ word := by
  rintro rfl
  exact hc h

theorem kindOf_of_bare (h : Over isBare cs) (hnull : cs ≠ "null".toList)
    (htrue : cs ≠ "true".toList) (hfalse : cs ≠ "false".toList) :
    kindOf cs = if 'd' ∈ cs then some .decimal
      else if 'T' ∈ cs then some .timestamp
      else if '.' ∈ cs ∨ 'e' ∈ cs ∨ 'N' ∈ cs ∨ 'i' ∈ cs then some .float
      else if '-' ∈ cs.tail then some .date
      else some .int := by
  have hhead : ∀ c, isBare c = false → cs.head? ≠ some c := by
    intro c hc hcs
    rw [h c (List.mem_of_mem_head? hcs)] at hc
    cases hc
  have hunreadable : cs ≠ "<unreadable>".toList := ne_of_not_mem '<' (by decide) (h.not_mem (by decide))
  rw [kindOf, if_neg (hhead _ (by decide)), if_neg (hhead _ (by decide)),
    if_neg (by simp only [hunreadable, hnull, or_self, not_false_eq_true]),
    if_neg (hhead _ (by decide)), if_neg (by simp only [htrue, hfalse, or_self, not_false_eq_true])]

theorem kindOf_of_numeral (h : Over isNumeral cs) :
    kindOf cs = if '.' ∈ cs ∨ 'e' ∈ cs then some .float
      else if '-' ∈ cs.tail then some .date
      else some .int := by
  rw [kindOf_of_bare h.bare_of_numeral (ne_of_not_mem 'n' (by decide) (h.not_mem (by decide)))
    (ne_of_not_mem 't' (by decide) (h.not_mem (by decide)))
    (ne_of_not_mem 'f' (by decide) (h.not_mem (by decide))), if_neg (h.not_mem (by decide)),
    if_neg (h.not_mem (by decide))]
  simp only [h.not_mem (c := 'N') (by decide), h.not_mem (c := 'i') (by decide), or_false]

theorem kindOf_int (i : Int) : kindOf (toString i).toList = some .int := by
  have hover := over_toString_int i
  have hdash : '-' ∉ (toString i).toList.tail := by
    have hds := (over_toString i.natAbs).not_mem (c := '-') (by decide)
    rw [toList_toString_int]
    split
    · exact hds
    · exact fun h => hds (List.mem_of_mem_tail h)
  rw [kindOf_of_numeral hover.numeral,
    if_neg (not_or.mpr ⟨hover.not_mem (by decide), hover.not_mem (by decide)⟩), if_neg hdash]

theorem kindOf_date (d : Date) : kindOf d.text.toList = some .date := by
  have hover := d.over_text
  have hdash : '-' ∈ d.text.toList.tail := by
    obtain ⟨c, cs, hyear⟩ := List.exists_cons_of_ne_nil (yearText_ne_nil d.year)
    simp [Date.text, hyear]
  rw [kindOf_of_numeral hover.numeral,
    if_neg (not_or.mpr ⟨hover.not_mem (by decide), hover.not_mem (by decide)⟩), if_pos hdash]

theorem kindOf_float (x : Binary64) : kindOf x.text.toList = some .float := by
  rcases x.text_numeral with ⟨-, hnan⟩ | ⟨-, hinf⟩ | ⟨hnum, hmark⟩
  · rw [hnan]
    decide
  · rw [hinf]
    split <;> decide
  · rw [kindOf_of_numeral hnum, if_pos hmark]

theorem kindOf_timestamp (t : Timestamp) : kindOf t.text.toList = some .timestamp := by
  have hover := t.over_text
  have hmark : 'T' ∈ t.text.toList := by simp [Timestamp.text]
  rw [kindOf_of_bare hover.bare_of_time (ne_of_mem 'T' (by decide) hmark)
    (ne_of_mem 'T' (by decide) hmark) (ne_of_mem 'T' (by decide) hmark),
    if_neg (hover.not_mem (by decide)), if_pos hmark]

theorem kindOf_decimal (d : Decimal) : kindOf (d.text ++ "d").toList = some .decimal := by
  have hbare : Over isBare (d.text ++ "d").toList := by
    rw [String.toList_append, over_append]
    exact ⟨d.over_text.bare_of_numeral, by decide⟩
  have hmark : 'd' ∈ (d.text ++ "d").toList := by simp
  rw [kindOf_of_bare hbare (ne_of_mem 'd' (by decide) hmark) (ne_of_mem 'd' (by decide) hmark)
    (ne_of_mem 'd' (by decide) hmark), if_pos hmark]

theorem kindOf_uri (u : Uri) : kindOf ("<" ++ u.text ++ ">").toList = some .uri := by
  have hmark : ':' ∈ ("<" ++ u.text ++ ">").toList := by simp [u.colon_mem]
  have hhead : ("<" ++ u.text ++ ">").toList.head? = some '<' := by simp
  have hunreadable : ("<" ++ u.text ++ ">").toList ≠ "<unreadable>".toList :=
    ne_of_mem ':' (by decide) hmark
  have hnull : ("<" ++ u.text ++ ">").toList ≠ "null".toList := ne_of_mem ':' (by decide) hmark
  rw [kindOf, hhead, if_neg (by decide), if_neg (by decide),
    if_neg (by simp only [hunreadable, hnull, or_self, not_false_eq_true]), if_pos rfl]

end Kinds

theorem kindOf_of {p : Option Value} (hp : ∀ r, p ≠ some (.object r)) :
    kindOf (of p).text.toList = (of p).kind := by
  cases p with
  | none => decide
  | some v =>
    cases v with
    | null => decide
    | bool b => cases b <;> decide
    | int i => exact kindOf_int i.toInt
    | float x => exact kindOf_float x
    | char c => simp [of, Value.scalarText, Value.scalarKind?, quotedChar, quotedChars, kindOf]
    | text t => simp [of, Value.scalarText, Value.scalarKind?, quoted, quotedChars, kindOf]
    | decimal d => exact kindOf_decimal d.content
    | timestamp t => exact kindOf_timestamp t
    | date d => exact kindOf_date d
    | uri u => exact kindOf_uri u.content
    | object r => exact absurd rfl (hp r)

/-- A leaf is read back from a text that begins with it. -/
theorem append_inj {p p' : Option Value} {k k' : List Char} (hp : ∀ r, p ≠ some (.object r))
    (hp' : ∀ r, p' ≠ some (.object r)) (hk : Follows k) (hk' : Follows k')
    (h : (of p).text.toList ++ k = (of p').text.toList ++ k') : of p = of p' ∧ k = k' := by
  obtain ⟨htext, hkk⟩ := (form hp).append_inj (form hp') hk hk' h
  have hkind : (of p).kind = (of p').kind := by
    rw [← kindOf_of hp, ← kindOf_of hp', htext]
  have hstring : (of p).text = (of p').text := String.toList_inj.mp htext
  refine ⟨?_, hkk⟩
  cases hof : of p
  cases hof' : of p'
  simp_all

end Leaf

end GraphCopy
