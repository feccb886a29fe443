import GraphCopy.Graph.Render
import Mathlib.Data.List.Infix
import Mathlib.Tactic.Common

/-!
# Where identity tokens are read

A token is read only where one was written, as long as what stands around it
is free of tokens and does not join up with it. A text whose last character
cannot lie within a token does not.

A rendering that is sealed in this sense is renumbered piece by piece, and
`Piece.numbered` says how: a plain piece stays as it is, and an identity is
replaced by its place among those met so far. So what an identity looks like
does not matter, only where it came before.
-/

section Places

variable {α β : Type} [BEq α] [LawfulBEq α] [BEq β] [LawfulBEq β] {f : α → β} {x : α} {l : List α}

theorem List.idxOf?_map_of_inj (hf : ∀ y ∈ l, f y = f x → y = x) :
    (l.map f).idxOf? (f x) = l.idxOf? x := by
  induction l with
  | nil => rfl
  | cons y l ih =>
    have hy : (f y == f x) = (y == x) := by
      rw [Bool.eq_iff_iff, beq_iff_eq, beq_iff_eq]
      exact ⟨hf y (by simp), congrArg f⟩
    rw [List.map_cons, List.idxOf?_cons, List.idxOf?_cons, hy,
      ih fun z hz => hf z (List.mem_cons_of_mem _ hz)]

theorem List.idxOf?_eq_ite (l : List α) (x : α) :
    l.idxOf? x = if x ∈ l then some (l.idxOf x) else none := by
  induction l with
  | nil => rfl
  | cons y l ih =>
    rw [List.idxOf?_cons, List.idxOf_cons, ih]
    by_cases hyx : y = x
    · simp [hyx]
    · have hxy : x ≠ y := Ne.symm hyx
      simp only [beq_eq_false_iff_ne.mpr hyx, Bool.false_eq_true, if_false, cond_false,
        List.mem_cons, hxy, false_or]
      split <;> rfl

end Places

namespace GraphCopy

def Tokenless (cs : List Char) : Prop := ∀ d, isHexDigit d = true → ¬ ['@', '0', 'x', d] <:+: cs

def Breaks (cs : List Char) : Prop :=
  ∀ c ∈ cs.head?, c ≠ '0' ∧ c ≠ 'x' ∧ isHexDigit c = false

theorem tokenless_of_not_mem {cs : List Char} (h : '@' ∉ cs) : Tokenless cs :=
  fun _ _ hd => h (hd.subset (by simp))

theorem breaks_cons {c : Char} (h : c ≠ 'x' ∧ isHexDigit c = false) (cs : List Char) :
    Breaks (c :: cs) := by
  intro c' hc'
  obtain rfl : c = c' := by simpa using hc'
  refine ⟨?_, h⟩
  rintro rfl
  exact absurd h.2 (by decide)

namespace Segment

def BeginsToken (cs : List Char) : Prop :=
  ∃ d rest, cs = '@' :: '0' :: 'x' :: d :: rest ∧ isHexDigit d = true

variable {c : Char} {cs s k ds : List Char} {rest : List Segment}

theorem read_cons (c : Char) (cs : List Char) : read (c :: cs) = attach c (read cs) := rfl

theorem eq_cons_of_read (h : read cs = char c :: rest) : ∃ cs', cs = c :: cs' ∧ read cs' = rest := by
  cases cs with
  | nil => cases h
  | cons c' cs' =>
    rw [read_cons] at h
    unfold attach at h
    split at h
    · split at h
      · cases h
      · next hread _ =>
        cases h
        exact ⟨cs', rfl, hread⟩
    · cases h
      exact ⟨cs', rfl, rfl⟩

theorem leadingDigits_ne_nil (h : leadingDigits rest ≠ []) :
    ∃ d rest', rest = char d :: rest' ∧ isHexDigit d = true := by
  cases rest with
  | nil => exact absurd rfl h
  | cons g rest' =>
    cases g with
    | char d =>
      by_cases hd : isHexDigit d = true
      · exact ⟨d, rest', rfl, hd⟩
      · simp [leadingDigits, hd] at h
    | token ds => exact absurd rfl h

theorem read_of_not_begins (h : ¬ BeginsToken (c :: cs)) : read (c :: cs) = char c :: read cs := by
  rw [read_cons]
  unfold attach
  split
  · next rest hread =>
    split
    · next htoken =>
      obtain ⟨rfl, hne⟩ := htoken
      obtain ⟨cs₁, rfl, hread₁⟩ := eq_cons_of_read hread
      obtain ⟨cs₂, rfl, hread₂⟩ := eq_cons_of_read hread₁
      obtain ⟨d, rest', hrest, hd⟩ := leadingDigits_ne_nil hne
      obtain ⟨cs₃, rfl, -⟩ := eq_cons_of_read (hread₂.trans hrest)
      exact absurd ⟨d, cs₃, rfl, hd⟩ h
    · rw [hread]
  · rfl

theorem not_begins_of_ne (h : c ≠ '@') : ¬ BeginsToken (c :: cs) := by
  rintro ⟨d, rest, heq, -⟩
  exact h (List.cons.inj heq).1

theorem tokenless_cons : Tokenless (c :: cs) ↔ ¬ BeginsToken (c :: cs) ∧ Tokenless cs := by
  constructor
  · refine fun h => ⟨?_, fun d hd hin => h d hd (hin.trans (List.suffix_cons c cs).isInfix)⟩
    rintro ⟨d, rest, heq, hd⟩
    exact h d hd ⟨[], rest, heq.symm⟩
  · rintro ⟨hno, htail⟩ d hd hin
    rcases List.infix_cons_iff.mp hin with hpre | hin
    · obtain ⟨rest, heq⟩ := hpre
      exact hno ⟨d, rest, heq.symm, hd⟩
    · exact htail d hd hin

theorem tokenless_append (hs : '@' ∉ s) (hk : Tokenless k) : Tokenless (s ++ k) := by
  induction s with
  | nil => exact hk
  | cons c s ih =>
    rw [List.mem_cons, not_or] at hs
    exact tokenless_cons.mpr ⟨not_begins_of_ne (Ne.symm hs.1), ih hs.2⟩

theorem read_append (hs : Tokenless s) (hk : Breaks k) : read (s ++ k) = s.map char ++ read k := by
  induction s with
  | nil => rfl
  | cons c s ih =>
    rw [List.cons_append, read_of_not_begins, ih (tokenless_cons.mp hs).2]
    · rfl
    · rintro ⟨d, rest, heq, hd⟩
      obtain ⟨rfl, htail⟩ := List.cons.inj heq
      -- the token would have to end in the text, or to go on after it
      rcases s with - | ⟨c₁, - | ⟨c₂, - | ⟨c₃, s⟩⟩⟩
      · have hk0 := hk '0'
        simp_all
      · have hkx := hk 'x'
        simp_all
      · have hkd := hk d
        simp_all
      · simp only [List.cons_append, List.cons.injEq] at htail
        obtain ⟨rfl, rfl, rfl, -⟩ := htail
        exact hs c₃ hd ⟨[], s, rfl⟩

theorem read_append_of_not_mem (hs : '@' ∉ s) : read (s ++ k) = s.map char ++ read k := by
  induction s with
  | nil => rfl
  | cons c s ih =>
    rw [List.mem_cons, not_or] at hs
    rw [List.cons_append, read_of_not_begins (not_begins_of_ne (Ne.symm hs.1)), ih hs.2]
    rfl

theorem leadingDigits_map_append (hds : ∀ d ∈ ds, isHexDigit d = true) (rest : List Segment) :
    leadingDigits (ds.map char ++ rest) = ds ++ leadingDigits rest ∧
      afterDigits (ds.map char ++ rest) = afterDigits rest := by
  induction ds with
  | nil => exact ⟨rfl, rfl⟩
  | cons d ds ih =>
    obtain ⟨hlead, hafter⟩ := ih fun d hd => hds d (List.mem_cons_of_mem _ hd)
    have hd : isHexDigit d = true := hds d (by simp)
    simp [leadingDigits, afterDigits, hd, hlead, hafter]

theorem digits_read_of_stop (hk : ∀ c ∈ k.head?, isHexDigit c = false) :
    leadingDigits (read k) = [] ∧ afterDigits (read k) = read k := by
  cases hr : read k with
  | nil => exact ⟨rfl, rfl⟩
  | cons g rest =>
    cases g with
    | char c =>
      obtain ⟨cs, rfl, -⟩ := eq_cons_of_read hr
      have hc := hk c rfl
      simp [leadingDigits, afterDigits, hc]
    | token ds => exact ⟨rfl, rfl⟩

theorem read_token (hne : ds ≠ []) (hds : ∀ d ∈ ds, isHexDigit d = true)
    (hk : ∀ c ∈ k.head?, isHexDigit c = false) :
    read ('@' :: '0' :: 'x' :: (ds ++ k)) = token ds :: read k := by
  have hno : '@' ∉ ds := fun h => absurd (hds '@' h) (by decide)
  obtain ⟨hlead, hafter⟩ := leadingDigits_map_append hds (read k)
  obtain ⟨hlead', hafter'⟩ := digits_read_of_stop hk
  rw [hlead', List.append_nil] at hlead
  rw [hafter'] at hafter
  have hzero : read ('0' :: 'x' :: (ds ++ k)) = char '0' :: char 'x' :: (ds.map char ++ read k) := by
    rw [read_of_not_begins (not_begins_of_ne (by decide)),
      read_of_not_begins (not_begins_of_ne (by decide)), read_append_of_not_mem hno]
  rw [read_cons, hzero]
  simp only [attach, true_and]
  rw [hlead, hafter, if_pos hne]

end Segment

namespace Text

theorem isHexDigit_hexDigit {n : Nat} (hn : n < 16) : isHexDigit (hexDigit n) = true := by
  revert n
  decide

theorem hexDigit_injective {m n : Nat} (hm : m < 16) (hn : n < 16) (h : hexDigit m = hexDigit n) :
    m = n := by
  have hall : ∀ m < 16, ∀ n < 16, hexDigit m = hexDigit n → m = n := by decide
  exact hall m hm n hn h

theorem hexDigitsBy_ne_nil {fuel n : Nat} (h : 0 < fuel) : hexDigitsBy fuel n ≠ [] := by
  cases fuel with
  | zero => omega
  | succ fuel =>
    rw [hexDigitsBy]
    split <;> simp

theorem isHexDigit_of_mem_hexDigitsBy {fuel n : Nat} :
    ∀ d ∈ hexDigitsBy fuel n, isHexDigit d = true := by
  induction fuel generalizing n with
  | zero => simp [hexDigitsBy]
  | succ fuel ih =>
    intro d hd
    rw [hexDigitsBy] at hd
    split at hd
    · next hn =>
      rw [List.mem_singleton.mp hd]
      exact isHexDigit_hexDigit hn
    · rcases List.mem_append.mp hd with hd | hd
      · exact ih d hd
      · rw [List.mem_singleton.mp hd]
        exact isHexDigit_hexDigit (Nat.mod_lt n (by omega))

theorem hexDigitsBy_injective {fuel fuel' m n : Nat} (hm : m < fuel) (hn : n < fuel')
    (h : hexDigitsBy fuel m = hexDigitsBy fuel' n) : m = n := by
  induction fuel generalizing fuel' m n with
  | zero => omega
  | succ fuel ih =>
    cases fuel' with
    | zero => omega
    | succ fuel' =>
      simp only [hexDigitsBy] at h
      by_cases hm' : m < 16 <;> by_cases hn' : n < 16
      · rw [if_pos hm', if_pos hn'] at h
        exact hexDigit_injective hm' hn' (List.cons.inj h).1
      · rw [if_pos hm', if_neg hn'] at h
        have hne : hexDigitsBy fuel' (n / 16) ≠ [] := hexDigitsBy_ne_nil (by omega)
        exact absurd (List.append_eq_singleton_iff.mp h.symm) (by simp [hne])
      · rw [if_neg hm', if_pos hn'] at h
        have hne : hexDigitsBy fuel (m / 16) ≠ [] := hexDigitsBy_ne_nil (by omega)
        exact absurd (List.append_eq_singleton_iff.mp h) (by simp [hne])
      · rw [if_neg hm', if_neg hn'] at h
        obtain ⟨hquot, hrest⟩ := List.append_inj' h rfl
        have hdiv : m / 16 = n / 16 := ih (by omega) (by omega) hquot
        have hmod : m % 16 = n % 16 := hexDigit_injective (Nat.mod_lt m (by omega))
          (Nat.mod_lt n (by omega)) (List.cons.inj hrest).1
        omega

end Text

namespace Piece

def digits (a : Nat) : List Char := Text.hexDigits (addressBase + 16 * a)

def segments : Piece → List Segment
  | plain s => s.toList.map .char
  | identity a => [.token (digits a)]

theorem digits_injective {a b : Nat} (h : digits a = digits b) : a = b := by
  have := Text.hexDigitsBy_injective (Nat.lt_succ_self _) (Nat.lt_succ_self _) h
  omega

def place (met : List Nat) (a : Nat) : Nat × List Nat :=
  match met.idxOf? a with
  | some i => (i + 1, met)
  | none => (met.length + 1, met ++ [a])

def numbered : List Piece → List Nat → List Char × List Nat
  | [], met => ([], met)
  | plain s :: ps, met =>
    let (cs, met) := numbered ps met
    (s.toList ++ cs, met)
  | identity a :: ps, met =>
    let (n, met) := place met a
    let (cs, met) := numbered ps met
    ('@' :: (toString n).toList ++ cs, met)

theorem numbered_append (ps qs : List Piece) (met : List Nat) :
    numbered (ps ++ qs) met = ((numbered ps met).1 ++ (numbered qs (numbered ps met).2).1,
      (numbered qs (numbered ps met).2).2) := by
  induction ps generalizing met with
  | nil => rfl
  | cons p ps ih => cases p <;> simp [numbered, ih]

theorem ordinal_digits (met : List Nat) (a : Nat) :
    Segment.ordinal (met.map digits) (digits a) = ((place met a).1, (place met a).2.map digits) := by
  have hidx : (met.map digits).idxOf? (digits a) = met.idxOf? a :=
    List.idxOf?_map_of_inj fun _ _ => digits_injective
  simp only [Segment.ordinal, place, hidx]
  cases met.idxOf? a <;> simp

theorem renumberFrom_map_char (seen : List (List Char)) (cs : List Char) (rest : List Segment) :
    Segment.renumberFrom seen (cs.map .char ++ rest) = cs ++ Segment.renumberFrom seen rest := by
  induction cs with
  | nil => rfl
  | cons c cs ih => simp [Segment.renumberFrom, ih]

theorem renumberFrom_segments (ps : List Piece) (met : List Nat) :
    Segment.renumberFrom (met.map digits) (ps.flatMap segments) = (numbered ps met).1 := by
  induction ps generalizing met with
  | nil => rfl
  | cons p ps ih =>
    cases p with
    | plain s => simp only [List.flatMap_cons, segments, renumberFrom_map_char, ih, numbered]
    | identity a =>
      simp only [List.flatMap_cons, segments, List.singleton_append, Segment.renumberFrom,
        ordinal_digits, ih, numbered]

def chars (ps : List Piece) : List Char := ps.flatMap fun p => p.text.toList

theorem chars_plain (s : String) (ps : List Piece) : chars (plain s :: ps) = s.toList ++ chars ps :=
  rfl

theorem chars_identity (a : Nat) (ps : List Piece) :
    chars (identity a :: ps) = '@' :: '0' :: 'x' :: (digits a ++ chars ps) := by
  simp [chars, text, digits]

def Sealed (ps : List Piece) : Prop :=
  ∀ k, Segment.read (chars ps ++ k) = ps.flatMap segments ++ Segment.read k

variable {ps qs : List Piece} {s : String} {a : Nat}

theorem sealed_nil : Sealed [] := fun _ => rfl

theorem Sealed.append (hp : Sealed ps) (hq : Sealed qs) : Sealed (ps ++ qs) := by
  intro k
  rw [chars, List.flatMap_append, List.append_assoc, ← chars, ← chars, hp, hq, List.flatMap_append,
    List.append_assoc]

theorem Sealed.cons_plain
    (h : ∀ k, Segment.read (s.toList ++ k) = s.toList.map .char ++ Segment.read k)
    (hp : Sealed ps) : Sealed (plain s :: ps) := by
  intro k
  rw [chars_plain, List.append_assoc, h, hp, List.flatMap_cons, segments, List.append_assoc]

theorem Sealed.cons_of_not_mem (h : '@' ∉ s.toList) (hp : Sealed ps) : Sealed (plain s :: ps) :=
  hp.cons_plain fun _ => Segment.read_append_of_not_mem h

theorem Sealed.cons_of_tokenless (name tail : List Char) (hs : s.toList = name ++ tail)
    (hname : Tokenless name)
    (htail : Breaks tail) (hne : tail ≠ []) (hat : '@' ∉ tail) (hp : Sealed ps) :
    Sealed (plain s :: ps) := by
  refine hp.cons_plain fun k => ?_
  have hbreaks : Breaks (tail ++ k) := by
    intro c hc
    obtain ⟨d, rest, rfl⟩ := List.exists_cons_of_ne_nil hne
    exact htail c hc
  rw [hs, List.append_assoc, Segment.read_append hname hbreaks, Segment.read_append_of_not_mem hat,
    List.map_append, List.append_assoc]

theorem Sealed.cons_label (hname : Tokenless s.toList) (hbreaks : ∀ k, Breaks (chars ps ++ k))
    (hp : Sealed ps) : Sealed (plain s :: identity a :: ps) := by
  intro k
  have hdigits : ∀ d ∈ digits a, isHexDigit d = true := Text.isHexDigit_of_mem_hexDigitsBy
  have hne : digits a ≠ [] := Text.hexDigitsBy_ne_nil (Nat.succ_pos _)
  have htoken : chars (plain s :: identity a :: ps) ++ k =
      s.toList ++ '@' :: '0' :: 'x' :: (digits a ++ (chars ps ++ k)) := by
    simp [chars_plain, chars_identity]
  rw [htoken, Segment.read_append hname (breaks_cons (by decide) _),
    Segment.read_token hne hdigits fun c hc => (hbreaks k c hc).2.2, hp]
  simp [segments]

/-- A sealed rendering is renumbered piece by piece. -/
theorem normalize_of_sealed (hp : Sealed ps) :
    normalize (String.join (ps.map text)) = String.ofList (numbered ps []).1 := by
  have htext : (String.join (ps.map text)).toList = chars ps := by
    simp [String.toList_join, List.flatMap_map, chars]
  have hread := hp []
  rw [List.append_nil, show Segment.read [] = [] from rfl, List.append_nil] at hread
  rw [normalize, htext, hread]
  exact congrArg String.ofList (renumberFrom_segments ps [])

end Piece
end GraphCopy
