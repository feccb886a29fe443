import GraphCopy.Proofs.Graph.Tokens

/-!
# Quoted texts end where they end

The escapes of characters form a prefix code: from a text that begins with the
escape of a character, the character and what follows it can be told. So a
quoted text shows where it ends, and what was quoted can be told from it.

Quoting makes no identity token that was not there before.
-/

namespace GraphCopy.Text

def shortEscapes (quote : Char) : List (Char × Char) :=
  [('\x00', '0'), ('\t', 't'), ('\r', 'r'), ('\n', 'n'), ('\\', '\\'), (quote, quote)]

inductive Escape (quote c : Char) : List Char → Prop
  | plain (hc : c ≠ '\\') (hq : c ≠ quote) : Escape quote c [c]
  | short {letter : Char} (h : (c, letter) ∈ shortEscapes quote) : Escape quote c ['\\', letter]
  | long : Escape quote c ('\\' :: 'u' :: '\x7b' :: (hexDigits c.toNat ++ ['\x7d']))

theorem escape_escaped (quote c : Char) : Escape quote c (escaped quote c) := by
  unfold escaped
  split
  · exact .short (by simp [shortEscapes, *])
  split
  · exact .short (by simp [shortEscapes, *])
  split
  · exact .short (by simp [shortEscapes, *])
  split
  · exact .short (by simp [shortEscapes, *])
  split
  · exact .short (by simp [shortEscapes, *])
  split
  · exact .short (by simp [shortEscapes, *])
  split
  · exact .long
  · exact .plain ‹_› ‹_›

variable {quote c c' : Char} {e e' k k' s s' : List Char}

theorem shortEscapes_injective (hq : quote = '"' ∨ quote = '\'') :
    (∀ p ∈ shortEscapes quote, ∀ p' ∈ shortEscapes quote, p.2 = p'.2 → p.1 = p'.1) ∧
      ∀ p ∈ shortEscapes quote, p.2 ≠ 'u' ∧ p.2 ≠ '@' := by
  rcases hq with rfl | rfl <;> decide

theorem digit_append_inj {a b : List Char} {d : Char} (ha : ∀ c ∈ a, isHexDigit c = true)
    (hb : ∀ c ∈ b, isHexDigit c = true) (hd : isHexDigit d = false)
    (h : a ++ d :: k = b ++ d :: k') : a = b ∧ k = k' := by
  induction a generalizing b with
  | nil =>
    cases b with
    | nil => exact ⟨rfl, (List.cons.inj h).2⟩
    | cons c b =>
      obtain ⟨rfl, -⟩ := List.cons.inj h
      rw [hb d (by simp)] at hd
      cases hd
  | cons c a ih =>
    cases b with
    | nil =>
      obtain ⟨rfl, -⟩ := List.cons.inj h
      rw [ha c (by simp)] at hd
      cases hd
    | cons c' b =>
      obtain ⟨rfl, htail⟩ := List.cons.inj h
      obtain ⟨rfl, hk⟩ := ih (fun c hc => ha c (by simp [hc])) (fun c hc => hb c (by simp [hc]))
        htail
      exact ⟨rfl, hk⟩

theorem Escape.append_inj (hq : quote = '"' ∨ quote = '\'') (he : Escape quote c e)
    (he' : Escape quote c' e') (h : e ++ k = e' ++ k') : c = c' ∧ k = k' := by
  obtain ⟨hinj, hu⟩ := shortEscapes_injective hq
  cases he with
  | plain hc hcq =>
    cases he' with
    | plain hc' hcq' => exact List.cons.inj h
    | short hl => exact absurd (List.cons.inj h).1 hc
    | long => exact absurd (List.cons.inj h).1 hc
  | short hl =>
    cases he' with
    | plain hc' hcq' => exact absurd (List.cons.inj h).1.symm hc'
    | short hl' =>
      simp only [List.cons_append, List.nil_append, List.cons.injEq, true_and] at h
      exact ⟨hinj _ hl _ hl' h.1, h.2⟩
    | long =>
      simp only [List.cons_append, List.nil_append, List.cons.injEq, true_and] at h
      exact absurd h.1 (hu _ hl).1
  | long =>
    cases he' with
    | plain hc' hcq' => exact absurd (List.cons.inj h).1.symm hc'
    | short hl' =>
      simp only [List.cons_append, List.nil_append, List.cons.injEq, true_and] at h
      exact absurd h.1.symm (hu _ hl').1
    | long =>
      simp only [List.cons_append, List.append_assoc, List.nil_append, List.cons.injEq,
        true_and] at h
      obtain ⟨hdigits, rfl⟩ := digit_append_inj isHexDigit_of_mem_hexDigitsBy
        isHexDigit_of_mem_hexDigitsBy (by decide) h
      have hcode := hexDigitsBy_injective (Nat.lt_succ_self _) (Nat.lt_succ_self _) hdigits
      exact ⟨Char.toNat_inj.mp hcode, rfl⟩

theorem Escape.eq_cons (hq : quote = '"' ∨ quote = '\'') (he : Escape quote c e) :
    ∃ d rest, e = d :: rest ∧ d ≠ quote ∧ (d ≠ '\\' → d = c ∧ rest = []) := by
  have hslash : '\\' ≠ quote := by rcases hq with rfl | rfl <;> decide
  cases he with
  | plain hc hcq => exact ⟨c, [], rfl, hcq, fun _ => ⟨rfl, rfl⟩⟩
  | short hl => exact ⟨_, _, rfl, hslash, fun h => absurd rfl h⟩
  | long => exact ⟨_, _, rfl, hslash, fun h => absurd rfl h⟩

/-- A quoted text shows what was quoted and where it ends. -/
theorem quotedChars_append_inj (hq : quote = '"' ∨ quote = '\'')
    (h : quotedChars quote s ++ k = quotedChars quote s' ++ k') : s = s' ∧ k = k' := by
  simp only [quotedChars, List.cons_append, List.append_assoc, List.nil_append, List.cons.injEq,
    true_and] at h
  induction s generalizing s' with
  | nil =>
    cases s' with
    | nil => exact ⟨rfl, (List.cons.inj h).2⟩
    | cons c' s' =>
      obtain ⟨d, rest, he, hne, -⟩ := (escape_escaped quote c').eq_cons hq
      rw [List.flatMap_cons, he] at h
      exact absurd (List.cons.inj h).1.symm hne
  | cons c s ih =>
    cases s' with
    | nil =>
      obtain ⟨d, rest, he, hne, -⟩ := (escape_escaped quote c).eq_cons hq
      rw [List.flatMap_cons, he] at h
      exact absurd (List.cons.inj h).1 hne
    | cons c' s' =>
      rw [List.flatMap_cons, List.flatMap_cons, List.append_assoc, List.append_assoc] at h
      obtain ⟨rfl, hrest⟩ := (escape_escaped quote c).append_inj hq (escape_escaped quote c') h
      obtain ⟨rfl, hk⟩ := ih hrest
      exact ⟨rfl, hk⟩

theorem flatMap_escaped_eq_cons (hq : quote = '"' ∨ quote = '\'') {d : Char} {rest : List Char}
    (h : s.flatMap (escaped quote) = d :: rest) (hd : d ≠ '\\') :
    ∃ s', s = d :: s' ∧ s'.flatMap (escaped quote) = rest := by
  cases s with
  | nil => cases h
  | cons c s =>
    obtain ⟨d', rest', he, -, hself⟩ := (escape_escaped quote c).eq_cons hq
    rw [List.flatMap_cons, he] at h
    obtain ⟨rfl, htail⟩ := List.cons.inj h
    obtain ⟨rfl, rfl⟩ := hself hd
    exact ⟨s, rfl, htail⟩

theorem Escape.not_mem (hq : quote = '"' ∨ quote = '\'') (he : Escape quote c e)
    (hne : e ≠ [c]) : '@' ∉ e := by
  cases he with
  | plain => exact absurd rfl hne
  | short hl => simpa using Ne.symm ((shortEscapes_injective hq).2 _ hl).2
  | long =>
    have hdigits : '@' ∉ hexDigits c.toNat :=
      fun h => absurd (isHexDigit_of_mem_hexDigitsBy _ h) (by decide)
    simp [hdigits]

theorem tokenless_flatMap_escaped (hq : quote = '"' ∨ quote = '\'') (hs : Tokenless s) :
    Tokenless (s.flatMap (escaped quote)) := by
  induction s with
  | nil => exact hs
  | cons c s ih =>
    obtain ⟨hno, htail⟩ := Segment.tokenless_cons.mp hs
    rw [List.flatMap_cons]
    by_cases he : escaped quote c = [c]
    · rw [he]
      refine Segment.tokenless_cons.mpr ⟨?_, ih htail⟩
      -- a token that begins here would have been there unquoted
      rintro ⟨d, rest, heq, hd⟩
      have hslash : d ≠ '\\' := by
        rintro rfl
        exact absurd hd (by decide)
      obtain ⟨rfl, htail⟩ := List.cons.inj heq
      obtain ⟨s₁, rfl, h₁⟩ := flatMap_escaped_eq_cons hq htail (by decide)
      obtain ⟨s₂, rfl, h₂⟩ := flatMap_escaped_eq_cons hq h₁ (by decide)
      obtain ⟨s₃, rfl, -⟩ := flatMap_escaped_eq_cons hq h₂ hslash
      exact hno ⟨d, s₃, rfl, hd⟩
    · exact Segment.tokenless_append ((escape_escaped quote c).not_mem hq he) (ih htail)

end GraphCopy.Text
