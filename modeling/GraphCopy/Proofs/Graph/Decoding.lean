import GraphCopy.Proofs.Graph.Leaves
import GraphCopy.Proofs.Graph.Lockstep
import GraphCopy.Proofs.Graph.Spelling

/-!
# Printed outlines are read back

Where the names of types are plain and tell the types apart, an outline can be
told from its text. Every place is read on its own: what stands before it is
known from the type of the object that shows it, a leaf is told from an object
because no leaf begins with a plain name and a number sign or an at sign, and
the character after the number tells whether an object is met again or for the
first time.
-/

namespace GraphCopy

open Text

namespace Text

def isPlain (c : Char) : Bool :=
  !(isStop c || c == '#' || c == '@' || c == '"' || c == '\'' || c == '<')

def Ends (k : List Char) : Prop :=
  k = [] ∨ ∃ c k', k = c :: k' ∧ (c = ']' ∨ c = '\x7d') ∧ Follows k'

theorem Ends.follows {k : List Char} (h : Ends k) : Follows k := by
  rcases h with rfl | ⟨c, k', rfl, hc, hk'⟩
  · trivial
  · exact .inr (.inr ⟨hc, hk'⟩)

variable {name name' cs rest rest' : List Char} {c c' : Char}

def isMark (c : Char) : Bool := c == '#' || c == '@'

theorem isMark_spec (h : isMark c = true) : isPlain c = false ∧ isStop c = false ∧
    isBare c = false ∧ c ≠ '"' ∧ c ≠ '\'' ∧ c ≠ '<' := by
  simp only [isMark, Bool.or_eq_true, beq_iff_eq] at h
  rcases h with rfl | rfl <;> decide

theorem isPlain_spec (h : isPlain c = true) : isStop c = false ∧ c ≠ '"' ∧ c ≠ '\'' ∧ c ≠ '<' := by
  simp only [isPlain, Bool.not_eq_true', Bool.or_eq_false_iff, beq_eq_false_iff_ne] at h
  exact ⟨h.1.1.1.1.1, h.1.1.2, h.1.2, h.2⟩

theorem plain_append_inj (hname : Over isPlain name) (hname' : Over isPlain name')
    (hc : isMark c = true) (hc' : isMark c' = true) (h : name ++ c :: rest = name' ++ c' :: rest') :
    name = name' ∧ c = c' ∧ rest = rest' := by
  have hhead : ∀ {c cs}, isMark c = true → ∀ d ∈ (c :: cs).head?, isPlain d = false := by
    intro c cs hc d hd
    cases hd
    exact (isMark_spec hc).1
  obtain ⟨rfl, htail⟩ := hname.append_inj hname' (hhead hc) (hhead hc') h
  exact ⟨rfl, List.cons.inj htail⟩

end Text

theorem Leaf.Form.ne_name {cs k name rest : List Char} {c : Char} (h : Form cs) (hk : Follows k)
    (hname : Over isPlain name) (hc : isMark c = true) : cs ++ k ≠ name ++ c :: rest := by
  intro heq
  obtain ⟨-, hcstop, hcbare, hcq⟩ := isMark_spec hc
  obtain ⟨d, t, rfl, -, hform⟩ := h.head
  have hfirst : d ≠ '"' ∧ d ≠ '\'' ∧ d ≠ '<' := by
    cases name with
    | nil =>
      obtain ⟨rfl, -⟩ := List.cons.inj heq
      exact hcq
    | cons e name =>
      obtain ⟨rfl, -⟩ := List.cons.inj heq
      exact (isPlain_spec (over_cons.mp hname).1).2
  rcases hform with ⟨-, hover⟩ | ⟨hq | hq, -⟩ | ⟨hq, -⟩
  · rcases List.append_eq_append_iff.mp heq with ⟨m, rfl, hm⟩ | ⟨m, hm, hrest⟩
    · -- the word ends within the name or at the mark, but what follows it is neither
      cases m with
      | nil =>
        rw [List.nil_append] at hm
        rw [hm] at hk
        simp [hk.isStop] at hcstop
      | cons e m =>
        rw [hm] at hk
        have he := (isPlain_spec (hname e (by simp))).1
        simp [hk.isStop] at he
    · cases m with
      | nil =>
        rw [List.nil_append] at hrest
        rw [← hrest] at hk
        simp [hk.isStop] at hcstop
      | cons e m =>
        obtain ⟨rfl, -⟩ := List.cons.inj hrest
        rw [hover c (by rw [hm]; simp)] at hcbare
        cases hcbare
  · exact hfirst.1 hq
  · exact hfirst.2.1 hq
  · exact hfirst.2.2 hq

namespace Format

def Plain : Format → Prop
  | fields _ names => ∀ n ∈ names, Over isPlain n.toList
  | _ => True

def Later : Format → Prop
  | items more | keys more | fields more _ => more = true
  | contents => True

variable {F : Format}

theorem Plain.next (h : F.Plain) : F.next.Plain := by
  cases F with
  | fields more names => exact fun n hn => h n (List.mem_of_mem_tail hn)
  | _ => trivial

theorem next_later (F : Format) : F.next.Later := by
  cases F <;> simp [Format.next, Later]

theorem Later.before (h : F.Later) :
    ∃ k, F.before = ' ' :: k ∨ F.before = ',' :: ' ' :: k := by
  cases F with
  | contents => exact ⟨_, .inl rfl⟩
  | items more => subst h; exact ⟨_, .inr rfl⟩
  | keys more => subst h; exact ⟨_, .inr rfl⟩
  | fields more names => subst h; exact ⟨_, .inr rfl⟩

theorem Plain.before (h : F.Plain) : F.before = [] ∨
    ∃ c k, F.before = c :: k ∧ c ≠ ']' ∧ c ≠ '\x7d' := by
  by_cases hlater : F.Later
  · obtain ⟨k, hk | hk⟩ := hlater.before
    · exact .inr ⟨_, _, hk, by decide, by decide⟩
    · exact .inr ⟨_, _, hk, by decide, by decide⟩
  · cases F with
    | contents => exact absurd trivial hlater
    | items more =>
      simp only [Later, Bool.not_eq_true] at hlater
      subst hlater
      exact .inl rfl
    | keys more =>
      simp only [Later, Bool.not_eq_true] at hlater
      subst hlater
      exact .inl rfl
    | fields more names =>
      simp only [Later, Bool.not_eq_true] at hlater
      subst hlater
      refine .inr ?_
      cases names with
      | nil => exact ⟨':', [' '], rfl, by decide, by decide⟩
      | cons n names =>
        have hn := h n (by simp)
        cases hl : n.toList with
        | nil => exact ⟨':', [' '], by simp [Format.before, comma, hl], by decide, by decide⟩
        | cons c cs =>
          rw [hl] at hn
          have hstop := (isPlain_spec (over_cons.mp hn).1).1
          refine ⟨c, cs ++ [':', ' '], by simp [Format.before, comma, hl], ?_, ?_⟩
          · rintro rfl
            exact absurd hstop (by decide)
          · rintro rfl
            exact absurd hstop (by decide)

theorem opening_spec (F : Format) : F.opening.isDigit = false ∧ F.opening ≠ '^' := by
  cases F <;> simp only [opening] <;> decide

theorem closing_spec (F : Format) : F.closing = ']' ∨ F.closing = '\x7d' := by
  cases F <;> simp [closing]

theorem ends_closing {k : List Char} (F : Format) (hk : Follows k) : Ends (F.closing :: k) :=
  .inr ⟨_, k, rfl, F.closing_spec, hk⟩

end Format

namespace Scene

inductive SameForm : Outline Leaf → Outline Leaf → Prop
  | nil : SameForm .nil .nil
  | leaf (x x' rest rest') : SameForm (.leaf x rest) (.leaf x' rest')
  | again (t n rest t' n' rest') : SameForm (.again t n rest) (.again t' n' rest')
  | first (t n inner rest t' n' inner' rest') :
      SameForm (.first t n inner rest) (.first t' n' inner' rest')

variable {s : Scene} {t t' : TypeId} {n n' : Nat} {c c' : Char} {k k' rest rest' : List Char}
  {F : Format} {o o' : Outline Leaf} {P : TypeId → Prop}

theorem tag_append_inj (ht : Over isPlain (s.types.name t).toList)
    (ht' : Over isPlain (s.types.name t').toList) (hc : c.isDigit = false) (hc' : c'.isDigit = false)
    (h : s.tag t n ++ c :: rest = s.tag t' n' ++ c' :: rest') :
    s.types.name t = s.types.name t' ∧ n = n' ∧ c = c' ∧ rest = rest' := by
  have hmark : ∀ t, isMark (if s.Shares t then '#' else '@') = true := by
    intro t
    split <;> rfl
  have hhead : ∀ {c : Char} {cs}, c.isDigit = false → ∀ d ∈ (c :: cs).head?, d.isDigit = false := by
    intro c cs hc d hd
    cases hd
    exact hc
  simp only [tag, List.append_assoc, List.cons_append] at h
  obtain ⟨hname, -, hnumber⟩ := plain_append_inj ht ht' (hmark t) (hmark t') h
  obtain ⟨hdigits, htail⟩ :=
    (over_toString n).append_inj (over_toString n') (hhead hc) (hhead hc') hnumber
  exact ⟨String.toList_inj.mp hname, toList_toString_injective hdigits, List.cons.inj htail⟩

theorem tag_eq_cons (ht : Over isPlain (s.types.name t).toList) (n : Nat) :
    ∃ c cs, s.tag t n = c :: cs ∧ isStop c = false := by
  cases hname : (s.types.name t).toList with
  | nil =>
    refine ⟨_, _, by rw [tag, hname]; rfl, ?_⟩
    split <;> decide
  | cons c cs =>
    rw [hname] at ht
    exact ⟨c, _, by rw [tag, hname]; rfl, (isPlain_spec (over_cons.mp ht).1).1⟩

def IsRead (x : Leaf) : Prop := ∃ p, (∀ r, p ≠ some (.object r)) ∧ Leaf.of p = x

structure PlainType (s : Scene) (t : TypeId) : Prop where
  name : Over isPlain (s.types.name t).toList
  fields : ∀ f ∈ (s.types.describe t).instanceFields, Over isPlain f.name.toList

theorem PlainType.format (h : s.PlainType t) : (s.types.format t).Plain := by
  unfold Types.format
  split
  · trivial
  · split
    · trivial
    · intro n hn
      obtain ⟨f, hf, rfl⟩ := List.mem_map.mp hn
      exact h.fields f hf

theorem follows_print (hF : F.Later) (o : Outline Leaf) (hk : Ends k) :
    Follows (s.print F o ++ k) := by
  have hbefore : ∀ cs, Follows (F.before ++ cs) := by
    intro cs
    obtain ⟨k, hk | hk⟩ := hF.before
    · exact hk ▸ .inl rfl
    · exact hk ▸ .inr (.inl ⟨rfl, _, rfl⟩)
  cases o with
  | nil => exact hk.follows
  | leaf x rest => simpa [print] using hbefore _
  | again t n rest => simpa [print] using hbefore _
  | first t n inner rest => simpa [print] using hbefore _

theorem ne_print_append (hF : F.Plain) (ho : o.All s.PlainType IsRead) (hne : o ≠ .nil)
    (hk : Ends k) (k' : List Char) : k ≠ s.print F o ++ k' := by
  have hitem : ∃ c cs cs', s.print F o = F.before ++ c :: (cs ++ cs') ∧ isStop c = false := by
    cases o with
    | nil => exact absurd rfl hne
    | leaf x rest =>
      obtain ⟨⟨p, hp, rfl⟩, -⟩ := ho
      obtain ⟨c, cs, hcs, hc, -⟩ := (Leaf.form hp).head
      exact ⟨c, cs, _, by rw [print, hcs, List.append_assoc, List.cons_append], hc⟩
    | again t n rest =>
      obtain ⟨c, cs, hcs, hc⟩ := tag_eq_cons ho.1.name n
      exact ⟨c, cs, _, by rw [print, hcs, List.append_assoc, List.cons_append], hc⟩
    | first t n inner rest =>
      obtain ⟨c, cs, hcs, hc⟩ := tag_eq_cons ho.1.name n
      exact ⟨c, cs, _, by rw [print, hcs, List.append_assoc, List.cons_append], hc⟩
  obtain ⟨c, cs, cs', hprint, hc⟩ := hitem
  rw [hprint]
  rintro rfl
  rcases hk with hnil | ⟨d, k', heq, hd, -⟩
  · simp at hnil
  · rcases hF.before with hbefore | ⟨b, bs, hbefore, hb⟩
    · rw [hbefore] at heq
      obtain ⟨rfl, -⟩ := List.cons.inj heq
      rcases hd with rfl | rfl
      · exact absurd hc (by decide)
      · exact absurd hc (by decide)
    · rw [hbefore] at heq
      obtain ⟨rfl, -⟩ := List.cons.inj heq
      exact hd.elim hb.1 hb.2

theorem leaf_ne_tag {p : Option Value} (hp : ∀ r, p ≠ some (.object r)) (hk : Follows k)
    (ht : Over isPlain (s.types.name t).toList) (n : Nat) (rest : List Char) :
    (Leaf.of p).text.toList ++ k ≠ s.tag t n ++ rest := by
  have hmark : isMark (if s.Shares t then '#' else '@') = true := by split <;> rfl
  rw [tag, List.append_assoc, List.cons_append]
  exact (Leaf.form hp).ne_name hk ht hmark

theorem sameForm_of_print_eq (ho : o.All s.PlainType IsRead) (ho' : o'.All s.PlainType IsRead)
    (hF : F.Plain) (hk : Ends k) (hk' : Ends k') (h : s.print F o ++ k = s.print F o' ++ k') :
    SameForm o o' := by
  have hcaret : ('^' : Char).isDigit = false := by decide
  have hfollows : ∀ {o k}, Ends k → Follows (s.print F.next o ++ k) :=
    fun hk => follows_print F.next_later _ hk
  have hopening := fun t => (s.types.format t).opening_spec
  cases o with
  | nil =>
    cases o' with
    | nil => exact .nil
    | _ => exact absurd h (ne_print_append hF ho' (by simp) hk k')
  | leaf x rest =>
    cases o' with
    | nil => exact absurd h.symm (ne_print_append hF ho (by simp) hk' k)
    | leaf x' rest' => exact .leaf ..
    | _ =>
      obtain ⟨⟨p, hp, rfl⟩, -⟩ := ho
      simp only [print, List.append_assoc, List.append_cancel_left_eq] at h
      exact absurd h (leaf_ne_tag hp (hfollows hk) ho'.1.name _ _)
  | again t n rest =>
    cases o' with
    | nil => exact absurd h.symm (ne_print_append hF ho (by simp) hk' k)
    | leaf x' rest' =>
      obtain ⟨⟨p, hp, rfl⟩, -⟩ := ho'
      simp only [print, List.append_assoc, List.append_cancel_left_eq] at h
      exact absurd h.symm (leaf_ne_tag hp (hfollows hk') ho.1.name _ _)
    | again t' n' rest' => exact .again ..
    | first t' n' inner' rest' =>
      simp only [print, List.append_assoc, List.cons_append, List.append_cancel_left_eq] at h
      have hmark := (tag_append_inj ho.1.name ho'.1.name hcaret (hopening t').1 h).2.2.1
      exact absurd hmark.symm (hopening t').2
  | first t n inner rest =>
    cases o' with
    | nil => exact absurd h.symm (ne_print_append hF ho (by simp) hk' k)
    | leaf x' rest' =>
      obtain ⟨⟨p, hp, rfl⟩, -⟩ := ho'
      simp only [print, List.append_assoc, List.append_cancel_left_eq] at h
      exact absurd h.symm (leaf_ne_tag hp (hfollows hk') ho.1.name _ _)
    | again t' n' rest' =>
      simp only [print, List.append_assoc, List.cons_append, List.append_cancel_left_eq] at h
      have hmark := (tag_append_inj ho.1.name ho'.1.name (hopening t).1 hcaret h).2.2.1
      exact absurd hmark (hopening t).2
    | first t' n' inner' rest' => exact .first ..

/-- An outline is read back from a text that begins with it. -/
theorem print_append_inj
    (hnames : ∀ t t', P t → P t' → s.types.name t = s.types.name t' → t = t')
    (hplain : ∀ t, P t → s.PlainType t) (ho : o.All P IsRead) (ho' : o'.All P IsRead)
    (hF : F.Plain) (hk : Ends k) (hk' : Ends k')
    (h : s.print F o ++ k = s.print F o' ++ k') : o = o' ∧ k = k' := by
  have hall : ∀ {o : Outline Leaf}, o.All P IsRead → o.All s.PlainType IsRead := by
    intro o ho
    induction o with
    | nil => trivial
    | leaf x rest ih => exact ⟨ho.1, ih ho.2⟩
    | again t n rest ih => exact ⟨hplain t ho.1, ih ho.2⟩
    | first t n inner rest ihi ih => exact ⟨hplain t ho.1, ihi ho.2.1, ih ho.2.2⟩
  have hcaret : ('^' : Char).isDigit = false := by decide
  induction o generalizing o' F k k' with
  | nil =>
    cases sameForm_of_print_eq (hall ho) (hall ho') hF hk hk' h
    exact ⟨rfl, h⟩
  | leaf x rest ih =>
    cases sameForm_of_print_eq (hall ho) (hall ho') hF hk hk' h
    obtain ⟨⟨p, hp, rfl⟩, ho⟩ := ho
    obtain ⟨⟨p', hp', rfl⟩, ho'⟩ := ho'
    simp only [print, List.append_assoc, List.append_cancel_left_eq] at h
    obtain ⟨hleaf, hrest⟩ := Leaf.append_inj hp hp' (follows_print F.next_later _ hk)
      (follows_print F.next_later _ hk') h
    obtain ⟨rfl, hkk⟩ := ih ho ho' hF.next hk hk' hrest
    exact ⟨by rw [hleaf], hkk⟩
  | again t n rest ih =>
    cases sameForm_of_print_eq (hall ho) (hall ho') hF hk hk' h
    obtain ⟨ht, ho⟩ := ho
    obtain ⟨ht', ho'⟩ := ho'
    simp only [print, List.append_assoc, List.cons_append, List.append_cancel_left_eq] at h
    obtain ⟨hname, rfl, -, hrest⟩ :=
      tag_append_inj (hplain _ ht).name (hplain _ ht').name hcaret hcaret h
    obtain rfl := hnames _ _ ht ht' hname
    obtain ⟨rfl, hkk⟩ := ih ho ho' hF.next hk hk' hrest
    exact ⟨rfl, hkk⟩
  | first t n inner rest ihi ih =>
    cases sameForm_of_print_eq (hall ho) (hall ho') hF hk hk' h
    obtain ⟨ht, hoi, ho⟩ := ho
    obtain ⟨ht', hoi', ho'⟩ := ho'
    simp only [print, List.append_assoc, List.cons_append, List.append_cancel_left_eq] at h
    obtain ⟨hname, rfl, -, hinner⟩ := tag_append_inj (hplain _ ht).name (hplain _ ht').name
      (Format.opening_spec _).1 (Format.opening_spec _).1 h
    obtain rfl := hnames _ _ ht ht' hname
    obtain ⟨rfl, htail⟩ := ihi hoi hoi' (hplain t ht).format
      (Format.ends_closing _ (follows_print F.next_later _ hk))
      (Format.ends_closing _ (follows_print F.next_later _ hk')) hinner
    obtain ⟨rfl, hkk⟩ := ih ho ho' hF.next hk hk' (List.cons.inj htail).2
    exact ⟨rfl, hkk⟩

end Scene

end GraphCopy
