import GraphCopy.Proofs.Graph.Spelling

/-!
# The walk over mutable objects is exact

`Scene.Walks` is the loop over pending values without a bound: it takes up one
value at a time and comes to an end when nothing is pending. The bounded walk
follows it to the end, since every visit is to another object of the heap.

While it runs, whatever an object that was visited shows was visited too or is
pending. So in the end the visited objects are those in reach, and the mutable
ones among them are what was collected.
-/

namespace GraphCopy.Scene

inductive Walks (s : Scene) : List Value → Walk → Walk → Prop
  | done (w : Walk) : Walks s [] w w
  | drop {v : Value} {pending : List Value} {w w' : Walk} (hv : isNew w.seen v = false)
      (h : Walks s pending w w') : Walks s (v :: pending) w w'
  | visit {r : Ref} {pending : List Value} {w w' : Walk} (hr : r.address ∉ w.seen)
      (h : Walks s ((s.visit r w).1.reverse ++ pending) (s.visit r w).2 w') :
      Walks s (.object r :: pending) w w'

def Taken (seen : List Nat) (pending : List Value) (r : Ref) : Prop :=
  r.address ∈ seen ∨ .object r ∈ pending

structure Exploring (s : Scene) (root : Value) (pending : List Value) (w : Walk) : Prop where
  known : w.known.Sound s.types s.sharing
  nodup : w.seen.Nodup
  visited : ∀ x ∈ w.seen, ∃ r, s.heap.Reaches s.types root r ∧ r.address = x
  ahead : ∀ r, .object r ∈ pending → s.heap.Reaches s.types root r
  begun : ∀ r, root = .object r → Taken w.seen pending r
  shown : ∀ q, s.heap.Reaches s.types root q → q.address ∈ w.seen →
    ∀ r, .object r ∈ s.heap.shown s.types q → Taken w.seen pending r
  found : ∀ x, x ∈ w.found ↔ ∃ r, s.MutableReach root r ∧ r.address ∈ w.seen ∧ r.address = x

variable {s : Scene} {root v : Value} {pending : List Value} {w w' : Walk} {r : Ref}

theorem Walks.of_dropWhile (h : s.Walks (pending.dropWhile fun v => !isNew w.seen v) w w') :
    s.Walks pending w w' := by
  induction pending with
  | nil => exact h
  | cons v pending ih =>
    rw [List.dropWhile_cons] at h
    cases hv : isNew w.seen v with
    | true => simpa [hv] using h
    | false => exact .drop hv (ih (by simpa [hv] using h))

theorem visit_eq (ht : s.types.Coherent) (hk : w.known.Sound s.types s.sharing) (r : Ref) :
    ∃ b known, (b = true ↔ s.sharing.Immutable s.types (s.types.describe r.type)) ∧
      known.Sound s.types s.sharing ∧ s.visit r w = (s.heap.shown s.types r,
        { seen := r.address :: w.seen, found := if b then w.found else r.address :: w.found, known }) := by
  obtain ⟨hknown, hverdict⟩ :=
    SharingRules.isImmutable_judges ht (hk.describe_snd r.type) (t := r.type)
  refine ⟨_, _, hverdict, hknown, ?_⟩
  simp only [visit, hk.describe_fst r.type]
  rfl

namespace Exploring

theorem start {known : Knowledge} (hk : known.Sound s.types s.sharing) :
    s.Exploring root [root] ⟨[], [], known⟩ where
  known := hk
  nodup := List.nodup_nil
  visited := by simp
  ahead r hr := .root (List.mem_singleton.mp hr).symm
  begun r hr := .inr (by simp [hr])
  shown := by simp
  found := by simp

theorem drop (h : s.Exploring root (v :: pending) w) (hv : isNew w.seen v = false) :
    s.Exploring root pending w := by
  have hold : ∀ r, Taken w.seen (v :: pending) r → Taken w.seen pending r := by
    rintro r (hr | hr)
    · exact .inl hr
    · rcases List.mem_cons.mp hr with rfl | hr
      · exact .inl (by simpa [isNew] using hv)
      · exact .inr hr
  exact ⟨h.known, h.nodup, h.visited, fun r hr => h.ahead r (by simp [hr]),
    fun r hr => hold r (h.begun r hr), fun q hq hqs r hr => hold r (h.shown q hq hqs r hr), h.found⟩

theorem visit (ht : s.types.Coherent) (hground : s.Grounded root)
    (h : s.Exploring root (.object r :: pending) w) (hr : r.address ∉ w.seen) :
    s.Exploring root ((s.visit r w).1.reverse ++ pending) (s.visit r w).2 := by
  obtain ⟨b, known, hb, hknown, hvisit⟩ := visit_eq ht h.known r
  have hreach := h.ahead r (by simp)
  have hsame : ∀ q, s.heap.Reaches s.types root q → q.address = r.address → q = r :=
    fun q hq haddr => (hground q hq).eq_of_address_eq (hground r hreach) haddr
  have hold : ∀ q, Taken w.seen (.object r :: pending) q →
      Taken (r.address :: w.seen) ((s.heap.shown s.types r).reverse ++ pending) q := by
    rintro q (hq | hq)
    · exact .inl (by simp [hq])
    · rcases List.mem_cons.mp hq with hq | hq
      · cases hq
        exact .inl (by simp)
      · exact .inr (by simp [hq])
  rw [hvisit]
  refine ⟨hknown, List.nodup_cons.mpr ⟨hr, h.nodup⟩, ?_, ?_, fun q hq => hold q (h.begun q hq), ?_, ?_⟩
  · intro x hx
    rcases List.mem_cons.mp hx with rfl | hx
    · exact ⟨r, hreach, rfl⟩
    · exact h.visited x hx
  · intro q hq
    rcases List.mem_append.mp hq with hq | hq
    · exact hreach.step (List.mem_reverse.mp hq)
    · exact h.ahead q (by simp [hq])
  · intro q hq hqs p hp
    rcases List.mem_cons.mp hqs with haddr | hqs
    · obtain rfl := hsame q hq haddr
      exact .inr (by simp [hp])
    · exact hold p (h.shown q hq hqs p hp)
  · intro x
    have hcollected : (∃ q, s.MutableReach root q ∧ q.address ∈ r.address :: w.seen ∧ q.address = x) ↔
        (b = false ∧ x = r.address) ∨ x ∈ w.found := by
      rw [h.found]
      constructor
      · rintro ⟨q, hq, hqs, rfl⟩
        rcases List.mem_cons.mp hqs with haddr | hqs
        · obtain rfl := hsame q hq.1 haddr
          exact .inl ⟨Bool.eq_false_iff.mpr fun hbt => hq.2 (hb.mp hbt), rfl⟩
        · exact .inr ⟨q, hq, hqs, rfl⟩
      · rintro (⟨hbf, rfl⟩ | ⟨q, hq, hqs, rfl⟩)
        · exact ⟨r, ⟨hreach, fun himm => by simp [hb.mpr himm] at hbf⟩, by simp, rfl⟩
        · exact ⟨q, hq, by simp [hqs], rfl⟩
    rw [hcollected]
    cases b <;> simp

theorem along (ht : s.types.Coherent) (hground : s.Grounded root) (hw : s.Walks pending w w')
    (h : s.Exploring root pending w) : s.Exploring root [] w' := by
  induction hw with
  | done w => exact h
  | drop hv _ ih => exact ih (h.drop hv)
  | visit hr _ ih => exact ih (h.visit ht hground hr)

theorem length_le (hground : s.Grounded root) (h : s.Exploring root pending w) :
    w.seen.length ≤ s.heap.size := by
  have hsub : w.seen ⊆ List.range s.heap.size := by
    intro x hx
    obtain ⟨r, hr, rfl⟩ := h.visited x hx
    exact List.mem_range.mpr (hground r hr).address_lt
  simpa using (h.nodup.subperm hsub).length_le

theorem dropWhile (h : s.Exploring root pending w) :
    s.Exploring root (pending.dropWhile fun v => !isNew w.seen v) w := by
  induction pending with
  | nil => exact h
  | cons v pending ih =>
    rw [List.dropWhile_cons]
    cases hv : isNew w.seen v with
    | true => exact h
    | false => exact ih (h.drop hv)

/-- With more steps left than objects that were not visited, the bounded walk is the loop. -/
theorem walks (ht : s.types.Coherent) (hground : s.Grounded root) (fuel : Nat)
    (h : s.Exploring root pending w) (hfuel : s.heap.size < fuel + w.seen.length) :
    s.Walks pending w (s.walk fuel pending w) := by
  induction fuel generalizing pending w with
  | zero =>
    have := h.length_le hground
    omega
  | succ fuel ih =>
    apply Walks.of_dropWhile
    have hnext := h.dropWhile
    have hnew := List.head?_dropWhile_not (fun v => !isNew w.seen v) pending
    rw [walk]
    cases hdrop : pending.dropWhile fun v => !isNew w.seen v with
    | nil => exact .done w
    | cons v rest =>
      rw [hdrop] at hnext hnew
      cases v with
      | object r =>
        have hr : r.address ∉ w.seen := by simpa [isNew] using hnew
        refine .visit hr (ih (hnext.visit ht hground hr) ?_)
        obtain ⟨b, known, -, -, hvisit⟩ := visit_eq ht h.known r
        rw [hvisit, List.length_cons]
        omega
      | _ => exact absurd hnew (by simp [isNew])

end Exploring

theorem mutableObjects_walks (ht : s.types.Coherent) (hground : s.Grounded root) {known : Knowledge}
    (hk : known.Sound s.types s.sharing) :
    ∃ seen, s.Walks [root] ⟨[], [], known⟩
      ⟨seen, (s.mutableObjects root known).1, (s.mutableObjects root known).2⟩ :=
  ⟨_, (Exploring.start hk).walks ht hground (s.heap.size + 1) (by simp)⟩

theorem mem_found_iff (ht : s.types.Coherent) (hground : s.Grounded root) {known : Knowledge}
    (hk : known.Sound s.types s.sharing) (hw : s.Walks [root] ⟨[], [], known⟩ w) {x : Nat} :
    x ∈ w.found ↔ ∃ r, s.MutableReach root r ∧ r.address = x := by
  have h := (Exploring.start hk).along ht hground hw
  -- nothing is pending in the end, so the visited objects are closed under what they show
  have htaken : ∀ r, Taken w.seen [] r → r.address ∈ w.seen := fun r hr => hr.resolve_right (by simp)
  have hseen : ∀ r, s.heap.Reaches s.types root r → r.address ∈ w.seen := by
    intro r hr
    induction hr with
    | root hroot => exact htaken _ (h.begun _ hroot)
    | step hq hshown ih => exact htaken _ (h.shown _ hq ih _ hshown)
  rw [h.found]
  constructor
  · rintro ⟨r, hr, -, rfl⟩
    exact ⟨r, hr, rfl⟩
  · rintro ⟨r, hr, rfl⟩
    exact ⟨r, hr, hseen r hr.1, rfl⟩

theorem mem_mutableObjects (ht : s.types.Coherent) (hground : s.Grounded root) {known : Knowledge}
    (hk : known.Sound s.types s.sharing) {x : Nat} :
    x ∈ (s.mutableObjects root known).1 ↔ ∃ r, s.MutableReach root r ∧ r.address = x := by
  obtain ⟨seen, hw⟩ := mutableObjects_walks ht hground hk
  exact mem_found_iff ht hground hk hw

theorem referenceDistinct_iff (ht : s.types.Coherent) {a b : Value} (ha : s.Grounded a)
    (hb : s.Grounded b) {known : Knowledge} (hk : known.Sound s.types s.sharing) :
    (s.referenceDistinct a b known).1 = true ↔ ¬ ∃ r, s.MutableReach a r ∧ s.MutableReach b r := by
  have hknown : (s.mutableObjects b known).2.Sound s.types s.sharing := (mutableObjects_finds ht hk).1
  simp only [referenceDistinct, List.all_eq_true, Bool.not_eq_true', List.contains_eq_mem,
    decide_eq_false_iff_not, mem_mutableObjects ht ha hknown, mem_mutableObjects ht hb hk]
  constructor
  · rintro h ⟨r, hra, hrb⟩
    exact h r.address ⟨r, hra, rfl⟩ ⟨r, hrb, rfl⟩
  · rintro h x ⟨p, hp, hpx⟩ ⟨q, hq, hqx⟩
    obtain rfl := (ha p hp.1).eq_of_address_eq (hb q hq.1) (hpx.trans hqx.symm)
    exact h ⟨p, hp, hq⟩

/-- The walk comes to an end and collects the addresses of the mutable objects in reach, those included
that lie behind immutable objects. So two graphs are distinct just if no mutable object is in reach of
both, and it does not matter which of them comes first. -/
theorem referenceDistinct_decides (ht : s.types.Coherent) {a b : Value} (ha : s.Grounded a)
    (hb : s.Grounded b) {known : Knowledge} (hk : known.Sound s.types s.sharing) :
    (∀ v, s.Grounded v →
      (∃ seen, s.Walks [v] ⟨[], [], known⟩
        ⟨seen, (s.mutableObjects v known).1, (s.mutableObjects v known).2⟩) ∧
      ∀ x, x ∈ (s.mutableObjects v known).1 ↔
        ∃ r, s.heap.Reaches s.types v r ∧ ¬ s.sharing.Immutable s.types (s.types.describe r.type) ∧
          r.address = x) ∧
    ((s.referenceDistinct a b known).1 = true ↔ ¬ ∃ r, s.MutableReach a r ∧ s.MutableReach b r) ∧
    (s.referenceDistinct b a known).1 = (s.referenceDistinct a b known).1 := by
  refine ⟨fun v hv => ⟨mutableObjects_walks ht hv hk, fun x => ?_⟩, referenceDistinct_iff ht ha hb hk, ?_⟩
  · rw [mem_mutableObjects ht hv hk]
    simp only [MutableReach, and_assoc]
  · rw [Bool.eq_iff_iff, referenceDistinct_iff ht ha hb hk, referenceDistinct_iff ht hb ha hk]
    simp only [and_comm]

theorem grounded_of_shown (hroot : s.heap.Holds root)
    (hshown : ∀ r ∈ s.heap.refs, ∀ v ∈ s.heap.shown s.types r, s.heap.Holds v) : s.Grounded root :=
  fun _ hr => hr.closed (fun _ hq => hroot _ hq)
    fun q hq _ hp => hshown q (Heap.mem_refs.mpr hq) _ hp _ rfl

/-- A list holds itself and a bag, which is immutable, and the bag holds a list that another list holds
too. -/
theorem referenceDistinct_behind_bag :
    let bag := { TypeSpec.bare "Bag" "Bag" with collection := true }
    let specs : Specs := ⟨[bag], ""⟩
    let cyclic : Value := .object ⟨.list, 0⟩
    let other : Value := .object ⟨.list, 3⟩
    let s : Scene := ⟨specs.types, .plain, ⟨#[.list [cyclic, .object ⟨.host 0, 1⟩],
      .host 0 [] [(.object ⟨.list, 2⟩, .null)], .list [], .list [.object ⟨.list, 2⟩]], 1⟩⟩
    s.Grounded cyclic ∧ s.Grounded other ∧
      s.heap.Reaches s.types cyclic ⟨.list, 2⟩ ∧ (s.mutableObjects cyclic .empty).1 = [2, 0] ∧
      (s.referenceDistinct cyclic other .empty).1 = false ∧
      ∃ r, s.MutableReach cyclic r ∧ s.MutableReach other r := by
  intro bag specs cyclic other s
  have hshown : ∀ r ∈ s.heap.refs, ∀ v ∈ s.heap.shown s.types r, s.heap.Holds v := by decide +kernel
  have ha : s.Grounded cyclic := grounded_of_shown (by decide) hshown
  have hb : s.Grounded other := grounded_of_shown (by decide) hshown
  have hk : Knowledge.empty.Sound s.types s.sharing :=
    Knowledge.sound_of_no_verdicts (DescriptorCache.faithful_empty _)
  have hfalse : (s.referenceDistinct cyclic other .empty).1 = false := by decide +kernel
  have hbag : s.heap.Reaches s.types cyclic ⟨.host 0, 1⟩ := .step (.root rfl) (by decide +kernel)
  have hiff := (referenceDistinct_decides (s := s) specs.types_coherent ha hb hk).2.1
  have hlist : s.heap.Reaches s.types cyclic ⟨.list, 2⟩ := hbag.step (by decide +kernel)
  have hobjects : (s.mutableObjects cyclic .empty).1 = [2, 0] := by decide +kernel
  have hshared : ∃ r, s.MutableReach cyclic r ∧ s.MutableReach other r := by
    by_contra hno
    rw [hiff.mpr hno] at hfalse
    cases hfalse
  exact ⟨ha, hb, hlist, hobjects, hfalse, hshared⟩

end GraphCopy.Scene
