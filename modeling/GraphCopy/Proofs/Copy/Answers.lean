import GraphCopy.Proofs.Copy.Fill

/-!
# How requests are answered

The built-in strategies take arrays, objects that copy themselves, collections
and maps, in this order; any other object is copied by structure. Whichever
way is taken, the copy is recorded and in the end is kept, or the request
fails for one of the reasons in `Ground.Fails`. `cloneWithin_answering` follows
the nesting of requests.

Where every source is taken apart, without marks and rules say, and its type is
faithful, all recorded copies mirror their sources.
-/

namespace GraphCopy

variable {types : Types} {sharing : SharingRules} {h : Heap} {r : Ref}

theorem Registry.builtin_cases {σ : Strategy}
    (hi : ¬ sharing.Immutable types (types.describe r.type))
    (hσ : Registry.builtin.Selects types sharing h r σ) :
    (r.type = .array ∧ σ = .array) ∨
      (∃ f, (types.info r.type).selfClone = some f ∧ σ = .selfClone) ∨
      (r.type ≠ .array ∧ (types.info r.type).selfClone = none ∧
        ∃ c, (types.info r.type).collection = some c ∧ σ = .collection) ∨
      (r.type ≠ .array ∧ (types.info r.type).selfClone = none ∧
        (types.info r.type).collection = none ∧ ∃ m, (types.info r.type).map = some m ∧ σ = .map) := by
  have hnone : ∀ {α : Type} {x : Option α}, ¬ x.isSome = true → x = none := by simp
  rw [builtin] at hσ
  cases hσ with
  | here hs => exact absurd hs hi
  | later _ hσ =>
  cases hσ with
  | here hs => exact .inl ⟨by simpa [Guard.Holds, Strategy.array] using hs, rfl⟩
  | later harr hσ =>
  have hne : r.type ≠ .array := by simpa [Guard.Holds, Strategy.array] using harr
  cases hσ with
  | here hs =>
    obtain ⟨f, hf⟩ := Option.isSome_iff_exists.mp hs
    exact .inr (.inl ⟨f, hf, rfl⟩)
  | later hself hσ =>
  cases hσ with
  | here hs =>
    obtain ⟨c, hc⟩ := Option.isSome_iff_exists.mp hs
    exact .inr (.inr (.inl ⟨hne, hnone hself, c, hc, rfl⟩))
  | later hcol hσ =>
  cases hσ with
  | here hs =>
    obtain ⟨m, hm⟩ := Option.isSome_iff_exists.mp hs
    exact .inr (.inr (.inr ⟨hne, hnone hself, hnone hcol, m, hm, rfl⟩))
  | later _ hσ => cases hσ

theorem Registry.host_of_builtin_skips {sharing : SharingRules} {h : Heap} {r : Ref}
    (hskip : Registry.builtin.Skips types sharing h r) : ∃ i, r.type = .host i := by
  cases ht : r.type with
  | host i => exact ⟨i, rfl⟩
  | array =>
    refine absurd ?_ (hskip .array (by simp [builtin]))
    simp [Strategy.array, Guard.Holds, ht]
  | map =>
    refine absurd ?_ (hskip .map (by simp [builtin]))
    simp [Strategy.map, Guard.Holds, ht, Types.info]
  | _ =>
    refine absurd ?_ (hskip .collection (by simp [builtin]))
    simp [Strategy.collection, Guard.Holds, ht, Types.info]

theorem Registry.showsFields_of_builtin_skips (hskip : Registry.builtin.Skips types sharing h r) :
    (types.info r.type).selfClone = none ∧ types.ShowsFields r.type := by
  have hnone : ∀ {α : Type} {x : Option α}, ¬ x.isSome = true → x = none := by simp
  exact ⟨hnone (hskip .selfClone (by simp [builtin])), hnone (hskip .collection (by simp [builtin])),
    hnone (hskip .map (by simp [builtin]))⟩

namespace Setting

variable {c : Setting} {d : Descriptor} {tick : Nat} {o shell : Object}

theorem fallbackShell_some (h : c.fallbackShell d tick o = .ok (some shell)) :
    c.options.serializationFallback = true ∧
      ∃ trip, d.roundTrip = some trip ∧ trip tick o = .ok shell := by
  simp only [fallbackShell] at h
  split at h
  · next made hmade =>
    cases h
    split at hmade
    · next hfall =>
      refine ⟨hfall, ?_⟩
      cases htrip : d.roundTrip with
      | none =>
        rw [htrip] at hmade
        cases hmade
      | some trip =>
        rw [htrip] at hmade
        cases hres : trip tick o with
        | error e =>
          simp only [hres] at hmade
          cases hmade
        | ok o' =>
          simp only [hres] at hmade
          cases hmade
          exact ⟨trip, rfl, hres⟩
    · cases hmade
  · split at h <;> cases h

/-- An instance comes from a constructor, a copy constructor or a round trip. -/
theorem structuralShell_some (h : c.structuralShell d tick o = .ok (some shell)) :
    (∃ make, d.construct = some make ∧ make tick = shell) ∨
      (∃ copy, d.copyConstruct = some copy ∧ copy o = some shell) ∨
      (c.options.serializationFallback = true ∧
        ∃ trip, d.roundTrip = some trip ∧ trip tick o = .ok shell) := by
  simp only [structuralShell] at h
  cases hcon : d.construct with
  | some make =>
    rw [hcon] at h
    cases h
    exact .inl ⟨make, rfl, rfl⟩
  | none =>
    simp only [hcon] at h
    cases hcopy : d.copyConstruct.bind (fun copy => copy o) with
    | some made =>
      rw [hcopy] at h
      cases h
      exact .inr (.inl (Option.bind_eq_some_iff.mp hcopy))
    | none =>
      rw [hcopy] at h
      exact .inr (.inr (fallbackShell_some h))

theorem shareSource_of_structuralShell (h : c.structuralShell d tick o = .ok none) :
    c.options.shareSource = true := by
  simp only [structuralShell] at h
  split at h
  · cases h
  · split at h
    · cases h
    · simp only [fallbackShell] at h
      split at h
      · cases h
      · split at h
        · assumption
        · cases h

theorem structuralShell_type {t : TypeId} (hb : (c.types.info t).Breeds t) (hot : o.type = t)
    (h : c.structuralShell (c.types.describe t) tick o = .ok (some shell)) : shell.type = t := by
  rcases structuralShell_some h with ⟨make, hmake, rfl⟩ | ⟨copy, hcopy, hshell⟩ | ⟨-, trip, htrip, hshell⟩
  · exact hb.construct make hmake tick
  · exact hb.copyConstruct copy hcopy o shell hot hshell
  · exact hb.roundTrip trip htrip tick o shell hot hshell

end Setting

namespace Ground

open CopyM

variable {g : Ground} {copy : Value → CopyM Value} {s s₁ : CopyState} {o shell : Object} {k target : Ref}
  {depth : Nat} {known : Knowledge}

theorem complete_ends (shell : Object) (hs : g.Tidy s) (hk : known.Sound g.types g.sharing)
    (hr : g.heap.Has r) (hi : g.Mutable r) (hm : s.memo.get? r = none)
    (hshell : g.Breeds r.type → shell.type = r.type)
    {fill : Ref → Script}
    (hfill : ∀ s₀ target, g.Filling s₀ r target → target.type = shell.type →
      s₀.heap.get? target = some shell → ((fill target).run g.types copy).Ends s₀
        (fun _ s' => g.Brings target.address s₀ s' ∧ g.Kept s' r target) (g.Fails r)) :
    (do let target ← CopyM.make shell; g.complete copy r target (fill target)).Ends
      (s.opening r depth known)
      (fun k s' => g.Brings s.heap.size s s' ∧ s'.memo.get? r = some k) (g.Fails r) := by
  have hopen : g.Brings s.heap.size s (s.opening r depth known) :=
    (Brings.refl hs s.heap.size).along hk rfl rfl
  have hfilling := hopen.tidy.recording hr hi hshell
  refine Ends.bind (P := fun target s₁ => target = ((s.opening r depth known).heap.alloc shell).1 ∧
    s₁ = (s.opening r depth known).withHeap ((s.opening r depth known).heap.alloc shell).2)
    (ends_ok rfl ⟨rfl, rfl⟩) ?_
  rintro _ _ ⟨rfl, rfl⟩
  have hrun := hfill _ _ hfilling rfl (Heap.get?_alloc ..)
  refine Ends.of_eq (hrun.bind fun _ s' hs' => ends_ok (CopyM.pure_apply s' _) ?_) rfl
  have hrec := hs'.1.grows r _ hfilling.recorded
  exact ⟨hopen.request le_rfl (.complete hm hs'.1 hs'.2), hrec⟩

theorem duplicate_fresh {σ : Strategy} (d : Descriptor)
    (hfind : g.findStrategy r g.strategies (s.note (.opened r depth)) =
      (.ok (some σ), (s.note (.opened r depth)).knowing known))
    (hshell : σ.shell g.types s.heap s.heap.clock r = .ok (.fresh shell)) :
    g.duplicate copy depth d r s =
      (do let target ← CopyM.make shell; g.complete copy r target (σ.fill g.types r target))
        (s.opening r depth known) := by
  rw [Setting.duplicate_found _ hfind, bind_apply, bind_apply, Setting.instantiateBy_ok (by exact hshell)]
  rfl

/-- A strategy duplicates an object if what it makes of the source is filled to the end. -/
theorem duplicate_by {σ : Strategy} (shell : Object) (hs : g.Tidy s) (hk : known.Sound g.types g.sharing)
    (hr : g.heap.Has r) (hi : g.Mutable r) (hm : s.memo.get? r = none)
    (hfind : g.findStrategy r g.strategies (s.note (.opened r depth)) =
      (.ok (some σ), (s.note (.opened r depth)).knowing known))
    (hshell : σ.shell g.types s.heap s.heap.clock r = .ok (.fresh shell))
    (hbreeds : g.Breeds r.type → shell.type = r.type)
    (hfill : ∀ s₀ target, g.Filling s₀ r target → target.type = shell.type →
      s₀.heap.get? target = some shell → ((σ.fill g.types r target).run g.types copy).Ends s₀
        (fun _ s' => g.Brings target.address s₀ s' ∧ g.Kept s' r target) (g.Fails r)) :
    (g.duplicate copy depth (g.types.describe r.type) r).Ends s
      (fun k s' => g.Brings s.heap.size s s' ∧ s'.memo.get? r = some k) (g.Fails r) :=
  (complete_ends shell hs hk hr hi hm hbreeds hfill).of_eq (duplicate_fresh _ hfind hshell)

namespace Filling

variable (hcopy : g.Answering copy) (hf : g.Filling s r k) (ho : g.heap.get? r = some o)
  (hot : o.type = r.type)

include hf ho in
theorem kept_selfCloned {f : Object → Object} (hself : (g.types.info r.type).selfClone = some f)
    (hx : s.heap.get? k = some (f o)) : g.Kept s r k := by
  have hcopies : ∀ {t}, r.type = t → (g.types.info t).selfClone ≠ none := by
    rintro _ rfl hnone
    rw [hself] at hnone
    cases hnone
  refine ⟨fun heq => absurd heq hf.ne, fun _ f' hf' => ?_, fun _ hnone => absurd hnone (hcopies rfl),
    fun _ i ht hstruct => absurd hstruct.selfClone (hcopies ht), fun _ ht => ?_,
    fun ht => absurd rfl (hcopies ht)⟩
  · obtain rfl : f = f' := Option.some.inj (hself.symm.trans hf')
    exact ⟨o, ho, hx⟩
  · rcases ht with ht | ht
    · exact absurd rfl (hcopies ht)
    · exact absurd rfl (hcopies ht)

include hcopy hf ho hot

theorem fill_by_elements {c : Collection} {tick : Nat} (hcol : (g.types.info r.type).collection = some c)
    (hself : (g.types.info r.type).selfClone = none) (hne : r.type ≠ .array)
    (hkt : k.type = (c.emptyLike tick o).type) (hx : s.heap.get? k = some (c.emptyLike tick o)) :
    ((Strategy.collection.fill g.types r k).run g.types copy).Ends s
      (fun _ s' => g.Brings k.address s s' ∧ g.Kept s' r k) (g.Fails r) := by
  have hb : g.Brings k.address s s := .refl hf.tidy _
  cases ht : r.type with
  | array => exact absurd ht hne
  | map =>
    rw [ht] at hcol
    cases hcol
  | list =>
    obtain ⟨items, rfl⟩ := Object.exists_list (hot.trans ht)
    rw [ht] at hcol
    cases hcol
    exact hb.fill_list hcopy hf ho ht hkt hx
  | set =>
    obtain ⟨m, rfl⟩ := Object.exists_set (hot.trans ht)
    rw [ht] at hcol
    cases hcol
    exact hb.fill_set hcopy hf ho ht hkt hx
  | host i =>
    refine hb.fill_appending hcopy hf hcol hself ho hot hne (by simp [ht]) (fun hfaith => ?_)
      (fun _ _ _ _ => .strange hf.mutable hf.has ht fun hstruct => ?_) _ hkt hx
    · rw [ht] at hcol hfaith ⊢
      exact hfaith.appends hcol
    · rw [ht, hstruct.record.collection] at hcol
      cases hcol

theorem fill_by_entries {m : KeyedCollection} {tick : Nat} (hmap : (g.types.info r.type).map = some m)
    (hcol : (g.types.info r.type).collection = none) (hself : (g.types.info r.type).selfClone = none)
    (hkt : k.type = (m.emptyLike tick o).type) (hx : s.heap.get? k = some (m.emptyLike tick o)) :
    ((Strategy.map.fill g.types r k).run g.types copy).Ends s
      (fun _ s' => g.Brings k.address s s' ∧ g.Kept s' r k) (g.Fails r) := by
  have hb : g.Brings k.address s s := .refl hf.tidy _
  cases ht : r.type with
  | map =>
    obtain ⟨m', rfl⟩ := Object.exists_map (hot.trans ht)
    rw [ht] at hmap
    cases hmap
    exact hb.fill_builtin_map hcopy hf ho ht hkt hx
  | host i => exact hb.fill_keyed hcopy hf hcol hmap hself ho hot ht hkt hx
  | _ =>
    rw [ht] at hmap
    cases hmap

end Filling

theorem copyByStructure_ends (hcopy : g.Answering copy) (hs : g.Tidy s)
    (hk : known.Sound g.types g.sharing) (hr : g.heap.Has r) (hi : g.Mutable r)
    (hm : s.memo.get? r = none) (hskip : Registry.builtin.Skips g.types g.sharing s.heap r) :
    (g.copyByStructure copy (g.types.describe r.type) r).Ends
      ((s.note (.opened r depth)).knowing known)
      (fun k s' => g.Brings s.heap.size s s' ∧ s'.memo.get? r = some k) (g.Fails r) := by
  have ⟨o, ho, hot⟩ := hr
  have hos := hs.keeps.get?_eq_some ho
  obtain ⟨i, ht⟩ := Registry.host_of_builtin_skips hskip
  obtain ⟨hself, hshows⟩ := Registry.showsFields_of_builtin_skips hskip
  rw [ht] at hself hshows
  have hoi : o.type = .host i := hot.trans ht
  simp only [Setting.copyByStructure]
  refine Ends.bind (ends_ok (look_apply _) (P := fun seen s' => seen.1 = s.heap ∧
    seen.2 = s.heap.clock ∧ s' = s.opening r depth known) ⟨rfl, rfl, rfl⟩) ?_
  rintro ⟨h, tick⟩ _ ⟨rfl, rfl, rfl⟩
  simp only [hos]
  cases hshell : g.structuralShell (g.types.describe r.type) s.heap.clock o with
  | error e => exact ends_failed rfl (.refused hi ht ho hshell)
  | ok made =>
    cases made with
    | none =>
      have hshare := Setting.shareSource_of_structuralShell hshell
      have hopen : g.Brings s.heap.size s (s.opening r depth known) :=
        (Brings.refl hs s.heap.size).along hk rfl rfl
      refine ends_ok rfl ⟨hopen.request le_rfl ?_, Memo.get?_put_self ..⟩
      exact hopen.tidy.brings_original hr hi hm hshare (by simp [ht])
    | some shell =>
      rw [ht] at hshell
      refine complete_ends shell hs hk hr hi hm (fun hb => ?_) fun s₀ target hf _ hx => ?_
      · rw [ht] at hb ⊢
        exact Setting.structuralShell_type hb hoi hshell
      · rw [ht]
        exact (Brings.refl hf.tidy _).fill_fields hcopy hf ho ht hoi hshows hself hshell
          (fun hstruct => Setting.structuralShell_type hstruct.breeds hoi hshell) hx

theorem duplicate_ends (depth : Nat) (hcopy : g.Answering copy) (hs : g.Tidy s)
    (hr : g.heap.Has r) (hi : g.Mutable r) (hm : s.memo.get? r = none) :
    (g.duplicate copy depth (g.types.describe r.type) r).Ends s
      (fun k s' => g.Brings s.heap.size s s' ∧ s'.memo.get? r = some k) (g.Fails r) := by
  obtain ⟨found, known, hk, hfind, hfound⟩ := Setting.findStrategy_apply
    (s := s.note (.opened r depth)) (r := r) g.coherent g.strategies hs.known
  have ⟨o, ho, hot⟩ := hr
  have hos := hs.keeps.get?_eq_some ho
  rw [g.builtin] at hfound
  rcases hfound with ⟨σ, rfl, hsel⟩ | ⟨rfl, hskip⟩
  · rcases Registry.builtin_cases hi hsel with ⟨ht, rfl⟩ | ⟨f, hself, rfl⟩ |
      ⟨hne, hself, c, hcol, rfl⟩ | ⟨-, hself, hcol, m, hmap, rfl⟩
    · obtain ⟨a, rfl⟩ := Object.exists_array (hot.trans ht)
      have hat : Strategy.arrayAt s.heap r = some a := Strategy.arrayAt_eq_some.mpr ⟨ht, hos⟩
      refine duplicate_by (.array (.blank a.component a.length)) hs hk hr hi hm hfind
        (by simp only [Strategy.array, hat]) (fun _ => ht.symm) fun s₀ target hf _ hx => ?_
      exact (Brings.refl hf.tidy _).fill_array hcopy hf ho ht hx
    · refine duplicate_by (f o) hs hk hr hi hm hfind
        (by simp only [Strategy.selfClone, Strategy.leaf, hself, hos])
        (fun hb => hb.selfClone f hself o hot) fun s₀ target hf _ hx => ?_
      exact ends_ok rfl ⟨.refl hf.tidy _, hf.kept_selfCloned ho hself hx⟩
    · refine duplicate_by (c.emptyLike s.heap.clock o) hs hk hr hi hm hfind
        (by simp only [Strategy.collection, hcol, hos]) (fun hb => hb.collection c hcol _ o hot)
        fun s₀ target hf htarget hx => ?_
      exact hf.fill_by_elements hcopy ho hot hcol hself hne htarget hx
    · refine duplicate_by (m.emptyLike s.heap.clock o) hs hk hr hi hm hfind
        (by simp only [Strategy.map, hmap, hos]) (fun hb => hb.map m hmap _ o hot)
        fun s₀ target hf htarget hx => ?_
      exact hf.fill_by_entries hcopy ho hot hmap hcol hself htarget hx
  · exact (copyByStructure_ends hcopy hs hk hr hi hm hskip).of_eq (Setting.duplicate_not_found _ hfind)

theorem cloneRefWith_ends (depth : Nat) (hcopy : g.Answering copy) (hs : g.Tidy s)
    (hr : g.heap.Has r) :
    (g.cloneRefWith copy depth r).Ends s
      (fun k s' => g.Brings s.heap.size s s' ∧ g.Copied s'.memo (.object r) (.object k))
      (g.Fails r) := by
  have hstart : g.Brings s.heap.size s (s.note (.asked r)) :=
    (Brings.refl hs _).along hs.known rfl rfl
  have hres := Setting.resolve_resolution g.coherent hstart.tidy.known copy depth r
  suffices h : (g.resolve copy depth r).Ends (s.note (.asked r))
      (fun k s' => g.Brings s.heap.size s s' ∧ g.Copied s'.memo (.object r) (.object k))
      (g.Fails r) by
    unfold Ends Setting.cloneRefWith answering at *
    generalize g.resolve copy depth r (s.note (.asked r)) = out at h
    obtain ⟨answer, s'⟩ := out
    cases answer with
    | ok k => exact ⟨h.1.along h.1.tidy.known rfl rfl, h.2⟩
    | error e => cases e <;> exact h
  unfold Ends
  generalize g.resolve copy depth r (s.note (.asked r)) = out at hres
  cases hres with
  | shared hk hi => exact ⟨hstart.along hk rfl rfl, .shared hi⟩
  | recalled hk hi hm => exact ⟨hstart.along hk rfl rfl, .recorded hi hm⟩
  | tooDeep hk hi hm hl hd => exact .tooDeep hi hl
  | @duplicated known hk hi hm hl =>
    have hask : g.Brings s.heap.size s ((s.note (.asked r)).knowing known) := hstart.along hk rfl rfl
    have hdup := duplicate_ends depth hcopy hask.tidy hr hi hm
    exact hdup.imp (fun k s' h => ⟨hask.request le_rfl h.1, .recorded hi h.2⟩) id

/-- However deep requests are nested, they are answered with copies, or fail for a reason. -/
theorem cloneWithin_answering (g : Ground) (n depth : Nat) : g.Answering (g.cloneWithin n depth) := by
  have hplain : ∀ v s, v.object? = none → g.Tidy s →
      g.Brings s.heap.size s s ∧ g.Copied s.memo v v :=
    fun v s hv hs => ⟨.refl hs _, .plain hv (.refl v)⟩
  induction n generalizing depth with
  | zero =>
    intro v s hv hs
    cases v with
    | object r => exact trivial
    | _ => exact hplain _ _ rfl hs
  | succ n ih =>
    intro v s hv hs
    cases v with
    | object r =>
      have hends := cloneRefWith_ends depth (ih (depth + 1)) hs (hv r rfl)
      refine (hends.imp (fun _ _ h => h) fun hfail => ⟨r, rfl, hfail⟩).bind fun k s' h => ?_
      exact ends_ok rfl h
    | _ => exact hplain _ _ rfl hs

structure Whole (g : Ground) : Prop where
  shareSource : g.options.shareSource = false
  selfClone : ∀ r, g.heap.Has r → (g.types.info r.type).selfClone = none
  faithful : ∀ r, g.heap.Has r → g.Faithful r.type
  breeds : ∀ r, g.heap.Has r → g.Breeds r.type

theorem Tidy.of_sane (hs : g.Sane g.heap s) : g.Tidy s :=
  ⟨hs.keeps, hs.known, hs.source,
    fun r k hk => .inr ⟨(hs.copy r k hk).2.2, (hs.copy r k hk).1.address_lt⟩,
    fun r k hk _ => (hs.copy r k hk).2.1, hs.injective⟩

theorem Kept.whole (hk : g.Kept s r k) (hw : g.Whole) (hs : g.Tidy s) (hm : s.memo.get? r = some k) :
    g.Mirrored g.heap s r k ∧ s.heap.Has k ∧ k.type = r.type ∧ g.heap.size ≤ k.address := by
  have hr := (hs.source r k hm).1
  have hne : k ≠ r := by
    intro heq
    have hshare := hk.original heq
    rw [hw.shareSource] at hshare
    cases hshare
  have hmir := hk.mirrored hne (hw.selfClone r hr) (hw.faithful r hr)
  have hkt := hs.type r k hm (hw.breeds r hr)
  have ⟨o, o', ho, ho', hoo'⟩ := hmir
  obtain ⟨o₁, ho₁, hot⟩ := hr
  obtain rfl : o₁ = o := Option.some.inj (ho₁.symm.trans ho)
  exact ⟨hmir, ⟨o', ho', hoo'.type.trans (hot.trans hkt.symm)⟩, hkt, ((hs.copy r k hm).resolve_left hne).1⟩

theorem Brings.carries {s' : CopyState} (hw : g.Whole) (hs : g.Sane g.heap s)
    (hb : g.Brings s.heap.size s s') : g.Carries g.heap s.heap.size s s' := by
  refine ⟨⟨hb.tidy.keeps, hb.tidy.known, hb.tidy.source, fun r k hk => ?_, hb.tidy.injective⟩, hb.keeps,
    hb.grows, fun r k hk hnone => ((hb.kept r k hk hnone).whole hw hb.tidy hk).1⟩
  cases hold : s.memo.get? r with
  | some l =>
    obtain rfl : l = k := Option.some.inj ((hb.grows r l hold).symm.trans hk)
    obtain ⟨⟨o, ho, hot⟩, hrest⟩ := hs.copy r l hold
    exact ⟨⟨o, (hb.keeps.get?_eq l (Heap.address_lt_of_get? ho)).trans ho, hot⟩, hrest⟩
  | none => exact ((hb.kept r k hk hold).whole hw hb.tidy hk).2

end Ground

/-! ## Plain records -/

namespace Types.PlainRecords

variable {path : TypeId → String} {layouts : Nat → Layout}

theorem selfClone (hp : types.PlainRecords path layouts h) (hr : h.Has r) :
    (types.info r.type).selfClone = none := by
  cases ht : r.type with
  | host i => exact (hp.record_of_has hr ht).selfClone
  | _ => rfl

theorem faithful (hp : types.PlainRecords path layouts h) (hr : h.Has r) :
    types.Faithful path layouts r.type := by
  cases ht : r.type with
  | host i =>
    have hrec := hp.record_of_has hr ht
    exact .record hrec.slotRecord hrec.breeds
  | _ => exact Types.faithful_container (by simp)

theorem breeds (hp : types.PlainRecords path layouts h) (hr : h.Has r) :
    (types.info r.type).Breeds r.type := by
  cases ht : r.type with
  | host i => exact (hp.record_of_has hr ht).breeds
  | _ => exact Types.breeds_container (by simp)

end Types.PlainRecords

namespace Setting

variable {c : Setting} {path : TypeId → String} {layouts : Nat → Layout}

structure Plain (c : Setting) : Prop where
  strategies : c.strategies = .builtin
  shareSource : c.options.shareSource = false

def Answers (c : Setting) (h : Heap) (copy : Value → CopyM Value) : Prop :=
  ∀ v s w s', h.Holds v → c.Sane h s → copy v s = (.ok w, s') →
    c.Carries h s.heap.size s s' ∧ c.Copied s'.memo v w

theorem cloneWithin_answers (hc : c.Plain) (ht : c.types.Coherent)
    (hp : c.types.PlainRecords path layouts h) (hw : h.WellFormed layouts) (n depth : Nat) :
    c.Answers h (c.cloneWithin n depth) := by
  let g : Ground :=
    { c with heap := h, path, layouts, builtin := hc.strategies, coherent := ht
             closed := hp.closedOn hw, objects := hw.objects }
  have hwhole : g.Whole := ⟨hc.shareSource, fun _ => hp.selfClone, fun _ => hp.faithful,
    fun _ => hp.breeds⟩
  intro v s w s' hv hs hrun
  obtain ⟨hb, hcop⟩ := (g.cloneWithin_answering n depth v s hv (.of_sane hs)).of_ok hrun
  exact ⟨hb.carries hwhole hs, hcop⟩

end Setting

theorem Registry.builtin_selects {h h' : Heap} {path : TypeId → String} {layouts : Nat → Layout}
    (hp : types.PlainRecords path layouts h) {r : Ref} (hr : h.Has r) {σ : Strategy}
    (hi : ¬ sharing.Immutable types (types.describe r.type))
    (hσ : Registry.builtin.Selects types sharing h' r σ) :
    (r.type = .array ∧ σ = .array) ∨ ((r.type = .list ∨ r.type = .set) ∧ σ = .collection) ∨
      (r.type = .map ∧ σ = .map) := by
  rcases builtin_cases hi hσ with ht | ⟨f, hself, -⟩ | ⟨hne, -, c, hcol, hσ⟩ | ⟨hne, -, hcol, m, hmap, hσ⟩
  · exact .inl ht
  · rw [hp.selfClone hr] at hself
    cases hself
  · refine .inr (.inl ⟨?_, hσ⟩)
    cases ht : r.type with
    | host i =>
      rw [ht, (hp.record_of_has hr ht).collection] at hcol
      cases hcol
    | list => exact .inl rfl
    | set => exact .inr rfl
    | array => exact absurd ht hne
    | map =>
      rw [ht] at hcol
      cases hcol
  · refine .inr (.inr ⟨?_, hσ⟩)
    cases ht : r.type with
    | host i =>
      rw [ht, (hp.record_of_has hr ht).map] at hmap
      cases hmap
    | map => rfl
    | _ =>
      rw [ht] at hmap
      cases hmap

end GraphCopy
