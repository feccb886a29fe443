import GraphCopy.Copy.Strategy
import GraphCopy.Proofs.Container.Typed
import GraphCopy.Proofs.Value.Fitting

/-!
# Declared types and what is read

A storage declares a type, and what is read from its slots is null or accepted
by that type, but for one form of content: an integer beyond 64 signed bits is
read as a decimal although the slot is declared for integers. Storages of the
widest integers alone can hold such content, and they take the decimal back;
an array of the declared component type refuses it.

What may replace a value that was read is accepted where the value is.
-/

namespace GraphCopy

/-- The slot holds an integer that is read as a decimal. -/
def Slot.Beyond : Slot → Prop
  | .datum (.int n) => IntType.i64.greatest < n
  | _ => False

variable {d : Declared} {c : Cell} {x : Datum} {s : Storage} {slot : Slot} {v w : Value} {p : Place}

theorem Value.Alike.admits_eq (h : v.Alike w) (d : Declared) : d.admits v = d.admits w :=
  h.congr fun u => by cases d <;> cases u <;> rfl

theorem Value.Replaces.admits_eq (h : w.Replaces v) (d : Declared) : d.admits w = d.admits v := by
  cases h with
  | plain _ hvw => exact (hvw.admits_eq d).symm
  | object hk => cases d <;> simp [Declared.admits, Declared.accepts, isNull, scalarKind?, hk]

theorem IntType.i64_least_le {t : IntType} : i64.least ≤ t.least := by
  cases t <;> decide

theorem Cell.admits_int {t : IntType} {n : Int} (hn : t.least ≤ n ∧ n ≤ t.greatest) (p : Place) :
    (Declared.scalar .int).admits (.ofInt p n) = true ↔ ¬ IntType.i64.greatest < n := by
  have hlow := t.i64_least_le.trans hn.1
  by_cases hlarge : IntType.i64.greatest < n
  · rw [Value.ofInt, if_neg (by omega)]
    simp [hlarge, Declared.admits, Declared.accepts, Value.isNull, Value.scalarKind?]
  · rw [Value.ofInt, if_pos (by omega)]
    simp [hlarge, Declared.admits, Declared.accepts, Value.isNull, Value.scalarKind?]

theorem Cell.admits_read (h : c.Holds x) (p : Place) :
    c.declared.admits (x.read p) = true ↔ ¬ (Slot.datum x).Beyond := by
  cases x with
  | int n =>
    cases c with
    | int t => exact admits_int h p
    | _ => cases h
  | object r =>
    cases c with
    | object => simp [declared, Declared.admits, Declared.accepts, Slot.Beyond]
    | handle t =>
      have hr : r.type = t := h
      simp [declared, Declared.admits, Declared.accepts, Datum.read, Slot.Beyond, hr]
    | _ => cases h
  | _ =>
    cases c <;> first
      | exact False.elim h
      | simp [declared, Declared.admits, Declared.accepts, Datum.read, Value.scalarKind?, Slot.Beyond]

namespace Storage

theorem admits_read (h : s.Holds slot) (p : Place) :
    s.declared.admits (slot.read p) = true ↔ ¬ slot.Beyond := by
  cases s with
  | value =>
    cases slot with
    | value v => simp [declared, Declared.admits, Declared.accepts, Slot.Beyond]
    | _ => cases h
  | required c =>
    cases slot with
    | datum x => exact Cell.admits_read h p
    | _ => cases h
  | optional c =>
    cases slot with
    | datum x => exact Cell.admits_read h p
    | missing => simp [Slot.read, Declared.admits, Value.isNull, Slot.Beyond]
    | value v => cases h

theorem wide_of_beyond (h : s.Holds slot) (hb : slot.Beyond) :
    ∃ t : IntType, t.isWide = true ∧ (s = .required (.int t) ∨ s = .optional (.int t)) := by
  obtain ⟨n, rfl⟩ : ∃ n, slot = .datum (.int n) := by
    cases slot with
    | datum x =>
      cases x with
      | int n => exact ⟨n, rfl⟩
      | _ => cases hb
    | _ => cases hb
  have hlarge : IntType.i64.greatest < n := hb
  have hint : ∀ c : Cell, c.Holds (.int n) → ∃ t : IntType, c = .int t ∧ t.isWide = true := by
    intro c hc
    cases c with
    | int t => exact ⟨t, rfl, IntType.isWide_of_not_range hc (by omega)⟩
    | _ => cases hc
  cases s with
  | value => cases h
  | required c =>
    obtain ⟨t, rfl, ht⟩ := hint c h
    exact ⟨t, ht, .inl rfl⟩
  | optional c =>
    obtain ⟨t, rfl, ht⟩ := hint c h
    exact ⟨t, ht, .inr rfl⟩

/-- What is read from the slots of a storage is null or accepted by the type that the storage declares,
unless it is an integer beyond 64 signed bits, which the widest storages alone hold. So arrays of that
component type can be made of what is read otherwise, and can be given the copies. -/
theorem declared_takes_readings (s : Storage) :
    (∀ slot, s.Holds slot → ∀ p, s.declared.admits (slot.read p) = true ↔ ¬ slot.Beyond) ∧
    (∀ slot, s.Holds slot → slot.Beyond →
      ∃ t : IntType, t.isWide = true ∧ (s = .required (.int t) ∨ s = .optional (.int t))) ∧
    (∀ readings : List (Slot × Place), (∀ x ∈ readings, s.Holds x.1) →
      ((∃ a, FixedArray.ofValues s.declared (readings.map fun x => x.1.read x.2) = .ok a) ↔
        ∀ x ∈ readings, ¬ x.1.Beyond)) ∧
    ∀ slot, s.Holds slot → ∀ p w, w.Replaces (slot.read p) →
      ∀ a : FixedArray, a.component = s.declared → ∀ i < a.length,
        ((∃ b, a.set i w = .ok b) ↔ ¬ slot.Beyond) ∧
        ((∃ o, Strategy.setItem i w (.array a) = .ok o) ↔ ¬ slot.Beyond) := by
  refine ⟨fun slot h p => admits_read h p, fun slot => wide_of_beyond, fun readings h => ?_, ?_⟩
  · simp only [FixedArray.ofValues_eq_ok, exists_and_left, exists_eq, and_true, List.forall_mem_map]
    exact forall₂_congr fun x hx => admits_read (h x hx) x.2
  · intro slot h p w hw a ha i hi
    have hset : (∃ b, a.set i w = .ok b) ↔ ¬ slot.Beyond := by
      rw [← admits_read h p, ← hw.admits_eq, ← ha]
      simp only [FixedArray.set_eq_ok, hi, true_and, exists_and_left, exists_eq, and_true]
    have hitem : (∃ o, Strategy.setItem i w (.array a) = .ok o) ↔ ∃ b, a.set i w = .ok b := by
      cases hb : a.set i w <;> simp [Strategy.setItem, hb]
    exact ⟨hset, hitem.trans hset⟩

theorem declared_takes_readings_forms :
    let list : Ref := ⟨.list, 0⟩
    let handle := required (.handle .list)
    let count := optional (.int .u64)
    let row : FixedArray := .blank count.declared 2
    handle.Holds (.datum (.object list)) ∧
      (∃ a, FixedArray.ofValues handle.declared [.object list] = .ok a) ∧
      count.Holds (.datum (.int 7)) ∧ count.Holds .missing ∧
      (∃ b, row.set 1 (.int 7) = .ok b) ∧ ∃ b, row.set 0 .null = .ok b := by
  intro list handle count row
  have hhandle : handle.Holds (.datum (.object list)) := rfl
  have hcount : count.Holds (.datum (.int 7)) := ⟨by decide, by decide⟩
  have hmissing : count.Holds .missing := trivial
  refine ⟨hhandle, ?_, hcount, hmissing, ?_, ?_⟩
  · refine ((declared_takes_readings handle).2.2.1 [(.datum (.object list), .initial)] ?_).mpr ?_
    · simpa using hhandle
    · simp [Slot.Beyond]
  · refine (((declared_takes_readings count).2.2.2 _ hcount .initial (.int 7) (.plain rfl rfl)
      row rfl 1 (by decide)).1).mpr ?_
    exact Int.not_lt.mpr (by decide)
  · refine (((declared_takes_readings count).2.2.2 _ hmissing .initial .null (.plain rfl rfl)
      row rfl 0 (by decide)).1).mpr ?_
    exact id

/-- A slot for unsigned integers takes a number beyond 64 signed bits and reads it as a value that the
declared type of the slot does not accept, so no array of this component type takes it. -/
theorem beyond_not_taken :
    let total := required (.int .u64)
    let slot := Slot.datum (.int (2 ^ 63))
    let v := slot.read .initial
    total.store (fun _ => "") v = .ok slot ∧ total.Holds slot ∧ v ≠ .null ∧
      total.declared.accepts v = false ∧
      FixedArray.ofValues total.declared [v] = .error (.notAccepted "Decimal") ∧
      (FixedArray.blank total.declared 1).set 0 v = .error (.notAccepted "Decimal") := by
  intro total slot v
  have hstore : total.store (fun _ => "") v = .ok slot := by decide +kernel
  exact ⟨hstore, ⟨by decide, by decide⟩, by decide, by decide, by decide, by decide⟩

end Storage
end GraphCopy
