import ValueFlow.Proofs.Operation
/-!
# Pointers that share no address

Every class but the empty one holds an exact location (`exists_isExact_le`), and the classes above one location form a
chain.  So two classes share a location exactly when one lies below the other and neither is empty, which is what
`disjoint` tests (`disjoint_iff_exact`).  A comparison of two pointers is decided by that test alone.
-/
namespace ValueFlow

namespace Pointer

/-! ## Locations in a class -/

theorem ne_bottom_of_isExact {e : Pointer} (he : e.isExact = true) : e ≠ bottom := by
  rintro rfl
  cases he

theorem exists_isExact_le {p : Pointer} (hp : p ≠ bottom) : ∃ e : Pointer, e.isExact = true ∧ e ≤ p := by
  cases p with
  | bottom => exact absurd rfl hp
  | stackAt ofs => exact ⟨stackAt ofs, rfl, le_rfl⟩
  | globalAt s ofs => exact ⟨globalAt s ofs, rfl, le_rfl⟩
  | anyStack => exact ⟨stackAt 0, rfl, le_widen (stackAt 0)⟩
  | anyOffsetOf s => exact ⟨globalAt s 0, rfl, le_widen (globalAt s 0)⟩
  | anyGlobal | nonStack => exact ⟨globalAt default 0, rfl, by decide⟩
  | top => exact ⟨stackAt 0, rfl, le_top _⟩

theorem not_disjoint_self {e : Pointer} (he : e.isExact = true) : e.disjoint e ≠ true := by
  rw [Ne, disjoint_iff]
  rintro (h | h | h)
  · exact ne_bottom_of_isExact he h
  · exact ne_bottom_of_isExact he h
  · exact h (.inl le_rfl)

/-- **Classes are disjoint exactly when no location lies in both.** -/
theorem disjoint_iff_exact {p q : Pointer} :
    p.disjoint q = true ↔ ¬ ∃ e : Pointer, e.isExact = true ∧ e ≤ p ∧ e ≤ q := by
  constructor
  · rintro h ⟨e, he, hep, heq⟩
    exact not_disjoint_self he (disjoint_anti hep heq h)
  · intro h
    rw [disjoint_iff]
    by_contra hshared
    rw [not_or, not_or, not_not] at hshared
    -- a location of the lower class is one of the other too
    obtain ⟨hp, hq, hpq | hqp⟩ := hshared
    · obtain ⟨e, he, hep⟩ := exists_isExact_le hp
      exact h ⟨e, he, hep, le_trans hep hpq⟩
    · obtain ⟨e, he, heq⟩ := exists_isExact_le hq
      exact h ⟨e, he, le_trans heq hqp, heq⟩

theorem disjoint_comm (p q : Pointer) : p.disjoint q = q.disjoint p := by
  rw [Bool.eq_iff_iff, disjoint_iff_exact, disjoint_iff_exact]
  simp only [and_comm]

end Pointer

namespace Condition

/-! ## Comparing pointers -/

theorem eval_cmplu_ptr (c : Comparison) (p q : Pointer) :
    (cmplu c).eval [.ptr p, .ptr q] = if p.disjoint q then differing c else .either := by
  refine eval_eq_test fun i hi => ?_
  match i, hi with
  | 0, _ => exact Value.ptr_ne_bottom p
  | 1, _ => exact Value.ptr_ne_bottom q

theorem differing_ordering {c : Comparison} (heq : c ≠ .eq) (hne : c ≠ .ne) : differing c = .either := by
  cases c with
  | eq => exact absurd rfl heq
  | ne => exact absurd rfl hne
  | lt | le | gt | ge => rfl

theorem eval_cmplu_eq_iff {c : Comparison} {v : Verdict} (hv : differing c = v) (hdecided : v ≠ .either) (p q : Pointer) :
    (cmplu c).eval [.ptr p, .ptr q] = v ↔ p.disjoint q = true := by
  rw [eval_cmplu_ptr]
  split
  · rename_i h
    exact ⟨fun _ => h, fun _ => hv⟩
  · rename_i h
    exact ⟨fun heither => absurd heither.symm hdecided, fun hdis => absurd hdis h⟩

end Condition

/-- **Disjointness is exact, and it alone decides a comparison of pointers.**  Two classes are disjoint when no location
lies in both; then the pointers are known to differ, and in no other case is anything known. -/
theorem disjoint_decides :
    (∀ p q : Pointer, p.disjoint q = true ↔ ¬ ∃ e : Pointer, e.isExact = true ∧ e.le p = true ∧ e.le q = true) ∧
    (∀ p q : Pointer, p.disjoint q = q.disjoint p) ∧
    (∀ p q r s : Pointer, p.le r = true → q.le s = true → r.disjoint s = true → p.disjoint q = true) ∧
    ∀ p q : Pointer,
      ((Condition.cmplu .eq).eval [.ptr p, .ptr q] = .no ↔ p.disjoint q = true) ∧
      ((Condition.cmplu .ne).eval [.ptr p, .ptr q] = .yes ↔ p.disjoint q = true) ∧
      (p.disjoint q = false → ∀ c, (Condition.cmplu c).eval [.ptr p, .ptr q] = .either) ∧
      ∀ c, c ≠ .eq → c ≠ .ne → (Condition.cmplu c).eval [.ptr p, .ptr q] = .either := by
  refine ⟨fun p q => Pointer.disjoint_iff_exact, Pointer.disjoint_comm, fun p q r s => Pointer.disjoint_anti,
    fun p q => ⟨Condition.eval_cmplu_eq_iff rfl (by decide) p q, Condition.eval_cmplu_eq_iff rfl (by decide) p q,
      fun h c => ?_, fun c heq hne => ?_⟩⟩
  · rw [Condition.eval_cmplu_ptr, h]
    rfl
  · rw [Condition.eval_cmplu_ptr, Condition.differing_ordering heq hne, ite_self]

/-- A frame address and a global's differ, whatever their offsets; the global's may be any address outside the frame. -/
theorem disjoint_decides_frameAndGlobal :
    let cell := Pointer.stackAt 8
    let table := Pointer.anyOffsetOf ⟨1⟩
    (cell.le .anyStack = true ∧ table.le .nonStack = true ∧ Pointer.anyStack.disjoint .nonStack = true) ∧
      (cell.disjoint table = true ∧ ¬ ∃ e : Pointer, e.isExact = true ∧ e.le cell = true ∧ e.le table = true) ∧
      (Condition.cmplu .eq).eval [.ptr cell, .ptr table] = .no ∧ (Condition.cmplu .ne).eval [.ptr cell, .ptr table] = .yes ∧
      (Condition.cmplu .lt).eval [.ptr cell, .ptr table] = .either ∧ table.disjoint .nonStack = false ∧
      ∀ c, (Condition.cmplu c).eval [.ptr table, .ptr .nonStack] = .either := by
  intro cell table
  obtain ⟨hexact, -, hanti, hdecides⟩ := disjoint_decides
  have hcell : cell.le .anyStack = true := by decide
  have htable : table.le .nonStack = true := by decide
  have hdis : cell.disjoint table = true := hanti _ _ _ _ hcell htable (by decide)
  obtain ⟨heq, hne, -, hordering⟩ := hdecides cell table
  exact ⟨⟨hcell, htable, by decide⟩, ⟨hdis, (hexact cell table).1 hdis⟩, heq.2 hdis, hne.2 hdis,
    hordering .lt (by decide) (by decide), by decide, (hdecides table .nonStack).2.2.1 (by decide)⟩

end ValueFlow
