import ValueFlow.Initializer
import ValueFlow.Proofs.Normalize
/-!
# The order on blocks

A block is below another when its summary is and it knows at least the other's cells, each with the same chunk and a
value below.  In a well-formed block every cell reads back as itself and holds nothing that the summary could not have
supplied; so a summary read covers every cell, and reading is monotone although a larger block knows fewer cells.
-/
namespace ValueFlow
open Value

/-- **A cell that a block of summary `p` may know**: it reads back as itself, and a summary read covers it. -/
structure Cell.WellFormed (p : Pointer) (cell : Cell) : Prop where
  canonical : cell.value.Canonical
  fixed : cell.value.normalize cell.chunk = cell.value
  le_reads : cell.value ≤ cell.chunk.reads p

theorem Cell.WellFormed.mono {p q : Pointer} {cell : Cell} (h : cell.WellFormed p) (hpq : p ≤ q) :
    cell.WellFormed q where
  canonical := h.canonical
  fixed := h.fixed
  le_reads := lattice.trans h.canonical (canonical_reads _ _) (canonical_reads _ _) h.le_reads (reads_mono _ hpq)

theorem Cell.wellFormed_normalize {v : Value} (hv : v.Canonical) (c : Chunk) :
    Cell.WellFormed v.provenance ⟨c, v.normalize c⟩ where
  canonical := canonical_normalize hv c
  fixed := normalize_normalize hv c
  le_reads := normalize_le_reads hv le_rfl c

namespace Block

theorem ext_cell? {a b : Block} (hc : ∀ ofs, a.cell? ofs = b.cell? ofs) (hs : a.summary = b.summary) : a = b := by
  cases a
  cases b
  cases hs
  cases Table.ext_get? hc
  rfl

/-! ## What each operation knows -/

theorem cell?_invalidate (b : Block) (ofs : Int64) (size : Int) (prov : Pointer) (i : Int64) :
    (b.invalidate ofs size prov).cell? i = (b.cell? i).bind fun c => if c.touches i ofs size then none else some c := by
  refine (Table.get?_filter _ _ i).trans ?_
  simp only [cell?]
  cases b.cells.get? i with
  | none => rfl
  | some c => cases h : c.touches i ofs size <;> simp [h]

theorem invalidate_eq_some {b : Block} {ofs : Int64} {size : Int} {prov : Pointer} {i : Int64} {c : Cell} :
    (b.invalidate ofs size prov).cell? i = some c ↔ b.cell? i = some c ∧ c.touches i ofs size = false := by
  rw [cell?_invalidate, Option.bind_eq_some_iff]
  constructor
  · rintro ⟨d, hd, hdc⟩
    split at hdc
    · cases hdc
    · rename_i ht
      cases hdc
      exact ⟨hd, Bool.not_eq_true _ ▸ ht⟩
  · rintro ⟨hc, ht⟩
    exact ⟨c, hc, by rw [ht]; rfl⟩

theorem cell?_store (b : Block) (c : Chunk) (ofs : Int64) (v : Value) (i : Int64) :
    (b.store c ofs v).cell? i =
      if ofs = i then some ⟨c, v.normalize c⟩ else (b.invalidate ofs c.size v.provenance).cell? i :=
  Table.get?_insert _ _ _ i

theorem cell?_join (a b : Block) (ofs : Int64) : (a.join b).cell? ofs = (a.cell? ofs).bind (joinCell · (b.cell? ofs)) :=
  Table.get?_filterMap _ _ ofs

theorem joinCell_eq_some {a b c : Cell} :
    joinCell a (some b) = some c ↔ a.chunk = b.chunk ∧ c = ⟨a.chunk, a.value.join b.value⟩ := by
  simp only [joinCell, Option.bind_some]
  split <;> simp_all [eq_comm]

theorem join_eq_some {a b : Block} {ofs : Int64} {c : Cell} (h : (a.join b).cell? ofs = some c) :
    ∃ x y, a.cell? ofs = some x ∧ b.cell? ofs = some y ∧ x.chunk = y.chunk ∧ c = ⟨x.chunk, x.value.join y.value⟩ := by
  rw [cell?_join] at h
  obtain ⟨x, hx, hc⟩ := Option.bind_eq_some_iff.1 h
  cases hy : b.cell? ofs with
  | none =>
    rw [hy] at hc
    cases hc
  | some y =>
    rw [hy] at hc
    exact ⟨x, y, hx, rfl, joinCell_eq_some.1 hc⟩

/-- **Cells of one chunk are ordered by value; nothing known is above all of them.** -/
theorem cellLattice :
    SemilatticeOn (fun x : Option Cell => ∀ c, x = some c → c.value.Canonical) (fun x y => x.bind (joinCell · y)) where
  closed {x y} hx hy c h := by
    obtain ⟨a, ha, hc⟩ := Option.bind_eq_some_iff.1 h
    cases y with
    | none => cases hc
    | some b =>
      obtain ⟨-, rfl⟩ := joinCell_eq_some.1 hc
      exact canonical_join (hx a ha) (hy b rfl)
  comm {x y} hx hy := by
    cases x with
    | none => cases y <;> rfl
    | some a =>
      cases y with
      | none => rfl
      | some b =>
        by_cases h : a.chunk = b.chunk
        · simp [joinCell, h, join_comm]
        · simp [joinCell, h, Ne.symm h]
  assoc {x y z} hx hy hz := by
    cases x with
    | none => rfl
    | some a =>
      cases y with
      | none => rfl
      | some b =>
        cases z with
        | none => simp [joinCell]
        | some c =>
          by_cases hab : a.chunk = b.chunk
          · by_cases hbc : b.chunk = c.chunk
            · simp [joinCell, hab, hbc, lattice.assoc (hx a rfl) (hy b rfl) (hz c rfl)]
            · simp [joinCell, hab, hbc]
          · by_cases hbc : b.chunk = c.chunk
            · simp [joinCell, hbc, show a.chunk ≠ c.chunk from hbc ▸ hab]
            · simp [joinCell, hab, hbc]
  idem {x} hx := by
    cases x with
    | none => rfl
    | some a => simp [joinCell, lattice.idem (hx a rfl)]

/-- **Every known cell holds a canonical value.** -/
def Canonical (b : Block) : Prop := ∀ ofs c, b.cell? ofs = some c → c.value.Canonical

theorem canonical_ofSummary (p : Pointer) : (ofSummary p).Canonical := nofun

/-- **Blocks join cell by cell**, so what holds of cells and of summaries holds of blocks. -/
theorem canonicalLattice : SemilatticeOn Canonical join where
  closed {a b} ha hb ofs := by
    rw [cell?_join]
    exact cellLattice.closed (ha ofs) (hb ofs)
  comm {a b} ha hb := by
    refine ext_cell? (fun ofs => ?_) (Pointer.join_comm _ _)
    rw [cell?_join, cell?_join]
    exact cellLattice.comm (ha ofs) (hb ofs)
  assoc {a b c} ha hb hc := by
    refine ext_cell? (fun ofs => ?_) (Pointer.join_assoc _ _ _)
    simp only [cell?_join]
    exact cellLattice.assoc (ha ofs) (hb ofs) (hc ofs)
  idem {a} ha := by
    refine ext_cell? (fun ofs => ?_) (Pointer.join_self _)
    rw [cell?_join]
    exact cellLattice.idem (ha ofs)

theorem top_join (b : Block) : (ofSummary .top).join b = ofSummary .top :=
  ext_cell? (fun _ => cell?_join _ _ _) (Pointer.top_join _)

/-! ## Well-formed blocks -/

/-- **Every known cell is one that the summary admits.** -/
def WellFormed (b : Block) : Prop := ∀ ofs c, b.cell? ofs = some c → c.WellFormed b.summary

theorem WellFormed.canonical {b : Block} (h : b.WellFormed) : b.Canonical := fun ofs c hc => (h ofs c hc).canonical

theorem wellFormed_ofSummary (p : Pointer) : (ofSummary p).WellFormed := nofun

theorem WellFormed.invalidate {b : Block} (h : b.WellFormed) (ofs : Int64) (size : Int) (prov : Pointer) :
    (b.invalidate ofs size prov).WellFormed := by
  intro i c hc
  exact (h i c (invalidate_eq_some.1 hc).1).mono (Pointer.le_join_left _ _)

theorem WellFormed.store {b : Block} (h : b.WellFormed) (c : Chunk) (ofs : Int64) {v : Value} (hv : v.Canonical) :
    (b.store c ofs v).WellFormed := by
  intro i d hd
  rw [cell?_store] at hd
  split at hd
  · cases hd
    exact (Cell.wellFormed_normalize hv c).mono (Pointer.le_join_right _ _)
  · exact h.invalidate ofs c.size v.provenance i d hd

theorem WellFormed.join {a b : Block} (ha : a.WellFormed) (hb : b.WellFormed) : (a.join b).WellFormed := by
  intro ofs c hc
  obtain ⟨x, y, hx, hy, hxy, rfl⟩ := join_eq_some hc
  have hx' := (ha ofs x hx).mono (Pointer.le_join_left a.summary b.summary)
  have hy' := (hb ofs y hy).mono (Pointer.le_join_right a.summary b.summary)
  exact {
    canonical := canonical_join hx'.canonical hy'.canonical
    fixed := normalize_join hx'.canonical hy'.canonical hx'.fixed (hxy ▸ hy'.fixed)
    le_reads := lattice.join_le hx'.canonical hy'.canonical (canonical_reads _ _) hx'.le_reads (hxy ▸ hy'.le_reads) }

theorem lattice : SemilatticeOn WellFormed join := canonicalLattice.restrict WellFormed.canonical WellFormed.join

/-! ## Order -/

instance : LE Block := ⟨fun a b => a.join b = b⟩

@[simp] theorem le_eq_true {a b : Block} : a.le b = true ↔ a ≤ b := beq_iff_eq

theorem le_refl {b : Block} (h : b.WellFormed) : b ≤ b := lattice.idem h

/-- **A larger block has a larger summary and knows fewer cells, each less precisely.** -/
theorem le_iff {a b : Block} :
    a ≤ b ↔ a.summary ≤ b.summary ∧ ∀ ofs y, b.cell? ofs = some y →
      ∃ x, a.cell? ofs = some x ∧ x.chunk = y.chunk ∧ x.value ≤ y.value := by
  constructor
  · intro h
    have hjoin : a.join b = b := h
    refine ⟨Pointer.join_eq_right.1 (congrArg summary hjoin), fun ofs y hy => ?_⟩
    rw [← hjoin] at hy
    obtain ⟨x, z, hx, hz, hxz, rfl⟩ := join_eq_some hy
    rw [hjoin, hz, Option.some_inj] at hy
    have hle : x.value.join z.value = z.value := (congrArg Cell.value hy).symm
    exact ⟨x, hx, rfl, show x.value.join (x.value.join z.value) = x.value.join z.value by rw [hle, hle]⟩
  · rintro ⟨hs, hc⟩
    refine ext_cell? (fun ofs => ?_) (Pointer.join_eq_right.2 hs)
    rw [cell?_join]
    cases hy : b.cell? ofs with
    | none => cases a.cell? ofs <;> rfl
    | some y =>
      obtain ⟨x, hx, hxy, hle⟩ := hc ofs y hy
      rw [hx, Option.bind_some, joinCell_eq_some]
      exact ⟨hxy, by rw [hxy, show x.value.join y.value = y.value from hle]⟩

theorem summary_mono {a b : Block} (h : a ≤ b) : a.summary ≤ b.summary := (le_iff.1 h).1

theorem le_ofSummary {b : Block} {p : Pointer} : b ≤ ofSummary p ↔ b.summary ≤ p :=
  le_iff.trans ⟨And.left, fun h => ⟨h, nofun⟩⟩

theorem invalidate_mono {a b : Block} (h : a ≤ b) (ofs : Int64) (size : Int) {p q : Pointer} (hpq : p ≤ q) :
    a.invalidate ofs size p ≤ b.invalidate ofs size q := by
  obtain ⟨hs, hc⟩ := le_iff.1 h
  refine le_iff.2 ⟨Pointer.join_mono hs hpq, fun i y hy => ?_⟩
  obtain ⟨hy, ht⟩ := invalidate_eq_some.1 hy
  obtain ⟨x, hx, hxy, hle⟩ := hc i y hy
  refine ⟨x, invalidate_eq_some.2 ⟨hx, ?_⟩, hxy, hle⟩
  -- which bytes a cell has depends on its chunk alone
  rwa [Cell.touches, hxy]

theorem store_mono {a b : Block} (h : a ≤ b) (c : Chunk) (ofs : Int64) {v w : Value} (hv : v.Canonical)
    (hw : w.Canonical) (hvw : v ≤ w) : a.store c ofs v ≤ b.store c ofs w := by
  obtain ⟨hs, hc⟩ := le_iff.1 (invalidate_mono h ofs c.size (provenance_mono hvw))
  refine le_iff.2 ⟨hs, fun i y hy => ?_⟩
  rw [cell?_store] at hy ⊢
  split at hy
  · rename_i hi
    cases hy
    rw [if_pos hi]
    exact ⟨_, rfl, rfl, normalize_mono hv hw hvw c⟩
  · rename_i hi
    rw [if_neg hi]
    exact hc i y hy

/-! ## Reading -/

theorem loadAnywhere_eq (b : Block) (c : Chunk) : b.loadAnywhere c = c.reads b.summary := normalize_mixed _ c

theorem load_cases (b : Block) (c : Chunk) (ofs : Int64) :
    (∃ d, b.cell? ofs = some d ∧ d.chunk.size = c.size ∧ b.load c ofs = d.value.normalize c) ∨
      b.load c ofs = c.reads b.summary := by
  rw [load, ← loadAnywhere_eq]
  split
  · rename_i d hd
    split
    · rename_i hsize
      exact .inl ⟨d, hd, hsize, rfl⟩
    · exact .inr rfl
  · exact .inr rfl

theorem load_of_cell {b : Block} {c : Chunk} {ofs : Int64} {d : Cell} (hd : b.cell? ofs = some d)
    (hsize : d.chunk.size = c.size) : b.load c ofs = d.value.normalize c := by
  rw [load, show b.cells.get? ofs = some d from hd]
  exact if_pos hsize

theorem WellFormed.canonical_load {b : Block} (h : b.WellFormed) (c : Chunk) (ofs : Int64) :
    (b.load c ofs).Canonical := by
  rcases b.load_cases c ofs with ⟨d, hd, -, hl⟩ | hl <;> rw [hl]
  · exact canonical_normalize (h ofs d hd).canonical c
  · exact canonical_reads c _

/-- **A read at an unknown offset covers every read at a known one.** -/
theorem WellFormed.load_le_reads {b : Block} (h : b.WellFormed) (c : Chunk) (ofs : Int64) :
    b.load c ofs ≤ c.reads b.summary := by
  rcases b.load_cases c ofs with ⟨d, hd, hsize, hl⟩ | hl <;> rw [hl]
  · obtain ⟨hcan, -, hle⟩ := h ofs d hd
    exact normalize_le_of_size hcan hsize hle
  · exact Value.le_refl (canonical_reads c _)

theorem load_mono {a b : Block} (ha : a.WellFormed) (hb : b.WellFormed) (h : a ≤ b) (c : Chunk) (ofs : Int64) :
    a.load c ofs ≤ b.load c ofs := by
  rcases b.load_cases c ofs with ⟨y, hy, hsize, hl⟩ | hl <;> rw [hl]
  · obtain ⟨x, hx, hxy, hle⟩ := (le_iff.1 h).2 ofs y hy
    rw [load_of_cell hx (hxy ▸ hsize)]
    exact normalize_mono (ha ofs x hx).canonical (hb ofs y hy).canonical hle c
  · exact Value.lattice.trans (ha.canonical_load c ofs) (canonical_reads c _) (canonical_reads c _)
      (ha.load_le_reads c ofs) (reads_mono c (summary_mono h))

/-! ## Copying cells -/

theorem WellFormed.cellsWithin {b : Block} (h : b.WellFormed) (ofs : Int64) (size : Int) :
    ∀ e ∈ b.cellsWithin ofs size, e.2.value.Canonical ∧ e.2.value.provenance ≤ b.summary.widen := by
  intro e he
  obtain ⟨f, hf, rfl⟩ := List.mem_map.1 he
  have hcell := h f.1 f.2 (Table.mem_entries_iff.1 (List.mem_filter.1 hf).1)
  exact ⟨hcell.canonical, le_trans (provenance_mono hcell.le_reads) (provenance_reads_le _ _)⟩

/-- A cell beyond the last offset is skipped; any other is written at its distance. -/
theorem storeCells_cons (b : Block) (ofs : Int64) (e : Int64 × Cell) (cells : List (Int64 × Cell)) :
    b.storeCells ofs (e :: cells) = b.storeCells ofs cells ∨
      b.storeCells ofs (e :: cells) = (b.store e.2.chunk (ofs + e.1) e.2.value).storeCells ofs cells := by
  simp only [storeCells, List.foldl_cons, advanceOffset?]
  split
  · rename_i target htarget
    split at htarget
    · cases htarget
      exact .inr rfl
    · cases htarget
  · exact .inl rfl

theorem WellFormed.storeCells {b : Block} (h : b.WellFormed) (ofs : Int64) {cells : List (Int64 × Cell)}
    (hc : ∀ e ∈ cells, e.2.value.Canonical) : (b.storeCells ofs cells).WellFormed := by
  induction cells generalizing b with
  | nil => exact h
  | cons e cells ih =>
    obtain ⟨he, hcells⟩ := List.forall_mem_cons.1 hc
    rcases storeCells_cons b ofs e cells with hs | hs <;> rw [hs]
    · exact ih h hcells
    · exact ih (h.store _ _ he) hcells

theorem summary_storeCells_le {b : Block} (ofs : Int64) {cells : List (Int64 × Cell)} {p : Pointer} (hb : b.summary ≤ p)
    (hc : ∀ e ∈ cells, e.2.value.provenance ≤ p) : (b.storeCells ofs cells).summary ≤ p := by
  induction cells generalizing b with
  | nil => exact hb
  | cons e cells ih =>
    obtain ⟨he, hcells⟩ := List.forall_mem_cons.1 hc
    rcases storeCells_cons b ofs e cells with hs | hs <;> rw [hs]
    · exact ih hb hcells
    · exact ih (Pointer.join_le hb he) hcells

end Block

/-! ## Initializers -/

theorem InitItem.cell?_admitted {floats : Bool} {i : InitItem} {c : Cell} (h : i.cell? floats = some c) :
    c.value.Canonical ∧ c.value.provenance ≤ .anyGlobal := by
  cases i with
  | addrOf =>
    cases h
    exact ⟨⟨nofun, nofun⟩, rfl⟩
  | _ => cases floats <;> cases h <;> exact ⟨⟨nofun, nofun⟩, Pointer.bottom_le _⟩

theorem Global.layOut_admitted (floats : Bool) : ∀ (items : List InitItem) {b : Block} (ofs : Int),
    b.WellFormed → b.summary ≤ .anyGlobal →
    (layOut floats b ofs items).WellFormed ∧ (layOut floats b ofs items).summary ≤ .anyGlobal
  | [], _, _, hb, hs => ⟨hb, hs⟩
  | i :: items, b, ofs, hb, hs => by
    rw [layOut]
    cases hc : i.cell? floats with
    | none => exact layOut_admitted floats items _ hb hs
    | some c =>
      obtain ⟨hcan, hprov⟩ := InitItem.cell?_admitted hc
      exact layOut_admitted floats items _ (hb.store _ _ hcan) (Pointer.join_le hs hprov)

namespace ReadOnly

/-- **Every read-only block is well formed and points to globals only.** -/
def WellFormed (ro : ReadOnly) : Prop := ∀ s b, ro.get? s = some b → b.WellFormed ∧ b.summary ≤ .anyGlobal

/-- **What the table holds after more globals**: what it held, and the contents of those that are tracked. -/
theorem get?_extend {floats : Bool} : ∀ {globals : List Global} {seen : List Symbol} {t ro : ReadOnly},
    extend floats seen t globals = .ok ro → (∀ s b, t.get? s = some b → s ∈ seen) → ∀ {s b}, ro.get? s = some b ↔
    t.get? s = some b ∨ ∃ g ∈ globals, g.symbol = s ∧ g.isTracked = true ∧ b = g.contents floats
  | [], _, _, _, h, _, s, b => by
    cases h
    simp
  | g :: rest, seen, t, ro, h, hseen, s, b => by
    rw [extend] at h
    split at h
    · cases h
    rename_i hfresh
    split at h
    · cases h
    have hnew : ∀ {s b}, (if g.isTracked then t.insert g.symbol (g.contents floats) else t).get? s = some b ↔
        t.get? s = some b ∨ g.symbol = s ∧ g.isTracked = true ∧ b = g.contents floats := by
      intro s b
      split
      · rename_i htracked
        rw [Table.get?_insert]
        split
        · rename_i hs
          subst hs
          -- the symbol was not seen, so the table has no entry for it yet
          have hnone : t.get? g.symbol ≠ some b := fun hb => hfresh (List.contains_iff_mem.2 (hseen _ _ hb))
          simp [hnone, htracked, eq_comm]
        · rename_i hs
          simp [hs]
      · rename_i huntracked
        simp [huntracked]
    rw [get?_extend h fun s b hb => ?_, hnew]
    · simp only [List.mem_cons, exists_eq_or_imp, or_assoc]
    · rcases hnew.1 hb with hb | ⟨rfl, -⟩
      · exact List.mem_cons_of_mem _ (hseen s b hb)
      · exact List.mem_cons_self

/-- **The table holds the contents of the tracked globals**, and nothing else. -/
theorem get?_ofGlobals {floats : Bool} {globals : List Global} {ro : ReadOnly} (h : ofGlobals floats globals = .ok ro)
    {s : Symbol} {b : Block} :
    ro.get? s = some b ↔ ∃ g ∈ globals, g.symbol = s ∧ g.isTracked = true ∧ b = g.contents floats := by
  rw [get?_extend h fun _ _ hb => nomatch hb]
  simp

theorem wellFormed_ofGlobals {floats : Bool} {globals : List Global} {ro : ReadOnly}
    (h : ofGlobals floats globals = .ok ro) : ro.WellFormed := by
  intro s b hb
  obtain ⟨g, -, -, -, rfl⟩ := (get?_ofGlobals h).1 hb
  exact Global.layOut_admitted floats g.init 0 (Block.wellFormed_ofSummary _) (Pointer.bottom_le _)

end ReadOnly
end ValueFlow
