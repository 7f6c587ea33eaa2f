import ValueFlow.Proofs.Block
/-!
# The bytes of a block's cells

A write forgets the cells it touches.  These are looked for from one chunk before the write on, which leaves none of them
out (`touches_iff`), and `touches` compares ends that are cut off at the last offset.  So it never forgets too much, and
it forgets every cell that shares a byte with the write unless one of the two starts at the last offset, where the cut
leaves nothing of the range.  Known cells elsewhere never overlap.

The summary of a block bounds what its cells point to as far as a read of the summary does: a chunk of less than a
pointer's size forgets the offset of a pointer, and the summary keeps it.
-/
namespace ValueFlow

/-! ## Accesses that share a byte -/

namespace Chunk

/-- **Some byte belongs to both accesses.**  Bytes are counted past the last offset too. -/
def Overlaps (c : Chunk) (i : Int64) (d : Chunk) (j : Int64) : Prop :=
  ∃ n : Int, (i.toInt ≤ n ∧ n < i.toInt + c.size) ∧ j.toInt ≤ n ∧ n < j.toInt + d.size

variable {c d : Chunk} {i j : Int64}

theorem overlaps_iff : c.Overlaps i d j ↔ i.toInt < j.toInt + d.size ∧ j.toInt < i.toInt + c.size := by
  have hc := c.size_pos
  have hd := d.size_pos
  constructor
  · rintro ⟨n, hi, hj⟩
    omega
  · rintro ⟨hi, hj⟩
    exact ⟨max i.toInt j.toInt, by omega, by omega⟩

instance : Decidable (c.Overlaps i d j) := decidable_of_iff _ overlaps_iff.symm

theorem Overlaps.symm (h : c.Overlaps i d j) : d.Overlaps j c i :=
  h.imp fun _ hn => hn.symm

theorem overlaps_self (c d : Chunk) (i : Int64) : c.Overlaps i d i :=
  overlaps_iff.2 ⟨Int.lt_add_of_pos_right _ d.size_pos, Int.lt_add_of_pos_right _ c.size_pos⟩

theorem overlaps_congr {d' : Chunk} (h : d.size = d'.size) : c.Overlaps i d j ↔ c.Overlaps i d' j := by
  rw [overlaps_iff, overlaps_iff, h]

end Chunk

/-! ## What a write forgets -/

theorem toInt_lt_of_ne_maxValue {i : Int64} (h : i ≠ Int64.maxValue) : i.toInt < 9223372036854775807 := by
  have hne : i.toInt ≠ 9223372036854775807 := fun heq => h (Int64.toInt_inj.1 (heq.trans Int64.toInt_maxValue.symm))
  have hlt := i.toInt_lt
  omega

namespace Cell
variable {x : Cell} {c : Chunk} {i ofs : Int64}

theorem start_of_end (h : ofs.toInt < clampOffset (i.toInt + x.chunk.size)) :
    clampOffset (ofs.toInt - (Chunk.maxSize - 1)) ≤ i.toInt := by
  have hi := i.le_toInt
  have hpos := x.chunk.size_pos
  have hmax := x.chunk.size_le_maxSize
  unfold clampOffset at *
  omega

/-- The window in which `touches` looks for cells leaves none of them out. -/
theorem touches_iff {size : Int} : x.touches i ofs size = true ↔
    i.toInt < clampOffset (ofs.toInt + size) ∧ ofs.toInt < clampOffset (i.toInt + x.chunk.size) := by
  simp only [touches, Bool.and_eq_true, decide_eq_true_iff, and_assoc]
  exact ⟨And.right, fun h => ⟨start_of_end h.2, h⟩⟩

/-- **A write forgets no cell that it leaves whole.** -/
theorem overlaps_of_touches (h : x.touches i ofs c.size = true) : c.Overlaps ofs x.chunk i := by
  have hi := i.le_toInt
  have hofs := ofs.le_toInt
  have hc := c.size_pos
  have hx := x.chunk.size_pos
  rw [touches_iff, clampOffset, clampOffset] at h
  rw [Chunk.overlaps_iff]
  omega

/-- **A write forgets every cell that it overlaps**, away from the last offset. -/
theorem touches_of_overlaps (h : c.Overlaps ofs x.chunk i) (hofs : ofs ≠ Int64.maxValue) (hi : i ≠ Int64.maxValue) :
    x.touches i ofs c.size = true := by
  have hofs := toInt_lt_of_ne_maxValue hofs
  have hi := toInt_lt_of_ne_maxValue hi
  rw [Chunk.overlaps_iff] at h
  rw [touches_iff, clampOffset, clampOffset]
  -- an end cut off at the last offset is still beyond every other one
  omega

end Cell

namespace Block

/-! ## Blocks that occur -/

/-- **The blocks that come about from one without known cells** by writing values of `P`, by writing at an unknown
offset, by forgetting ranges and by joins. -/
inductive Reachable (P : Value → Prop) : Block → Prop where
  | ofSummary (p : Pointer) : Reachable P (ofSummary p)
  | store {b : Block} (c : Chunk) (ofs : Int64) {v : Value} (hv : P v) : Reachable P b → Reachable P (b.store c ofs v)
  | storeAnywhere {b : Block} (prov : Pointer) : Reachable P b → Reachable P (b.storeAnywhere prov)
  | invalidate {b : Block} (ofs : Int64) (size : Int) (prov : Pointer) :
    Reachable P b → Reachable P (b.invalidate ofs size prov)
  | join {a b : Block} : Reachable P a → Reachable P b → Reachable P (a.join b)

/-! ## Known cells do not overlap -/

/-- **No two known cells share a byte**, away from the last offset. -/
def Apart (b : Block) : Prop :=
  ∀ i x j y, b.cell? i = some x → b.cell? j = some y → i ≠ j → i ≠ Int64.maxValue → j ≠ Int64.maxValue →
    ¬ x.chunk.Overlaps i y.chunk j

theorem apart_ofSummary (p : Pointer) : (ofSummary p).Apart := fun _ _ _ _ hx => by cases hx

theorem Apart.invalidate {b : Block} (h : b.Apart) (ofs : Int64) (size : Int) (prov : Pointer) :
    (b.invalidate ofs size prov).Apart := fun i x j y hx hy =>
  h i x j y (invalidate_eq_some.1 hx).1 (invalidate_eq_some.1 hy).1

theorem not_overlaps_of_kept {b : Block} {c : Chunk} {ofs : Int64} {prov : Pointer} {i : Int64} {x : Cell}
    (hx : (b.invalidate ofs c.size prov).cell? i = some x) (hofs : ofs ≠ Int64.maxValue) (hi : i ≠ Int64.maxValue) :
    ¬ c.Overlaps ofs x.chunk i := fun h =>
  Bool.false_ne_true ((invalidate_eq_some.1 hx).2.symm.trans (Cell.touches_of_overlaps h hofs hi))

theorem cell?_store_of_apart {b : Block} {c : Chunk} {i j : Int64} {x : Cell} (v : Value) (hx : b.cell? j = some x)
    (h : ¬ c.Overlaps i x.chunk j) : (b.store c i v).cell? j = some x := by
  have hij : i ≠ j := fun hij => h (hij ▸ Chunk.overlaps_self c x.chunk i)
  rw [cell?_store, if_neg hij, invalidate_eq_some]
  refine ⟨hx, ?_⟩
  cases ht : x.touches j i c.size with
  | false => rfl
  | true => exact absurd (Cell.overlaps_of_touches ht) h

theorem Apart.store {b : Block} (h : b.Apart) (c : Chunk) (ofs : Int64) (v : Value) : (b.store c ofs v).Apart := by
  intro i x j y hx hy hij hi hj
  rw [cell?_store] at hx hy
  split at hx
  · rename_i hofs
    subst hofs
    cases hx
    rw [if_neg hij] at hy
    exact not_overlaps_of_kept hy hi hj
  · split at hy
    · rename_i hofs
      subst hofs
      cases hy
      exact fun hov => not_overlaps_of_kept hx hj hi hov.symm
    · exact h.invalidate ofs c.size v.provenance i x j y hx hy hij hi hj

theorem Apart.join {a b : Block} (h : a.Apart) : (a.join b).Apart := by
  intro i x j y hx hy
  -- a joined cell has the chunk that both sides know
  obtain ⟨x, -, hx, -, -, rfl⟩ := join_eq_some hx
  obtain ⟨y, -, hy, -, -, rfl⟩ := join_eq_some hy
  exact h i x j y hx hy

theorem Reachable.apart {P : Value → Prop} {b : Block} (h : b.Reachable P) : b.Apart := by
  induction h with
  | ofSummary p => exact apart_ofSummary p
  | store c ofs _ _ ih => exact ih.store c ofs _
  | storeAnywhere prov _ _ => exact apart_ofSummary _
  | invalidate ofs size prov _ ih => exact ih.invalidate ofs size prov
  | join _ _ ih _ => exact ih.join

theorem load_store_of_overlaps (b : Block) (v : Value) {c d : Chunk} {ofs i : Int64} (h : c.Overlaps ofs d i)
    (hne : i ≠ ofs ∨ d.size ≠ c.size) (hlast : i ≠ ofs → ofs ≠ Int64.maxValue ∧ i ≠ Int64.maxValue) :
    (b.store c ofs v).load d i = (b.store c ofs v).loadAnywhere d := by
  rcases (b.store c ofs v).load_cases d i with ⟨x, hx, hsize, -⟩ | hload
  · rw [cell?_store] at hx
    split at hx
    · -- the cell just written: the read is of another size
      rename_i hi
      cases hx
      exact absurd hsize.symm (hne.resolve_left fun h => h hi.symm)
    · -- a cell from before, which the write would have forgotten
      rename_i hi
      obtain ⟨hofs, hi⟩ := hlast (Ne.symm hi)
      exact absurd ((Chunk.overlaps_congr hsize).2 h) (not_overlaps_of_kept hx hofs hi)
  · rw [hload, loadAnywhere_eq]

/-- **Known cells never overlap**, and so a read that overlaps a write without being of the same bytes sees the summary
and nothing written before.  Both need accesses that do not start at the last offset. -/
theorem cells_apart {b : Block} (h : b.Reachable fun _ => True) :
    (∀ i x j y, b.cell? i = some x → b.cell? j = some y → i ≠ j → i ≠ Int64.maxValue → j ≠ Int64.maxValue →
      ¬ x.chunk.Overlaps i y.chunk j) ∧
    ∀ (c : Chunk) (ofs : Int64) (v : Value) (d : Chunk) (i : Int64), c.Overlaps ofs d i → i ≠ ofs ∨ d.size ≠ c.size →
      (i ≠ ofs → ofs ≠ Int64.maxValue ∧ i ≠ Int64.maxValue) →
      (b.store c ofs v).load d i = (Value.mixed (b.store c ofs v).summary).normalize d :=
  ⟨h.apart, fun _ _ v _ _ hov hne hlast => load_store_of_overlaps b v hov hne hlast⟩

theorem cells_apart_evicted :
    let b := (((ofSummary .bottom).store .int64 0 (.long 7)).store .int32 8 (.int 1)).store .int32 4 (.int 9)
    b.cells.entries = [(4, ⟨.int32, .int 9⟩), (8, ⟨.int32, .int 1⟩)] ∧ ¬ Chunk.int32.Overlaps 4 .int32 8 ∧
      Chunk.Overlaps (.narrow .u16) 6 .int32 4 ∧ b.load .int32 4 = .int 9 ∧
      (b.store (.narrow .u16) 6 (.int 2)).load .int32 4 = .num .int := by
  intro b
  have hb : b.Reachable fun _ => True :=
    .store _ _ trivial (.store _ _ trivial (.store _ _ trivial (.ofSummary _)))
  obtain ⟨hcells, hloads⟩ := cells_apart hb
  refine ⟨by decide, ?_, by decide, by decide, ?_⟩
  · exact hcells 4 ⟨.int32, .int 9⟩ 8 ⟨.int32, .int 1⟩ (by decide) (by decide) (by decide) (by decide) (by decide)
  · exact hloads (.narrow .u16) 6 (.int 2) .int32 4 (by decide) (.inl (by decide)) fun _ => ⟨by decide, by decide⟩

/-- At the last offset a cell outlives a write over it: the last byte of the written range is not looked at. -/
theorem cells_overlap_lastOffset :
    let b := ((ofSummary .bottom).store (.narrow .u8) Int64.maxValue (.int 5)).store .int64 (Int64.maxValue - 7) (.long 0)
    (b.Reachable (fun _ => True) ∧ b.cell? (Int64.maxValue - 7) = some ⟨.int64, .long 0⟩ ∧
      b.cell? Int64.maxValue = some ⟨.narrow .u8, .int 5⟩ ∧
      Chunk.int64.Overlaps (Int64.maxValue - 7) (.narrow .u8) Int64.maxValue) ∧
    b.load (.narrow .u8) Int64.maxValue = .int 5 ∧ (Value.mixed b.summary).normalize (.narrow .u8) = .num .int := by
  intro b
  have hb : b.Reachable fun _ => True := .store _ _ trivial (.store _ _ trivial (.ofSummary _))
  exact ⟨⟨hb, by decide, by decide, by decide⟩, by decide, by decide⟩

/-! ## What known cells point to -/

theorem Reachable.wellFormed {b : Block} (h : b.Reachable Value.Canonical) : b.WellFormed := by
  induction h with
  | ofSummary p => exact wellFormed_ofSummary p
  | store c ofs hv _ ih => exact ih.store c ofs hv
  | storeAnywhere prov _ _ => exact wellFormed_ofSummary _
  | invalidate ofs size prov _ ih => exact ih.invalidate ofs size prov
  | join _ _ iha ihb => exact iha.join ihb

/-- **A read of the summary covers every known cell.**  So a cell of a pointer's size points into the class of the
summary, and a smaller one into that class without its offset. -/
theorem cells_within_summary {b : Block} (h : b.Reachable Value.Canonical) {ofs : Int64} {x : Cell}
    (hx : b.cell? ofs = some x) :
    x.value.le ((Value.mixed b.summary).normalize x.chunk) = true ∧ x.value.provenance.le b.summary.widen = true ∧
      (x.chunk.size = 8 → x.value.provenance.le b.summary = true) := by
  have hle : x.value ≤ x.chunk.reads b.summary := (h.wellFormed ofs x hx).le_reads
  have hprov : x.value.provenance ≤ (x.chunk.reads b.summary).provenance := Value.provenance_mono hle
  rw [Value.le_eq_true, Value.normalize_mixed]
  refine ⟨hle, le_trans hprov (Value.provenance_reads_le _ _), fun hsize => ?_⟩
  exact le_trans hprov (Value.provenance_reads_le_of_size (by omega) _)

theorem cells_within_summary_framePointer :
    let b := ((ofSummary .bottom).store .int32 0 (.ptr (.stackAt 16))).store .int64 8 (.ptr (.stackAt 16))
    (b.cell? 0 = some ⟨.int32, .numOrPtr .anyStack⟩ ∧ b.cell? 8 = some ⟨.int64, .ptr (.stackAt 16)⟩ ∧
      b.summary = .stackAt 16) ∧
    (Value.numOrPtr .anyStack).le ((Value.mixed b.summary).normalize .int32) = true ∧
      Pointer.anyStack.le b.summary.widen = true ∧ (Pointer.stackAt 16).le b.summary = true := by
  intro b
  have hb : b.Reachable Value.Canonical := .store _ _ (by decide) (.store _ _ (by decide) (.ofSummary _))
  have hshort : b.cell? 0 = some ⟨.int32, .numOrPtr .anyStack⟩ := by decide
  have hwhole : b.cell? 8 = some ⟨.int64, .ptr (.stackAt 16)⟩ := by decide
  obtain ⟨hle, hwiden, -⟩ := cells_within_summary hb hshort
  exact ⟨⟨hshort, hwhole, by decide⟩, hle, hwiden, (cells_within_summary hb hwhole).2.2 rfl⟩

/-- Half a pointer reads back without its offset, which the summary still has. -/
theorem cell_beyond_summary :
    let b := (ofSummary .bottom).store .int32 0 (.ptr (.stackAt 0))
    b.Reachable Value.Canonical ∧ b.cell? 0 = some ⟨.int32, .numOrPtr .anyStack⟩ ∧
      (Value.numOrPtr .anyStack).provenance.le b.summary = false := by
  intro b
  exact ⟨.store _ _ (by decide) (.ofSummary _), by decide, by decide⟩

end Block
end ValueFlow
