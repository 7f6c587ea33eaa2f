import ValueFlow.Proofs.Update
import ValueFlow.Proofs.WeakUpdate
/-!
# Copies

A copy between exact locations takes the known cells of the source range, forgets every cell of the destination range,
and writes what it took there.  Cells of one block do not overlap, so no cell written forgets another one: what was a cell
at the source is the same cell at the destination, whether the ranges overlap or not.  All other bytes are left to the
destination's summary, which takes in the source's.

A cell counts as inside the source range by its end cut off at the last offset.  So a range that ends there takes along a
cell that runs past it, which is then written past the end of the destination range.
-/
namespace ValueFlow

/-! ## Ranges of bytes -/

theorem add_sub_offset (j k : Int64) : j + (k - j) = k := by rw [Int64.add_comm, Int64.sub_add_cancel]

theorem offset_add_sub (j rel : Int64) : j + rel - j = rel := by rw [Int64.add_comm, Int64.add_sub_cancel]

/-- **The `size` bytes from an offset end at an offset.** -/
def Fits (ofs : Int64) (size : Int) : Prop := ofs.toInt + size ≤ 9223372036854775807

instance (ofs : Int64) (size : Int) : Decidable (Fits ofs size) := inferInstanceAs (Decidable (_ ≤ _))

theorem Fits.toInt_add {ofs rel : Int64} {size : Int} (h : Fits ofs size) (hlow : 0 ≤ rel.toInt) (hhigh : rel.toInt < size) :
    (ofs + rel).toInt = ofs.toInt + rel.toInt := by
  have hmin := ofs.le_toInt
  unfold Fits at h
  rw [Int64.toInt_add]
  exact Int.bmod_eq_of_le (by omega) (by omega)

namespace Chunk

/-- The access at a distance lies within `size` bytes. -/
def Within (c : Chunk) (rel : Int64) (size : Int) : Prop := 0 ≤ rel.toInt ∧ rel.toInt + c.size ≤ size

instance (c : Chunk) (rel : Int64) (size : Int) : Decidable (c.Within rel size) := inferInstanceAs (Decidable (_ ∧ _))

/-- **Some byte of the access is among the `size` bytes from `ofs`.** -/
def Meets (c : Chunk) (k ofs : Int64) (size : Int) : Prop :=
  ∃ n : Int, (k.toInt ≤ n ∧ n < k.toInt + c.size) ∧ ofs.toInt ≤ n ∧ n < ofs.toInt + size

variable {c d : Chunk} {i j k rel : Int64} {size : Int}

theorem meets_iff (hsize : 0 < size) : c.Meets k i size ↔ k.toInt < i.toInt + size ∧ i.toInt < k.toInt + c.size := by
  have hc := c.size_pos
  constructor
  · rintro ⟨n, hk, hi⟩
    omega
  · rintro ⟨hk, hi⟩
    exact ⟨max k.toInt i.toInt, by omega, by omega⟩

theorem meets_congr (h : c.size = d.size) : c.Meets k i size ↔ d.Meets k i size := by
  unfold Meets
  rw [h]

theorem within_congr (h : c.size = d.size) : c.Within rel size ↔ d.Within rel size := by
  unfold Within
  rw [h]

theorem Within.toInt_add (h : c.Within rel size) (hi : Fits i size) : (i + rel).toInt = i.toInt + rel.toInt := by
  have hc := c.size_pos
  unfold Within at h
  exact hi.toInt_add h.1 (by omega)

end Chunk

namespace Block

/-! ## Writing cells one after the other -/

section
variable {b : Block} {ofs k : Int64} {x : Cell} {cells : List (Int64 × Cell)}

theorem summary_le_storeCells (b : Block) (ofs : Int64) (cells : List (Int64 × Cell)) :
    b.summary ≤ (b.storeCells ofs cells).summary := by
  induction cells generalizing b with
  | nil => exact le_rfl
  | cons e cells ih =>
    rcases storeCells_cons b ofs e cells with hs | hs <;> rw [hs]
    · exact ih b
    · have hstore : b.summary ≤ (b.store e.2.chunk (ofs + e.1) e.2.value).summary := Pointer.le_join_left _ _
      exact hstore.trans (ih _)

theorem storeCells_eq_some (h : (b.storeCells ofs cells).cell? k = some x) :
    b.cell? k = some x ∨ ∃ e ∈ cells, ofs + e.1 = k ∧ e.2.chunk = x.chunk := by
  induction cells generalizing b with
  | nil => exact .inl h
  | cons e cells ih =>
    have htail : ∀ {b : Block}, (b.storeCells ofs cells).cell? k = some x →
        b.cell? k = some x ∨ ∃ e' ∈ e :: cells, ofs + e'.1 = k ∧ e'.2.chunk = x.chunk := fun h =>
      (ih h).imp_right fun ⟨e', he', heq⟩ => ⟨e', List.mem_cons_of_mem _ he', heq⟩
    rcases storeCells_cons b ofs e cells with hs | hs <;> rw [hs] at h
    · exact htail h
    · rcases htail h with hb | he
      · rw [cell?_store] at hb
        split at hb
        · rename_i hk
          cases hb
          exact .inr ⟨e, List.mem_cons_self, hk, rfl⟩
        · exact .inl (invalidate_eq_some.1 hb).1
      · exact .inr he

theorem cell?_storeCells_of_apart (hx : b.cell? k = some x)
    (h : ∀ e ∈ cells, ¬ e.2.chunk.Overlaps (ofs + e.1) x.chunk k) : (b.storeCells ofs cells).cell? k = some x := by
  induction cells generalizing b with
  | nil => exact hx
  | cons e cells ih =>
    obtain ⟨he, hcells⟩ := List.forall_mem_cons.1 h
    rcases storeCells_cons b ofs e cells with hs | hs <;> rw [hs]
    · exact ih hx hcells
    · exact ih (cell?_store_of_apart _ hx he) hcells

theorem storeCells_cons_of_toInt {e : Int64 × Cell} (he : (ofs + e.1).toInt = ofs.toInt + e.1.toInt) :
    b.storeCells ofs (e :: cells) = (b.store e.2.chunk (ofs + e.1) e.2.value).storeCells ofs cells := by
  have hlow := (ofs + e.1).le_toInt
  have hhigh := (ofs + e.1).toInt_lt
  have hadvance : advanceOffset? ofs e.1 = some (ofs + e.1) := by
    refine if_pos ?_
    rw [← he, clampOffset]
    omega
  rw [storeCells, List.foldl_cons, hadvance]
  rfl

/-- **Cells that do not overlap are all there in the end.** -/
theorem cell?_storeCells_of_mem (hrange : ∀ e ∈ cells, (ofs + e.1).toInt = ofs.toInt + e.1.toInt)
    (hapart : cells.Pairwise fun e f => ¬ f.2.chunk.Overlaps (ofs + f.1) e.2.chunk (ofs + e.1)) {e : Int64 × Cell}
    (he : e ∈ cells) : (b.storeCells ofs cells).cell? (ofs + e.1) = some ⟨e.2.chunk, e.2.value.normalize e.2.chunk⟩ := by
  induction cells generalizing b with
  | nil => cases he
  | cons f cells ih =>
    obtain ⟨hf, hcells⟩ := List.forall_mem_cons.1 hrange
    obtain ⟨hfirst, hrest⟩ := List.pairwise_cons.1 hapart
    rw [storeCells_cons_of_toInt hf]
    rcases List.mem_cons.1 he with rfl | he
    · -- written first, and kept by all that is written after it
      refine cell?_storeCells_of_apart ?_ hfirst
      rw [cell?_store, if_pos rfl]
    · exact ih hcells hrest he

end

/-! ## The cells taken -/

section
variable {b src : Block} {i j k rel : Int64} {size : Int} {x : Cell} {e : Int64 × Cell}

theorem mem_cellsWithin :
    e ∈ src.cellsWithin j size ↔ src.cell? (j + e.1) = some e.2 ∧ e.2.inside (j + e.1) j size = true := by
  rw [cellsWithin, List.mem_map]
  constructor
  · rintro ⟨⟨k, x⟩, hmem, rfl⟩
    obtain ⟨hentry, hinside⟩ := List.mem_filter.1 hmem
    rw [add_sub_offset]
    exact ⟨Table.mem_entries_iff.1 hentry, hinside⟩
  · rintro ⟨hcell, hinside⟩
    refine ⟨(j + e.1, e.2), List.mem_filter.2 ⟨Table.mem_entries_iff.2 hcell, hinside⟩, ?_⟩
    rw [offset_add_sub]

theorem inside_iff : x.inside k j size = true ↔ j.toInt ≤ k.toInt ∧ k.toInt < clampOffset (j.toInt + size) ∧
    clampOffset (k.toInt + x.chunk.size) ≤ clampOffset (j.toInt + size) := by
  simp only [Cell.inside, Bool.and_eq_true, decide_eq_true_iff, and_assoc]

theorem toInt_of_inside (hsize : size ≤ 9223372036854775807) (h : x.inside (j + rel) j size = true) :
    (j + rel).toInt = j.toInt + rel.toInt ∧ 0 ≤ rel.toInt ∧ rel.toInt < size := by
  obtain ⟨hlow, hhigh, -⟩ := inside_iff.1 h
  have hj := j.le_toInt
  unfold clampOffset at hhigh
  have hrel : rel.toInt = (j + rel).toInt - j.toInt := by
    conv => lhs; rw [← offset_add_sub j rel]
    rw [Int64.toInt_sub]
    exact Int.bmod_eq_of_le (by omega) (by omega)
  omega

theorem inside_of_within (hj : Fits j size) (h : x.chunk.Within rel size) : x.inside (j + rel) j size = true := by
  have hadd := h.toInt_add hj
  have hx := x.chunk.size_pos
  have hlow := j.le_toInt
  unfold Chunk.Within at h
  unfold Fits at hj
  rw [inside_iff, clampOffset, clampOffset]
  omega

theorem pairwise_cellsWithin (hsrc : src.Apart) (hsize : size ≤ 9223372036854775807) (hi : Fits i size) :
    (src.cellsWithin j size).Pairwise fun e f => ¬ f.2.chunk.Overlaps (i + f.1) e.2.chunk (i + e.1) := by
  have hdistinct : (src.cellsWithin j size).Pairwise fun e f => j + e.1 ≠ j + f.1 := by
    refine List.pairwise_map.2 ((src.cells.ascending.filter _).imp fun {e f} hlt heq => ?_)
    rw [add_sub_offset, add_sub_offset] at heq
    rw [heq] at hlt
    exact absurd hlt (Int.lt_irrefl _)
  refine hdistinct.imp_of_mem fun {e f} he hf hne => ?_
  obtain ⟨hcell, hinside⟩ := mem_cellsWithin.1 he
  obtain ⟨hcell', hinside'⟩ := mem_cellsWithin.1 hf
  have hlast : ∀ {y : Cell} {rel : Int64}, y.inside (j + rel) j size = true → j + rel ≠ Int64.maxValue := by
    intro y rel hy hmax
    have := (inside_iff.1 hy).2.1
    rw [hmax, Int64.toInt_maxValue, clampOffset] at this
    omega
  have hapart := hsrc _ _ _ _ hcell' hcell (Ne.symm hne) (hlast hinside') (hlast hinside)
  have hplace : ∀ {y : Cell} {rel : Int64}, y.inside (j + rel) j size = true →
      (i + rel).toInt = (j + rel).toInt + (i.toInt - j.toInt) := by
    intro y rel hy
    obtain ⟨hadd, hlow, hhigh⟩ := toInt_of_inside hsize hy
    rw [hadd, hi.toInt_add hlow hhigh]
    omega
  rw [Chunk.overlaps_iff] at hapart ⊢
  rw [hplace hinside, hplace hinside']
  omega

/-! ## A block after a copy -/

/-- A block after `size` bytes at `j` of another were copied to its offset `i`. -/
def receive (b src : Block) (i j : Int64) (size : Int) : Block :=
  (b.invalidate i size src.summary).storeCells i (src.cellsWithin j size)

theorem cell?_invalidate_within (hi : Fits i size) (prov : Pointer) (h : x.chunk.Within rel size) :
    (b.invalidate i size prov).cell? (i + rel) ≠ some x := by
  intro hx
  have htouches : x.touches (i + rel) i size = true := by
    have hadd := h.toInt_add hi
    have hsize := x.chunk.size_pos
    have hlow := i.le_toInt
    unfold Chunk.Within at h
    unfold Fits at hi
    rw [Cell.touches_iff, clampOffset, clampOffset]
    omega
  exact Bool.false_ne_true ((invalidate_eq_some.1 hx).2.symm.trans htouches)

theorem load_invalidate_within (b : Block) (hi : Fits i size) (prov : Pointer) {c : Chunk} (h : c.Within rel size) :
    (b.invalidate i size prov).load c (i + rel) = c.reads (b.summary.join prov) := by
  rcases (b.invalidate i size prov).load_cases c (i + rel) with ⟨x, hx, hsize, -⟩ | hl
  · exact absurd hx (cell?_invalidate_within hi prov ((Chunk.within_congr hsize).2 h))
  · exact hl

variable (b) in
/-- **A cell of the source is the same cell at the destination.** -/
theorem cell?_receive (hwf : src.WellFormed) (hsrc : src.Apart) (hsize : size ≤ 9223372036854775807) (hi : Fits i size)
    (hj : Fits j size) (hx : src.cell? (j + rel) = some x) (h : x.chunk.Within rel size) :
    (b.receive src i j size).cell? (i + rel) = some x := by
  have hmem : (rel, x) ∈ src.cellsWithin j size := mem_cellsWithin.2 ⟨hx, inside_of_within hj h⟩
  have hrange : ∀ e ∈ src.cellsWithin j size, (i + e.1).toInt = i.toInt + e.1.toInt := by
    intro e he
    obtain ⟨-, hlow, hhigh⟩ := toInt_of_inside hsize (mem_cellsWithin.1 he).2
    exact hi.toInt_add hlow hhigh
  have hcell := cell?_storeCells_of_mem (b := b.invalidate i size src.summary) hrange
    (pairwise_cellsWithin hsrc hsize hi) hmem
  -- a known cell reads back as itself, so writing it again changes nothing
  rwa [(hwf _ _ hx).fixed] at hcell

theorem load_receive_of_cell (hwf : src.WellFormed) (hsrc : src.Apart) (hsize : size ≤ 9223372036854775807) (hi : Fits i size)
    (hj : Fits j size) {c : Chunk} (hx : src.cell? (j + rel) = some x) (hc : x.chunk.size = c.size) (h : c.Within rel size) :
    (b.receive src i j size).load c (i + rel) = src.load c (j + rel) := by
  have hx' : (b.receive src i j size).cell? (i + rel) = some x :=
    b.cell?_receive hwf hsrc hsize hi hj hx ((Chunk.within_congr hc).2 h)
  rw [load_of_cell hx hc, load_of_cell hx' hc]

/-- **A read of copied bytes covers the read of the bytes they were copied from.** -/
theorem load_le_receive (hwf : src.WellFormed) (hsrc : src.Apart) (hsize : size ≤ 9223372036854775807) (hi : Fits i size)
    (hj : Fits j size) {c : Chunk} (h : c.Within rel size) :
    src.load c (j + rel) ≤ (b.receive src i j size).load c (i + rel) := by
  by_cases hknown : ∃ x, src.cell? (j + rel) = some x ∧ x.chunk.size = c.size
  · obtain ⟨x, hx, hc⟩ := hknown
    rw [load_receive_of_cell hwf hsrc hsize hi hj hx hc h]
    exact Value.le_refl (hwf.canonical_load c _)
  -- no cell of this size at the source, so none at the destination, and the summary answers
  have hforgot : src.summary ≤ (b.invalidate i size src.summary).summary := Pointer.le_join_right _ _
  have hsummary : src.summary ≤ (b.receive src i j size).summary := hforgot.trans (summary_le_storeCells _ i _)
  rcases (b.receive src i j size).load_cases c (i + rel) with ⟨y, hy, hc, -⟩ | hl
  · rcases storeCells_eq_some hy with hold | ⟨e, he, hrel, hchunk⟩
    · exact absurd hold (cell?_invalidate_within hi _ ((Chunk.within_congr hc).2 h))
    · rw [Int64.add_right_inj] at hrel
      subst hrel
      exact absurd ⟨e.2, (mem_cellsWithin.1 he).1, hchunk ▸ hc⟩ hknown
  · rw [hl]
    exact Value.lattice.trans (hwf.canonical_load c _) (Value.canonical_reads c _) (Value.canonical_reads c _)
      (hwf.load_le_reads c _) (Value.reads_mono c hsummary)

/-- A cell taken lies inside the range, unless the range ends at the last offset and the cell runs past it. -/
theorem end_of_inside (hj : Fits j size) (hend : Fits j (size + 1) ∨ Fits k x.chunk.size)
    (h : x.inside k j size = true) : k.toInt + x.chunk.size ≤ j.toInt + size := by
  obtain ⟨hlow, hhigh, hcut⟩ := inside_iff.1 h
  have hx := x.chunk.size_pos
  have hjmin := j.le_toInt
  unfold Fits at hj hend
  unfold clampOffset at hhigh hcut
  omega

/-- **A copy leaves alone every cell that has no byte in the destination range**, if what it takes lies inside the source
range. -/
theorem cell?_receive_of_apart (hpos : 0 < size) (hsize : size ≤ 9223372036854775807) (hi : Fits i size) (hj : Fits j size)
    (hend : Fits j (size + 1) ∨ ∀ k y, src.cell? k = some y → Fits k y.chunk.size) (hx : b.cell? k = some x)
    (h : ¬ x.chunk.Meets k i size) : (b.receive src i j size).cell? k = some x := by
  have hkmin := k.le_toInt
  have himin := i.le_toInt
  rw [Chunk.meets_iff hpos] at h
  refine cell?_storeCells_of_apart (invalidate_eq_some.2 ⟨hx, ?_⟩) fun e he => ?_
  · rw [Bool.eq_false_iff, ne_eq, Cell.touches_iff, clampOffset, clampOffset]
    have hx := x.chunk.size_pos
    omega
  · obtain ⟨hcell, hinside⟩ := mem_cellsWithin.1 he
    obtain ⟨hadd, hlow, hhigh⟩ := toInt_of_inside hsize hinside
    have hlast := end_of_inside hj (hend.imp_right fun hall => hall _ _ hcell) hinside
    rw [Chunk.overlaps_iff, hi.toInt_add hlow hhigh]
    omega

end

/-! ## Blocks that occur -/

theorem Reachable.storeCells {b : Block} (h : b.Reachable fun _ => True) (ofs : Int64) (cells : List (Int64 × Cell)) :
    (b.storeCells ofs cells).Reachable fun _ => True := by
  induction cells generalizing b with
  | nil => exact h
  | cons e cells ih =>
    rcases storeCells_cons b ofs e cells with hs | hs <;> rw [hs]
    · exact ih h
    · exact ih (.store _ _ trivial h)

end Block

theorem Global.reachable_layOut (floats : Bool) : ∀ (items : List InitItem) {b : Block} (ofs : Int),
    b.Reachable (fun _ => True) → (layOut floats b ofs items).Reachable fun _ => True
  | [], _, _, hb => hb
  | i :: items, b, ofs, hb => by
    rw [layOut]
    cases i.cell? floats with
    | none => exact reachable_layOut floats items _ hb
    | some c => exact reachable_layOut floats items _ (.store _ _ trivial hb)

namespace Memory
open Value

/-- **Every block of the memory comes about from writes and joins.** -/
structure Built (m : Memory) : Prop where
  frame : m.frame.Reachable fun _ => True
  globals : ∀ s b, m.globals.get? s = some b → b.Reachable fun _ => True

theorem built_ofSummary (p q r : Pointer) : Built ⟨.ofSummary p, .empty, q, r⟩ where
  frame := .ofSummary p
  globals _ _ hb := by cases hb

theorem Built.writtenGlobal {m : Memory} (h : m.Built) (s : Symbol) : (m.writtenGlobal s).Reachable fun _ => True := by
  rw [Memory.writtenGlobal]
  cases hs : m.globals.get? s with
  | none => exact .ofSummary _
  | some b => exact h.globals s b hs

theorem Built.insert_global {m : Memory} (h : m.Built) {s : Symbol} {b : Block} (hb : b.Reachable fun _ => True)
    (t : Symbol) (c : Block) (hc : (m.globals.insert s b).get? t = some c) : c.Reachable fun _ => True := by
  rw [Table.get?_insert] at hc
  split at hc
  · cases hc
    exact hb
  · exact h.globals t c hc

theorem Built.write {m : Memory} (h : m.Built) (addr prov : Pointer) {update : Block → Int64 → Block}
    (hupdate : ∀ b ofs, b.Reachable (fun _ => True) → (update b ofs).Reachable fun _ => True) :
    (m.write addr prov update).Built := by
  have hforgotten : ∀ s b, (Table.empty : Table Symbol Block).get? s = some b → b.Reachable fun _ => True :=
    fun _ _ hb => by cases hb
  cases addr with
  | bottom => exact h
  | stackAt ofs => exact ⟨hupdate _ ofs h.frame, h.globals⟩
  | anyStack => exact ⟨.storeAnywhere _ h.frame, h.globals⟩
  | globalAt s ofs => exact ⟨h.frame, h.insert_global (hupdate _ ofs (h.writtenGlobal s))⟩
  | anyOffsetOf s => exact ⟨h.frame, h.insert_global (.storeAnywhere _ (h.writtenGlobal s))⟩
  | anyGlobal | nonStack => exact ⟨h.frame, hforgotten⟩
  | top => exact ⟨.storeAnywhere _ h.frame, hforgotten⟩

theorem Reachable.built {m : Memory} (h : m.Reachable) : m.Built := by
  induction h with
  | entry => exact built_ofSummary _ _ _
  | top => exact built_ofSummary _ _ _
  | store c addr hv _ ih => exact ih.write addr _ fun _ ofs hb => .store c ofs trivial hb
  | storeBytes addr size prov _ ih => exact ih.write addr prov fun _ ofs hb => .invalidate ofs size prov hb
  | copy hro dst src size _ ih =>
    exact ih.write dst _ fun _ ofs hb => Block.Reachable.storeCells (.invalidate ofs size _ hb) ofs _
  | join _ _ iha ihb =>
    refine ⟨.join iha.frame ihb.frame, fun s c hc => ?_⟩
    obtain ⟨x, y, hx, hy, rfl⟩ := join_eq_some hc
    exact .join (iha.globals s x hx) (ihb.globals s y hy)
  | afterCall kind _ ih =>
    cases kind with
    | confined => exact ⟨ih.frame, fun _ _ hb => by cases hb⟩
    | exposed => exact built_ofSummary _ _ _

theorem Reachable.block_apart {floats : Bool} {globals : List Global} {ro : ReadOnly}
    (hro : ReadOnly.ofGlobals floats globals = .ok ro) {m : Memory} (hm : m.Reachable) (r : Region) : (m.block ro r).Apart := by
  cases r with
  | frame => exact hm.built.frame.apart
  | global s =>
    show (m.visible ro s).Apart
    cases hs : m.globals.get? s with
    | some b => exact visible_of_tracked hs ▸ (hm.built.globals s b hs).apart
    | none =>
      rw [visible_of_untracked hs]
      cases hr : ro.get? s with
      | none => exact Block.apart_ofSummary _
      | some b =>
        obtain ⟨g, -, -, -, rfl⟩ := (ReadOnly.get?_ofGlobals hro).1 hr
        exact (Global.reachable_layOut floats g.init 0 (.ofSummary _)).apart

/-! ## Copying between regions -/

variable {m : Memory} {ro : ReadOnly}

theorem block_write_addr (m : Memory) (ro : ReadOnly) (r : Region) (i : Int64) (prov : Pointer)
    (update : Block → Int64 → Block) :
    (m.write (r.addr i) prov update).block ro r = update (m.block .empty r) i := by
  cases r with
  | frame => rfl
  | global s =>
    refine (visible_of_tracked (Table.get?_insert_self _ _ _)).trans ?_
    rw [writtenGlobal_eq]
    rfl

theorem cell?_addr (m : Memory) (r : Region) (k : Int64) : m.cell? (r.addr k) = (m.block .empty r).cell? k := by
  cases r with
  | frame => rfl
  | global s =>
    show (m.globals.get? s).bind (·.cell? k) = (m.visible .empty s).cell? k
    rw [← writtenGlobal_eq, writtenGlobal]
    cases m.globals.get? s <;> rfl

theorem cellsAt_addr (m : Memory) (ro : ReadOnly) (t : Region) (j : Int64) (size : Int) :
    m.cellsAt ro (t.addr j) size = (m.block ro t).cellsWithin j size := by
  cases t with
  | frame => rfl
  | global s =>
    show ((m.global? ro s).map (·.cellsWithin j size)).getD [] = (m.visible ro s).cellsWithin j size
    rw [visible]
    cases m.global? ro s <;> rfl

theorem cellsAt_of_inexact (m : Memory) (ro : ReadOnly) {src : Pointer} (h : src.isExact = false) (size : Int) :
    m.cellsAt ro src size = [] := by
  cases src with
  | stackAt | globalAt => cases h
  | _ => rfl

theorem block_copy (m : Memory) (ro : ReadOnly) (r t : Region) (i j : Int64) (size : Int) :
    (m.copy ro (r.addr i) (t.addr j) size).block ro r = (m.block .empty r).receive (m.block ro t) i j size := by
  rw [copy, block_write_addr, cellsAt_addr, loadBytes_addr, Block.receive]

theorem block_copy_of_inexact (m : Memory) (ro : ReadOnly) (r : Region) (i : Int64) {src : Pointer}
    (h : src.isExact = false) (size : Int) :
    (m.copy ro (r.addr i) src size).block ro r = (m.block .empty r).invalidate i size (m.loadBytes ro src) := by
  rw [copy, block_write_addr, cellsAt_of_inexact m ro h]
  rfl

theorem WellFormed.loadBytes_mono (h : m.WellFormed) (hro : ro.WellFormed) {p q : Pointer} (hpq : p ≤ q) :
    m.loadBytes ro p ≤ m.loadBytes ro q := by
  have hglobal : ∀ s ofs, m.loadBytes ro (.globalAt s ofs) = (m.visible ro s).summary := fun s => m.loadBytes_addr ro (.global s)
  by_cases hp : p = .bottom
  · rw [hp]
    exact Pointer.bottom_le _
  refine Pointer.le_induction (R := fun p q => m.loadBytes ro p ≤ m.loadBytes ro q) (fun p => le_rfl) le_trans
    (fun hup => ?_) hp hpq
  cases hup with
  | stackAt | anyGlobal => exact le_rfl
  | anyStack => exact h.frame_le
  | globalAt s ofs => exact le_rfl
  | anyOffsetOf s => exact (hglobal s 0).le.trans (h.visible hro s).2
  | nonStack => exact h.outside_le

/-- **A read at a location is within the bytes that the classes above it hold.** -/
theorem WellFormed.load_le_bytes (h : m.WellFormed) (hro : ro.WellFormed) (c : Chunk) {t : Region} {j : Int64} {p q : Pointer}
    (hsrc : t.addr j ≤ p) (hq : m.loadBytes ro p ≤ q) : m.load ro c (t.addr j) ≤ c.reads q := by
  have hbytes : (m.block ro t).summary ≤ q := m.loadBytes_addr ro t j ▸ (h.loadBytes_mono hro hsrc).trans hq
  have hblock := h.block hro t
  rw [load_addr]
  exact Value.lattice.trans (hblock.canonical_load c j) (canonical_reads c _) (canonical_reads c _)
    (hblock.load_le_reads c j) (reads_mono c hbytes)

/-- **A copy carries the contents of the source to the destination and leaves the rest alone.**  Between exact locations,
the ranges overlapping or not, a read of copied bytes covers the read of the bytes they came from and is that read where
the source knows a cell; cells without a byte in the destination range read as before, if what is taken ends inside the
source range.  From or to a class of locations, every location that may have been written covers every one that may have
been read. -/
theorem copy_covers {floats : Bool} {globals : List Global} {ro : ReadOnly}
    (hro : ReadOnly.ofGlobals floats globals = .ok ro) {m : Memory} (hm : m.Reachable) (size : Int64)
    (hsize : 0 < size.toInt) :
    (∀ (r t : Region) (i j : Int64), Fits i size.toInt → Fits j size.toInt →
      let m' := m.copy ro (r.addr i) (t.addr j) size.toInt
      (∀ (c : Chunk) (rel : Int64), c.Within rel size.toInt →
        (m.load ro c (t.addr (j + rel))).le (m'.load ro c (r.addr (i + rel))) = true ∧
        ∀ x : Cell, (m.block ro t).cell? (j + rel) = some x → x.chunk.size = c.size →
          m'.load ro c (r.addr (i + rel)) = m.load ro c (t.addr (j + rel))) ∧
      ((Fits j (size.toInt + 1) ∨ ∀ (k : Int64) (y : Cell), (m.block ro t).cell? k = some y → Fits k y.chunk.size) →
        ∀ (d : Chunk) (k : Int64) (x : Cell), m.cell? (r.addr k) = some x → x.chunk.size = d.size →
          ¬ d.Meets k i size.toInt → m'.load ro d (r.addr k) = m.load ro d (r.addr k))) ∧
    (∀ (r : Region) (i : Int64) (src : Pointer), Fits i size.toInt → src.isExact = false →
      let m' := m.copy ro (r.addr i) src size.toInt
      ∀ (c : Chunk) (rel : Int64), c.Within rel size.toInt → ∀ (t : Region) (j : Int64), (t.addr j).le src = true →
        (m.load ro c (t.addr j)).le (m'.load ro c (r.addr (i + rel))) = true) ∧
    ∀ dst src : Pointer, dst.isExact = false →
      let m' := m.copy ro dst src size.toInt
      ∀ (c : Chunk) (t : Region) (j : Int64) (r : Region) (i : Int64), (t.addr j).le src = true → (r.addr i).le dst = true →
        r.isFixed ro = false → (m.load ro c (t.addr j)).le (m'.load ro c (r.addr i)) = true := by
  have hapart := hm.block_apart hro
  have hro := ReadOnly.wellFormed_ofGlobals hro
  have hwf := hm.wellFormed
  have hmax : size.toInt ≤ 9223372036854775807 := by
    have := size.toInt_lt
    omega
  simp only [Value.le_eq_true]
  refine ⟨fun r t i j hi hj => ⟨fun c rel hrel => ?_, fun hend d k x hx hd hmeets => ?_⟩,
    fun r i src hi hsrc c rel hrel t j hle => ?_, fun dst src hdst c t j r i hle hr hfix => ?_⟩
  · simp only [load_addr, block_copy]
    have hblock := hwf.block hro t
    exact ⟨Block.load_le_receive hblock (hapart t) hmax hi hj hrel,
      fun x hx hc => Block.load_receive_of_cell hblock (hapart t) hmax hi hj hx hc hrel⟩
  · rw [Chunk.meets_congr hd.symm] at hmeets
    have hkept : (m.block .empty r).cell? k = some x := m.cell?_addr r k ▸ hx
    have hkept := Block.cell?_receive_of_apart hsize hmax hi hj hend hkept hmeets
    rw [load_of_cell? ro hx hd, load_addr, block_copy, Block.load_of_cell hkept hd]
  · rw [load_addr (m.copy _ _ _ _), block_copy_of_inexact m ro r i hsrc, Block.load_invalidate_within _ hi _ hrel]
    exact hwf.load_le_bytes hro c hle (Pointer.le_join_right _ _)
  · obtain ⟨q, hq, hblock⟩ := m.block_write_weak (m.loadBytes ro src) (fun b ofs =>
      (b.invalidate ofs size.toInt (m.loadBytes ro src)).storeCells ofs (m.cellsAt ro src size.toInt)) hdst hr hfix
    have hblock : (m.copy ro dst src size.toInt).block ro r = .ofSummary q := hblock
    rw [load_addr (m.copy _ _ _ _), hblock, Block.load_ofSummary]
    exact hwf.load_le_bytes hro c hle hq

/-- Two cells moved up by half their length: the ranges overlap, and the cell beyond them stays. -/
theorem copy_covers_overlapping :
    let m := ((entry.store .int32 (.stackAt 0) (.int 1)).store .int32 (.stackAt 4) (.ptr (.stackAt 8))).store .int64
      (.stackAt 16) (.long 3)
    let m' := m.copy .empty (.stackAt 4) (.stackAt 0) 8
    ((m.block .empty .frame).cell? 0 = some ⟨.int32, .int 1⟩ ∧ m.cell? (.stackAt 16) = some ⟨.int64, .long 3⟩) ∧
      m'.load .empty .int32 (.stackAt 4) = .int 1 ∧ m'.load .empty .int32 (.stackAt 8) = .numOrPtr .anyStack ∧
      m'.load .empty .int64 (.stackAt 16) = .long 3 ∧
      (m.load .empty .int64 (.stackAt 16)).le ((m.copy .empty (.stackAt 0) .anyStack 8).load .empty .int64 (.stackAt 0)) =
        true ∧
      (m.load .empty .int32 (.stackAt 0)).le ((m.copy .empty .anyStack (.stackAt 0) 8).load .empty .int32 (.stackAt 16)) =
        true := by
  intro m m'
  have hro : ReadOnly.ofGlobals true [] = .ok .empty := rfl
  have hm : m.Reachable := .store _ _ (by decide) (.store _ _ (by decide) (.store _ _ (by decide) .entry))
  have hfirst : (m.block .empty .frame).cell? 0 = some ⟨.int32, .int 1⟩ := by decide
  have hsecond : (m.block .empty .frame).cell? 4 = some ⟨.int32, .numOrPtr .anyStack⟩ := by decide
  have hbeyond : m.cell? (.stackAt 16) = some ⟨.int64, .long 3⟩ := by decide
  have hapart : ¬ Chunk.int64.Meets 16 4 8 := by
    rw [Chunk.meets_iff (by decide)]
    decide
  obtain ⟨hexact, hfrom, hto⟩ := copy_covers hro hm 8 (by decide)
  obtain ⟨hmoved, hkept⟩ := hexact .frame .frame 4 0 (by decide) (by decide)
  refine ⟨⟨hfirst, hbeyond⟩, ?_, ?_, ?_, ?_, ?_⟩
  · exact ((hmoved .int32 0 (by decide)).2 _ hfirst rfl).trans (by decide)
  · exact ((hmoved .int32 4 (by decide)).2 _ hsecond rfl).trans (by decide)
  · exact (hkept (.inl (by decide)) .int64 16 _ hbeyond rfl hapart).trans (by decide)
  · exact hfrom .frame 0 .anyStack (by decide) rfl .int64 0 (by decide) .frame 16 (by decide)
  · exact hto .anyStack (.stackAt 0) rfl .int32 .frame 0 .frame 16 (by decide) (by decide) rfl

/-- A source range that ends at the last offset takes along a cell that runs past it: four bytes are copied, and a cell
behind them is forgotten. -/
theorem copy_forgets_beyond_range :
    let m := (entry.store .int64 (.stackAt (Int64.maxValue - 3)) (.long 7)).store .int32 (.stackAt 4) (.int 5)
    let m' := m.copy .empty (.stackAt 0) (.stackAt (Int64.maxValue - 4)) 4
    (m.Reachable ∧ Fits 0 4 ∧ Fits (Int64.maxValue - 4) 4 ∧ m.cell? (.stackAt 4) = some ⟨.int32, .int 5⟩ ∧
      ¬ Chunk.int32.Meets 4 0 4) ∧
    m.load .empty .int32 (.stackAt 4) = .int 5 ∧ m'.load .empty .int32 (.stackAt 4) = .num .int := by
  intro m m'
  have hm : m.Reachable := .store _ _ (by decide) (.store _ _ (by decide) .entry)
  have hmeets : ¬ Chunk.int32.Meets 4 0 4 := by
    rw [Chunk.meets_iff (by decide)]
    decide
  exact ⟨⟨hm, by decide, by decide, by decide, hmeets⟩, by decide, by decide⟩

end Memory
end ValueFlow
