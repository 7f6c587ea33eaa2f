import ValueFlow.Proofs.Layout
import ValueFlow.Proofs.Memory
/-!
# Stores to exact locations

A store to an exact location is seen whole there and leaves every cell alone with which it shares no byte, in its own
block and in all others.  Joining another memory afterwards may lose the cell, but not what was stored: what answers
instead, a summary, covers it.  The exception is a read-only global that only one side tracks, which the join leaves to
its initializer.
-/
namespace ValueFlow

/-- **Accesses at two exact locations share a byte**: they are in one block and overlap there. -/
def Pointer.Overlaps (a : Pointer) (c : Chunk) (b : Pointer) (d : Chunk) : Prop :=
  match a, b with
  | stackAt i, stackAt j       => c.Overlaps i d j
  | globalAt s i, globalAt t j => s = t ∧ c.Overlaps i d j
  | _, _                       => False

theorem Pointer.overlaps_congr {a b : Pointer} {c d d' : Chunk} (h : d.size = d'.size) :
    a.Overlaps c b d ↔ a.Overlaps c b d' := by
  unfold Overlaps
  split
  · exact Chunk.overlaps_congr h
  · exact and_congr_right fun _ => Chunk.overlaps_congr h
  · exact Iff.rfl

namespace Memory

/-- The cell that the frame or a tracked global knows at an exact location.  Initializers are not looked at. -/
def cell? (m : Memory) : Pointer → Option Cell
  | .stackAt ofs    => m.frame.cell? ofs
  | .globalAt s ofs => (m.globals.get? s).bind (·.cell? ofs)
  | _               => none

variable {m : Memory} {a b : Pointer} {c d : Chunk} {x : Cell}

theorem load_of_cell? (ro : ReadOnly) (hx : m.cell? b = some x) (hsize : x.chunk.size = d.size) :
    m.load ro d b = x.value.normalize d := by
  cases b with
  | stackAt ofs => exact Block.load_of_cell hx hsize
  | globalAt s ofs =>
    obtain ⟨block, hblock, hx⟩ := Option.bind_eq_some_iff.1 hx
    rw [load_globalAt, visible_of_tracked hblock]
    exact Block.load_of_cell hx hsize
  | _ => cases hx

theorem cell?_store_self (m : Memory) (ha : a.isExact = true) (c : Chunk) (v : Value) :
    (m.store c a v).cell? a = some ⟨c, v.normalize c⟩ := by
  have hblock : ∀ (b : Block) (ofs : Int64), (b.store c ofs v).cell? ofs = some ⟨c, v.normalize c⟩ := fun b ofs => by
    rw [Block.cell?_store, if_pos rfl]
  cases a with
  | stackAt ofs => exact hblock m.frame ofs
  | globalAt s ofs =>
    show ((m.globals.insert s ((m.writtenGlobal s).store c ofs v)).get? s).bind (·.cell? ofs) = _
    rw [Table.get?_insert_self]
    exact hblock (m.writtenGlobal s) ofs
  | _ => cases ha

theorem cell?_store_of_apart (ha : a.isExact = true) (v : Value) (hx : m.cell? b = some x)
    (h : ¬ a.Overlaps c b x.chunk) : (m.store c a v).cell? b = some x := by
  cases a with
  | stackAt i =>
    cases b with
    | stackAt j => exact Block.cell?_store_of_apart v hx h
    | globalAt t j => exact hx
    | _ => cases hx
  | globalAt s i =>
    cases b with
    | stackAt j => exact hx
    | globalAt t j =>
      show ((m.globals.insert s ((m.writtenGlobal s).store c i v)).get? t).bind (·.cell? j) = some x
      obtain ⟨block, hblock, hcell⟩ := Option.bind_eq_some_iff.1 hx
      by_cases hst : s = t
      · subst hst
        -- the global holds a cell, so it is tracked and the store goes into the block that holds it
        rw [Table.get?_insert_self, writtenGlobal, hblock]
        exact Block.cell?_store_of_apart v hcell fun hov => h ⟨rfl, hov⟩
      · rw [Table.get?_insert, if_neg hst]
        exact hx
    | _ => cases hx
  | _ => cases ha

/-- **A store to an exact location replaces what it covers and nothing else.**  A read of the same bytes sees the value
as both chunks read it; a read of any other cell that was known sees what it saw before. -/
theorem store_exact (m : Memory) (ro : ReadOnly) {a : Pointer} (ha : a.isExact = true) (c : Chunk) (v : Value) :
    (∀ c' : Chunk, c'.size = c.size → (m.store c a v).load ro c' a = (v.normalize c).normalize c') ∧
      ∀ (b : Pointer) (d : Chunk) (x : Cell), ¬ a.Overlaps c b d → m.cell? b = some x → x.chunk.size = d.size →
        (m.store c a v).load ro d b = m.load ro d b := by
  constructor
  · intro c' hsize
    exact load_of_cell? ro (m.cell?_store_self ha c v) hsize.symm
  · intro b d x hapart hx hsize
    have hkept : (m.store c a v).cell? b = some x :=
      cell?_store_of_apart ha v hx fun hov => hapart ((Pointer.overlaps_congr hsize).1 hov)
    rw [load_of_cell? ro hkept hsize, load_of_cell? ro hx hsize]

/-- Offsets do not wrap: a store at the last offset is apart from a cell at the first. -/
theorem store_exact_limits :
    let m := entry.store .int32 (.stackAt Int64.minValue) (.int 1)
    let m' := m.store .int64 (.stackAt Int64.maxValue) (.long 3)
    (m.cell? (.stackAt Int64.minValue) = some ⟨.int32, .int 1⟩ ∧
      ¬ Pointer.Overlaps (.stackAt Int64.maxValue) .int64 (.stackAt Int64.minValue) .int32) ∧
    m'.load .empty .any64 (.stackAt Int64.maxValue) = .long 3 ∧
      m'.load .empty .int32 (.stackAt Int64.minValue) = .int 1 := by
  intro m m'
  have hcell : m.cell? (.stackAt Int64.minValue) = some ⟨.int32, .int 1⟩ := by decide
  have hapart : ¬ Pointer.Overlaps (.stackAt Int64.maxValue) .int64 (.stackAt Int64.minValue) .int32 := by
    show ¬ Chunk.int64.Overlaps Int64.maxValue .int32 Int64.minValue
    decide
  obtain ⟨hhit, hframe⟩ := m.store_exact .empty (a := .stackAt Int64.maxValue) rfl .int64 (.long 3)
  refine ⟨⟨hcell, hapart⟩, hhit .any64 rfl, ?_⟩
  rw [hframe (.stackAt Int64.minValue) .int32 _ hapart hcell rfl]
  decide

/-! ## Stores and joins -/

theorem load_mono_exact {m m' : Memory} {ro : ReadOnly} (hm : m.WellFormed) (hm' : m'.WellFormed) (hro : ro.WellFormed)
    (h : m ≤ m') (c : Chunk) {a : Pointer} (ha : a.isExact = true)
    (htracked : ∀ s ofs, a = .globalAt s ofs → ro.get? s = none ∨ m'.globals.contains s = true) :
    m.load ro c a ≤ m'.load ro c a := by
  cases a with
  | stackAt ofs => exact Block.load_mono hm.frame hm'.frame (le_iff.1 h).frame c ofs
  | globalAt s ofs =>
    rw [load_globalAt, load_globalAt]
    refine Block.load_mono (hm.visible hro s).1 (hm'.visible hro s).1 (visible_mono_at hm hro h fun r hnone hr => ?_) c ofs
    rcases htracked s ofs rfl with hro | htracked
    · cases hro.symm.trans hr
    · rw [Table.contains, hnone] at htracked
      cases htracked
  | _ => cases ha

theorem tracks_store (m : Memory) (c : Chunk) (s : Symbol) (ofs : Int64) (v : Value) :
    (m.store c (.globalAt s ofs) v).globals.contains s = true := by
  show ((m.globals.insert s _).get? s).isSome = true
  rw [Table.get?_insert_self]
  rfl

theorem tracks_join {m m' : Memory} {s : Symbol} (h : m.globals.contains s = true) (h' : m'.globals.contains s = true) :
    (m.join m').globals.contains s = true := by
  obtain ⟨x, hx⟩ := Option.isSome_iff_exists.1 h
  obtain ⟨y, hy⟩ := Option.isSome_iff_exists.1 h'
  rw [Table.contains, globals_join, hx, hy]
  rfl

/-- **A join loses no store**, on either side, unless it leaves the stored global to its initializer: a read-only global
has to be tracked by the other memory too. -/
theorem join_keeps_store {floats : Bool} {globals : List Global} {ro : ReadOnly}
    (hro : ReadOnly.ofGlobals floats globals = .ok ro) {m₁ m₂ : Memory} (h₁ : m₁.Reachable) (h₂ : m₂.Reachable) (c : Chunk)
    {a : Pointer} (ha : a.isExact = true) {v : Value} (hv : v.Canonical)
    (htracked : ∀ s ofs, a = .globalAt s ofs → ro.get? s = none ∨ m₂.globals.contains s = true) :
    let m := m₁.store c a v
    (v.normalize c).le ((m.join m₂).load ro c a) = true ∧ (v.normalize c).le ((m₂.join m).load ro c a) = true := by
  intro m
  have hro := ReadOnly.wellFormed_ofGlobals hro
  have hm : m.WellFormed := h₁.wellFormed.store c a hv
  have hm₂ : m₂.WellFormed := h₂.wellFormed
  have hstored : m.load ro c a = v.normalize c := by
    rw [load_of_cell? ro (m₁.cell?_store_self ha c v) rfl, Value.normalize_normalize hv]
  have hcovers : m.load ro c a ≤ (m.join m₂).load ro c a := by
    refine load_mono_exact hm (hm.join hm₂) hro (lattice.le_join_left hm hm₂) c ha fun s ofs hs => ?_
    subst hs
    exact (htracked s ofs rfl).imp_right (tracks_join (m₁.tracks_store c s ofs v))
  rw [hstored, ← Value.le_eq_true] at hcovers
  rw [lattice.comm hm₂ hm]
  exact ⟨hcovers, hcovers⟩

theorem join_keeps_store_bothTracked :
    let table : Global := ⟨⟨1⟩, "table", true, false, [.int32 5]⟩
    let ro : ReadOnly := Table.empty.insert ⟨1⟩ (table.contents true)
    let m := entry.store .int32 (.globalAt ⟨1⟩ 0) (.int 7)
    let m₂ := entry.store .int32 (.globalAt ⟨1⟩ 0) (.int 9)
    ReadOnly.ofGlobals true [table] = .ok ro ∧ m₂.globals.contains ⟨1⟩ = true ∧
      (m.join m₂).load ro .int32 (.globalAt ⟨1⟩ 0) = .num .int ∧ (Value.int 7).le (.num .int) = true := by
  intro table ro m m₂
  have hro : ReadOnly.ofGlobals true [table] = .ok ro := rfl
  have htracked : m₂.globals.contains ⟨1⟩ = true := by decide
  have hm₂ : m₂.Reachable := .store _ _ (by decide) .entry
  have h := join_keeps_store hro .entry hm₂ .int32 (a := .globalAt ⟨1⟩ 0) rfl (v := .int 7) (by decide) fun s ofs hs => by
    cases hs
    exact .inr htracked
  exact ⟨hro, htracked, by decide, h.1⟩

/-- A read-only global that one side alone has written reads as its initializer after the join. -/
theorem join_reverts_to_initializer :
    let table : Global := ⟨⟨1⟩, "table", true, false, [.int32 5]⟩
    let ro : ReadOnly := Table.empty.insert ⟨1⟩ (table.contents true)
    let m := entry.store .int32 (.globalAt ⟨1⟩ 0) (.int 7)
    (ReadOnly.ofGlobals true [table] = .ok ro ∧ m.load ro .int32 (.globalAt ⟨1⟩ 0) = .int 7) ∧
      (m.join entry).load ro .int32 (.globalAt ⟨1⟩ 0) = .int 5 ∧
      ((Value.int 7).normalize .int32).le ((m.join entry).load ro .int32 (.globalAt ⟨1⟩ 0)) = false := by
  intro table ro m
  exact ⟨⟨rfl, by decide⟩, by decide, by decide⟩

end Memory
end ValueFlow
