import ValueFlow.Proofs.Memory
/-!
# Stores through a class of locations

A store through a class that holds more than one location may have landed in any of them and in no other.  Every block it
may have landed in forgets its cells and adds what was stored to its summary, so a read there covers the new contents
and the old.  A global that was tracked and is forgotten falls back to `outside`, one that was not gets a block that
starts from it, and `outside` bounds both.
-/
namespace ValueFlow

/-- An initializer says what the region holds until it is written. -/
def Region.isFixed (ro : ReadOnly) : Region → Bool
  | frame    => false
  | global s => ro.contains s

theorem Block.load_ofSummary (q : Pointer) (c : Chunk) (ofs : Int64) : (Block.ofSummary q).load c ofs = c.reads q :=
  (ofSummary q).loadAnywhere_eq c

namespace Memory
open Value

/-! ## Regions -/

/-- The block of a region, as reads see it. -/
def block (m : Memory) (ro : ReadOnly) : Region → Block
  | .frame    => m.frame
  | .global s => m.visible ro s

variable {m : Memory} {ro : ReadOnly} {r : Region}

theorem load_addr (m : Memory) (ro : ReadOnly) (c : Chunk) (r : Region) (ofs : Int64) :
    m.load ro c (r.addr ofs) = (m.block ro r).load c ofs := by
  cases r with
  | frame => rfl
  | global s => exact m.load_globalAt ro c s ofs

theorem loadBytes_addr (m : Memory) (ro : ReadOnly) (r : Region) (ofs : Int64) :
    m.loadBytes ro (r.addr ofs) = (m.block ro r).summary := by
  cases r with
  | frame => rfl
  | global s =>
    show m.loadBytes ro (.globalAt s ofs) = (m.visible ro s).summary
    rw [loadBytes, visible]
    cases m.global? ro s <;> rfl

theorem WellFormed.block (h : m.WellFormed) (hro : ro.WellFormed) (r : Region) : (m.block ro r).WellFormed := by
  cases r with
  | frame => exact h.frame
  | global s => exact (h.visible hro s).1

/-! ## What was stored -/

/-- **Wherever a write through a class may have landed, nothing is known but a summary that covers it.** -/
theorem block_write_weak (m : Memory) {p : Pointer} (prov : Pointer) (update : Block → Int64 → Block)
    (hp : p.isExact = false) {ofs : Int64} (hr : r.addr ofs ≤ p) (hfix : r.isFixed ro = false) :
    ∃ q, prov ≤ q ∧ (m.write p prov update).block ro r = .ofSummary q := by
  rw [Pointer.le_iff] at hr
  cases r with
  | frame =>
    simp only [Region.addr, Pointer.wider, reduceCtorEq, List.mem_cons, List.not_mem_nil, false_or, or_false] at hr
    rcases hr with rfl | rfl | rfl
    · cases hp
    · exact ⟨_, Pointer.le_join_right m.frame.summary prov, rfl⟩
    · exact ⟨_, Pointer.le_join_right m.frame.summary prov, rfl⟩
  | global s =>
    have hro : ro.get? s = none := Option.isNone_iff_eq_none.1 (Option.isSome_eq_false_iff.1 hfix)
    -- no block is tracked any more, and no initializer answers
    have hforgotten : ∀ a : Memory, a.globals = .empty → a.visible ro s = .ofSummary a.outside := by
      intro a ha
      rw [visible_of_untracked (by rw [ha]; rfl), hro]
      rfl
    simp only [Region.addr, Pointer.wider, reduceCtorEq, List.mem_cons, List.not_mem_nil, false_or, or_false] at hr
    rcases hr with rfl | rfl | rfl | rfl | rfl
    · cases hp
    · exact ⟨_, Pointer.le_join_right (m.writtenGlobal s).summary prov, visible_of_tracked (Table.get?_insert_self _ _ _)⟩
    · exact ⟨_, Pointer.le_join_right m.outside prov, hforgotten _ rfl⟩
    · exact ⟨_, Pointer.le_join_right m.outside prov, hforgotten _ rfl⟩
    · exact ⟨_, Pointer.le_top prov, hforgotten _ rfl⟩

/-! ## What was there before -/

theorem WellFormed.visible_le_forgotten (h : m.WellFormed) (hro : ro.WellFormed) (hav : m.Avoids ro) {a : Memory}
    (ha : a.globals = .empty) (hout : m.outside ≤ a.outside) (s : Symbol) : m.visible ro s ≤ a.visible ro s := by
  refine visible_le_at h hro hout (fun y hy => ?_) fun _ _ hr => hav.untracked hr
  rw [ha] at hy
  cases hy

theorem WellFormed.summary_visible_le (h : m.WellFormed) (hro : ro.WellFormed) (s : Symbol) :
    (m.visible ro s).summary ≤ (m.writtenGlobal s).summary := by
  cases hs : m.globals.get? s with
  | some b => rw [visible_of_tracked hs, Memory.writtenGlobal, hs, Option.getD_some]
  | none =>
    -- the block starts from `outside`, whatever the initializer fixed
    rw [Memory.writtenGlobal, hs]
    exact (h.visible hro s).2

theorem WellFormed.visible_le_spread (h : m.WellFormed) (hro : ro.WellFormed) (s : Symbol) (prov : Pointer)
    (update : Block → Int64 → Block) (t : Symbol) :
    m.visible ro t ≤ (m.write (.anyOffsetOf s) prov update).visible ro t := by
  have hglobals : (m.write (.anyOffsetOf s) prov update).globals.get? t =
      if s = t then some ((m.writtenGlobal s).storeAnywhere prov) else m.globals.get? t := Table.get?_insert _ _ _ _
  by_cases hst : s = t
  · subst hst
    rw [if_pos rfl] at hglobals
    rw [visible_of_tracked hglobals]
    exact Block.le_ofSummary.2 ((h.summary_visible_le hro s).trans (Pointer.le_join_left _ _))
  · rw [if_neg hst] at hglobals
    refine visible_le_at h hro (Pointer.le_join_left _ _) (fun y hy => ?_) fun _ hnone _ => hglobals ▸ hnone
    exact h.tracked_self t y (hglobals ▸ hy)

/-- **A write through a class loses nothing that was there**, unless it leaves a written global to its initializer. -/
theorem WellFormed.load_le_weak (h : m.WellFormed) (hro : ro.WellFormed) (hav : m.Avoids ro) {p prov : Pointer}
    {update : Block → Int64 → Block} (hp : p.isExact = false) (hw : (m.write p prov update).WellFormed) (c : Chunk)
    (q : Pointer) : m.load ro c q ≤ (m.write p prov update).load ro c q := by
  have hframe : m.frame ≤ m.frame.storeAnywhere prov := Block.le_ofSummary.2 (Pointer.le_join_left _ _)
  have hout : m.outside ≤ m.outside.join prov := Pointer.le_join_left _ _
  have hany : m.anywhere ≤ m.anywhere.join prov := Pointer.le_join_left _ _
  cases p with
  | bottom => exact Value.le_refl (h.canonical_load hro c q)
  | stackAt | globalAt => cases hp
  | anyStack =>
    exact load_le_of_visible h hw hro hro hframe (fun s => Block.le_refl (h.visible hro s).1) le_rfl hany c q
  | anyOffsetOf s =>
    exact load_le_of_visible h hw hro hro (Block.le_refl h.frame) (h.visible_le_spread hro s prov update) hout hany c q
  | anyGlobal | nonStack =>
    exact load_le_of_visible h hw hro hro (Block.le_refl h.frame) (h.visible_le_forgotten hro hav rfl hout) hout hany c q
  | top =>
    have htop := Pointer.le_top m.outside
    exact load_le_of_visible h hw hro hro hframe (h.visible_le_forgotten hro hav rfl htop) htop (Pointer.le_top _) c q

/-- **A store through a class covers the old contents and the new.**  Every location of the class reads at least what was
stored, and holds at least its pointers; every read, through whatever class, covers what it gave before. -/
theorem weakStore_covers {floats : Bool} {globals : List Global} {ro : ReadOnly}
    (hro : ReadOnly.ofGlobals floats globals = .ok ro) {m : Memory} (hm : m.Reachable) (c : Chunk) {p : Pointer}
    (hp : p.isExact = false) {v : Value} (hv : v.Canonical) :
    let m' := m.store c p v
    (∀ (r : Region) (ofs : Int64), (r.addr ofs).le p = true → r.isFixed ro = false →
      (v.normalize c).le (m'.load ro c (r.addr ofs)) = true ∧ v.provenance.le (m'.loadBytes ro (r.addr ofs)) = true) ∧
    (m.Avoids ro → ∀ (d : Chunk) (q : Pointer), (m.load ro d q).le (m'.load ro d q) = true) := by
  intro m'
  have hro := ReadOnly.wellFormed_ofGlobals hro
  constructor
  · intro r ofs hr hfix
    obtain ⟨q, hq, hblock⟩ := m.block_write_weak v.provenance (fun b ofs => b.store c ofs v) hp hr hfix
    have hblock : m'.block ro r = .ofSummary q := hblock
    rw [load_addr, loadBytes_addr, hblock, Block.load_ofSummary, Value.le_eq_true]
    exact ⟨normalize_le_reads hv hq c, hq⟩
  · intro hav d q
    rw [Value.le_eq_true]
    exact hm.wellFormed.load_le_weak hro hav hp (hm.wellFormed.store c p hv) d q

/-- A frame address stored somewhere outside the frame: the written global forgets its number, the frame keeps its own,
and the read-only table still answers. -/
theorem weakStore_covers_nonStack :
    let table : Global := ⟨⟨1⟩, "table", true, false, [.int32 5]⟩
    let ro : ReadOnly := Table.empty.insert ⟨1⟩ (table.contents true)
    let m := (entry.store .int64 (.globalAt ⟨7⟩ 0) (.long 4)).store .int32 (.stackAt 8) (.int 2)
    let m' := m.store .int64 .nonStack (.ptr (.stackAt 8))
    (ReadOnly.ofGlobals true [table] = .ok ro ∧ m.Avoids ro ∧ (Region.global ⟨7⟩).isFixed ro = false) ∧
      (m'.load ro .int64 (.globalAt ⟨7⟩ 0) = .top ∧ (Value.ptr (.stackAt 8)).le .top = true ∧
        (Pointer.stackAt 8).le (m'.loadBytes ro (.globalAt ⟨7⟩ 0)) = true) ∧
      (m.load ro .int64 (.globalAt ⟨7⟩ 0) = .long 4 ∧ (Value.long 4).le .top = true) ∧
      m.load ro .int32 (.globalAt ⟨1⟩ 0) = .int 5 ∧ (Value.int 5).le (m'.load ro .int32 (.globalAt ⟨1⟩ 0)) = true := by
  intro table ro m m'
  have hro : ReadOnly.ofGlobals true [table] = .ok ro := rfl
  have hm : m.Reachable := .store _ _ (by decide) (.store _ _ (by decide) .entry)
  have hav : m.Avoids ro := by decide
  have hfix : (Region.global ⟨7⟩).isFixed ro = false := by decide
  obtain ⟨hnew, hold⟩ := weakStore_covers hro hm .int64 (p := .nonStack) rfl (v := .ptr (.stackAt 8)) (by decide)
  obtain ⟨hvalue, hbytes⟩ := hnew (.global ⟨7⟩) 0 (by decide) hfix
  exact ⟨⟨hro, hav, hfix⟩, ⟨by decide, hvalue, hbytes⟩, ⟨by decide, hold hav .int64 (.globalAt ⟨7⟩ 0)⟩, by decide,
    hold hav .int32 (.globalAt ⟨1⟩ 0)⟩

end Memory
end ValueFlow
