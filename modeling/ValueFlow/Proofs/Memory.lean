import ValueFlow.Memory
import ValueFlow.Proofs.Block
/-!
# The order on memories

A memory is below another when the frame, both summaries and every global that the other tracks are.  In a well-formed
memory the summaries cover the blocks they summarize, so an access through a class covers an access through every class
below it: reading at `q` covers reading at `p ≤ q`, and writing at `q` covers writing at `p`.  Reading and writing are
then monotone in the memory and in the address at once.
-/
namespace ValueFlow
namespace Memory
open Value

/-! ## Well-formed memories -/

/-- **The summaries cover what they summarize**, and everything outside the frame may be pointed to from outside it. -/
structure WellFormed (m : Memory) : Prop where
  frame : m.frame.WellFormed
  globals : ∀ s b, m.globals.get? s = some b → b.WellFormed ∧ b.summary ≤ m.outside
  nonStack_le : .nonStack ≤ m.outside
  outside_le : m.outside ≤ m.anywhere
  frame_le : m.frame.summary ≤ m.anywhere

theorem wellFormed_entry : entry.WellFormed where
  frame := Block.wellFormed_ofSummary _
  globals _ _ hb := by cases hb
  nonStack_le := le_rfl
  outside_le := le_rfl
  frame_le := Pointer.bottom_le _

theorem wellFormed_top : top.WellFormed where
  frame := Block.wellFormed_ofSummary _
  globals _ _ hb := by cases hb
  nonStack_le := Pointer.le_top _
  outside_le := le_rfl
  frame_le := le_rfl

/-- The block read at a global: what is tracked, what the initializer fixed, or what any byte outside may hold. -/
def visible (m : Memory) (ro : ReadOnly) (s : Symbol) : Block := (m.global? ro s).getD (.ofSummary m.outside)

theorem writtenGlobal_eq (m : Memory) (s : Symbol) : m.writtenGlobal s = m.visible .empty s := by
  rw [writtenGlobal, visible, global?, Table.get?_empty, Option.or_none]

theorem visible_of_tracked {m : Memory} {ro : ReadOnly} {s : Symbol} {b : Block} (h : m.globals.get? s = some b) :
    m.visible ro s = b := by
  rw [visible, global?, h]
  rfl

theorem visible_of_untracked {m : Memory} {ro : ReadOnly} {s : Symbol} (h : m.globals.get? s = none) :
    m.visible ro s = (ro.get? s).getD (.ofSummary m.outside) := by
  rw [visible, global?, h, Option.none_or]

theorem WellFormed.visible {m : Memory} {ro : ReadOnly} (h : m.WellFormed) (hro : ro.WellFormed) (s : Symbol) :
    (m.visible ro s).WellFormed ∧ (m.visible ro s).summary ≤ m.outside := by
  cases hs : m.globals.get? s with
  | some b =>
    rw [visible_of_tracked hs]
    exact h.globals s b hs
  | none =>
    rw [visible_of_untracked hs]
    cases hr : ro.get? s with
    | none => exact ⟨Block.wellFormed_ofSummary _, le_rfl⟩
    | some b =>
      obtain ⟨hb, hle⟩ := hro s b hr
      have hglobal : Pointer.anyGlobal ≤ .nonStack := by decide
      exact ⟨hb, (hle.trans hglobal).trans h.nonStack_le⟩

theorem wellFormed_empty : ReadOnly.WellFormed .empty := fun _ _ hb => by cases hb

theorem WellFormed.writtenGlobal {m : Memory} (h : m.WellFormed) (s : Symbol) :
    (m.writtenGlobal s).WellFormed ∧ (m.writtenGlobal s).summary ≤ m.outside :=
  m.writtenGlobal_eq s ▸ h.visible wellFormed_empty s

/-! ## Writing keeps a memory well formed -/

theorem WellFormed.insert_global {m : Memory} (h : m.WellFormed) {prov : Pointer} {s : Symbol} {b : Block}
    (hb : b.WellFormed) (hs : b.summary ≤ m.outside.join prov) :
    WellFormed { m with globals := m.globals.insert s b
                        outside := m.outside.join prov
                        anywhere := m.anywhere.join prov } where
  frame := h.frame
  globals t c hc := by
    rw [Table.get?_insert] at hc
    split at hc
    · cases hc
      exact ⟨hb, hs⟩
    · obtain ⟨hwf, hle⟩ := h.globals t c hc
      exact ⟨hwf, hle.trans (Pointer.le_join_left _ _)⟩
  nonStack_le := h.nonStack_le.trans (Pointer.le_join_left _ _)
  outside_le := Pointer.join_mono h.outside_le le_rfl
  frame_le := h.frame_le.trans (Pointer.le_join_left _ _)

theorem WellFormed.with_frame {m : Memory} (h : m.WellFormed) {prov : Pointer} {b : Block} (hb : b.WellFormed)
    (hs : b.summary ≤ m.anywhere.join prov) :
    WellFormed { m with frame := b, anywhere := m.anywhere.join prov } where
  frame := hb
  globals := h.globals
  nonStack_le := h.nonStack_le
  outside_le := h.outside_le.trans (Pointer.le_join_left _ _)
  frame_le := hs

/-- **Every write keeps a memory well formed** if an exact one adds no more to a block's summary than `prov` and what is
outside the frame anyway. -/
theorem WellFormed.write {m : Memory} (h : m.WellFormed) (addr : Pointer) {prov : Pointer}
    {update : Block → Int64 → Block} (hwf : ∀ b ofs, b.WellFormed → (update b ofs).WellFormed)
    (hsum : ∀ b ofs, (update b ofs).summary ≤ (b.summary.join prov).join .nonStack) :
    (m.write addr prov update).WellFormed := by
  have hany : .nonStack ≤ m.anywhere := h.nonStack_le.trans h.outside_le
  have hanywhere : ∀ b : Block, b.summary ≤ m.anywhere → (b.summary.join prov).join .nonStack ≤ m.anywhere.join prov :=
    fun b hb => Pointer.join_le (Pointer.join_mono hb le_rfl) (hany.trans (Pointer.le_join_left _ _))
  have houtside : ∀ b : Block, b.summary ≤ m.outside → (b.summary.join prov).join .nonStack ≤ m.outside.join prov :=
    fun b hb => Pointer.join_le (Pointer.join_mono hb le_rfl) (h.nonStack_le.trans (Pointer.le_join_left _ _))
  cases addr with
  | bottom => exact h
  | stackAt ofs => exact h.with_frame (hwf _ _ h.frame) ((hsum _ _).trans (hanywhere _ h.frame_le))
  | anyStack => exact h.with_frame (Block.wellFormed_ofSummary _) (Pointer.join_mono h.frame_le le_rfl)
  | globalAt s ofs =>
    obtain ⟨hg, hle⟩ := h.writtenGlobal s
    exact h.insert_global (hwf _ _ hg) ((hsum _ _).trans (houtside _ hle))
  | anyOffsetOf s =>
    exact h.insert_global (Block.wellFormed_ofSummary _) (Pointer.join_mono (h.writtenGlobal s).2 le_rfl)
  | anyGlobal | nonStack =>
    exact {
      frame := h.frame
      globals := fun _ _ hb => by cases hb
      nonStack_le := h.nonStack_le.trans (Pointer.le_join_left _ _)
      outside_le := Pointer.join_mono h.outside_le le_rfl
      frame_le := h.frame_le.trans (Pointer.le_join_left _ _) }
  | top =>
    exact {
      frame := Block.wellFormed_ofSummary _
      globals := fun _ _ hb => by cases hb
      nonStack_le := Pointer.le_top _
      outside_le := le_rfl
      frame_le := Pointer.le_top _ }

theorem WellFormed.store {m : Memory} (h : m.WellFormed) (c : Chunk) (addr : Pointer) {v : Value} (hv : v.Canonical) :
    (m.store c addr v).WellFormed :=
  h.write addr (fun _ ofs hb => hb.store c ofs hv) (fun _ _ => Pointer.le_join_left _ _)

theorem WellFormed.storeBytes {m : Memory} (h : m.WellFormed) (addr : Pointer) (size : Int) (prov : Pointer) :
    (m.storeBytes addr size prov).WellFormed :=
  h.write addr (fun _ ofs hb => hb.invalidate ofs size prov) (fun _ _ => Pointer.le_join_left _ _)

theorem WellFormed.cellsAt {m : Memory} {ro : ReadOnly} (h : m.WellFormed) (hro : ro.WellFormed) (src : Pointer)
    (size : Int) :
    ∀ e ∈ m.cellsAt ro src size, e.2.value.Canonical ∧ e.2.value.provenance ≤ (m.loadBytes ro src).widen := by
  intro e he
  cases src with
  | stackAt ofs => exact h.frame.cellsWithin ofs size e he
  | globalAt s ofs =>
    rw [Memory.cellsAt] at he
    rw [loadBytes]
    have hb := (h.visible hro s).1
    rw [Memory.visible] at hb
    cases hs : m.global? ro s with
    | none =>
      rw [hs] at he
      cases he
    | some b =>
      rw [hs] at he hb
      exact Block.WellFormed.cellsWithin hb ofs size e he
  | _ => cases he

theorem WellFormed.copy {m : Memory} {ro : ReadOnly} (h : m.WellFormed) (hro : ro.WellFormed) (dst src : Pointer)
    (size : Int) : (m.copy ro dst src size).WellFormed := by
  have hcells := h.cellsAt hro src size
  unfold Memory.copy
  refine h.write dst (fun b ofs hb => ?_) (fun b ofs => ?_)
  · exact (hb.invalidate ofs size _).storeCells ofs fun e he => (hcells e he).1
  · refine Block.summary_storeCells_le ofs (Pointer.le_join_left _ _) fun e he => ?_
    -- a copied cell may have lost the offset that the summary of its block still has
    refine ((hcells e he).2.trans (Pointer.widen_le_join_nonStack _)).trans (Pointer.join_mono ?_ le_rfl)
    exact Pointer.le_join_right _ _

theorem WellFormed.afterCall {m : Memory} (h : m.WellFormed) (kind : CallKind) : (m.afterCall kind).WellFormed := by
  cases kind with
  | exposed => exact wellFormed_top
  | confined =>
    exact {
      frame := h.frame
      globals := fun _ _ hb => by cases hb
      nonStack_le := Pointer.le_join_right _ _
      outside_le := le_rfl
      frame_le := Pointer.le_join_left _ _ }

/-! ## Join and order -/

theorem ext_globals {a b : Memory} (hf : a.frame = b.frame) (hg : ∀ s, a.globals.get? s = b.globals.get? s)
    (ho : a.outside = b.outside) (ha : a.anywhere = b.anywhere) : a = b := by
  cases a
  cases b
  cases hf
  cases ho
  cases ha
  cases Table.ext_get? hg
  rfl

theorem globals_join (a b : Memory) (s : Symbol) :
    (a.join b).globals.get? s = (a.globals.get? s).bind fun x => (b.globals.get? s).map x.join :=
  Table.get?_filterMap _ _ s

theorem join_eq_some {a b : Memory} {s : Symbol} {c : Block} (h : (a.join b).globals.get? s = some c) :
    ∃ x y, a.globals.get? s = some x ∧ b.globals.get? s = some y ∧ x.join y = c := by
  rw [globals_join] at h
  obtain ⟨x, hx, hc⟩ := Option.bind_eq_some_iff.1 h
  obtain ⟨y, hy, hxy⟩ := Option.map_eq_some_iff.1 hc
  exact ⟨x, y, hx, hy, hxy⟩

theorem WellFormed.join {a b : Memory} (ha : a.WellFormed) (hb : b.WellFormed) : (a.join b).WellFormed where
  frame := ha.frame.join hb.frame
  globals s c hc := by
    obtain ⟨x, y, hx, hy, rfl⟩ := join_eq_some hc
    obtain ⟨hwx, hsx⟩ := ha.globals s x hx
    obtain ⟨hwy, hsy⟩ := hb.globals s y hy
    exact ⟨hwx.join hwy, Pointer.join_mono hsx hsy⟩
  nonStack_le := ha.nonStack_le.trans (Pointer.le_join_left _ _)
  outside_le := Pointer.join_mono ha.outside_le hb.outside_le
  frame_le := Pointer.join_mono ha.frame_le hb.frame_le

theorem WellFormed.tracked {m : Memory} (h : m.WellFormed) (s : Symbol) : ∀ b, m.globals.get? s = some b → b.WellFormed :=
  fun b hb => (h.globals s b hb).1

/-- **Every known cell of every block holds a canonical value.** -/
structure Canonical (m : Memory) : Prop where
  frame : m.frame.Canonical
  globals : ∀ s b, m.globals.get? s = some b → b.Canonical

theorem canonical_top : top.Canonical where
  frame := Block.canonical_ofSummary _
  globals _ _ hb := by cases hb

theorem WellFormed.canonical {m : Memory} (h : m.WellFormed) : m.Canonical where
  frame := h.frame.canonical
  globals s b hb := (h.tracked s b hb).canonical

/-- **Memories join block by block.** -/
theorem canonicalLattice : SemilatticeOn Canonical join where
  closed {a b} ha hb := by
    refine ⟨Block.canonicalLattice.closed ha.frame hb.frame, fun s => ?_⟩
    rw [globals_join]
    exact Block.canonicalLattice.option.closed (ha.globals s) (hb.globals s)
  comm {a b} ha hb := by
    refine ext_globals (Block.canonicalLattice.comm ha.frame hb.frame) (fun s => ?_) (Pointer.join_comm _ _)
      (Pointer.join_comm _ _)
    rw [globals_join, globals_join]
    exact Block.canonicalLattice.option.comm (ha.globals s) (hb.globals s)
  assoc {a b c} ha hb hc := by
    refine ext_globals (Block.canonicalLattice.assoc ha.frame hb.frame hc.frame) (fun s => ?_)
      (Pointer.join_assoc _ _ _) (Pointer.join_assoc _ _ _)
    simp only [globals_join]
    exact Block.canonicalLattice.option.assoc (ha.globals s) (hb.globals s) (hc.globals s)
  idem {a} ha := by
    refine ext_globals (Block.canonicalLattice.idem ha.frame) (fun s => ?_) (Pointer.join_self _) (Pointer.join_self _)
    rw [globals_join]
    exact Block.canonicalLattice.option.idem (ha.globals s)

theorem lattice : SemilatticeOn WellFormed join := canonicalLattice.restrict WellFormed.canonical WellFormed.join

theorem top_join (m : Memory) : top.join m = top :=
  ext_globals (Block.top_join _) (fun s => globals_join _ _ s) (Pointer.top_join _) (Pointer.top_join _)

instance : LE Memory := ⟨fun a b => a.join b = b⟩

@[simp] theorem le_eq_true {a b : Memory} : a.le b = true ↔ a ≤ b := beq_iff_eq

/-- **A larger memory has larger summaries and tracks fewer globals, each less precisely.** -/
structure Covers (b a : Memory) : Prop where
  frame : a.frame ≤ b.frame
  globals : ∀ s y, b.globals.get? s = some y → ∃ x, a.globals.get? s = some x ∧ x ≤ y
  outside : a.outside ≤ b.outside
  anywhere : a.anywhere ≤ b.anywhere

theorem le_iff {a b : Memory} : a ≤ b ↔ b.Covers a := by
  constructor
  · intro h
    have hjoin : a.join b = b := h
    refine ⟨congrArg Memory.frame hjoin, fun s y hy => ?_, Pointer.join_eq_right.1 (congrArg outside hjoin),
      Pointer.join_eq_right.1 (congrArg anywhere hjoin)⟩
    obtain ⟨x, z, hx, hz, hxz⟩ := join_eq_some (hjoin.symm ▸ hy)
    obtain rfl : z = y := Option.some_inj.1 (hz.symm.trans hy)
    exact ⟨x, hx, hxz⟩
  · rintro ⟨hf, hg, ho, ha⟩
    refine ext_globals hf (fun s => ?_) (Pointer.join_eq_right.2 ho) (Pointer.join_eq_right.2 ha)
    rw [globals_join]
    cases hy : b.globals.get? s with
    | none => cases a.globals.get? s <;> rfl
    | some y =>
      obtain ⟨x, hx, hxy⟩ := hg s y hy
      rw [hx]
      exact congrArg some hxy

theorem le_refl {m : Memory} (h : m.WellFormed) : m ≤ m := lattice.idem h

theorem tracked_empty {t : Table Symbol Block} (s : Symbol) (y : Block)
    (hy : (Table.empty : Table Symbol Block).get? s = some y) : ∃ x, t.get? s = some x ∧ x ≤ y := by
  cases hy

theorem le_top (m : Memory) : m ≤ top :=
  le_iff.2 {
    frame := Block.le_ofSummary.2 (Pointer.le_top _)
    globals := tracked_empty
    outside := Pointer.le_top _
    anywhere := Pointer.le_top _ }

/-! ## Reading -/

/-- **No tracked global is a read-only one.** -/
def Avoids (m : Memory) (ro : ReadOnly) : Prop := ∀ s b, m.globals.get? s = some b → ro.get? s = none

instance (m : Memory) (ro : ReadOnly) : Decidable (m.Avoids ro) :=
  decidable_of_iff (∀ e ∈ m.globals.entries, ro.get? e.1 = none)
    ⟨fun h s b hb => h (s, b) (Table.mem_entries_iff.2 hb), fun h e he => h e.1 e.2 (Table.mem_entries_iff.1 he)⟩

theorem Avoids.untracked {m : Memory} {ro : ReadOnly} (h : m.Avoids ro) {s : Symbol} {r : Block} (hr : ro.get? s = some r) :
    m.globals.get? s = none := by
  cases hb : m.globals.get? s with
  | none => rfl
  | some b => cases (h s b hb).symm.trans hr

/-- A read-only global that the larger memory does not track has to be untracked in the smaller one too: else the
initializer answers for what was written there. -/
theorem visible_le_at {a b : Memory} {ro : ReadOnly} (ha : a.WellFormed) (hro : ro.WellFormed) {s : Symbol}
    (hout : a.outside ≤ b.outside) (hg : ∀ y, b.globals.get? s = some y → ∃ x, a.globals.get? s = some x ∧ x ≤ y)
    (hs : ∀ r, b.globals.get? s = none → ro.get? s = some r → a.globals.get? s = none) :
    a.visible ro s ≤ b.visible ro s := by
  cases hb : b.globals.get? s with
  | some y =>
    obtain ⟨x, hx, hxy⟩ := hg y hb
    rwa [visible_of_tracked hx, visible_of_tracked hb]
  | none =>
    rw [visible_of_untracked hb]
    cases hr : ro.get? s with
    | none => exact Block.le_ofSummary.2 ((ha.visible hro s).2.trans hout)
    | some r =>
      rw [visible_of_untracked (hs r hb hr), hr]
      exact Block.le_refl (hro s r hr).1

theorem visible_mono_at {a b : Memory} {ro : ReadOnly} (ha : a.WellFormed) (hro : ro.WellFormed) (h : a ≤ b) {s : Symbol}
    (hs : ∀ r, b.globals.get? s = none → ro.get? s = some r → a.globals.get? s = none) :
    a.visible ro s ≤ b.visible ro s :=
  visible_le_at ha hro (le_iff.1 h).outside ((le_iff.1 h).globals s) hs

theorem visible_mono {a b : Memory} {ro : ReadOnly} (ha : a.WellFormed) (hro : ro.WellFormed) (h : a ≤ b)
    (hav : a.Avoids ro) (s : Symbol) : a.visible ro s ≤ b.visible ro s :=
  visible_mono_at ha hro h fun _ _ hr => hav.untracked hr

theorem writtenGlobal_mono {a b : Memory} (ha : a.WellFormed) (h : a ≤ b) (s : Symbol) :
    a.writtenGlobal s ≤ b.writtenGlobal s := by
  rw [writtenGlobal_eq, writtenGlobal_eq]
  exact visible_mono ha wellFormed_empty h (fun _ _ _ => rfl) s

theorem load_globalAt (m : Memory) (ro : ReadOnly) (c : Chunk) (s : Symbol) (ofs : Int64) :
    m.load ro c (.globalAt s ofs) = (m.visible ro s).load c ofs := by
  rw [load, visible]
  cases m.global? ro s <;> rfl

theorem load_anyOffsetOf (m : Memory) (ro : ReadOnly) (c : Chunk) (s : Symbol) :
    m.load ro c (.anyOffsetOf s) = c.reads (m.visible ro s).summary := by
  rw [load, visible, ← normalize_mixed]
  cases m.global? ro s <;> rfl

theorem load_anyStack (m : Memory) (ro : ReadOnly) (c : Chunk) : m.load ro c .anyStack = c.reads m.frame.summary :=
  normalize_mixed _ c

theorem load_nonStack (m : Memory) (ro : ReadOnly) (c : Chunk) : m.load ro c .nonStack = c.reads m.outside :=
  normalize_mixed _ c

theorem load_anyGlobal (m : Memory) (ro : ReadOnly) (c : Chunk) : m.load ro c .anyGlobal = c.reads m.outside :=
  normalize_mixed _ c

theorem load_top (m : Memory) (ro : ReadOnly) (c : Chunk) : m.load ro c .top = c.reads m.anywhere := normalize_mixed _ c

theorem WellFormed.canonical_load {m : Memory} {ro : ReadOnly} (h : m.WellFormed) (hro : ro.WellFormed) (c : Chunk)
    (p : Pointer) : (m.load ro c p).Canonical := by
  cases p with
  | bottom => exact ⟨nofun, nofun⟩
  | stackAt ofs => exact h.frame.canonical_load c ofs
  | globalAt s ofs => exact m.load_globalAt ro c s ofs ▸ (h.visible hro s).1.canonical_load c ofs
  | anyStack => exact m.load_anyStack ro c ▸ canonical_reads c _
  | anyOffsetOf s => exact m.load_anyOffsetOf ro c s ▸ canonical_reads c _
  | anyGlobal => exact m.load_anyGlobal ro c ▸ canonical_reads c _
  | nonStack => exact m.load_nonStack ro c ▸ canonical_reads c _
  | top => exact m.load_top ro c ▸ canonical_reads c _

/-- **A read through a wider class covers the read through every class below it.** -/
theorem WellFormed.load_mono_class {m : Memory} {ro : ReadOnly} (h : m.WellFormed) (hro : ro.WellFormed) (c : Chunk)
    {p q : Pointer} (hpq : p ≤ q) : m.load ro c p ≤ m.load ro c q := by
  have hcan := h.canonical_load hro c
  by_cases hp : p = .bottom
  · rw [hp]
    exact bottom_le _
  refine Pointer.le_induction (R := fun p q => m.load ro c p ≤ m.load ro c q) (fun p => Value.le_refl (hcan p))
    (Value.lattice.trans (hcan _) (hcan _) (hcan _)) (fun hup => ?_) hp hpq
  cases hup with
  | stackAt ofs => exact m.load_anyStack ro c ▸ h.frame.load_le_reads c ofs
  | anyStack => exact m.load_anyStack ro c ▸ m.load_top ro c ▸ reads_mono c h.frame_le
  | globalAt s ofs => exact m.load_globalAt ro c s ofs ▸ m.load_anyOffsetOf ro c s ▸ (h.visible hro s).1.load_le_reads c ofs
  | anyOffsetOf s => exact m.load_anyOffsetOf ro c s ▸ m.load_anyGlobal ro c ▸ reads_mono c (h.visible hro s).2
  | anyGlobal => exact Value.le_refl (hcan .nonStack)
  | nonStack => exact m.load_nonStack ro c ▸ m.load_top ro c ▸ reads_mono c h.outside_le

/-- **Where every block that reads see is larger, and both summaries are, every read is.**  The two memories may have
tables of their own. -/
theorem load_le_of_visible {a b : Memory} {ro ro' : ReadOnly} (ha : a.WellFormed) (hb : b.WellFormed) (hro : ro.WellFormed)
    (hro' : ro'.WellFormed) (hframe : a.frame ≤ b.frame) (hvis : ∀ s, a.visible ro s ≤ b.visible ro' s)
    (hout : a.outside ≤ b.outside) (hany : a.anywhere ≤ b.anywhere) (c : Chunk) (p : Pointer) :
    a.load ro c p ≤ b.load ro' c p := by
  cases p with
  | bottom => exact bottom_le _
  | stackAt ofs => exact Block.load_mono ha.frame hb.frame hframe c ofs
  | globalAt s ofs =>
    rw [load_globalAt, load_globalAt]
    exact Block.load_mono (ha.visible hro s).1 (hb.visible hro' s).1 (hvis s) c ofs
  | anyStack =>
    rw [load_anyStack, load_anyStack]
    exact reads_mono c (Block.summary_mono hframe)
  | anyOffsetOf s =>
    rw [load_anyOffsetOf, load_anyOffsetOf]
    exact reads_mono c (Block.summary_mono (hvis s))
  | anyGlobal =>
    rw [load_anyGlobal, load_anyGlobal]
    exact reads_mono c hout
  | nonStack =>
    rw [load_nonStack, load_nonStack]
    exact reads_mono c hout
  | top =>
    rw [load_top, load_top]
    exact reads_mono c hany

/-- **A read from a larger memory covers the same read from a smaller one**, if the smaller tracks no read-only
global. -/
theorem load_mono_memory {a b : Memory} {ro : ReadOnly} (ha : a.WellFormed) (hb : b.WellFormed) (hro : ro.WellFormed)
    (h : a ≤ b) (hav : a.Avoids ro) (c : Chunk) (p : Pointer) : a.load ro c p ≤ b.load ro c p := by
  have hle := le_iff.1 h
  exact load_le_of_visible ha hb hro hro hle.frame (visible_mono ha hro h hav) hle.outside hle.anywhere c p

theorem load_mono {a b : Memory} {ro : ReadOnly} (ha : a.WellFormed) (hb : b.WellFormed) (hro : ro.WellFormed)
    (h : a ≤ b) (hav : a.Avoids ro) (c : Chunk) {p q : Pointer} (hpq : p ≤ q) : a.load ro c p ≤ b.load ro c q :=
  Value.lattice.trans (ha.canonical_load hro c p) (hb.canonical_load hro c p) (hb.canonical_load hro c q)
    (load_mono_memory ha hb hro h hav c p) (hb.load_mono_class hro c hpq)

/-! ## Writing -/

theorem tracked_insert {t u : Table Symbol Block} (h : ∀ s y, u.get? s = some y → ∃ x, t.get? s = some x ∧ x ≤ y)
    (s : Symbol) {a b : Block} (hab : a ≤ b) (i : Symbol) (y : Block) (hy : (u.insert s b).get? i = some y) :
    ∃ x, (t.insert s a).get? i = some x ∧ x ≤ y := by
  rw [Table.get?_insert] at hy ⊢
  split at hy
  · rename_i hi
    cases hy
    exact ⟨a, if_pos hi, hab⟩
  · rename_i hi
    rw [if_neg hi]
    exact h i y hy

theorem WellFormed.tracked_self {m : Memory} (h : m.WellFormed) (s : Symbol) (y : Block)
    (hy : m.globals.get? s = some y) : ∃ x, m.globals.get? s = some x ∧ x ≤ y :=
  ⟨y, hy, Block.le_refl (h.tracked s y hy)⟩

/-- **Writing through a wider class covers writing through every class below it** that some address has. -/
theorem WellFormed.write_mono_class {m : Memory} (h : m.WellFormed) {prov : Pointer} {update : Block → Int64 → Block}
    (hwf : ∀ b ofs, b.WellFormed → (update b ofs).WellFormed)
    (hsum : ∀ b ofs, (update b ofs).summary ≤ b.summary.join prov) {p q : Pointer} (hp : p ≠ .bottom) (hpq : p ≤ q) :
    m.write p prov update ≤ m.write q prov update := by
  have hw : ∀ r, (m.write r prov update).WellFormed := fun r =>
    h.write r hwf fun b ofs => (hsum b ofs).trans (Pointer.le_join_left _ _)
  refine Pointer.le_induction (R := fun p q => m.write p prov update ≤ m.write q prov update)
    (fun p => le_refl (hw p)) (lattice.trans (hw _) (hw _) (hw _)) (fun hup => ?_) hp hpq
  cases hup with
  | stackAt ofs =>
    exact le_iff.2 {
      frame := Block.le_ofSummary.2 (hsum _ _)
      globals := h.tracked_self
      outside := le_rfl
      anywhere := le_rfl }
  | anyStack =>
    exact le_iff.2 {
      frame := Block.le_refl (Block.wellFormed_ofSummary _)
      globals := tracked_empty
      outside := Pointer.le_top _
      anywhere := Pointer.le_top _ }
  | globalAt s ofs =>
    exact le_iff.2 {
      frame := Block.le_refl h.frame
      globals := tracked_insert h.tracked_self s (Block.le_ofSummary.2 (hsum _ _))
      outside := le_rfl
      anywhere := le_rfl }
  | anyOffsetOf s =>
    exact le_iff.2 {
      frame := Block.le_refl h.frame
      globals := tracked_empty
      outside := le_rfl
      anywhere := le_rfl }
  | anyGlobal => exact le_refl (hw .nonStack)
  | nonStack =>
    exact le_iff.2 {
      frame := Block.le_ofSummary.2 (Pointer.le_join_left _ _)
      globals := tracked_empty
      outside := Pointer.le_top _
      anywhere := Pointer.le_top _ }

theorem write_mono_memory {a b : Memory} (ha : a.WellFormed) (h : a ≤ b) {prov prov' : Pointer} (hprov : prov ≤ prov')
    {update update' : Block → Int64 → Block} (hupdate : ∀ {x y} ofs, x ≤ y → update x ofs ≤ update' y ofs)
    (p : Pointer) : a.write p prov update ≤ b.write p prov' update' := by
  have hle := le_iff.1 h
  have houtside := Pointer.join_mono hle.outside hprov
  have hanywhere := Pointer.join_mono hle.anywhere hprov
  have hframe := Pointer.join_mono (Block.summary_mono hle.frame) hprov
  cases p with
  | bottom => exact h
  | stackAt ofs => exact le_iff.2 ⟨hupdate ofs hle.frame, hle.globals, hle.outside, hanywhere⟩
  | anyStack => exact le_iff.2 ⟨Block.le_ofSummary.2 hframe, hle.globals, hle.outside, hanywhere⟩
  | globalAt s ofs =>
    have hblock := hupdate ofs (writtenGlobal_mono ha h s)
    exact le_iff.2 ⟨hle.frame, tracked_insert hle.globals s hblock, houtside, hanywhere⟩
  | anyOffsetOf s =>
    have hblock := Pointer.join_mono (Block.summary_mono (writtenGlobal_mono ha h s)) hprov
    exact le_iff.2 ⟨hle.frame, tracked_insert hle.globals s (Block.le_ofSummary.2 hblock), houtside, hanywhere⟩
  | anyGlobal | nonStack => exact le_iff.2 ⟨hle.frame, tracked_empty, houtside, hanywhere⟩
  | top => exact le_iff.2 ⟨Block.le_ofSummary.2 hframe, tracked_empty, le_rfl, le_rfl⟩

/-- **A less precise store, through a less precise address, into a less precise memory covers a more precise one.** -/
theorem store_mono {a b : Memory} (ha : a.WellFormed) (hb : b.WellFormed) (h : a ≤ b) (c : Chunk) {p q : Pointer}
    (hp : p ≠ .bottom) (hpq : p ≤ q) {v w : Value} (hv : v.Canonical) (hw : w.Canonical) (hvw : v ≤ w) :
    a.store c p v ≤ b.store c q w := by
  have hmem : a.store c p v ≤ b.store c p w :=
    write_mono_memory ha h (provenance_mono hvw) (fun ofs hxy => Block.store_mono hxy c ofs hv hw hvw) p
  have hclass : b.store c p w ≤ b.store c q w :=
    hb.write_mono_class (fun _ ofs hb => hb.store c ofs hw) (fun _ _ => le_rfl) hp hpq
  exact lattice.trans (ha.store c p hv) (hb.store c p hw) (hb.store c q hw) hmem hclass

/-! ## Calls -/

theorem classifyCall_confined {m : Memory} {args : List Value} :
    m.classifyCall args = .confined ↔ (∀ v ∈ args, v.provenance ≤ .nonStack) ∧ m.outside ≤ .nonStack := by
  have h : m.classifyCall args = .confined ↔
      (args.all (·.provenance.excludesStack) && m.outside.excludesStack) = true := by
    unfold classifyCall
    split <;> simp_all
  rw [h, Bool.and_eq_true, List.all_eq_true]
  rfl

/-- What a confined callee is to less precise arguments and memory, it is to more precise ones. -/
theorem classifyCall_anti {a b : Memory} (h : a ≤ b) {args args' : List Value} (hargs : List.Forall₂ (· ≤ ·) args args')
    (hc : b.classifyCall args' = .confined) : a.classifyCall args = .confined := by
  obtain ⟨hall, hout⟩ := classifyCall_confined.1 hc
  refine classifyCall_confined.2 ⟨?_, (le_iff.1 h).outside.trans hout⟩
  clear hc
  induction hargs with
  | nil => exact nofun
  | cons hv _ ih =>
    obtain ⟨hw, hrest⟩ := List.forall_mem_cons.1 hall
    exact List.forall_mem_cons.2 ⟨(provenance_mono hv).trans hw, ih hrest⟩

theorem afterCall_mono {a b : Memory} (h : a ≤ b) {k k' : CallKind} (hk : k' = .confined → k = .confined) :
    a.afterCall k ≤ b.afterCall k' := by
  cases k' with
  | exposed => exact le_top _
  | confined =>
    obtain rfl := hk rfl
    have hle := le_iff.1 h
    have hescaped := Pointer.join_mono (Block.summary_mono hle.frame) (le_rfl (a := Pointer.nonStack))
    exact le_iff.2 ⟨hle.frame, tracked_empty, hescaped, hescaped⟩

theorem canonical_result (k : CallKind) : k.result.Canonical := by cases k <;> exact ⟨nofun, nofun⟩

theorem result_mono {k k' : CallKind} (hk : k' = .confined → k = .confined) : k.result ≤ k'.result := by
  cases k' with
  | exposed => exact Value.le_top (canonical_result k)
  | confined =>
    obtain rfl := hk rfl
    exact Value.le_refl (canonical_result .confined)

/-! ## Memories that occur -/

/-- **The memories that come about from a function's entry or the unknown memory** by stores of canonical values, byte
stores, copies, joins and calls. -/
inductive Reachable : Memory → Prop where
  | entry : Reachable entry
  | top : Reachable top
  | store {m : Memory} (c : Chunk) (addr : Pointer) {v : Value} (hv : v.Canonical) :
    Reachable m → Reachable (m.store c addr v)
  | storeBytes {m : Memory} (addr : Pointer) (size : Int) (prov : Pointer) :
    Reachable m → Reachable (m.storeBytes addr size prov)
  | copy {m : Memory} {floats : Bool} {globals : List Global} {ro : ReadOnly}
    (hro : ReadOnly.ofGlobals floats globals = .ok ro) (dst src : Pointer) (size : Int) :
    Reachable m → Reachable (m.copy ro dst src size)
  | join {a b : Memory} : Reachable a → Reachable b → Reachable (a.join b)
  | afterCall {m : Memory} (kind : CallKind) : Reachable m → Reachable (m.afterCall kind)

theorem Reachable.wellFormed {m : Memory} (h : m.Reachable) : m.WellFormed := by
  induction h with
  | entry => exact wellFormed_entry
  | top => exact wellFormed_top
  | store c addr hv _ ih => exact ih.store c addr hv
  | storeBytes addr size prov _ ih => exact ih.storeBytes addr size prov
  | copy hro dst src size _ ih => exact ih.copy (ReadOnly.wellFormed_ofGlobals hro) dst src size
  | join _ _ iha ihb => exact iha.join ihb
  | afterCall kind _ ih => exact ih.afterCall kind

/-- **Loads are monotone in the memory and in the address.**  A load through a class covers the load from every exact
location that it shares with the class, and a load from a join covers the loads from both sides. -/
theorem load_covers {floats : Bool} {globals : List Global} {ro : ReadOnly}
    (hro : ReadOnly.ofGlobals floats globals = .ok ro) {m m' : Memory} (hm : m.Reachable) (hm' : m'.Reachable)
    (hav : m.Avoids ro) (c : Chunk) :
    (m.le m' → ∀ p q : Pointer, p.le q → (m.load ro c p).le (m'.load ro c q)) ∧
      (∀ p q : Pointer, p.isExact → p.disjoint q = false → (m.load ro c p).le (m.load ro c q)) ∧
      ∀ p q : Pointer, p.le q → (m.load ro c p).le ((m.join m').load ro c q) ∧
        (m'.Avoids ro → (m'.load ro c p).le ((m.join m').load ro c q)) := by
  have hro := ReadOnly.wellFormed_ofGlobals hro
  have hm := hm.wellFormed
  have hm' := hm'.wellFormed
  have hjoin := hm.join hm'
  simp only [Value.le_eq_true, Memory.le_eq_true]
  refine ⟨fun h p q hpq => load_mono hm hm' hro h hav c hpq, fun p q hp hpq => ?_, fun p q hpq => ⟨?_, fun hav' => ?_⟩⟩
  · exact hm.load_mono_class hro c (Pointer.le_of_shared hp hpq)
  · exact load_mono hm hjoin hro (lattice.le_join_left hm hm') hav c hpq
  · exact load_mono hm' hjoin hro (lattice.le_join_right hm hm') hav' c hpq

theorem load_covers_storedFrameAddress :
    let table : Global := ⟨⟨1⟩, "table", true, false, [.int32 5, .space 4, .addrOf ⟨2⟩ 16]⟩
    let ro : ReadOnly := Table.empty.insert ⟨1⟩ (table.contents true)
    let m := entry.store .int64 (.globalAt ⟨7⟩ 0) (.ptr (.stackAt 8))
    let m' := m.join (entry.store .int64 (.globalAt ⟨7⟩ 0) (.ptr (.stackAt 16)))
    ReadOnly.ofGlobals true [table] = .ok ro ∧ m.Avoids ro ∧ m.le m' = true ∧
      (m.load ro .int64 (.globalAt ⟨7⟩ 0) = .ptr (.stackAt 8) ∧ m'.load ro .int64 (.globalAt ⟨7⟩ 0) = .ptr .anyStack ∧
        (m.load ro .int64 (.globalAt ⟨7⟩ 0)).le (m'.load ro .int64 (.globalAt ⟨7⟩ 0)) = true) ∧
      (m.load ro .int64 (.globalAt ⟨1⟩ 8) = .ptr (.globalAt ⟨2⟩ 16) ∧
        (m.load ro .int64 (.globalAt ⟨1⟩ 8)).le (m.load ro .int64 .anyGlobal) = true) := by
  intro table ro m m'
  have hro : ReadOnly.ofGlobals true [table] = .ok ro := rfl
  have hm : m.Reachable := .store _ _ (by decide) .entry
  have hm' : m'.Reachable := hm.join (.store _ _ (by decide) .entry)
  have hav : m.Avoids ro := by decide
  have h := load_covers hro hm hm' hav .int64
  refine ⟨hro, hav, by decide, ⟨by decide, by decide, h.1 (by decide) _ _ (by decide)⟩, by decide, ?_⟩
  exact h.2.1 _ _ rfl (by decide)

end Memory
end ValueFlow
