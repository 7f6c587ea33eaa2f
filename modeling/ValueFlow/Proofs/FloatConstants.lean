import ValueFlow.Proofs.Lists
import ValueFlow.Proofs.Memory
/-!
# Forgetting floating-point constants

Without the floating-point constants of read-only globals a table has the same blocks, in which some constants are blurred
into numbers of their kind.  A read of a blurred constant keeps its kind, and then reads it blurred, or does not, and then
reads the same as from the constant itself.  An integer chunk keeps no floating-point kind.
-/
namespace ValueFlow

/-! ## Values -/

/-- **The second value is the first, or forgets which floating-point number it is.** -/
inductive Value.Blurs : Value → Value → Prop where
  | same {v : Value} (h : v.Canonical) : Blurs v v
  | number {v : Value} {k : Kind} (hk : k = .single ∨ k = .float) (h : v.kind? = some k) : Blurs v (.num k)

theorem Chunk.isInteger_iff {c : Chunk} : c.isInteger = true ↔ c ∉ [Chunk.float32, .float64, .any32, .any64] := by
  cases c <;> simp [isInteger]

theorem Chunk.keeps_of_isInteger {c : Chunk} (hc : c.isInteger = true) {k : Kind} (hk : k = .single ∨ k = .float) :
    c.keeps k = false := by
  rcases hk with rfl | rfl <;> cases c <;> first | rfl | cases hc

namespace Value.Blurs
variable {v w : Value}

theorem le (h : v.Blurs w) : v ≤ w := by
  cases h with
  | same h => exact le_refl h
  | number _ h => exact kind_le_num h

theorem provenance_eq (h : v.Blurs w) : v.provenance = w.provenance := by
  cases h with
  | same h => rfl
  | number _ h => exact provenance_of_kind h

theorem normalize (h : v.Blurs w) (c : Chunk) : (v.normalize c).Blurs (w.normalize c) := by
  cases h with
  | same h => exact .same (canonical_normalize h c)
  | number hk h =>
    rename_i k
    cases hc : c.keeps k with
    | true =>
      rw [normalize_num hc]
      exact .number hk (kind?_normalize h hc)
    | false =>
      rw [normalize_number h hc, normalize_number (kind?_num k) hc]
      exact .same (canonical_reads c _)

theorem normalize_eq (h : v.Blurs w) {c : Chunk} (hc : c.isInteger = true) : v.normalize c = w.normalize c := by
  cases h with
  | same h => rfl
  | number hk h =>
    rename_i k
    have hkeeps := Chunk.keeps_of_isInteger hc hk
    rw [normalize_number h hkeeps, normalize_number (kind?_num k) hkeeps]

end Value.Blurs

/-! ## Blocks -/

/-- **Two blocks with the same summary and cells**, but for constants that the second forgets. -/
structure Block.Blurs (a b : Block) : Prop where
  summary : a.summary = b.summary
  cells : ∀ ofs, Option.Rel (fun x y : Cell => x.chunk = y.chunk ∧ x.value.Blurs y.value) (a.cell? ofs) (b.cell? ofs)

namespace Block.Blurs
variable {a b : Block}

theorem ofSummary (p : Pointer) : (ofSummary p).Blurs (ofSummary p) := ⟨rfl, fun _ => .none⟩

/-- The same write to both; which cells it forgets depends on their chunks alone. -/
theorem store (h : a.Blurs b) (c : Chunk) (ofs : Int64) {v w : Value} (hvw : v.Blurs w) :
    (a.store c ofs v).Blurs (b.store c ofs w) where
  summary := congrArg₂ Pointer.join h.summary hvw.provenance_eq
  cells i := by
    rw [cell?_store, cell?_store]
    split
    · exact .some ⟨rfl, hvw.normalize c⟩
    · rw [cell?_invalidate, cell?_invalidate]
      obtain ⟨hx, hy⟩ | ⟨x, y, hx, hy, hxy⟩ := rel_cases (h.cells i)
      · rw [hx, hy]
        exact .none
      · have htouches : x.touches i ofs c.size = y.touches i ofs c.size := by rw [Cell.touches, Cell.touches, hxy.1]
        rw [hx, hy, Option.bind_some, Option.bind_some, htouches]
        split
        · exact .none
        · exact .some hxy

theorem le (h : a.Blurs b) : a ≤ b := by
  refine le_iff.2 ⟨h.summary ▸ le_rfl, fun ofs y hy => ?_⟩
  obtain ⟨-, hnone⟩ | ⟨x, z, hx, hz, hxz⟩ := rel_cases (h.cells ofs)
  · cases hy.symm.trans hnone
  · obtain rfl : z = y := Option.some_inj.1 (hz.symm.trans hy)
    exact ⟨x, hx, hxz.1, hxz.2.le⟩

theorem load_eq (h : a.Blurs b) {c : Chunk} (hc : c.isInteger = true) (ofs : Int64) : a.load c ofs = b.load c ofs := by
  have hanywhere : a.loadAnywhere c = b.loadAnywhere c := by rw [loadAnywhere, loadAnywhere, h.summary]
  rw [load, load, hanywhere]
  obtain ⟨hx, hy⟩ | ⟨x, y, hx, hy, hxy⟩ := rel_cases (h.cells ofs)
  · simp only [cell?] at hx hy
    rw [hx, hy]
  · simp only [cell?] at hx hy
    simp only [hx, hy, hxy.1, hxy.2.normalize_eq hc]

end Block.Blurs

theorem InitItem.cell?_blurs (i : InitItem) :
    Option.Rel (fun x y : Cell => x.chunk = y.chunk ∧ x.value.Blurs y.value) (i.cell? true) (i.cell? false) := by
  cases i with
  | space n => exact .none
  | float32 bits => exact .some ⟨rfl, .number (.inl rfl) rfl⟩
  | float64 bits => exact .some ⟨rfl, .number (.inr rfl) rfl⟩
  | _ => exact .some ⟨rfl, .same ⟨nofun, nofun⟩⟩

theorem Global.layOut_blurs : ∀ (items : List InitItem) {a b : Block} (ofs : Int), a.Blurs b →
    (layOut true a ofs items).Blurs (layOut false b ofs items)
  | [], _, _, _, h => h
  | i :: items, a, b, ofs, h => by
    rw [layOut, layOut]
    refine layOut_blurs items (ofs + i.size) ?_
    obtain ⟨hx, hy⟩ | ⟨x, y, hx, hy, hxy⟩ := rel_cases i.cell?_blurs
    · rw [hx, hy]
      exact h
    · rw [hx, hy]
      simp only [hxy.1]
      exact h.store y.chunk (Int64.ofInt ofs) hxy.2

/-! ## Tables and reads from memory -/

/-- **Two tables of the same symbols**, whose blocks differ in forgotten constants. -/
def ReadOnly.Blurs (on off : ReadOnly) : Prop := ∀ s, Option.Rel Block.Blurs (on.get? s) (off.get? s)

namespace ReadOnly

theorem Blurs.insert {on off : ReadOnly} (h : on.Blurs off) (s : Symbol) {a b : Block} (hab : a.Blurs b) :
    Blurs (on.insert s a) (off.insert s b) := fun i => by
  rw [Table.get?_insert, Table.get?_insert]
  split
  · exact .some hab
  · exact h i

/-- **What is wrong with the globals does not depend on their constants**, and each one adds its block to both tables. -/
theorem extend_blurs : ∀ (globals : List Global) (seen : List Symbol) {on off : ReadOnly}, on.Blurs off →
    (∃ e, extend true seen on globals = .error e ∧ extend false seen off globals = .error e) ∨
      ∃ on' off', extend true seen on globals = .ok on' ∧ extend false seen off globals = .ok off' ∧ on'.Blurs off'
  | [], _, on, off, h => .inr ⟨on, off, rfl, rfl, h⟩
  | g :: rest, seen, on, off, h => by
    rw [extend, extend]
    split
    · exact .inl ⟨_, rfl, rfl⟩
    · split
      · exact .inl ⟨_, rfl, rfl⟩
      · refine extend_blurs rest (g.symbol :: seen) ?_
        split
        · exact h.insert g.symbol (Global.layOut_blurs g.init 0 (.ofSummary _))
        · exact h

end ReadOnly

namespace Memory

/-- What reads of a global see: its own block where it was written, else one of two blocks that differ in forgotten
constants, or the same summary. -/
theorem visible_blurs (m : Memory) {on off : ReadOnly} (h : on.Blurs off) (s : Symbol) :
    m.visible on s = m.visible off s ∨ (m.visible on s).Blurs (m.visible off s) := by
  cases hs : m.globals.get? s with
  | some b =>
    rw [visible_of_tracked hs, visible_of_tracked hs]
    exact .inl rfl
  | none =>
    rw [visible_of_untracked hs, visible_of_untracked hs]
    obtain ⟨ha, hb⟩ | ⟨a, b, ha, hb, hab⟩ := rel_cases (h s)
    · rw [ha, hb]
      exact .inl rfl
    · rw [ha, hb]
      exact .inr hab

theorem load_eq_of_blurs (m : Memory) {on off : ReadOnly} (h : on.Blurs off) {c : Chunk} (hc : c.isInteger = true)
    (p : Pointer) : m.load on c p = m.load off c p := by
  cases p with
  | globalAt s ofs =>
    rw [load_globalAt, load_globalAt]
    rcases m.visible_blurs h s with heq | hblurs
    · rw [heq]
    · exact hblurs.load_eq hc ofs
  | anyOffsetOf s =>
    rw [load_anyOffsetOf, load_anyOffsetOf]
    rcases m.visible_blurs h s with heq | hblurs
    · rw [heq]
    · rw [hblurs.summary]
  | _ => rfl

theorem WellFormed.load_le_of_blurs {m : Memory} (hm : m.WellFormed) {on off : ReadOnly} (hon : on.WellFormed)
    (hoff : off.WellFormed) (h : on.Blurs off) (c : Chunk) (p : Pointer) : m.load on c p ≤ m.load off c p := by
  refine load_le_of_visible hm hm hon hoff (Block.le_refl hm.frame) (fun s => ?_) le_rfl le_rfl c p
  rcases m.visible_blurs h s with heq | hblurs
  · rw [heq]
    exact Block.le_refl (hm.visible hoff s).1
  · exact hblurs.le

/-- **Forgetting floating-point constants only loses precision**, and none in what integer chunks read. -/
theorem floatConstants_only_refine (globals : List Global) :
    (∃ e, ReadOnly.ofGlobals true globals = .error e ∧ ReadOnly.ofGlobals false globals = .error e) ∨
      ∃ on off, ReadOnly.ofGlobals true globals = .ok on ∧ ReadOnly.ofGlobals false globals = .ok off ∧
        (∀ s, on.contains s = off.contains s) ∧
        (∀ s a b, on.get? s = some a → off.get? s = some b → a.le b = true) ∧
        ∀ m : Memory, m.Reachable → ∀ (c : Chunk) (p : Pointer), (m.load on c p).le (m.load off c p) = true ∧
          (c ∉ [Chunk.float32, .float64, .any32, .any64] → m.load on c p = m.load off c p) := by
  have hempty : ReadOnly.Blurs .empty .empty := fun _ => .none
  rcases ReadOnly.extend_blurs globals [] hempty with herror | ⟨on, off, hon, hoff, h⟩
  · exact .inl herror
  refine .inr ⟨on, off, hon, hoff, fun s => ?_, fun s a b ha hb => ?_, fun m hm c p => ⟨?_, fun hc => ?_⟩⟩
  · rw [Table.contains, Table.contains]
    obtain ⟨ha, hb⟩ | ⟨a, b, ha, hb, -⟩ := rel_cases (h s) <;> rw [ha, hb]
    rfl
  · have hab := h s
    rw [ha, hb] at hab
    cases hab with
    | some hab => exact Block.le_eq_true.2 hab.le
  · rw [Value.le_eq_true]
    exact hm.wellFormed.load_le_of_blurs (ReadOnly.wellFormed_ofGlobals hon) (ReadOnly.wellFormed_ofGlobals hoff) h c p
  · exact m.load_eq_of_blurs h (Chunk.isInteger_iff.2 hc) p

/-- A constant read as a float is known or not; read as a whole word it is some word either way. -/
theorem floatConstants_only_refine_eighths :
    let eighths : Global := ⟨⟨1⟩, "eighths", true, false, [.float64 0x400a000000000000, .int64 26]⟩
    ∃ on off, ReadOnly.ofGlobals true [eighths] = .ok on ∧ ReadOnly.ofGlobals false [eighths] = .ok off ∧
      (entry.load on .float64 (.globalAt ⟨1⟩ 0) = .float 0x400a000000000000 ∧
        entry.load off .float64 (.globalAt ⟨1⟩ 0) = .num .float ∧
        (entry.load on .float64 (.globalAt ⟨1⟩ 0)).le (entry.load off .float64 (.globalAt ⟨1⟩ 0)) = true) ∧
      entry.load on .int64 (.globalAt ⟨1⟩ 0) = .num .long ∧
      entry.load on .int64 (.globalAt ⟨1⟩ 0) = entry.load off .int64 (.globalAt ⟨1⟩ 0) := by
  intro eighths
  have hon : ReadOnly.ofGlobals true [eighths] = .ok (Table.empty.insert ⟨1⟩ (eighths.contents true)) := rfl
  have hoff : ReadOnly.ofGlobals false [eighths] = .ok (Table.empty.insert ⟨1⟩ (eighths.contents false)) := rfl
  rcases floatConstants_only_refine [eighths] with ⟨e, he, -⟩ | ⟨on, off, hon', hoff', -, -, hloads⟩
  · cases hon.symm.trans he
  · obtain rfl : on = _ := Except.ok.inj (hon'.symm.trans hon)
    obtain rfl : off = _ := Except.ok.inj (hoff'.symm.trans hoff)
    have hload := hloads entry .entry
    exact ⟨_, _, hon, hoff, ⟨by decide, by decide, (hload .float64 _).1⟩, by decide, (hload .int64 _).2 (by decide)⟩

end Memory
end ValueFlow
