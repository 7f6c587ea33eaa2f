import Mathlib.Data.List.Forall2
import ValueFlow.State
import ValueFlow.Proofs.Value
/-!
# The order on register files

A register file is known by what it gives for each register and for all the rest: two tidy files that agree there are
equal, so every law of the register join is the law of the value join, register by register.  Every file that operations
on canonical values make is tidy (`Reachable.wellFormed`), so the equality that the solver tests is that of look-ups.
-/
namespace ValueFlow

namespace Registers
open Value

/-! ## What each operation gives -/

theorem get_set (rs : Registers) (r : Reg) (v : Value) (i : Reg) :
    (rs.set r v).get i = if r = i then v else rs.get i := by
  unfold get set
  by_cases hv : v = rs.unmapped
  · rw [if_pos hv]
    simp only [Table.get?_erase]
    by_cases hi : r = i
    · rw [if_pos hi, if_pos hi, hv]
      rfl
    · rw [if_neg hi, if_neg hi]
  · rw [if_neg hv]
    simp only [Table.get?_insert]
    by_cases hi : r = i
    · rw [if_pos hi, if_pos hi]
      rfl
    · rw [if_neg hi, if_neg hi]

theorem get_setAll (f : Reg → Value) (i : Reg) : ∀ (l : List Reg) (rs : Registers),
    (l.foldl (fun rs r => rs.set r (f r)) rs).get i = if i ∈ l then f i else rs.get i
  | [], rs => by simp
  | r :: l, rs => by
    rw [List.foldl_cons, get_setAll f i l, get_set]
    by_cases hl : i ∈ l
    · rw [if_pos hl, if_pos (List.mem_cons_of_mem r hl)]
    · rw [if_neg hl]
      by_cases hr : r = i
      · rw [if_pos hr, if_pos (hr ▸ List.mem_cons_self), hr]
      · rw [if_neg hr, if_neg fun h => (List.mem_cons.1 h).elim (fun h => hr h.symm) hl]

theorem unmapped_setAll (f : Reg → Value) : ∀ (l : List Reg) (rs : Registers),
    (l.foldl (fun rs r => rs.set r (f r)) rs).unmapped = rs.unmapped
  | [], _ => rfl
  | _ :: l, _ => unmapped_setAll f l _

theorem get_kill (rs : Registers) (dead : List Reg) (r : Reg) :
    (rs.kill dead).get r = if r ∈ dead then .bottom else rs.get r :=
  get_setAll (fun _ => .bottom) r dead rs

theorem get_of_not_mem_keys {rs : Registers} {r : Reg} (h : r ∉ rs.values.keys) : rs.get r = rs.unmapped := by
  unfold get
  cases hv : rs.values.get? r with
  | none => rfl
  | some v => exact absurd (List.mem_map.2 ⟨(r, v), Table.mem_entries_iff.2 hv, rfl⟩) h

/-- **Files join register by register.** -/
theorem get_join (a b : Registers) (r : Reg) : (a.join b).get r = (a.get r).join (b.get r) := by
  rw [join, get_setAll (fun r => (a.get r).join (b.get r))]
  split
  · rfl
  · rename_i hr
    rw [List.mem_append, not_or] at hr
    rw [get_of_not_mem_keys hr.1, get_of_not_mem_keys hr.2]
    rfl

theorem unmapped_join (a b : Registers) : (a.join b).unmapped = a.unmapped.join b.unmapped :=
  unmapped_setAll (fun r => (a.get r).join (b.get r)) _ _

/-! ## Well-formed files -/

/-- No entry says what `unmapped` says already. -/
def Tidy (rs : Registers) : Prop := ∀ r v, rs.values.get? r = some v → v ≠ rs.unmapped

theorem Tidy.set {rs : Registers} (h : rs.Tidy) (r : Reg) (v : Value) : (rs.set r v).Tidy := by
  intro i w hw
  unfold Registers.set at hw
  by_cases hv : v = rs.unmapped
  · rw [if_pos hv] at hw
    simp only [Table.get?_erase] at hw
    split at hw
    · cases hw
    · exact h i w hw
  · rw [if_neg hv] at hw
    simp only [Table.get?_insert] at hw
    split at hw
    · cases hw
      exact hv
    · exact h i w hw

theorem Tidy.setAll (f : Reg → Value) : ∀ (l : List Reg) {rs : Registers}, rs.Tidy →
    (l.foldl (fun rs r => rs.set r (f r)) rs).Tidy
  | [], _, h => h
  | r :: l, _, h => Tidy.setAll f l (h.set r (f r))

theorem tidy_empty (u : Value) : Tidy ⟨.empty, u⟩ := fun _ _ hv => by cases hv

theorem tidy_join (a b : Registers) : (a.join b).Tidy :=
  Tidy.setAll (fun r => (a.get r).join (b.get r)) _ (tidy_empty _)

/-- **Tidy files that give the same are the same.** -/
theorem ext_get {a b : Registers} (ha : a.Tidy) (hb : b.Tidy) (hu : a.unmapped = b.unmapped)
    (h : ∀ r, a.get r = b.get r) : a = b := by
  have hvalues : a.values = b.values := Table.ext_get? fun r => by
    have hr := h r
    unfold get at hr
    cases hx : a.values.get? r with
    | none =>
      cases hy : b.values.get? r with
      | none => rfl
      | some y =>
        rw [hx, hy] at hr
        exact absurd (hr.symm.trans hu) (hb r y hy)
    | some x =>
      cases hy : b.values.get? r with
      | none =>
        rw [hx, hy] at hr
        exact absurd (hr.trans hu.symm) (ha r x hx)
      | some y =>
        rw [hx, hy] at hr
        exact congrArg some hr
  cases a
  cases b
  cases hu
  cases hvalues
  rfl

structure WellFormed (rs : Registers) : Prop where
  tidy : rs.Tidy
  unmapped : rs.unmapped = .bottom ∨ rs.unmapped = .top
  canonical : ∀ r, (rs.get r).Canonical

theorem WellFormed.canonical_unmapped {rs : Registers} (h : rs.WellFormed) : rs.unmapped.Canonical := by
  rcases h.unmapped with h | h <;> rw [h] <;> exact ⟨nofun, nofun⟩

theorem WellFormed.set {rs : Registers} (h : rs.WellFormed) (r : Reg) {v : Value} (hv : v.Canonical) :
    (rs.set r v).WellFormed where
  tidy := h.tidy.set r v
  unmapped := h.unmapped
  canonical i := by
    rw [get_set]
    split
    · exact hv
    · exact h.canonical i

theorem WellFormed.setAll {f : Reg → Value} (hf : ∀ r, (f r).Canonical) : ∀ (l : List Reg) {rs : Registers},
    rs.WellFormed → (l.foldl (fun rs r => rs.set r (f r)) rs).WellFormed
  | [], _, h => h
  | r :: l, _, h => WellFormed.setAll hf l (h.set r (hf r))

theorem wellFormed_empty {u : Value} (hu : u = .bottom ∨ u = .top) : WellFormed ⟨.empty, u⟩ where
  tidy := tidy_empty u
  unmapped := hu
  canonical _ := by rcases hu with rfl | rfl <;> exact ⟨nofun, nofun⟩

theorem wellFormed_top : top.WellFormed := wellFormed_empty (.inr rfl)

theorem wellFormed_entry (params : List Reg) : (entry params).WellFormed :=
  WellFormed.setAll (f := fun _ => .numOrPtr .nonStack) (fun _ => ⟨nofun, nofun⟩) params (wellFormed_empty (.inl rfl))

theorem WellFormed.kill {rs : Registers} (h : rs.WellFormed) (dead : List Reg) : (rs.kill dead).WellFormed :=
  WellFormed.setAll (f := fun _ => .bottom) (fun _ => ⟨nofun, nofun⟩) dead h

theorem WellFormed.join {a b : Registers} (ha : a.WellFormed) (hb : b.WellFormed) : (a.join b).WellFormed where
  tidy := tidy_join a b
  unmapped := by
    rw [unmapped_join]
    rcases ha.unmapped with h | h <;> rcases hb.unmapped with h' | h' <;> rw [h, h']
    exacts [.inl rfl, .inr rfl, .inr rfl, .inr rfl]
  canonical r := by
    rw [get_join]
    exact canonical_join (ha.canonical r) (hb.canonical r)

theorem lattice : SemilatticeOn WellFormed join where
  closed := WellFormed.join
  comm {a b} ha hb := by
    refine ext_get (tidy_join a b) (tidy_join b a) ?_ fun r => ?_
    · rw [unmapped_join, unmapped_join, Value.join_comm]
    · rw [get_join, get_join, Value.join_comm]
  assoc {a b c} ha hb hc := by
    refine ext_get (tidy_join _ c) (tidy_join a _) ?_ fun r => ?_
    · simp only [unmapped_join]
      exact Value.lattice.assoc ha.canonical_unmapped hb.canonical_unmapped hc.canonical_unmapped
    · simp only [get_join]
      exact Value.lattice.assoc (ha.canonical r) (hb.canonical r) (hc.canonical r)
  idem {a} ha := by
    refine ext_get (tidy_join a a) ha.tidy ?_ fun r => ?_
    · rw [unmapped_join]
      exact Value.lattice.idem ha.canonical_unmapped
    · rw [get_join]
      exact Value.lattice.idem (ha.canonical r)

/-! ## Order -/

instance : LE Registers := ⟨fun a b => a.join b = b⟩

@[simp] theorem le_eq_true {a b : Registers} : a.le b = true ↔ a ≤ b := beq_iff_eq

theorem get_mono {a b : Registers} (h : a ≤ b) (r : Reg) : a.get r ≤ b.get r :=
  (get_join a b r).symm.trans (congrArg (get · r) h)

theorem unmapped_mono {a b : Registers} (h : a ≤ b) : a.unmapped ≤ b.unmapped :=
  (unmapped_join a b).symm.trans (congrArg Registers.unmapped h)

/-- **Files are ordered register by register.** -/
theorem le_of_get {a b : Registers} (hb : b.WellFormed) (hu : a.unmapped ≤ b.unmapped) (h : ∀ r, a.get r ≤ b.get r) :
    a ≤ b :=
  ext_get (tidy_join a b) hb.tidy ((unmapped_join a b).trans hu) fun r => (get_join a b r).trans (h r)

theorem le_iff_get {a b : Registers} (hb : b.WellFormed) :
    a ≤ b ↔ a.unmapped ≤ b.unmapped ∧ ∀ r, a.get r ≤ b.get r :=
  ⟨fun h => ⟨unmapped_mono h, get_mono h⟩, fun h => le_of_get hb h.1 h.2⟩

theorem set_mono {a b : Registers} (hb : b.WellFormed) (h : a ≤ b) (r : Reg) {v w : Value} (hw : w.Canonical)
    (hvw : v ≤ w) : a.set r v ≤ b.set r w := by
  refine le_of_get (hb.set r hw) (unmapped_mono h :) fun i => ?_
  rw [get_set, get_set]
  split
  · exact hvw
  · exact get_mono h i

theorem kill_mono {a b : Registers} (hb : b.WellFormed) (h : a ≤ b) (dead : List Reg) : a.kill dead ≤ b.kill dead := by
  refine le_of_get (hb.kill dead) ?_ fun r => ?_
  · rw [kill, kill, unmapped_setAll (fun _ => .bottom), unmapped_setAll (fun _ => .bottom)]
    exact unmapped_mono h
  · rw [get_kill, get_kill]
    split
    · exact bottom_le _
    · exact get_mono h r

theorem le_top {a : Registers} (ha : a.WellFormed) : a ≤ top :=
  le_of_get wellFormed_top (Value.le_top ha.canonical_unmapped) fun r => Value.le_top (ha.canonical r)

theorem top_join {a : Registers} (ha : a.WellFormed) : top.join a = top :=
  (lattice.comm wellFormed_top ha).trans (le_top ha)

theorem getAll_canonical {rs : Registers} (h : rs.WellFormed) (l : List Reg) : ∀ v ∈ rs.getAll l, v.Canonical := by
  intro v hv
  obtain ⟨r, -, rfl⟩ := List.mem_map.1 hv
  exact h.canonical r

theorem getAll_mono {a b : Registers} (h : a ≤ b) (l : List Reg) : List.Forall₂ (· ≤ ·) (a.getAll l) (b.getAll l) := by
  unfold getAll
  rw [List.forall₂_map_left_iff, List.forall₂_map_right_iff, List.forall₂_same]
  exact fun r _ => get_mono h r

/-! ## Files that occur -/

/-- **The files that come about from those of no knowledge and of a function's entry** by setting registers to canonical
values, forgetting registers and joining. -/
inductive Reachable : Registers → Prop where
  | unwritten : Reachable unwritten
  | top : Reachable top
  | entry (params : List Reg) : Reachable (entry params)
  | set {rs : Registers} (r : Reg) {v : Value} (hv : v.Canonical) : Reachable rs → Reachable (rs.set r v)
  | kill {rs : Registers} (dead : List Reg) : Reachable rs → Reachable (rs.kill dead)
  | join {a b : Registers} : Reachable a → Reachable b → Reachable (a.join b)

theorem Reachable.wellFormed {rs : Registers} (h : rs.Reachable) : rs.WellFormed := by
  induction h with
  | unwritten => exact wellFormed_empty (.inl rfl)
  | top => exact wellFormed_top
  | entry params => exact wellFormed_entry params
  | set r hv _ ih => exact ih.set r hv
  | kill dead _ ih => exact ih.kill dead
  | join _ _ iha ihb => exact iha.join ihb

/-- **A file is what it gives for each register.**  No entry repeats the default, whatever the operations that made the
file, so equality and order of files are those of look-ups, and every operation acts on them register by register. -/
theorem reachable_extensional {a : Registers} (ha : a.Reachable) :
    (∀ r v, (r, v) ∈ a.values.entries → v ≠ a.unmapped) ∧
    (∀ r v i, (a.set r v).get i = if r = i then v else a.get i) ∧
    (∀ dead i, (a.kill dead).get i = if i ∈ dead then .bottom else a.get i) ∧
    ∀ b : Registers, b.Reachable →
      (∀ r, (a.join b).get r = (a.get r).join (b.get r)) ∧
      (a.unmapped = b.unmapped → (a = b ↔ ∀ r, a.get r = b.get r)) ∧
      (a.le b = true ↔ a.unmapped.le b.unmapped = true ∧ ∀ r, (a.get r).le (b.get r) = true) := by
  have hwf := ha.wellFormed
  refine ⟨fun r v hmem => hwf.tidy r v (Table.mem_entries_iff.1 hmem), a.get_set, a.get_kill, fun b hb => ?_⟩
  have hwf' := hb.wellFormed
  refine ⟨a.get_join b, fun hu => ⟨fun h r => ?_, ext_get hwf.tidy hwf'.tidy hu⟩, ?_⟩
  · rw [h]
  · simp only [le_eq_true, Value.le_eq_true]
    exact le_iff_get hwf'

/-- A register forgotten in the file that knows nothing, and joined with files of another default: what the join knows of
it is what the second side knows, of a parameter nothing, and setting it back leaves no entry. -/
theorem reachable_extensional_forgottenRegister :
    let killed := top.kill [⟨4⟩]
    let written := (entry [⟨2⟩]).set ⟨4⟩ (.int 1)
    let joined := killed.join written
    (killed.Reachable ∧ written.Reachable ∧ joined.Reachable) ∧
      (killed.get ⟨4⟩ = .bottom ∧ killed.unmapped ≠ written.unmapped) ∧
      ((⟨4⟩, .int 1) ∈ joined.values.entries ∧ Value.int 1 ≠ joined.unmapped) ∧
      (joined.get ⟨2⟩ = (killed.get ⟨2⟩).join (written.get ⟨2⟩) ∧ joined.get ⟨2⟩ = .top) ∧
      (joined = top.set ⟨4⟩ (.int 1) ∧ ∀ r, joined.get r = (top.set ⟨4⟩ (.int 1)).get r) ∧
      (joined.set ⟨4⟩ .top = top ∧ (joined.set ⟨4⟩ .top).get ⟨4⟩ = .top) ∧
      written.le joined = true ∧ ∀ r, (written.get r).le (joined.get r) = true := by
  intro killed written joined
  have hkilled : killed.Reachable := .kill _ .top
  have hwritten : written.Reachable := .set _ (by decide) (.entry _)
  have hjoined : joined.Reachable := .join hkilled hwritten
  have hset : (top.set ⟨4⟩ (.int 1)).Reachable := .set _ (by decide) .top
  obtain ⟨-, -, -, hwith⟩ := reachable_extensional hkilled
  obtain ⟨hstored, hget, -, hother⟩ := reachable_extensional hjoined
  obtain ⟨-, heq, -⟩ := hother _ hset
  obtain ⟨-, -, hle⟩ := (reachable_extensional hwritten).2.2.2 joined hjoined
  have hmem : (⟨4⟩, .int 1) ∈ joined.values.entries := by decide
  have hsame : joined = top.set ⟨4⟩ (.int 1) := by decide
  have hbelow : written.le joined = true := by decide
  exact ⟨⟨hkilled, hwritten, hjoined⟩, by decide, ⟨hmem, hstored _ _ hmem⟩, ⟨(hwith written hwritten).1 ⟨2⟩, by decide⟩,
    ⟨hsame, (heq rfl).1 hsame⟩, ⟨by decide, hget ⟨4⟩ .top ⟨4⟩⟩, hbelow, (hle.1 hbelow).2⟩

end Registers
end ValueFlow
