import Mathlib.Data.List.Nodup
import ValueFlow.Proofs.Layout
/-!
# What the read-only table holds

The items of an initializer are laid out one after the other, so each is written where everything written before it has
ended, and no write forgets an earlier one.  Where an item of the right size begins, a read sees it; everywhere else it
sees the summary, which is the class of all addresses among the items.  A table is determined by its look-ups, and those
do not depend on the order of the globals.
-/
namespace ValueFlow

/-! ## Places in an initializer -/

namespace InitItem

/-- **The chunk and the value that an item writes.**  A gap writes nothing, and a floating-point constant is known only
with `floats`. -/
inductive Writes : (floats : Bool) → InitItem → Chunk → Value → Prop where
  | int8 {floats : Bool} (n : Int32) : Writes floats (int8 n) (.narrow .u8) (.int n)
  | int16 {floats : Bool} (n : Int32) : Writes floats (int16 n) (.narrow .u16) (.int n)
  | int32 {floats : Bool} (n : Int32) : Writes floats (int32 n) .int32 (.int n)
  | int64 {floats : Bool} (n : Int64) : Writes floats (int64 n) .int64 (.long n)
  | single (bits : UInt32) : Writes true (float32 bits) .float32 (.single bits)
  | float (bits : UInt64) : Writes true (float64 bits) .float64 (.float bits)
  | someSingle (bits : UInt32) : Writes false (float32 bits) .float32 (.num .single)
  | someFloat (bits : UInt64) : Writes false (float64 bits) .float64 (.num .float)
  | addrOf {floats : Bool} (s : Symbol) (ofs : Int64) : Writes floats (addrOf s ofs) .pointer (.ptr (.globalAt s ofs))

theorem writes_iff {floats : Bool} {i : InitItem} {c : Chunk} {v : Value} :
    Writes floats i c v ↔ i.cell? floats = some ⟨c, v⟩ := by
  constructor
  · intro h
    cases h <;> rfl
  · intro h
    cases i <;> cases floats <;> cases h <;> constructor

def extent (items : List InitItem) : Int := items.foldr (fun i n => i.size + n) 0

/-- **An item and its offset**, which is what the items before it take. -/
def LiesAt (items : List InitItem) (i : InitItem) (ofs : Int) : Prop :=
  ∃ before after, items = before ++ i :: after ∧ extent before = ofs

/-- The class of all addresses among the items. -/
def addresses : List InitItem → Pointer
  | []                    => .bottom
  | .addrOf s ofs :: rest => (Pointer.globalAt s ofs).join (addresses rest)
  | _ :: rest             => addresses rest

@[simp] theorem extent_cons (i : InitItem) (items : List InitItem) : extent (i :: items) = i.size + extent items := rfl

theorem extent_append (before after : List InitItem) : extent (before ++ after) = extent before + extent after := by
  induction before with
  | nil => exact (Int.zero_add _).symm
  | cons i before ih => rw [List.cons_append, extent_cons, extent_cons, ih, Int.add_assoc]

theorem size_nonneg (i : InitItem) : 0 ≤ i.size := by
  cases i with
  | space n => exact Int.le_max_right _ _
  | _ => simp [size]

theorem extent_nonneg (items : List InitItem) : 0 ≤ extent items := by
  induction items with
  | nil => exact Int.le_refl 0
  | cons i items ih => exact Int.add_nonneg i.size_nonneg ih

theorem size_of_cell? {floats : Bool} {i : InitItem} {d : Cell} (h : i.cell? floats = some d) : i.size = d.chunk.size := by
  cases i <;> cases h <;> rfl

@[simp] theorem not_liesAt_nil (i : InitItem) (ofs : Int) : ¬ LiesAt [] i ofs := by
  simp [LiesAt]

theorem liesAt_cons {j i : InitItem} {items : List InitItem} {ofs : Int} :
    LiesAt (j :: items) i ofs ↔ i = j ∧ ofs = 0 ∨ LiesAt items i (ofs - j.size) := by
  constructor
  · rintro ⟨before, after, hsplit, rfl⟩
    cases before with
    | nil =>
      cases hsplit
      exact .inl ⟨rfl, rfl⟩
    | cons k before =>
      cases hsplit
      exact .inr ⟨before, after, rfl, by rw [extent_cons]; omega⟩
  · rintro (⟨rfl, rfl⟩ | ⟨before, after, rfl, hbefore⟩)
    · exact ⟨[], items, rfl, rfl⟩
    · exact ⟨j :: before, after, rfl, by rw [extent_cons]; omega⟩

theorem addresses_of_cell? {floats : Bool} {i : InitItem} {d : Cell} (h : i.cell? floats = some d)
    (items : List InitItem) : addresses (i :: items) = d.value.provenance.join (addresses items) := by
  cases i with
  | addrOf =>
    cases h
    rfl
  | _ => cases floats <;> cases h <;> exact (Pointer.bottom_join _).symm

theorem addresses_of_gap {floats : Bool} {i : InitItem} (h : i.cell? floats = none) (items : List InitItem) :
    addresses (i :: items) = addresses items := by
  cases i <;> first | rfl | cases h

end InitItem

open InitItem

/-! ## Laying out -/

namespace Block

/-- Everything known ends by a byte position. -/
def EndsBy (b : Block) (ofs : Int) : Prop := ∀ j x, b.cell? j = some x → j.toInt + x.chunk.size ≤ ofs

theorem EndsBy.mono {b : Block} {ofs ofs' : Int} (h : b.EndsBy ofs) (hle : ofs ≤ ofs') : b.EndsBy ofs' :=
  fun j x hx => Int.le_trans (h j x hx) hle

/-- **A write where everything known has ended forgets nothing.** -/
theorem EndsBy.store_eq_some {b : Block} {ofs : Int64} (h : b.EndsBy ofs.toInt) (c : Chunk) (v : Value) {j : Int64}
    {x : Cell} : (b.store c ofs v).cell? j = some x ↔ b.cell? j = some x ∨ ofs = j ∧ x = ⟨c, v.normalize c⟩ := by
  by_cases hj : ofs = j
  · subst hj
    have hnone : b.cell? ofs ≠ some x := fun hx => by
      have hend := h ofs x hx
      have hpos := x.chunk.size_pos
      omega
    simp [cell?_store, hnone, eq_comm]
  · constructor
    · intro hx
      rw [cell?_store, if_neg hj] at hx
      exact .inl (invalidate_eq_some.1 hx).1
    · rintro (hx | ⟨heq, -⟩)
      · refine cell?_store_of_apart v hx fun hov => ?_
        have hend := h j x hx
        rw [Chunk.overlaps_iff] at hov
        omega
      · exact absurd heq hj

theorem EndsBy.store {b : Block} {ofs : Int64} (h : b.EndsBy ofs.toInt) (c : Chunk) (v : Value) :
    (b.store c ofs v).EndsBy (ofs.toInt + c.size) := by
  intro j x hx
  rcases (h.store_eq_some c v).1 hx with hx | ⟨rfl, rfl⟩
  · have hend := h j x hx
    have hpos := c.size_pos
    omega
  · exact Int.le_refl _

end Block

theorem toInt_ofInt_of_fits {ofs : Int} (h₀ : 0 ≤ ofs) (h₁ : ofs ≤ 9223372036854775807) : (Int64.ofInt ofs).toInt = ofs :=
  Int64.toInt_ofInt_of_le (by omega) (by omega)

namespace Global

/-- **Laying out adds one cell for each item that writes one**, at its own offset, and forgets nothing. -/
theorem layOut_eq_some (floats : Bool) {j : Int64} {x : Cell} : ∀ (items : List InitItem) {b : Block} {ofs : Int},
    0 ≤ ofs → ofs + extent items ≤ 9223372036854775807 → b.EndsBy ofs →
    ((layOut floats b ofs items).cell? j = some x ↔ b.cell? j = some x ∨
      ∃ i d, LiesAt items i (j.toInt - ofs) ∧ i.cell? floats = some d ∧ x = ⟨d.chunk, d.value.normalize d.chunk⟩)
  | [], b, ofs, _, _, _ => by
    simp [layOut]
  | i :: items, b, ofs, h₀, h₁, hb => by
    rw [extent_cons] at h₁
    have hrest := extent_nonneg items
    have hsize := i.size_nonneg
    have hofs := toInt_ofInt_of_fits h₀ (by omega)
    have hat : ∀ k, LiesAt (i :: items) k (j.toInt - ofs) ↔
        k = i ∧ Int64.ofInt ofs = j ∨ LiesAt items k (j.toInt - (ofs + i.size)) := fun k => by
      rw [liesAt_cons, Int.sub_sub, ← Int64.toInt_inj, hofs]
      constructor <;> rintro (⟨rfl, h⟩ | h)
      · exact .inl ⟨rfl, by omega⟩
      · exact .inr h
      · exact .inl ⟨rfl, by omega⟩
      · exact .inr h
    rw [layOut]
    cases hc : i.cell? floats with
    | none =>
      rw [layOut_eq_some floats items (by omega) (by omega) (hb.mono (by omega))]
      refine or_congr_right ⟨?_, ?_⟩
      · rintro ⟨k, d, hk, hd, rfl⟩
        exact ⟨k, d, (hat k).2 (.inr hk), hd, rfl⟩
      · rintro ⟨k, d, hk, hd, rfl⟩
        rcases (hat k).1 hk with ⟨rfl, -⟩ | hk
        · rw [hc] at hd
          cases hd
        · exact ⟨k, d, hk, hd, rfl⟩
    | some d =>
      have hbefore : b.EndsBy (Int64.ofInt ofs).toInt := by rwa [hofs]
      have hafter := hbefore.store d.chunk d.value
      rw [hofs, ← size_of_cell? hc] at hafter
      rw [layOut_eq_some floats items (by omega) (by omega) hafter, hbefore.store_eq_some, or_assoc]
      refine or_congr_right ⟨?_, ?_⟩
      · rintro (⟨hj, rfl⟩ | ⟨k, e, hk, he, rfl⟩)
        · exact ⟨i, d, (hat i).2 (.inl ⟨rfl, hj⟩), hc, rfl⟩
        · exact ⟨k, e, (hat k).2 (.inr hk), he, rfl⟩
      · rintro ⟨k, e, hk, he, rfl⟩
        rcases (hat k).1 hk with ⟨rfl, hj⟩ | hk
        · rw [hc, Option.some_inj] at he
          subst he
          exact .inl ⟨hj, rfl⟩
        · exact .inr ⟨k, e, hk, he, rfl⟩

theorem summary_layOut (floats : Bool) : ∀ (items : List InitItem) (b : Block) (ofs : Int),
    (layOut floats b ofs items).summary = b.summary.join (addresses items)
  | [], b, _ => (Pointer.join_bottom _).symm
  | i :: items, b, ofs => by
    rw [layOut, summary_layOut floats items]
    cases hc : i.cell? floats with
    | none => rw [addresses_of_gap hc]
    | some d =>
      rw [addresses_of_cell? hc]
      exact Pointer.join_assoc _ _ _

/-- **Reads from a block that holds an initializer.**  A read of just an item's bytes sees the item; any other sees what
the addresses among the items may be. -/
structure Holds (floats : Bool) (items : List InitItem) (b : Block) : Prop where
  item : ∀ {i d v}, Writes floats i d v → ∀ c o, LiesAt items i o.toInt → i.size = c.size →
    b.load c o = (v.normalize d).normalize c
  elsewhere : ∀ c o, (∀ i d v, Writes floats i d v → LiesAt items i o.toInt → i.size ≠ c.size) →
    b.load c o = (Value.mixed (addresses items)).normalize c

theorem contents_eq_some {floats : Bool} {g : Global} (hfits : extent g.init ≤ 9223372036854775807) {j : Int64} {x : Cell} :
    (g.contents floats).cell? j = some x ↔
      ∃ i d, LiesAt g.init i j.toInt ∧ i.cell? floats = some d ∧ x = ⟨d.chunk, d.value.normalize d.chunk⟩ := by
  have hempty : (Block.ofSummary .bottom).EndsBy 0 := nofun
  rw [contents, layOut_eq_some floats g.init (Int.le_refl 0) (by omega) hempty, Int.sub_zero]
  exact or_iff_right nofun

theorem holds_contents (floats : Bool) {g : Global} (hfits : extent g.init ≤ 9223372036854775807) :
    Holds floats g.init (g.contents floats) where
  item {i d v} hw c o hat hsize := by
    have hd := writes_iff.1 hw
    have hcell := (contents_eq_some hfits).2 ⟨i, _, hat, hd, rfl⟩
    exact Block.load_of_cell hcell ((size_of_cell? hd).symm.trans hsize)
  elsewhere c o hother := by
    have hsummary : (g.contents floats).summary = addresses g.init :=
      (summary_layOut floats g.init _ 0).trans (Pointer.bottom_join _)
    rw [Value.normalize_mixed, ← hsummary]
    rcases (g.contents floats).load_cases c o with ⟨x, hx, hsize, -⟩ | hload
    · obtain ⟨i, d, hat, hd, rfl⟩ := (contents_eq_some hfits).1 hx
      exact absurd ((size_of_cell? hd).trans hsize) (hother i _ _ (writes_iff.2 hd) hat)
    · exact hload

/-! ## Which globals are admitted, and which are tracked -/

/-- **The items can be laid out.** -/
structure Admissible (g : Global) : Prop where
  space_nonneg : ∀ n, .space n ∈ g.init → 0 ≤ n.toInt
  fits : extent g.init ≤ 9223372036854775807

theorem negativeSpace?_eq_none {i : InitItem} : i.negativeSpace? = none ↔ ∀ n, i = .space n → 0 ≤ n.toInt := by
  cases i with
  | space n =>
    have hlt : n < 0 ↔ n.toInt < 0 := Int64.lt_iff_toInt_lt
    simp [negativeSpace?, hlt]
  | _ => simp [negativeSpace?]

theorem initFault?_eq_none {g : Global} : g.initFault? = none ↔ g.Admissible := by
  have hspace : g.init.findSome? InitItem.negativeSpace? = none ↔ ∀ n, .space n ∈ g.init → 0 ≤ n.toInt := by
    simp only [List.findSome?_eq_none_iff, negativeSpace?_eq_none]
    exact ⟨fun h n hn => h _ hn n rfl, fun h i hi n hin => h n (hin ▸ hi)⟩
  have hsize : g.initSize?.isNone = false ↔ extent g.init ≤ 9223372036854775807 := by
    rw [initSize?, extent]
    split <;> simp_all
  rw [initFault?]
  constructor
  · intro h
    split at h
    · cases h
    · rename_i hnone
      split at h
      · cases h
      · rename_i hsome
        exact ⟨hspace.1 hnone, hsize.1 (Bool.not_eq_true _ ▸ hsome)⟩
  · rintro ⟨hnone, hsome⟩
    rw [hspace.2 hnone, hsize.2 hsome]
    rfl

theorem isTracked_iff {g : Global} : g.isTracked = true ↔
    g.readonly = true ∧ g.volatile = false ∧ g.init ≠ [] ∧ ∀ n, g.init ≠ [.space n] := by
  have hdefinitive : g.isDefinitive = true ↔ g.init ≠ [] ∧ ∀ n, g.init ≠ [.space n] := by
    rw [isDefinitive]
    split <;> simp_all
  rw [isTracked, Bool.and_eq_true, Bool.and_eq_true, hdefinitive, Bool.not_eq_true', and_assoc]

end Global

namespace ReadOnly

/-- **All the globals are added exactly if their symbols are new and distinct and each can be laid out.** -/
theorem extend_ok_iff {floats : Bool} : ∀ {globals : List Global} {seen : List Symbol} {t : ReadOnly},
    (∃ ro, extend floats seen t globals = .ok ro) ↔
      (∀ g ∈ globals, g.symbol ∉ seen) ∧ (globals.map Global.symbol).Nodup ∧ ∀ g ∈ globals, g.Admissible
  | [], seen, t => by simp [extend]
  | g :: rest, seen, t => by
    rw [extend]
    split
    · rename_i hseen
      have hmem : g.symbol ∈ seen := List.contains_iff_mem.1 hseen
      constructor
      · rintro ⟨ro, ⟨⟩⟩
      · exact fun h => absurd hmem (h.1 g List.mem_cons_self)
    · rename_i hfresh
      have hnew : g.symbol ∉ seen := fun hmem => hfresh (List.contains_iff_mem.2 hmem)
      split
      · rename_i fault hfault
        constructor
        · rintro ⟨ro, ⟨⟩⟩
        · intro h
          rw [Global.initFault?_eq_none.2 (h.2.2 g List.mem_cons_self)] at hfault
          cases hfault
      · rename_i hfine
        have hg := Global.initFault?_eq_none.1 hfine
        rw [extend_ok_iff, List.map_cons, List.nodup_cons, List.forall_mem_cons, List.forall_mem_cons]
        constructor
        · rintro ⟨hrest, hdistinct, hadmissible⟩
          refine ⟨⟨hnew, fun h hh hmem => hrest h hh (List.mem_cons_of_mem _ hmem)⟩, ⟨?_, hdistinct⟩, hg, hadmissible⟩
          intro hmem
          obtain ⟨h, hh, heq⟩ := List.mem_map.1 hmem
          exact hrest h hh (heq ▸ List.mem_cons_self)
        · rintro ⟨⟨-, hrest⟩, ⟨hother, hdistinct⟩, -, hadmissible⟩
          refine ⟨fun h hh hmem => ?_, hdistinct, hadmissible⟩
          rcases List.mem_cons.1 hmem with heq | hmem
          · exact hother (heq ▸ List.mem_map_of_mem hh)
          · exact hrest h hh hmem

theorem ofGlobals_ok_iff {floats : Bool} {globals : List Global} : (∃ ro, ofGlobals floats globals = .ok ro) ↔
    (globals.map Global.symbol).Nodup ∧ ∀ g ∈ globals, g.Admissible := by
  rw [ofGlobals, extend_ok_iff]
  simp

/-- **The order of the globals does not matter.** -/
theorem ofGlobals_perm {floats : Bool} {globals globals' : List Global} {ro : ReadOnly}
    (h : ofGlobals floats globals = .ok ro) (hperm : globals'.Perm globals) : ofGlobals floats globals' = .ok ro := by
  obtain ⟨hdistinct, hadmissible⟩ := ofGlobals_ok_iff.1 ⟨ro, h⟩
  obtain ⟨ro', h'⟩ : ∃ ro', ofGlobals floats globals' = .ok ro' := ofGlobals_ok_iff.2
    ⟨(hperm.map Global.symbol).nodup_iff.2 hdistinct, fun g hg => hadmissible g (hperm.mem_iff.1 hg)⟩
  have hsame : ro' = ro := Table.ext_get? fun s => Option.ext fun b => by
    simp only [get?_ofGlobals h, get?_ofGlobals h', hperm.mem_iff]
  rw [h', hsame]

/-- **The read-only table holds exactly the initializers.** -/
theorem ofGlobals_holds (floats : Bool) (globals : List Global) :
    ((∃ ro, ofGlobals floats globals = .ok ro) ↔ (globals.map Global.symbol).Nodup ∧ ∀ g ∈ globals,
      (∀ n, .space n ∈ g.init → 0 ≤ n.toInt) ∧ extent g.init ≤ 9223372036854775807) ∧
    ∀ ro, ofGlobals floats globals = .ok ro →
      (∀ s, ro.contains s = true ↔ ∃ g ∈ globals, g.symbol = s ∧
        g.readonly = true ∧ g.volatile = false ∧ g.init ≠ [] ∧ ∀ n, g.init ≠ [.space n]) ∧
      (∀ globals', globals'.Perm globals → ofGlobals floats globals' = .ok ro) ∧
      (∀ g ∈ globals, ∀ b, ro.get? g.symbol = some b → Global.Holds floats g.init b) ∧
      ∀ g ∈ globals, ∀ before i after, g.init = before ++ i :: after →
        0 ≤ extent before ∧ extent before + i.size ≤ 9223372036854775807 := by
  refine ⟨?_, fun ro h => ?_⟩
  · rw [ofGlobals_ok_iff]
    exact and_congr_right fun _ => forall₂_congr fun g _ => ⟨fun hg => ⟨hg.1, hg.2⟩, fun hg => ⟨hg.1, hg.2⟩⟩
  obtain ⟨hdistinct, hadmissible⟩ := ofGlobals_ok_iff.1 ⟨ro, h⟩
  refine ⟨fun s => ?_, fun _ hperm => ofGlobals_perm h hperm, fun g hg b hb => ?_, fun g hg before i after hsplit => ?_⟩
  · simp only [Table.contains, Option.isSome_iff_exists, get?_ofGlobals h, ← Global.isTracked_iff]
    constructor
    · rintro ⟨_, g, hg, hs, ht, -⟩
      exact ⟨g, hg, hs, ht⟩
    · rintro ⟨g, hg, hs, ht⟩
      exact ⟨_, g, hg, hs, ht, rfl⟩
  · obtain ⟨g', hg', hsymbol, -, rfl⟩ := (get?_ofGlobals h).1 hb
    -- symbols are distinct, so the block of this symbol is this global's
    obtain rfl : g' = g := List.inj_on_of_nodup_map hdistinct hg' hg hsymbol
    exact Global.holds_contents floats (hadmissible g' hg').fits
  · have hfits := (hadmissible g hg).fits
    rw [hsplit, extent_append, extent_cons] at hfits
    have hbefore := extent_nonneg before
    have hafter := extent_nonneg after
    omega

/-- Items that meet each other and run up to the last offset; the last read is of more bytes than the item there has. -/
theorem ofGlobals_holds_edge :
    let items : List InitItem :=
      [.int8 (-1), .float32 0x40500000, .space 3, .addrOf ⟨2⟩ 16, .space 9223372036854775787, .int32 7]
    let globals : List Global := [⟨⟨3⟩, "cell", false, false, [.int32 1]⟩, ⟨⟨1⟩, "edge", true, false, items⟩]
    ∃ b, ofGlobals false globals = .ok (Table.empty.insert ⟨1⟩ b) ∧
      ofGlobals false globals.reverse = .ok (Table.empty.insert ⟨1⟩ b) ∧
      b.load (.narrow .s8) 0 = .int (-1) ∧ b.load .any32 1 = .num .single ∧ b.load .int64 8 = .ptr (.globalAt ⟨2⟩ 16) ∧
      b.load .int32 (Int64.maxValue - 4) = .int 7 ∧ b.load .int32 0 = .numOrPtr (.anyOffsetOf ⟨2⟩) := by
  intro items globals
  have hok : ofGlobals false globals =
      .ok (Table.empty.insert ⟨1⟩ (Global.contents false ⟨⟨1⟩, "edge", true, false, items⟩)) := rfl
  obtain ⟨-, hperm, hholds, -⟩ := (ofGlobals_holds false globals).2 _ hok
  obtain ⟨hitem, helse⟩ := hholds _ (.tail _ (.head _)) _ (Table.get?_insert_self _ _ _)
  refine ⟨_, hok, hperm _ (List.reverse_perm _), ?_, ?_, ?_, ?_, ?_⟩
  · exact hitem (.int8 (-1)) (.narrow .s8) 0 ⟨[], items.drop 1, rfl, rfl⟩ rfl
  · exact hitem (.someSingle _) .any32 1 ⟨items.take 1, items.drop 2, rfl, rfl⟩ rfl
  · exact hitem (.addrOf ⟨2⟩ 16) .int64 8 ⟨items.take 3, items.drop 4, rfl, rfl⟩ rfl
  · exact hitem (.int32 7) .int32 (Int64.maxValue - 4) ⟨items.take 5, [], rfl, by decide⟩ rfl
  · refine helse .int32 0 fun i d v _ hat => ?_
    have hfirst : i = .int8 (-1) := by simpa [items, liesAt_cons, InitItem.size] using hat
    rw [hfirst]
    decide

end ReadOnly
end ValueFlow
