import ValueFlow.Proofs.Value
/-!
# Reading through a chunk

What a chunk makes of a value depends on the value's shape alone: a number whose kind the chunk keeps stays of its kind,
and everything else becomes what the chunk reads where bytes of the value's provenance may be (`Chunk.reads`).  Reading
is therefore monotone, reading twice is reading once, and what is read stays within the bytes that were there.
-/
namespace ValueFlow

/-- **What a chunk reads where bytes of a pointer of class `p` may be.** -/
def Chunk.reads (c : Chunk) (p : Pointer) : Value :=
  match c with
  | .narrow _ | .int32 => .unknown .int p
  | .int64             => if p = .bottom then .num .long else .mixed p
  | .float32           => .num .single
  | .float64           => .num .float
  | .any32             => .mixed p.widen
  | .any64             => .mixed p

/-- The kinds of number that a chunk keeps. -/
def Chunk.keeps : Chunk → Kind → Bool
  | .narrow _, k | .int32, k => k == .int
  | .int64, k                => k == .long
  | .float32, k              => k == .single
  | .float64, k              => k == .float
  | .any32, k                => k == .int || k == .single
  | .any64, _                => true

/-- The chunks that keep a pointer whole. -/
def Chunk.keepsPointers : Chunk → Bool
  | .int64 | .any64 => true
  | _               => false

/-- The chunks that keep no floating-point number. -/
def Chunk.isInteger : Chunk → Bool
  | .narrow _ | .int32 | .int64           => true
  | .float32 | .float64 | .any32 | .any64 => false

/-! ## Cutting a word down -/

namespace Narrow

def bits : Narrow → Nat
  | s8 | u8   => 8
  | s16 | u16 => 16

theorem bits_eq_of_size {m n : Narrow} (h : (Chunk.narrow m).size = (Chunk.narrow n).size) : m.bits = n.bits := by
  cases m <;> cases n <;> first | rfl | exact absurd h (by decide)

theorem cut_congr {n : Narrow} {x y : Int32} (h : x.toBitVec.setWidth n.bits = y.toBitVec.setWidth n.bits) :
    n.cut x = n.cut y := by
  cases n with
  | s8 | s16 => exact congrArg (fun low => Int32.ofBitVec (low.signExtend 32)) h
  | u8 | u16 => exact congrArg (fun low => Int32.ofBitVec (low.setWidth 32)) h

theorem setWidth_cut (n : Narrow) (x : Int32) : (n.cut x).toBitVec.setWidth n.bits = x.toBitVec.setWidth n.bits := by
  have hsign : ∀ {w : Nat} (y : BitVec w), w ≤ 32 → (y.signExtend 32).setWidth w = y := fun {w} y hw => by
    refine BitVec.eq_of_getLsbD_eq fun i hi => ?_
    have hi' : i < 32 := Nat.lt_of_lt_of_le hi hw
    simp only [BitVec.getLsbD_setWidth, BitVec.getLsbD_signExtend, hi, hi', if_true, decide_true, Bool.true_and]
  cases n <;> simp [cut, bits, hsign]

/-- **Of two cuts to one size the second decides.** -/
theorem cut_cut {m n : Narrow} (h : m.bits = n.bits) (x : Int32) : n.cut (m.cut x) = n.cut x :=
  cut_congr (h ▸ m.setWidth_cut x)

end Narrow

namespace Value

/-! ## By shape -/

theorem asInt_mixed (f : Int32 → Int32) (p : Pointer) : (mixed p).asInt f = unknown .int p := by
  unfold mixed
  split
  · rename_i h
    rw [h]
    rfl
  · rfl

theorem normalize_bottom (c : Chunk) : bottom.normalize c = bottom := by cases c <;> rfl

theorem normalize_mixed (p : Pointer) : ∀ c : Chunk, (mixed p).normalize c = c.reads p
  | .narrow _ | .int32 => asInt_mixed _ p
  | .int64 => by
    by_cases h : p = .top
    · rw [h]
      rfl
    · rw [mixed_of_ne_top h]
      cases p <;> first | rfl | exact absurd rfl h
  | .float32 | .float64 => by unfold mixed; split <;> rfl
  | .any32 => by
    by_cases h : p = .top
    · rw [h]
      rfl
    · rw [mixed_of_ne_top h]
      rfl
  | .any64 => rfl

theorem normalize_ptr (p : Pointer) (c : Chunk) :
    (ptr p).normalize c = if c.keepsPointers then ptr p else c.reads p := by
  cases c <;> rfl

theorem kind?_normalize {v : Value} {k : Kind} {c : Chunk} (hv : v.kind? = some k) (hk : c.keeps k = true) :
    (v.normalize c).kind? = some k := by
  cases v with
  | num j =>
    cases c <;> cases j <;> cases hv <;> first | rfl | cases hk
  | _ => cases hv <;> cases c <;> first | rfl | cases hk

theorem normalize_num {k : Kind} {c : Chunk} (hk : c.keeps k = true) : (num k).normalize c = num k := by
  cases c <;> cases k <;> first | rfl | cases hk

theorem normalize_number {v : Value} {k : Kind} {c : Chunk} (hv : v.kind? = some k) (hk : c.keeps k = false) :
    v.normalize c = c.reads .bottom := by
  cases v with
  | num j => cases c <;> cases j <;> cases hv <;> first | rfl | cases hk
  | _ => cases hv <;> cases c <;> first | rfl | cases hk

/-! ## What a chunk reads -/

theorem canonical_reads (c : Chunk) (p : Pointer) : (c.reads p).Canonical := by
  cases c with
  | narrow | int32 => exact canonical_unknown _ _
  | int64 =>
    rw [Chunk.reads]
    split
    · exact canonical_num _
    · exact canonical_mixed _
  | float32 | float64 => exact canonical_num _
  | any32 | any64 => exact canonical_mixed _

theorem kind_le_num {v : Value} {k : Kind} (hv : v.kind? = some k) : v ≤ num k :=
  (le_iff_below (canonical_of_kind hv) (canonical_num k)).2 (.kind hv rfl)

theorem number_le_mixed {v : Value} {k : Kind} (hv : v.kind? = some k) (q : Pointer) : v ≤ mixed q :=
  (le_mixed (canonical_of_kind hv)).2 (provenance_of_kind hv ▸ Pointer.bottom_le q)

theorem number_le_unknown {v : Value} {k : Kind} (hv : v.kind? = some k) (q : Pointer) : v ≤ unknown k q := by
  unfold unknown
  split
  · exact kind_le_num hv
  · exact number_le_mixed hv _

theorem unknown_mono (k : Kind) {p q : Pointer} (h : p ≤ q) : unknown k p ≤ unknown k q := by
  by_cases hp : p = .bottom
  · rw [hp]
    exact number_le_unknown (kind?_num k) q
  · have hq : q ≠ .bottom := fun hq => hp (Pointer.le_bottom.1 (hq ▸ h))
    rw [unknown, unknown, if_neg hp, if_neg hq]
    exact mixed_mono (Pointer.widen_mono h)

theorem ptr_le_unknown (k : Kind) {p q : Pointer} (hp : p ≠ .bottom) (h : p ≤ q.widen) : ptr p ≤ unknown k q := by
  have hq : q ≠ .bottom := by
    rintro rfl
    exact hp (Pointer.le_bottom.1 h)
  rw [unknown, if_neg hq]
  exact (le_mixed (canonical_ptr hp)).2 h

theorem reads_mono (c : Chunk) {p q : Pointer} (h : p ≤ q) : c.reads p ≤ c.reads q := by
  cases c with
  | narrow | int32 => exact unknown_mono .int h
  | int64 =>
    by_cases hp : p = .bottom
    · rw [Chunk.reads, if_pos hp, Chunk.reads]
      split
      · exact le_refl (canonical_num _)
      · exact number_le_mixed rfl q
    · have hq : q ≠ .bottom := fun hq => hp (Pointer.le_bottom.1 (hq ▸ h))
      rw [Chunk.reads, Chunk.reads, if_neg hp, if_neg hq]
      exact mixed_mono h
  | float32 | float64 => exact le_refl (canonical_num _)
  | any32 => exact mixed_mono (Pointer.widen_mono h)
  | any64 => exact mixed_mono h

theorem reads_of_keepsPointers {c : Chunk} (hc : c.keepsPointers = true) {p : Pointer} (hp : p ≠ .bottom) :
    c.reads p = mixed p := by
  cases c with
  | int64 => exact if_neg hp
  | any64 => rfl
  | narrow | int32 | float32 | float64 | any32 => cases hc

theorem reads_widen {c : Chunk} (h : c.size ≤ 4) (p : Pointer) : c.reads p.widen = c.reads p := by
  cases c with
  | narrow | int32 => simp only [Chunk.reads, unknown, Pointer.widen_eq_bottom, Pointer.widen_widen]
  | any32 => rw [Chunk.reads, Chunk.reads, Pointer.widen_widen]
  | float32 => rfl
  | int64 | float64 | any64 => exact absurd h (by decide)

/-- What a chunk reads is a number of a kind that it keeps, or a number or pointer of the class, without its offset if
the chunk is too small. -/
theorem reads_cases (c : Chunk) (p : Pointer) :
    (∃ k, c.keeps k = true ∧ c.reads p = num k) ∨ c.reads p = mixed p ∨ c.reads p = mixed p.widen ∧ c.size ≤ 4 := by
  cases c with
  | narrow n =>
    by_cases hp : p = .bottom
    · exact .inl ⟨.int, rfl, if_pos hp⟩
    · exact .inr (.inr ⟨if_neg hp, by cases n <;> decide⟩)
  | int32 =>
    by_cases hp : p = .bottom
    · exact .inl ⟨.int, rfl, if_pos hp⟩
    · exact .inr (.inr ⟨if_neg hp, by decide⟩)
  | int64 =>
    by_cases hp : p = .bottom
    · exact .inl ⟨.long, rfl, if_pos hp⟩
    · exact .inr (.inl (if_neg hp))
  | float32 => exact .inl ⟨.single, rfl, rfl⟩
  | float64 => exact .inl ⟨.float, rfl, rfl⟩
  | any32 => exact .inr (.inr ⟨rfl, by decide⟩)
  | any64 => exact .inr (.inl rfl)

theorem provenance_reads_le (c : Chunk) (p : Pointer) : (c.reads p).provenance ≤ p.widen := by
  rcases reads_cases c p with ⟨k, -, h⟩ | h | ⟨h, -⟩ <;> rw [h]
  · exact Pointer.bottom_le _
  · rw [provenance_mixed]
    exact Pointer.le_widen p
  · rw [provenance_mixed]

theorem provenance_reads_le_of_size {c : Chunk} (h : 4 < c.size) (p : Pointer) : (c.reads p).provenance ≤ p := by
  rcases reads_cases c p with ⟨k, -, hr⟩ | hr | ⟨-, hc⟩
  · rw [hr]
    exact Pointer.bottom_le _
  · rw [hr, provenance_mixed]
  · omega

theorem number_le_reads {v : Value} {k : Kind} {c : Chunk} (hv : v.kind? = some k) (hk : c.keeps k = true)
    (p : Pointer) : v ≤ c.reads p := by
  cases c with
  | narrow | int32 =>
    obtain rfl : k = .int := beq_iff_eq.1 hk
    exact number_le_unknown hv p
  | int64 =>
    obtain rfl : k = .long := beq_iff_eq.1 hk
    rw [Chunk.reads]
    split
    · exact kind_le_num hv
    · exact number_le_mixed hv p
  | float32 =>
    obtain rfl : k = .single := beq_iff_eq.1 hk
    exact kind_le_num hv
  | float64 =>
    obtain rfl : k = .float := beq_iff_eq.1 hk
    exact kind_le_num hv
  | any32 | any64 => exact number_le_mixed hv _

/-! ## Reading is a projection -/

theorem canonical_normalize {v : Value} (hv : v.Canonical) (c : Chunk) : (v.normalize c).Canonical := by
  cases hv.view with
  | bottom => rwa [normalize_bottom]
  | number hk =>
    rename_i k
    by_cases h : c.keeps k = true
    · exact canonical_of_kind (kind?_normalize hk h)
    · exact normalize_number hk (Bool.not_eq_true _ ▸ h) ▸ canonical_reads c _
  | ptr hp =>
    rw [normalize_ptr]
    split
    · exact hv
    · exact canonical_reads c _
  | mixed p => exact normalize_mixed p c ▸ canonical_reads c p

theorem normalize_number_le {v : Value} {k : Kind} (hv : v.kind? = some k) (c : Chunk) (p : Pointer) :
    v.normalize c ≤ c.reads p := by
  by_cases h : c.keeps k = true
  · exact number_le_reads (kind?_normalize hv h) h p
  · rw [normalize_number hv (Bool.not_eq_true _ ▸ h)]
    exact reads_mono c (Pointer.bottom_le p)

theorem normalize_ptr_le {p q : Pointer} (hp : p ≠ .bottom) (h : p ≤ q) (c : Chunk) :
    (ptr p).normalize c ≤ c.reads q := by
  rw [normalize_ptr]
  split
  · rename_i hc
    have hq : q ≠ .bottom := fun hq => hp (Pointer.le_bottom.1 (hq ▸ h))
    rw [reads_of_keepsPointers hc hq]
    exact (le_mixed (canonical_ptr hp)).2 h
  · exact reads_mono c h

/-- **Reading is monotone.** -/
theorem normalize_mono {v w : Value} (hv : v.Canonical) (hw : w.Canonical) (h : v ≤ w) (c : Chunk) :
    v.normalize c ≤ w.normalize c := by
  cases (le_iff_below hv hw).1 h with
  | bottom h =>
    rw [h, normalize_bottom]
    exact bottom_le _
  | same h =>
    rw [h]
    exact le_refl (canonical_normalize hw c)
  | kind hk hw =>
    rename_i k
    subst hw
    by_cases hc : c.keeps k = true
    · rw [normalize_num hc]
      exact kind_le_num (kind?_normalize hk hc)
    · rw [normalize_number (kind?_num k) (Bool.not_eq_true _ ▸ hc)]
      exact normalize_number_le hk c _
  | number hk hw =>
    rw [hw, normalize_mixed]
    exact normalize_number_le hk c _
  | ptr hv' hw' hpq =>
    subst hv' hw'
    rw [normalize_ptr _ c, normalize_ptr _ c]
    split
    · exact h
    · exact reads_mono c hpq
  | ptrMixed hv' hw' hpq =>
    subst hv' hw'
    rw [normalize_mixed]
    exact normalize_ptr_le (fun hp => hv.1 (congrArg ptr hp)) hpq c
  | mixed hv' hw' hpq =>
    rw [hv', hw', normalize_mixed, normalize_mixed]
    exact reads_mono c hpq

/-- **What is read stays within what the value's own bytes may be.** -/
theorem normalize_le_reads {v : Value} (hv : v.Canonical) {p : Pointer} (h : v.provenance ≤ p) (c : Chunk) :
    v.normalize c ≤ c.reads p := by
  rw [← normalize_mixed]
  exact normalize_mono hv (canonical_mixed p) ((le_mixed hv).2 h) c

theorem normalize_reads (c : Chunk) (p : Pointer) : (c.reads p).normalize c = c.reads p := by
  rcases reads_cases c p with ⟨k, hk, h⟩ | h | ⟨h, hc⟩
  · rw [h, normalize_num hk]
  · rw [h, normalize_mixed, h]
  · rw [h, normalize_mixed, reads_widen hc, h]

theorem normalize_kept {v : Value} {k : Kind} {c : Chunk} (hv : v.kind? = some k) (hk : c.keeps k = true) :
    (v.normalize c).normalize c = v.normalize c := by
  cases v with
  | num j =>
    rw [kind?_num, Option.some_inj] at hv
    rw [hv, normalize_num hk, normalize_num hk]
  | int n =>
    cases hv
    cases c with
    | narrow m => exact congrArg int (Narrow.cut_cut rfl n)
    | int32 | any32 | any64 => rfl
    | int64 | float32 | float64 => cases hk
  | long | single | float => cases c <;> rfl
  | bottom | ptr | numOrPtr | top => cases hv

/-- **Reading twice is reading once.** -/
theorem normalize_normalize {v : Value} (hv : v.Canonical) (c : Chunk) :
    (v.normalize c).normalize c = v.normalize c := by
  cases hv.view with
  | bottom => rw [normalize_bottom, normalize_bottom]
  | number hk =>
    rename_i k
    by_cases h : c.keeps k = true
    · exact normalize_kept hk h
    · rw [normalize_number hk (Bool.not_eq_true _ ▸ h), normalize_reads]
  | ptr hp =>
    rw [normalize_ptr _ c]
    split
    · rename_i h
      rw [normalize_ptr, if_pos h]
    · exact normalize_reads c _
  | mixed p => rw [normalize_mixed, normalize_reads]

/-! ## What a chunk leaves alone -/

theorem keeps_of_fixed {v : Value} {k : Kind} {c : Chunk} (hv : v.kind? = some k) (h : v.normalize c = v) :
    c.keeps k = true := by
  by_contra hk
  rw [normalize_number hv (Bool.not_eq_true _ ▸ hk)] at h
  rcases reads_cases c .bottom with ⟨j, hj, hr⟩ | hr | ⟨hr, -⟩
  · rw [← h, hr, kind?_num, Option.some_inj] at hv
    exact hk (hv ▸ hj)
  · simp [← h, hr] at hv
  · simp [← h, hr] at hv

theorem keepsPointers_of_fixed {p : Pointer} {c : Chunk} (h : (ptr p).normalize c = ptr p) :
    c.keepsPointers = true := by
  by_contra hc
  rw [normalize_ptr, if_neg hc] at h
  rcases reads_cases c p with ⟨k, -, hr⟩ | hr | ⟨hr, -⟩
  · rw [hr] at h
    cases h
  · exact mixed_ne_ptr _ _ (hr.symm.trans h)
  · exact mixed_ne_ptr _ _ (hr.symm.trans h)

theorem reads_join {c : Chunk} {p q : Pointer} (hp : c.reads p = mixed p) (hq : c.reads q = mixed q) :
    c.reads (p.join q) = mixed (p.join q) := by
  cases c with
  | narrow | int32 =>
    have hfixed : ∀ {r : Pointer}, unknown .int r = mixed r → r ≠ .bottom ∧ r.widen = r := fun {r} h => by
      unfold unknown at h
      split at h
      · exact absurd h.symm (mixed_ne_num _ _)
      · rename_i hr
        exact ⟨hr, mixed_inj h⟩
    obtain ⟨hpb, hpw⟩ := hfixed hp
    obtain ⟨-, hqw⟩ := hfixed hq
    have hb : p.join q ≠ .bottom := fun h => hpb (Pointer.join_eq_bottom.1 h).1
    rw [Chunk.reads, unknown, if_neg hb, Pointer.widen_join_of_widened hpw hqw]
  | int64 =>
    have hqb : q ≠ .bottom := by
      rintro rfl
      exact absurd hq.symm (mixed_ne_num _ _)
    exact if_neg fun h => hqb (Pointer.join_eq_bottom.1 h).2
  | float32 | float64 => exact absurd hq.symm (mixed_ne_num _ _)
  | any32 => rw [Chunk.reads, Pointer.widen_join_of_widened (mixed_inj hp) (mixed_inj hq)]
  | any64 => rfl

theorem normalize_number_join_ptr {v : Value} {k : Kind} {q : Pointer} {c : Chunk} (hv : v.kind? = some k)
    (hq : q ≠ .bottom) (hqc : (ptr q).normalize c = ptr q) : (v.join (ptr q)).normalize c = v.join (ptr q) := by
  rw [number_join_ptr hv, normalize_mixed, reads_of_keepsPointers (keepsPointers_of_fixed hqc) hq]

theorem normalize_join_mixed {v : Value} {q : Pointer} {c : Chunk} (hv : v.Canonical) (hvc : v.normalize c = v)
    (hqc : (mixed q).normalize c = mixed q) : (v.join (mixed q)).normalize c = v.join (mixed q) := by
  cases hv.view with
  | bottom => rwa [bottom_join]
  | number hk => rwa [join_mixed (ne_bottom_of_kind hk), provenance_of_kind hk, Pointer.bottom_join]
  | ptr hp =>
    rw [normalize_mixed] at hqc
    rw [join_mixed (ptr_ne_bottom _), normalize_mixed]
    exact reads_join (reads_of_keepsPointers (keepsPointers_of_fixed hvc) hp) hqc
  | mixed p =>
    rw [normalize_mixed] at hvc hqc
    rw [mixed_join (mixed_ne_bottom q), provenance_mixed, normalize_mixed]
    exact reads_join hvc hqc

/-- **What a chunk leaves alone is closed under joins.** -/
theorem normalize_join {v w : Value} {c : Chunk} (hv : v.Canonical) (hw : w.Canonical) (hvc : v.normalize c = v)
    (hwc : w.normalize c = w) : (v.join w).normalize c = v.join w := by
  cases hv.view with
  | bottom => rwa [bottom_join]
  | number hj =>
    cases hw.view with
    | bottom => rwa [join_bottom]
    | number hk =>
      have hcj := keeps_of_fixed hj hvc
      have hck := keeps_of_fixed hk hwc
      rw [join_of_kinds hj hk]
      split
      · exact hvc
      · split
        · exact normalize_num hcj
        · rename_i hne
          -- only the chunks for anything keep numbers of two kinds
          cases c with
          | any32 | any64 => rfl
          | _ => exact absurd ((beq_iff_eq.1 hcj).trans (beq_iff_eq.1 hck).symm) hne
    | ptr hq => exact normalize_number_join_ptr hj hq hwc
    | mixed q => exact normalize_join_mixed hv hvc hwc
  | ptr hp =>
    cases hw.view with
    | bottom => rwa [join_bottom]
    | number hk =>
      rw [join_comm]
      exact normalize_number_join_ptr hk hp hvc
    | ptr hq => rw [ptr_join_ptr, normalize_ptr, if_pos (keepsPointers_of_fixed hvc)]
    | mixed q => exact normalize_join_mixed hv hvc hwc
  | mixed p =>
    rw [join_comm]
    exact normalize_join_mixed hw hwc hvc

/-! ## Two chunks of one size -/

theorem normalize_reads_le {c d : Chunk} (h : c.size = d.size) (p : Pointer) :
    (c.reads p).normalize d ≤ d.reads p := by
  rcases reads_cases c p with ⟨k, -, hr⟩ | hr | ⟨hr, hc⟩
  · rw [hr]
    exact normalize_number_le (kind?_num k) d p
  · rw [hr, normalize_mixed]
    exact le_refl (canonical_reads d p)
  · rw [hr, normalize_mixed, reads_widen (h ▸ hc)]
    exact le_refl (canonical_reads d p)

/-- **What one chunk may have read, another of its size reads within its own bounds.** -/
theorem normalize_le_of_size {v : Value} (hv : v.Canonical) {c d : Chunk} (h : c.size = d.size) {p : Pointer}
    (hle : v ≤ c.reads p) : v.normalize d ≤ d.reads p := by
  have hread := canonical_reads c p
  exact lattice.trans (canonical_normalize hv d) (canonical_normalize hread d) (canonical_reads d p)
    (normalize_mono hv hread hle d) (normalize_reads_le h p)

theorem normalize_narrow {v : Value} (hv : v.Canonical) {m n : Narrow} (h : m.bits = n.bits) :
    (v.normalize (.narrow m)).normalize (.narrow n) = v.normalize (.narrow n) := by
  cases v with
  | int x => exact congrArg int (Narrow.cut_cut h x)
  | _ => exact normalize_normalize hv (.narrow n)

/-- **Of two integer chunks of one size the second decides.** -/
theorem normalize_of_integers {v : Value} (hv : v.Canonical) {c d : Chunk} (hc : c.isInteger = true)
    (hd : d.isInteger = true) (h : c.size = d.size) : (v.normalize c).normalize d = v.normalize d := by
  cases c with
  | narrow m =>
    cases d with
    | narrow n => exact normalize_narrow hv (Narrow.bits_eq_of_size h)
    | int32 | int64 => cases m <;> exact absurd h (by decide)
    | float32 | float64 | any32 | any64 => cases hd
  | int32 =>
    cases d with
    | narrow n => cases n <;> exact absurd h (by decide)
    | int32 => exact normalize_normalize hv .int32
    | int64 => exact absurd h (by decide)
    | float32 | float64 | any32 | any64 => cases hd
  | int64 =>
    cases d with
    | narrow n => cases n <;> exact absurd h (by decide)
    | int32 => exact absurd h (by decide)
    | int64 => exact normalize_normalize hv .int64
    | float32 | float64 | any32 | any64 => cases hd
  | float32 | float64 | any32 | any64 => cases hc

/-- **Reading through a chunk is a monotone projection** onto values that joins do not leave, and what is read is bounded
by the pointers whose bytes it may be.  The bound outlives a second chunk of the same size; between integer chunks the
first then leaves no trace. -/
theorem normalize_projects (c : Chunk) :
    (∀ v : Value, v.Canonical → (v.normalize c).Canonical ∧ (v.normalize c).normalize c = v.normalize c ∧
      (v.normalize c).le ((mixed v.provenance).normalize c) = true) ∧
    (∀ v w : Value, v.Canonical → w.Canonical → v.le w = true → (v.normalize c).le (w.normalize c) = true) ∧
    (∀ v w : Value, v.Canonical → w.Canonical → v.normalize c = v → w.normalize c = w →
      (v.join w).normalize c = v.join w) ∧
    ∀ d : Chunk, c.size = d.size → ∀ v : Value, v.Canonical →
      ((v.normalize c).normalize d).le ((mixed v.provenance).normalize d) = true ∧
      (c.isInteger = true → d.isInteger = true → (v.normalize c).normalize d = v.normalize d) := by
  refine ⟨fun v hv => ⟨canonical_normalize hv c, normalize_normalize hv c, ?_⟩, fun v w hv hw h => ?_,
    fun v w hv hw hvc hwc => normalize_join hv hw hvc hwc, fun d h v hv => ⟨?_, fun hc hd => ?_⟩⟩
  · rw [normalize_mixed, le_eq_true]
    exact normalize_le_reads hv le_rfl c
  · rw [le_eq_true] at h ⊢
    exact normalize_mono hv hw h c
  · rw [normalize_mixed, le_eq_true]
    exact normalize_le_of_size (canonical_normalize hv c) h (normalize_le_reads hv le_rfl c)
  · exact normalize_of_integers hv hc hd h

/-- A byte with its sign bit set, read with a sign and without; a frame address that may be a number, read as a word and
as a float. -/
theorem normalize_projects_signBit :
    let byte := int 0x1ff
    let frame := ptr (.stackAt 8)
    (byte.Canonical ∧ frame.Canonical ∧ (num .int).Canonical ∧ byte.le (num .int) = true) ∧
      (byte.normalize (.narrow .u8) = int 255 ∧ (int 255).le ((num .int).normalize (.narrow .u8)) = true) ∧
      ((byte.normalize (.narrow .u8)).normalize (.narrow .s8) = int (-1) ∧
        (byte.normalize (.narrow .u8)).normalize (.narrow .s8) = byte.normalize (.narrow .s8)) ∧
      (frame.normalize .int64 = frame ∧ (long 3).normalize .int64 = long 3 ∧
        (frame.join (long 3)).normalize .int64 = frame.join (long 3)) ∧
      ((frame.normalize .int64).normalize .float64).le ((mixed frame.provenance).normalize .float64) = true := by
  intro byte frame
  have hbyte : byte.Canonical := by decide
  have hframe : frame.Canonical := by decide
  have hnum : (num .int).Canonical := by decide
  have hle : byte.le (num .int) = true := by decide
  obtain ⟨-, hmono, -, hnarrow⟩ := normalize_projects (.narrow .u8)
  obtain ⟨-, -, hjoin, hwide⟩ := normalize_projects .int64
  refine ⟨⟨hbyte, hframe, hnum, hle⟩, ⟨by decide, hmono byte (num .int) hbyte hnum hle⟩,
    ⟨by decide, (hnarrow (.narrow .s8) rfl byte hbyte).2 rfl rfl⟩,
    ⟨rfl, rfl, hjoin frame (long 3) hframe (by decide) rfl rfl⟩, ?_⟩
  exact (hwide .float64 rfl frame hframe).1

end Value
end ValueFlow
