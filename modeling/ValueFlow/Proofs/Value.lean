import ValueFlow.Proofs.Pointer
import ValueFlow.Proofs.Semilattice
import ValueFlow.Value
/-!
# The lattice of canonical values

The order that `join` makes is compared with a relation `Below` that lists what may lie under what.  `join` gives least
upper bounds for `Below` on canonical values, so they form a semilattice and the two orders agree (`le_iff_below`).
-/
namespace ValueFlow
namespace Value

/-- **Built by the canonical constructors**: no pointer of the empty class, and `top` for all numbers and pointers. -/
def Canonical (v : Value) : Prop := v ≠ ptr .bottom ∧ v ≠ numOrPtr .top

instance (v : Value) : Decidable v.Canonical := inferInstanceAs (Decidable (_ ∧ _))

/-- **What may lie under what.**  `top` is `mixed top`. -/
inductive Below (v w : Value) : Prop where
  | bottom (hv : v = .bottom)
  | same (h : v = w)
  | kind {k : Kind} (hv : v.kind? = some k) (hw : w = num k)
  | number {k : Kind} {q : Pointer} (hv : v.kind? = some k) (hw : w = mixed q)
  | ptr {p q : Pointer} (hv : v = .ptr p) (hw : w = .ptr q) (h : p ≤ q)
  | ptrMixed {p q : Pointer} (hv : v = .ptr p) (hw : w = mixed q) (h : p ≤ q)
  | mixed {p q : Pointer} (hv : v = Value.mixed p) (hw : w = Value.mixed q) (h : p ≤ q)

/-! ## Views -/

/-- **The four shapes of a canonical value.** -/
inductive View : Value → Prop where
  | bottom : View .bottom
  | number {v : Value} {k : Kind} (h : v.kind? = some k) : View v
  | ptr {p : Pointer} (h : p ≠ .bottom) : View (.ptr p)
  | mixed (p : Pointer) : View (Value.mixed p)

theorem mixed_of_ne_top {p : Pointer} (h : p ≠ .top) : mixed p = numOrPtr p := if_neg h

@[simp] theorem mixed_top : mixed .top = top := if_pos rfl

theorem Canonical.view {v : Value} (h : v.Canonical) : View v := by
  cases v with
  | bottom => exact .bottom
  | int | long | single | float => exact .number rfl
  | num k => cases k <;> exact .number rfl
  | ptr p => exact .ptr fun hp => h.1 (by rw [hp])
  | numOrPtr p =>
    rw [← mixed_of_ne_top fun hp => h.2 (by rw [hp])]
    exact .mixed p
  | top => exact mixed_top ▸ .mixed .top

theorem canonical_mixed (p : Pointer) : (mixed p).Canonical := by
  unfold mixed
  split
  · exact ⟨nofun, nofun⟩
  · rename_i h
    exact ⟨nofun, fun hp => h (by cases hp; rfl)⟩

theorem canonical_ptr {p : Pointer} (h : p ≠ .bottom) : (ptr p).Canonical :=
  ⟨fun hp => h (by cases hp; rfl), nofun⟩

theorem canonical_of_kind {v : Value} {k : Kind} (h : v.kind? = some k) : v.Canonical := by
  constructor <;> rintro rfl <;> cases h

theorem canonical_num (k : Kind) : (num k).Canonical := ⟨nofun, nofun⟩

theorem canonical_unknown (k : Kind) (p : Pointer) : (unknown k p).Canonical := by
  unfold unknown
  split
  · exact canonical_num k
  · exact canonical_mixed _

@[simp] theorem provenance_mixed (p : Pointer) : (mixed p).provenance = p := by
  unfold mixed
  split
  · rename_i h
    rw [h]
    rfl
  · rfl

@[simp] theorem kind?_mixed (p : Pointer) : (mixed p).kind? = none := by
  unfold mixed
  split <;> rfl

@[simp] theorem kind?_num (k : Kind) : (num k).kind? = some k := by cases k <;> rfl

theorem ptr_ne_bottom (p : Pointer) : ptr p ≠ bottom := nofun

theorem mixed_ne_bottom (p : Pointer) : mixed p ≠ bottom := by
  unfold mixed
  split <;> nofun

theorem mixed_ne_ptr (p q : Pointer) : mixed p ≠ ptr q := by
  unfold mixed
  split <;> nofun

theorem mixed_ne_num (p : Pointer) (k : Kind) : mixed p ≠ num k := by
  unfold mixed
  split <;> nofun

theorem mixed_inj {p q : Pointer} (h : mixed p = mixed q) : p = q := by
  rw [← provenance_mixed p, h, provenance_mixed]

theorem provenance_of_kind {v : Value} {k : Kind} (h : v.kind? = some k) : v.provenance = .bottom := by
  cases v <;> first | rfl | cases h

theorem ne_bottom_of_kind {v : Value} {k : Kind} (h : v.kind? = some k) : v ≠ bottom := by
  rintro rfl
  cases h

theorem ne_ptr_of_kind {v : Value} {k : Kind} (h : v.kind? = some k) (p : Pointer) : v ≠ ptr p := by
  rintro rfl
  cases h

/-! ## Joins by shape -/

@[simp] theorem bottom_join (v : Value) : bottom.join v = v := rfl

@[simp] theorem join_bottom (v : Value) : v.join bottom = v := by cases v <;> rfl

@[simp] theorem ptr_join_ptr (p q : Pointer) : (ptr p).join (ptr q) = ptr (p.join q) := rfl

theorem join_of_kinds {v w : Value} {j k : Kind} (hv : v.kind? = some j) (hw : w.kind? = some k) :
    v.join w = if v = w then v else if j = k then num j else numOrPtr .bottom := by
  have hne := ne_bottom_of_kind hv
  have hne' := ne_bottom_of_kind hw
  have hp := ne_ptr_of_kind hv
  unfold join
  split <;> simp_all

/-- Unless both are pointers or both are numbers, a join is a number or a pointer. -/
theorem join_eq_mixed {v w : Value} (hv : v ≠ bottom) (hw : w ≠ bottom) (hp : ∀ p q, v = ptr p → w ≠ ptr q)
    (hk : v.kind? = none ∨ w.kind? = none) : v.join w = mixed (v.provenance.join w.provenance) := by
  unfold join
  split
  · exact absurd rfl hv
  · exact absurd rfl hw
  · exact absurd rfl (hp _ _ rfl)
  · rcases hk with hk | hk
    · simp [hk]
    · cases v.kind? <;> simp [hk]

theorem mixed_join {p : Pointer} {w : Value} (hw : w ≠ bottom) : (mixed p).join w = mixed (p.join w.provenance) := by
  rw [join_eq_mixed (mixed_ne_bottom p) hw (fun _ _ h => absurd h (mixed_ne_ptr _ _)) (.inl (kind?_mixed p)),
    provenance_mixed]

theorem join_mixed {v : Value} {q : Pointer} (hv : v ≠ bottom) : v.join (mixed q) = mixed (v.provenance.join q) := by
  rw [join_eq_mixed hv (mixed_ne_bottom q) (fun _ _ _ => mixed_ne_ptr _ _) (.inr (kind?_mixed q)), provenance_mixed]

theorem number_join_ptr {v : Value} {k : Kind} {q : Pointer} (hv : v.kind? = some k) : v.join (ptr q) = mixed q := by
  rw [join_eq_mixed (ne_bottom_of_kind hv) (ptr_ne_bottom q) (fun _ _ h => absurd h (ne_ptr_of_kind hv _)) (.inr rfl),
    provenance_of_kind hv, Pointer.bottom_join]
  rfl

theorem ptr_join_number {p : Pointer} {w : Value} {k : Kind} (hw : w.kind? = some k) : (ptr p).join w = mixed p := by
  rw [join_eq_mixed (ptr_ne_bottom p) (ne_bottom_of_kind hw) (fun _ _ _ => ne_ptr_of_kind hw _) (.inl rfl),
    provenance_of_kind hw, Pointer.join_bottom]
  rfl

theorem join_kinds_mixed {v w : Value} {j k : Kind} (hv : v.kind? = some j) (hw : w.kind? = some k) :
    (v.join w).kind? = some j ∧ j = k ∨ v.join w = mixed .bottom := by
  rw [join_of_kinds hv hw]
  split
  · rename_i h
    subst h
    rw [hv] at hw
    exact .inl ⟨hv, by simpa using hw⟩
  · split
    · rename_i h
      exact .inl ⟨kind?_num j, h⟩
    · exact .inr (mixed_of_ne_top (by decide)).symm

theorem canonical_join {v w : Value} (hv : v.Canonical) (hw : w.Canonical) : (v.join w).Canonical := by
  cases hv.view with
  | bottom => rwa [bottom_join]
  | number hj =>
    cases hw.view with
    | bottom => rwa [join_bottom]
    | number hk =>
      rcases join_kinds_mixed hj hk with h | h
      · exact canonical_of_kind h.1
      · exact h ▸ canonical_mixed _
    | ptr _ => exact number_join_ptr hj ▸ canonical_mixed _
    | mixed q => exact join_mixed (ne_bottom_of_kind hj) ▸ canonical_mixed _
  | ptr hp =>
    cases hw.view with
    | bottom => rwa [join_bottom]
    | number hk => exact ptr_join_number hk ▸ canonical_mixed _
    | ptr hq => exact canonical_ptr fun h => hp (Pointer.join_eq_bottom.1 h).1
    | mixed q => exact join_mixed (ptr_ne_bottom _) ▸ canonical_mixed _
  | mixed p =>
    by_cases hb : w = bottom
    · rwa [hb, join_bottom]
    · exact mixed_join hb ▸ canonical_mixed _

/-- **What a join may point to is the join of what its sides may point to.** -/
theorem provenance_join (v w : Value) : (v.join w).provenance = v.provenance.join w.provenance := by
  by_cases hv : v = bottom
  · rw [hv, bottom_join]
    exact (Pointer.bottom_join _).symm
  by_cases hw : w = bottom
  · rw [hw, join_bottom]
    exact (Pointer.join_bottom _).symm
  by_cases hp : ∃ p q, v = ptr p ∧ w = ptr q
  · obtain ⟨p, q, rfl, rfl⟩ := hp
    rfl
  by_cases hk : v.kind? = none ∨ w.kind? = none
  · rw [join_eq_mixed hv hw (fun p q h h' => hp ⟨p, q, h, h'⟩) hk, provenance_mixed]
  · simp only [not_or, Option.ne_none_iff_exists'] at hk
    obtain ⟨⟨j, hj⟩, ⟨k, hk⟩⟩ := hk
    rw [provenance_of_kind hj, provenance_of_kind hk]
    rcases join_kinds_mixed hj hk with h | h
    · rw [provenance_of_kind h.1]
      rfl
    · rw [h]
      rfl

/-! ## The order -/

/-- A number or pointer covers exactly what points into its class. -/
theorem below_mixed {v : Value} {q : Pointer} (hv : v.Canonical) : Below v (mixed q) ↔ v.provenance ≤ q := by
  constructor
  · intro h
    cases h with
    | bottom h => exact h ▸ Pointer.bottom_le q
    | same h => rw [h, provenance_mixed]
    | kind h _ => exact provenance_of_kind h ▸ Pointer.bottom_le q
    | number h _ => exact provenance_of_kind h ▸ Pointer.bottom_le q
    | ptr _ h _ => exact absurd h (mixed_ne_ptr _ _)
    | ptrMixed hv hq h => rwa [hv, mixed_inj hq]
    | mixed hv hq h => rwa [hv, mixed_inj hq, provenance_mixed]
  · intro h
    cases hv.view with
    | bottom => exact .bottom rfl
    | number hk => exact .number hk rfl
    | ptr _ => exact .ptrMixed rfl rfl h
    | mixed p => exact .mixed rfl rfl (provenance_mixed p ▸ h)

theorem Below.provenance_le {v w : Value} (h : Below v w) : v.provenance ≤ w.provenance := by
  cases h with
  | bottom h => exact h ▸ Pointer.bottom_le _
  | same h => rw [h]
  | kind h _ => exact provenance_of_kind h ▸ Pointer.bottom_le _
  | number h _ => exact provenance_of_kind h ▸ Pointer.bottom_le _
  | ptr hv hw h => rwa [hv, hw]
  | ptrMixed hv hw h => rwa [hv, hw, provenance_mixed]
  | mixed hv hw h => rwa [hv, hw, provenance_mixed, provenance_mixed]

theorem eq_bottom_of_below {v : Value} (h : Below v bottom) : v = bottom := by
  cases h with
  | bottom h => exact h
  | same h => exact h
  | kind _ h | ptr _ h _ => cases h
  | number _ h | ptrMixed _ h _ | mixed _ h _ => exact absurd h.symm (mixed_ne_bottom _)

theorem Below.trans {u v w : Value} (huv : Below u v) (hvw : Below v w) : Below u w := by
  cases huv with
  | bottom h => exact .bottom h
  | same h => rwa [h]
  | kind hu hv =>
    subst hv
    cases hvw with
    | bottom h | ptr h _ _ | ptrMixed h _ _ => cases h
    | same h => exact .kind hu h.symm
    | kind hv hw => exact .kind hu (by rw [hw, ← Option.some_inj.1 ((kind?_num _).symm.trans hv)])
    | number _ hw => exact .number hu hw
    | mixed h _ _ => exact absurd (h ▸ kind?_num _) (by simp)
  | number hu hv =>
    subst hv
    cases hvw with
    | bottom h => exact absurd h (mixed_ne_bottom _)
    | same h => exact .number hu h.symm
    | kind h _ | number h _ => simp at h
    | ptr h _ _ | ptrMixed h _ _ => exact absurd h (mixed_ne_ptr _ _)
    | mixed _ hw _ => exact .number hu hw
  | ptr hu hv h =>
    subst hu hv
    cases hvw with
    | bottom h | kind h _ | number h _ => cases h
    | same hw => exact .ptr rfl hw.symm h
    | ptr hv hw h' => exact .ptr rfl hw (by cases hv; exact le_trans h h')
    | ptrMixed hv hw h' => exact .ptrMixed rfl hw (by cases hv; exact le_trans h h')
    | mixed hv _ _ => exact absurd hv.symm (mixed_ne_ptr _ _)
  | ptrMixed hu hv h =>
    subst hu hv
    cases hvw with
    | bottom h => exact absurd h (mixed_ne_bottom _)
    | same hw => exact .ptrMixed rfl hw.symm h
    | kind h _ | number h _ => simp at h
    | ptr h _ _ | ptrMixed h _ _ => exact absurd h (mixed_ne_ptr _ _)
    | mixed hv hw h' => exact .ptrMixed rfl hw (le_trans h (mixed_inj hv ▸ h'))
  | mixed hu hv h =>
    subst hu hv
    cases hvw with
    | bottom h => exact absurd h (mixed_ne_bottom _)
    | same hw => exact .mixed rfl hw.symm h
    | kind h _ | number h _ => simp at h
    | ptr h _ _ | ptrMixed h _ _ => exact absurd h (mixed_ne_ptr _ _)
    | mixed hv hw h' => exact .mixed rfl hw (le_trans h (mixed_inj hv ▸ h'))

theorem below_antisymm {v w : Value} (hvw : Below v w) (hwv : Below w v) : v = w := by
  cases hvw with
  | bottom h =>
    subst h
    exact (eq_bottom_of_below hwv).symm
  | same h => exact h
  | kind hv hw =>
    subst hw
    cases hwv with
    | bottom h | ptr h _ _ | ptrMixed h _ _ => cases h
    | same h => exact h.symm
    | kind hk h => rw [h, ← Option.some_inj.1 ((kind?_num _).symm.trans hk)]
    | number _ h => simp [h] at hv
    | mixed h _ _ => exact absurd (h ▸ kind?_num _) (by simp)
  | number hv hw =>
    subst hw
    cases hwv with
    | bottom h => exact absurd h (mixed_ne_bottom _)
    | same h => exact h.symm
    | kind h _ | number h _ => simp at h
    | ptr h _ _ | ptrMixed h _ _ => exact absurd h (mixed_ne_ptr _ _)
    | mixed _ h _ => simp [h] at hv
  | ptr hv hw h =>
    subst hv hw
    rw [le_antisymm h hwv.provenance_le]
  | ptrMixed hv hw h =>
    subst hv hw
    cases hwv with
    | bottom h => exact absurd h (mixed_ne_bottom _)
    | same h => exact h.symm
    | kind h _ | number h _ => simp at h
    | ptr h _ _ | ptrMixed h _ _ => exact absurd h (mixed_ne_ptr _ _)
    | mixed _ h _ => exact absurd h.symm (mixed_ne_ptr _ _)
  | mixed hv hw h =>
    subst hv hw
    have := hwv.provenance_le
    rw [provenance_mixed, provenance_mixed] at this
    rw [le_antisymm h this]

theorem below_join_left {v w : Value} (hv : v.Canonical) (hw : w.Canonical) : Below v (v.join w) := by
  cases hv.view with
  | bottom => exact .bottom rfl
  | number hj =>
    cases hw.view with
    | bottom => exact .same (join_bottom v).symm
    | number hk =>
      rw [join_of_kinds hj hk]
      split
      · exact .same rfl
      · split
        · exact .kind hj rfl
        · exact .number hj (mixed_of_ne_top (by decide)).symm
    | ptr _ => exact .number hj (number_join_ptr hj)
    | mixed q => exact .number hj (join_mixed (ne_bottom_of_kind hj))
  | ptr hp =>
    cases hw.view with
    | bottom => exact .same rfl
    | number hk => exact .ptrMixed rfl (ptr_join_number hk) (le_refl _)
    | ptr _ => exact .ptr rfl rfl (Pointer.le_join_left _ _)
    | mixed q => exact .ptrMixed rfl (join_mixed (ptr_ne_bottom _)) (Pointer.le_join_left _ _)
  | mixed p =>
    by_cases hb : w = bottom
    · exact .same (by rw [hb, join_bottom])
    · exact .mixed rfl (mixed_join hb) (Pointer.le_join_left _ _)

theorem join_comm {v w : Value} : v.join w = w.join v := by
  by_cases hv : v = bottom
  · rw [hv, bottom_join, join_bottom]
  by_cases hw : w = bottom
  · rw [hw, bottom_join, join_bottom]
  by_cases hp : ∃ p q, v = ptr p ∧ w = ptr q
  · obtain ⟨p, q, rfl, rfl⟩ := hp
    rw [ptr_join_ptr, ptr_join_ptr, Pointer.join_comm]
  by_cases hk : v.kind? = none ∨ w.kind? = none
  · rw [join_eq_mixed hv hw (fun p q h h' => hp ⟨p, q, h, h'⟩) hk,
      join_eq_mixed hw hv (fun p q h h' => hp ⟨q, p, h', h⟩) hk.symm, Pointer.join_comm]
  · simp only [not_or, Option.ne_none_iff_exists'] at hk
    obtain ⟨⟨j, hj⟩, ⟨k, hk⟩⟩ := hk
    rw [join_of_kinds hj hk, join_of_kinds hk hj]
    by_cases h : v = w
    · simp [h]
    · by_cases h' : j = k <;> simp [h, h', eq_comm]

theorem exists_ptr_of_below {v : Value} {q : Pointer} (hv : v ≠ bottom) (h : Below v (ptr q)) : ∃ p, v = ptr p := by
  cases h with
  | bottom h => exact absurd h hv
  | same h => exact ⟨_, h⟩
  | kind _ h => cases h
  | number _ h | ptrMixed _ h _ | mixed _ h _ => exact absurd h.symm (mixed_ne_ptr _ _)
  | ptr h _ _ => exact ⟨_, h⟩

/-- What lies under a number is a number of its kind, and is that number unless it is a whole kind. -/
theorem kind_of_below_number {v w : Value} {k : Kind} (hw : w.kind? = some k) (hv : v ≠ bottom) (h : Below v w) :
    v.kind? = some k ∧ (v = w ∨ w = num k) := by
  cases h with
  | bottom h => exact absurd h hv
  | same h => exact ⟨h ▸ hw, .inl h⟩
  | kind hj h =>
    rw [h, kind?_num] at hw
    obtain rfl := Option.some_inj.1 hw
    exact ⟨hj, .inr h⟩
  | number _ h | ptrMixed _ h _ | mixed _ h _ => simp [h] at hw
  | ptr _ h _ => exact absurd h (ne_ptr_of_kind hw _)

/-- **`join` is the least value above both sides.** -/
theorem join_below {u v w : Value} (hu : u.Canonical) (hv : v.Canonical) (hw : w.Canonical) (huw : Below u w)
    (hvw : Below v w) : Below (u.join v) w := by
  by_cases hub : u = bottom
  · rwa [hub, bottom_join]
  by_cases hvb : v = bottom
  · rwa [hvb, join_bottom]
  cases hw.view with
  | bottom => exact absurd (eq_bottom_of_below huw) hub
  | mixed q =>
    rw [below_mixed hu] at huw
    rw [below_mixed hv] at hvw
    rw [below_mixed (canonical_join hu hv), provenance_join]
    exact Pointer.join_le huw hvw
  | ptr hq =>
    obtain ⟨p, rfl⟩ := exists_ptr_of_below hub huw
    obtain ⟨p', rfl⟩ := exists_ptr_of_below hvb hvw
    exact .ptr rfl rfl (Pointer.join_le huw.provenance_le hvw.provenance_le)
  | number hk =>
    obtain ⟨hju, hu'⟩ := kind_of_below_number hk hub huw
    obtain ⟨hjv, hv'⟩ := kind_of_below_number hk hvb hvw
    rw [join_of_kinds hju hjv, if_pos rfl]
    split
    · exact huw
    · rename_i hne
      rcases hu' with rfl | hu'
      · rcases hv' with rfl | hv'
        · exact absurd rfl hne
        · exact .same hv'.symm
      · exact .same hu'.symm

/-- **Canonical values form a semilattice.** -/
theorem lattice : SemilatticeOn Canonical join :=
  .of_lub Below canonical_join (fun _ => .same rfl) Below.trans (fun _ _ => below_antisymm) below_join_left
    (fun hv hw => join_comm ▸ below_join_left hw hv) join_below

instance : LE Value := ⟨fun v w => v.join w = w⟩

@[simp] theorem le_eq_true {v w : Value} : v.le w = true ↔ v ≤ w := beq_iff_eq

/-- **On canonical values the order of the join is `Below`.** -/
theorem le_iff_below {v w : Value} (hv : v.Canonical) (hw : w.Canonical) : v ≤ w ↔ Below v w := by
  constructor
  · intro h
    rw [show w = v.join w from h.symm]
    exact below_join_left hv hw
  · intro h
    refine below_antisymm (join_below hv hw hw h (.same rfl)) ?_
    exact join_comm ▸ below_join_left hw hv

theorem le_refl {v : Value} (hv : v.Canonical) : v ≤ v := lattice.idem hv

theorem bottom_le (v : Value) : bottom ≤ v := rfl

theorem le_top {v : Value} (hv : v.Canonical) : v ≤ top := by
  rw [← mixed_top, le_iff_below hv (canonical_mixed _), below_mixed hv]
  exact Pointer.le_top _

theorem le_mixed {v : Value} {q : Pointer} (hv : v.Canonical) : v ≤ mixed q ↔ v.provenance ≤ q := by
  rw [le_iff_below hv (canonical_mixed q), below_mixed hv]

theorem mixed_mono {p q : Pointer} (h : p ≤ q) : mixed p ≤ mixed q :=
  (le_mixed (canonical_mixed p)).2 (by rwa [provenance_mixed])

theorem provenance_mono {v w : Value} (h : v ≤ w) : v.provenance ≤ w.provenance := by
  rw [← Pointer.join_eq_right, ← provenance_join, show v.join w = w from h]

/-- What is above something that executions supply is supplied too. -/
theorem ne_bottom_of_le {v w : Value} (h : v ≤ w) (hv : v ≠ bottom) : w ≠ bottom := by
  rintro rfl
  exact hv (join_bottom v ▸ h)

/-- Where a value that may be a pointer leads, its pointers lead. -/
theorem addressClass_eq {v : Value} (h : v.provenance ≠ .bottom) : v.addressClass = v.provenance := by
  cases v with
  | ptr p => rfl
  | numOrPtr p => exact if_neg h
  | top => rfl
  | _ => exact absurd rfl h

/-! ## The laws of the joins -/

theorem top_join {v : Value} (hv : v.Canonical) : top.join v = top := join_comm.trans (le_top hv)

/-- **Pointer classes and canonical values are bounded semilattices.**  Their orders, for pointers a function of its own,
are those of the joins, and what a value may point to goes from the one to the other. -/
theorem semilattice_laws :
    BoundedJoinLawsOn (fun _ => True) Pointer.join Pointer.le .bottom .top ∧
      BoundedJoinLawsOn Canonical join le bottom top ∧
      ∀ v w : Value, (v.join w).provenance = v.provenance.join w.provenance := by
  refine ⟨?_, ?_, provenance_join⟩
  · exact Pointer.lattice.boundedJoinLaws Pointer.join_eq_right.symm trivial trivial (fun p _ => Pointer.bottom_join p)
      (fun p _ => Pointer.top_join p)
  · exact lattice.boundedJoinLaws le_eq_true ⟨nofun, nofun⟩ ⟨nofun, nofun⟩ (fun v _ => bottom_join v) fun _ => top_join

/-- Numbers of two kinds and a frame address make the same of each other in every order. -/
theorem semilattice_laws_twoKinds :
    let frame := Pointer.stackAt 0
    (int 1).Canonical ∧ (long 1).Canonical ∧ (ptr frame).Canonical ∧ ((int 1).join (long 1)).join (ptr frame) = numOrPtr frame ∧
      ((int 1).join (long 1)).join (ptr frame) = (int 1).join ((long 1).join (ptr frame)) ∧
      ((int 1).join (long 1)).Canonical ∧ (int 1).le ((int 1).join (ptr frame)) = true ∧
      ((int 1).join (ptr frame)).provenance = frame ∧
      (frame.le .anyStack = true ↔ frame.join .anyStack = .anyStack) := by
  intro frame
  obtain ⟨pointers, values, hprovenance⟩ := semilattice_laws
  have hint : (int 1).Canonical := by decide
  have hlong : (long 1).Canonical := by decide
  have hptr : (ptr frame).Canonical := by decide
  refine ⟨hint, hlong, hptr, by decide, values.assoc _ _ _ hint hlong hptr, values.closed _ _ hint hlong,
    values.le_join_left _ _ hint hptr, ?_, pointers.le_iff _ _ trivial trivial⟩
  rw [hprovenance]
  decide

end Value
end ValueFlow
