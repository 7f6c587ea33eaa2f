import Mathlib.Data.List.Pairwise
import Mathlib.Order.BoundedOrder.Lattice
import ValueFlow.Pointer
import ValueFlow.Proofs.Semilattice
/-!
# The lattice of pointer classes

The classes above a class form a chain (`wider`).  Order, join and disjointness are coded apart, each by the shapes of
both sides; all three are read off the chains here.  A class lies below those of its chain (`le_iff`), the join is the
first class of the chain of `p` that covers `q` (`find?_wider`), and classes that share an address lie below one another
(`disjoint_iff`).  So `Pointer` is a semilattice with a least and a greatest element.
-/
namespace ValueFlow
namespace Pointer

/-! ## The chain above a class -/

instance : LE Pointer := ⟨fun p q => p.le q⟩

instance (p q : Pointer) : Decidable (p ≤ q) := inferInstanceAs (Decidable (p.le q = true))

/-- The classes strictly above a class, nearest first. -/
def wider : Pointer → List Pointer
  | bottom        => []
  | stackAt _     => [anyStack, top]
  | globalAt s _  => [anyOffsetOf s, anyGlobal, nonStack, top]
  | anyStack      => [top]
  | anyOffsetOf _ => [anyGlobal, nonStack, top]
  | anyGlobal     => [nonStack, top]
  | nonStack      => [top]
  | top           => []

theorem le_iff {p q : Pointer} : p ≤ q ↔ p = bottom ∨ q ∈ p :: p.wider := by
  show p.le q = true ↔ _
  unfold Pointer.le
  cases p <;> cases q <;> simp [wider]
  case stackAt.stackAt => exact eq_comm
  case globalAt.globalAt => exact and_congr eq_comm eq_comm
  case globalAt.anyOffsetOf => exact eq_comm
  case anyOffsetOf.anyOffsetOf => exact eq_comm

theorem find?_wider {p : Pointer} (hp : p ≠ bottom) (q : Pointer) : (p :: p.wider).find? q.le = some (p.join q) := by
  cases p <;> simp only [wider, List.find?_cons, List.find?_nil]
  case bottom => exact absurd rfl hp
  all_goals
    unfold Pointer.le join
    cases q <;> simp
  -- what is left compares two symbols or two offsets
  all_goals grind

theorem disjoint_iff {p q : Pointer} : p.disjoint q = true ↔ p = bottom ∨ q = bottom ∨ ¬ (p ≤ q ∨ q ≤ p) := by
  show _ ↔ p = bottom ∨ q = bottom ∨ ¬ (p.le q = true ∨ q.le p = true)
  unfold disjoint Pointer.le
  cases p <;> cases q <;> simp
  case stackAt.stackAt => exact fun h h' => h h'.symm
  case globalAt.globalAt => grind
  case anyOffsetOf.globalAt => exact not_congr eq_comm
  case anyOffsetOf.anyOffsetOf => exact fun h h' => h h'.symm

/-! ## Order -/

theorem bottom_le (p : Pointer) : bottom ≤ p := le_iff.2 (.inl rfl)

theorem le_top (p : Pointer) : p ≤ top := by
  rw [le_iff]
  cases p <;> simp [wider]

/-- What is above a class of the chain is in the rest of the chain. -/
theorem wider_chain (p : Pointer) : (p :: p.wider).Pairwise (fun a b => a ≠ bottom → b ∈ a.wider) := by
  cases p <;> simp [wider]

theorem wider_subset {p q : Pointer} (h : q ∈ p.wider) : q.wider ⊆ p.wider := by
  cases p <;> simp only [wider, List.mem_cons, List.not_mem_nil, or_false] at h <;> try contradiction
  all_goals rcases h with rfl | rfl | rfl | rfl <;> simp [wider]

theorem ne_bottom_of_mem_wider {p q : Pointer} (h : q ∈ p.wider) : q ≠ bottom := by
  rintro rfl
  cases p <;> simp [wider] at h

theorem not_mem_wider_self (p : Pointer) : p ∉ p.wider := by
  cases p <;> simp [wider]

instance : PartialOrder Pointer where
  le_refl p := le_iff.2 (.inr List.mem_cons_self)
  le_trans p q r hpq hqr := by
    rw [le_iff] at hpq hqr ⊢
    rcases hpq with hp | hpq
    · exact .inl hp
    rcases List.mem_cons.1 hpq with rfl | hpq
    · exact hqr
    rcases hqr with rfl | hqr
    · exact absurd rfl (ne_bottom_of_mem_wider hpq)
    rcases List.mem_cons.1 hqr with rfl | hqr
    · exact .inr (List.mem_cons_of_mem _ hpq)
    · exact .inr (List.mem_cons_of_mem _ (wider_subset hpq hqr))
  le_antisymm p q hpq hqp := by
    rw [le_iff, List.mem_cons] at hpq hqp
    rcases hpq with rfl | rfl | hpq
    · rcases hqp with rfl | h | h
      · rfl
      · exact h
      · exact absurd rfl (ne_bottom_of_mem_wider h)
    · rfl
    rcases hqp with rfl | rfl | hqp
    · exact absurd rfl (ne_bottom_of_mem_wider hpq)
    · rfl
    · exact absurd (wider_subset hpq hqp) (not_mem_wider_self p)

/-! ## Joins -/

theorem bottom_join (p : Pointer) : bottom.join p = p := by cases p <;> rfl

theorem le_join_left (p q : Pointer) : p ≤ p.join q := by
  by_cases hp : p = bottom
  · rw [hp]
    exact bottom_le _
  · exact le_iff.2 (.inr (List.mem_of_find?_eq_some (find?_wider hp q)))

theorem le_join_right (p q : Pointer) : q ≤ p.join q := by
  by_cases hp : p = bottom
  · rw [hp, bottom_join]
  · exact List.find?_some (find?_wider hp q)

/-- Of a chain's classes that cover `q`, the first is below the others. -/
theorem join_le {p q r : Pointer} (hpr : p ≤ r) (hqr : q ≤ r) : p.join q ≤ r := by
  by_cases hp : p = bottom
  · rwa [hp, bottom_join]
  have hr := (le_iff.1 hpr).resolve_left hp
  obtain ⟨-, before, after, hsplit, hbefore⟩ := List.find?_eq_some_iff_append.1 (find?_wider hp q)
  have hchain := wider_chain p
  rw [hsplit, List.pairwise_append, List.pairwise_cons] at hchain
  rw [hsplit, List.mem_append, List.mem_cons] at hr
  rcases hr with hr | rfl | hr
  · have := hbefore r hr
    rw [show q.le r = true from hqr] at this
    cases this
  · exact le_refl _
  · by_cases hbottom : p.join q = bottom
    · exact le_iff.2 (.inl hbottom)
    · exact le_iff.2 (.inr (List.mem_cons_of_mem _ (hchain.2.1.1 r hr hbottom)))

instance : SemilatticeSup Pointer where
  sup := Pointer.join
  le_sup_left := le_join_left
  le_sup_right := le_join_right
  sup_le _ _ _ := join_le

instance : BoundedOrder Pointer where
  top := top
  le_top := le_top
  bot := bottom
  bot_le := bottom_le

theorem join_comm (p q : Pointer) : p.join q = q.join p := sup_comm p q

theorem join_assoc (p q r : Pointer) : (p.join q).join r = p.join (q.join r) := sup_assoc p q r

@[simp] theorem join_self (p : Pointer) : p.join p = p := sup_idem p

@[simp] theorem join_bottom (p : Pointer) : p.join bottom = p := sup_bot_eq p

@[simp] theorem top_join (p : Pointer) : top.join p = top := top_sup_eq p

theorem join_eq_right {p q : Pointer} : p.join q = q ↔ p ≤ q := sup_eq_right

theorem join_mono {p q r s : Pointer} (hpr : p ≤ r) (hqs : q ≤ s) : p.join q ≤ r.join s := sup_le_sup hpr hqs

theorem le_bottom {p : Pointer} : p ≤ bottom ↔ p = bottom := le_bot_iff

theorem join_eq_bottom {p q : Pointer} : p.join q = bottom ↔ p = bottom ∧ q = bottom := sup_eq_bot_iff

attribute [simp] bottom_join bottom_le le_top

/-- **Pointer classes form a semilattice.** -/
theorem lattice : SemilatticeOn (fun _ : Pointer => True) join where
  closed _ _ := trivial
  comm _ _ := join_comm _ _
  assoc _ _ _ := join_assoc _ _ _
  idem _ := join_self _

instance : LawfulDomain Pointer where
  join_comm := join_comm
  join_assoc := join_assoc
  join_self := join_self
  bottom_join := bottom_join
  top_join := top_join

/-! ## Offsets -/

theorem le_widen (p : Pointer) : p ≤ p.widen := by
  rw [le_iff]
  cases p <;> simp [widen, wider]

theorem shift_le_widen (d : Int64) (p : Pointer) : p.shift d ≤ p.widen := by
  rw [le_iff]
  cases p <;> simp [widen, shift, wider]

theorem widen_mono {p q : Pointer} (h : p ≤ q) : p.widen ≤ q.widen := by
  rcases le_iff.1 h with rfl | h
  · exact bottom_le _
  rw [le_iff]
  cases p <;> simp only [wider, List.mem_cons, List.not_mem_nil, or_false] at h
  all_goals rcases h with rfl | rfl | rfl | rfl | rfl <;> simp [widen, wider]

theorem shift_mono (d : Int64) {p q : Pointer} (h : p ≤ q) : p.shift d ≤ q.shift d := by
  rcases le_iff.1 h with rfl | h
  · exact bottom_le _
  rw [le_iff]
  cases p <;> simp only [wider, List.mem_cons, List.not_mem_nil, or_false] at h
  all_goals rcases h with rfl | rfl | rfl | rfl | rfl <;> simp [shift, wider]

@[simp] theorem widen_widen (p : Pointer) : p.widen.widen = p.widen := by cases p <;> rfl

@[simp] theorem widen_eq_bottom {p : Pointer} : p.widen = bottom ↔ p = bottom := by cases p <;> simp [widen]

@[simp] theorem shift_eq_bottom {d : Int64} {p : Pointer} : p.shift d = bottom ↔ p = bottom := by
  cases p <;> simp [shift]

theorem eq_of_le_offset {p q : Pointer} (h : p ≤ q) (hq : q.widen ≠ q) : p = bottom ∨ p = q := by
  rcases le_iff.1 h with rfl | h
  · exact .inl rfl
  rcases List.mem_cons.1 h with rfl | h
  · exact .inr rfl
  · cases p <;> simp only [wider, List.mem_cons, List.not_mem_nil, or_false] at h
    all_goals rcases h with rfl | rfl | rfl | rfl <;> exact absurd rfl hq

theorem widen_join_of_widened {p q : Pointer} (hp : p.widen = p) (hq : q.widen = q) :
    (p.join q).widen = p.join q := by
  by_contra h
  have hbottom : ∀ r : Pointer, r.widen = r → r ≤ p.join q → r = bottom := fun r hr hle =>
    (eq_of_le_offset hle h).resolve_right fun heq => h (by rw [← heq, hr])
  have := hbottom p hp (le_join_left p q)
  have := hbottom q hq (le_join_right p q)
  exact h (by subst p q; rfl)

theorem nonStack_le {p : Pointer} : nonStack ≤ p ↔ p = nonStack ∨ p = top := by
  simp [le_iff, wider]

/-- Outside the frame, forgetting an offset adds nothing that `nonStack` does not cover. -/
theorem widen_le_join_nonStack (p : Pointer) : p.widen ≤ p.join nonStack := by
  have hp := le_join_left p nonStack
  rcases nonStack_le.1 (le_join_right p nonStack) with hn | hn
  · rw [hn] at hp ⊢
    exact widen_mono hp
  · rw [hn]
    exact le_top _

/-! ## Climbing the tree -/

/-- The next class up the tree. -/
inductive Up : Pointer → Pointer → Prop where
  | stackAt (ofs : Int64) : Up (stackAt ofs) anyStack
  | anyStack : Up anyStack top
  | globalAt (s : Symbol) (ofs : Int64) : Up (globalAt s ofs) (anyOffsetOf s)
  | anyOffsetOf (s : Symbol) : Up (anyOffsetOf s) anyGlobal
  | anyGlobal : Up anyGlobal nonStack
  | nonStack : Up nonStack top

/-- **What holds from each class to the next holds along the order.** -/
theorem le_induction {R : Pointer → Pointer → Prop} (refl : ∀ p, R p p) (trans : ∀ {p q r}, R p q → R q r → R p r)
    (up : ∀ {p q}, Up p q → R p q) {p q : Pointer} (hp : p ≠ bottom) (h : p ≤ q) : R p q := by
  have h₁ : R anyGlobal top := trans (up .anyGlobal) (up .nonStack)
  have h₂ : ∀ s, R (anyOffsetOf s) nonStack := fun s => trans (up (.anyOffsetOf s)) (up .anyGlobal)
  have h₃ : ∀ s, R (anyOffsetOf s) top := fun s => trans (up (.anyOffsetOf s)) h₁
  have hq := (le_iff.1 h).resolve_left hp
  cases p <;> simp only [wider, List.mem_cons, List.not_mem_nil, or_false] at hq
  case bottom => exact absurd rfl hp
  case stackAt ofs =>
    rcases hq with rfl | rfl | rfl
    exacts [refl _, up (.stackAt _), trans (up (.stackAt _)) (up .anyStack)]
  case globalAt s ofs =>
    have h₀ := up (.globalAt s ofs)
    rcases hq with rfl | rfl | rfl | rfl | rfl
    exacts [refl _, h₀, trans h₀ (up (.anyOffsetOf s)), trans h₀ (h₂ s), trans h₀ (h₃ s)]
  case anyStack =>
    rcases hq with rfl | rfl
    exacts [refl _, up .anyStack]
  case anyOffsetOf s =>
    rcases hq with rfl | rfl | rfl | rfl
    exacts [refl _, up (.anyOffsetOf s), h₂ s, h₃ s]
  case anyGlobal =>
    rcases hq with rfl | rfl | rfl
    exacts [refl _, up .anyGlobal, h₁]
  case nonStack =>
    rcases hq with rfl | rfl
    exacts [refl _, up .nonStack]
  case top =>
    rw [hq]
    exact refl _

/-! ## Sharing addresses -/

theorem widen_ne_of_isExact {p : Pointer} (h : p.isExact = true) : p.widen ≠ p := by
  cases p with
  | stackAt | globalAt => exact nofun
  | _ => cases h

/-- A class that shares an exact location holds it. -/
theorem le_of_shared {p q : Pointer} (hp : p.isExact = true) (h : p.disjoint q = false) : p ≤ q := by
  have hne := (Bool.not_eq_true _).mpr h
  rw [disjoint_iff, not_or, not_or, not_not] at hne
  obtain ⟨-, hq, hpq | hqp⟩ := hne
  · exact hpq
  · exact ((eq_of_le_offset hqp (widen_ne_of_isExact hp)).resolve_left hq).ge

theorem le_total_above {p q r : Pointer} (hp : p ≠ bottom) (hpq : p ≤ q) (hpr : p ≤ r) : q ≤ r ∨ r ≤ q := by
  have hchain : (p :: p.wider).Pairwise (fun a b => a ≤ b ∨ b ≤ a) := (wider_chain p).imp fun {a b} h => by
    by_cases ha : a = bottom
    · exact .inl (le_iff.2 (.inl ha))
    · exact .inl (le_iff.2 (.inr (List.mem_cons_of_mem _ (h ha))))
  have hq := (le_iff.1 hpq).resolve_left hp
  have hr := (le_iff.1 hpr).resolve_left hp
  have : Std.Symm (fun a b : Pointer => a ≤ b ∨ b ≤ a) := ⟨fun _ _ => Or.symm⟩
  exact hchain.forall_of_forall (fun a _ => .inl (le_refl a)) hq hr

theorem disjoint_anti {p q r s : Pointer} (hpr : p ≤ r) (hqs : q ≤ s) (h : r.disjoint s = true) :
    p.disjoint q = true := by
  rw [disjoint_iff] at h ⊢
  by_cases hp : p = bottom
  · exact .inl hp
  by_cases hq : q = bottom
  · exact .inr (.inl hq)
  have hr : r ≠ bottom := fun hr => hp (le_bottom.1 (hr ▸ hpr))
  have hs : s ≠ bottom := fun hs => hq (le_bottom.1 (hs ▸ hqs))
  have hrs := (h.resolve_left hr).resolve_left hs
  refine .inr (.inr fun hpq => hrs ?_)
  rcases hpq with hpq | hqp
  · exact le_total_above hp hpr (le_trans hpq hqs)
  · exact le_total_above hq (le_trans hqp hpr) hqs

end Pointer

/-! ## Exact locations -/

/-- **What an exact location lies in.** -/
inductive Region where
  | frame
  | global (sym : Symbol)
deriving DecidableEq

def Region.addr : Region → Int64 → Pointer
  | frame, ofs    => .stackAt ofs
  | global s, ofs => .globalAt s ofs

end ValueFlow
