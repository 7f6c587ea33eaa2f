import ValueFlow.Proofs.Memory
import ValueFlow.Proofs.PostFixpoint
import ValueFlow.Proofs.Registers
/-!
# The order on states

A state is a register file and a memory, or nothing where control does not reach.  Joins and order go part by part, so
with the orders on files and memories the states are a semilattice that the solver can run over.
-/
namespace ValueFlow
namespace State

/-! ## Well-formed states -/

/-- **Registers and memory are well formed** where control can be. -/
def WellFormed : State → Prop
  | unreachable   => True
  | live regs mem => regs.WellFormed ∧ mem.WellFormed

theorem wellFormed_entry (params : List Reg) : (entry params).WellFormed :=
  ⟨Registers.wellFormed_entry params, Memory.wellFormed_entry⟩

theorem wellFormed_top : top.WellFormed := ⟨Registers.wellFormed_top, Memory.wellFormed_top⟩

theorem WellFormed.without {s : State} (h : s.WellFormed) (dead : List Reg) : (s.without dead).WellFormed := by
  cases s with
  | unreachable => trivial
  | live regs mem => exact ⟨h.1.kill dead, h.2⟩

/-- **Canonical values only, and a tidy register file** whose other registers hold nothing or anything. -/
def Canonical : State → Prop
  | unreachable   => True
  | live regs mem => regs.WellFormed ∧ mem.Canonical

theorem WellFormed.canonical {s : State} (h : s.WellFormed) : s.Canonical := by
  cases s with
  | unreachable => trivial
  | live regs mem => exact ⟨h.1, h.2.canonical⟩

/-- **States join part by part**; a state that is not reached adds nothing. -/
theorem canonicalLattice : SemilatticeOn Canonical join where
  closed {a b} ha hb := by
    cases a <;> cases b
    case live.live => exact ⟨ha.1.join hb.1, Memory.canonicalLattice.closed ha.2 hb.2⟩
    all_goals first | exact ha | exact hb
  comm {a b} ha hb := by
    cases a <;> cases b
    case live.live => exact congrArg₂ live (Registers.lattice.comm ha.1 hb.1) (Memory.canonicalLattice.comm ha.2 hb.2)
    all_goals rfl
  assoc {a b c} ha hb hc := by
    cases a <;> cases b <;> cases c
    case live.live.live =>
      exact congrArg₂ live (Registers.lattice.assoc ha.1 hb.1 hc.1) (Memory.canonicalLattice.assoc ha.2 hb.2 hc.2)
    all_goals rfl
  idem {a} ha := by
    cases a with
    | unreachable => rfl
    | live regs mem => exact congrArg₂ live (Registers.lattice.idem ha.1) (Memory.canonicalLattice.idem ha.2)

theorem WellFormed.join {a b : State} (ha : a.WellFormed) (hb : b.WellFormed) : (a.join b).WellFormed := by
  cases a <;> cases b
  case live.live => exact ⟨ha.1.join hb.1, ha.2.join hb.2⟩
  all_goals first | exact ha | exact hb

theorem lattice : SemilatticeOn WellFormed join := canonicalLattice.restrict WellFormed.canonical WellFormed.join

theorem join_unreachable (s : State) : s.join unreachable = s := by cases s <;> rfl

instance : LE State := ⟨fun a b => a.join b = b⟩

@[simp] theorem le_eq_true {a b : State} : Domain.le a b = true ↔ a ≤ b := beq_iff_eq

theorem unreachable_le (s : State) : unreachable ≤ s := rfl

theorem live_le {r : Registers} {m : Memory} {s : State} :
    live r m ≤ s ↔ ∃ r' m', s = live r' m' ∧ r ≤ r' ∧ m ≤ m' := by
  constructor
  · intro h
    cases s with
    | unreachable => cases h
    | live r' m' =>
      obtain ⟨hr, hm⟩ := State.live.inj h
      exact ⟨r', m', rfl, hr, hm⟩
  · rintro ⟨r', m', rfl, hr, hm⟩
    exact congrArg₂ live hr hm

theorem without_mono {a b : State} (hb : b.WellFormed) (h : a ≤ b) (dead : List Reg) :
    a.without dead ≤ b.without dead := by
  cases a with
  | unreachable => exact unreachable_le _
  | live r m =>
    obtain ⟨r', m', rfl, hr, hm⟩ := live_le.1 h
    exact live_le.2 ⟨_, _, rfl, Registers.kill_mono hb.1 hr dead, hm⟩

/-- **The solver runs over the well-formed states.** -/
theorem orderOn : Domain.OrderOn WellFormed where
  bottom_mem := trivial
  top_mem := wellFormed_top
  join_mem := lattice.closed
  isBottom_bottom := rfl
  le_refl ha := le_eq_true.2 (lattice.idem ha)
  le_trans ha hb hc hab hbc := le_eq_true.2 (lattice.trans ha hb hc (le_eq_true.1 hab) (le_eq_true.1 hbc))
  le_join_left ha hb := le_eq_true.2 (lattice.le_join_left ha hb)
  le_join_right ha hb := le_eq_true.2 (lattice.le_join_right ha hb)
  le_of_join {a b} ha hb h := le_eq_true.2 ((lattice.comm hb ha).trans (eq_of_beq h))
  le_top {a} ha := by
    cases a with
    | unreachable => rfl
    | live regs mem => exact le_eq_true.2 (live_le.2 ⟨_, _, rfl, Registers.le_top ha.1, Memory.le_top mem⟩)

/-! ## The laws of the joins -/

theorem top_join {s : State} (h : s.Canonical) : top.join s = top := by
  cases s with
  | unreachable => rfl
  | live regs mem => exact congrArg₂ live (Registers.top_join h.1) (Memory.top_join mem)

/-- **Joins make the states a bounded semilattice, and the memories and the blocks one without a least element.** -/
theorem join_laws :
    (JoinLawsOn Canonical join Domain.le top ∧ ∀ s : State, unreachable.join s = s ∧ s.join unreachable = s) ∧
      JoinLawsOn Memory.Canonical Memory.join Memory.le Memory.top ∧
      JoinLawsOn Block.Canonical Block.join Block.le (.ofSummary .top) := by
  refine ⟨⟨?_, fun s => ⟨rfl, join_unreachable s⟩⟩, ?_, ?_⟩
  · exact canonicalLattice.joinLaws le_eq_true wellFormed_top.canonical fun _ => top_join
  · exact Memory.canonicalLattice.joinLaws Memory.le_eq_true Memory.canonical_top fun m _ => Memory.top_join m
  · exact Block.canonicalLattice.joinLaws Block.le_eq_true (Block.canonical_ofSummary _) fun b _ => Block.top_join b

/-- Files with different defaults, and memories that know one global's cell through different chunks. -/
theorem join_laws_differentDefaults :
    let a := live (Registers.unwritten.set ⟨1⟩ (.int 1)) (Memory.entry.store .int64 (.globalAt ⟨7⟩ 0) (.ptr (.stackAt 8)))
    let b := live (Registers.top.set ⟨1⟩ (.int 2)) (Memory.entry.store .int32 (.globalAt ⟨7⟩ 0) (.int 3))
    let c := live (Registers.top.set ⟨1⟩ (.num .int)) .top
    (a.Canonical ∧ b.Canonical ∧ c.Canonical) ∧ (a.join b).regs? = some (Registers.top.set ⟨1⟩ (.num .int)) ∧
      (a.join b = b.join a ∧ (a.join b).join c = a.join (b.join c)) ∧
      (Domain.le a (a.join b) = true ∧ Domain.le b (a.join b) = true) ∧
      (Domain.le a c = true ∧ Domain.le b c = true ∧ Domain.le (a.join b) c = true) := by
  intro a b c
  have ha : a.Canonical :=
    ⟨(Registers.wellFormed_empty (.inl rfl)).set _ (by decide), (Memory.wellFormed_entry.store _ _ (by decide)).canonical⟩
  have hb : b.Canonical :=
    ⟨Registers.wellFormed_top.set _ (by decide), (Memory.wellFormed_entry.store _ _ (by decide)).canonical⟩
  have hc : c.Canonical := ⟨Registers.wellFormed_top.set _ (by decide), Memory.canonical_top⟩
  have laws := join_laws.1.1
  have hac : Domain.le a c = true := by decide
  have hbc : Domain.le b c = true := by decide
  exact ⟨⟨ha, hb, hc⟩, by decide, ⟨laws.comm a b ha hb, laws.assoc a b c ha hb hc⟩,
    ⟨laws.le_join_left a b ha hb, laws.le_join_right a b ha hb⟩, hac, hbc, laws.join_le a b c ha hb hc hac hbc⟩

end State
end ValueFlow
