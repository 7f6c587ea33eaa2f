import ValueFlow.Analysis
import ValueFlow.Proofs.Entries
/-!
# What an analysis reports

An accepted function is solved over the well-formed states, so every state that its run evaluates, sends or reports is
well formed.  The reported states are a post-fixpoint of the transfer function, and that is monotone at regular nodes;
so, edge by edge, they cover the state that any path of regular nodes leads to.
-/
namespace ValueFlow
namespace Function
variable {f : Function} {live : Liveness} {ro : ReadOnly} {s : Settings} {a : Analysis}

/-! ## Accepted functions -/

def run (f : Function) (live : Liveness) (ro : ReadOnly) (s : Settings) : Run State :=
  Solver.run f.graph s.maxRequeue.toNat (f.transfer live ro s) f.entry (.entry f.params)

theorem analyze_eq (f : Function) (live : Liveness) (ro : ReadOnly) (s : Settings) :
    f.analyze live ro s =
      if s.isValid then
        match f.fault? with
        | some fault => .error (.graph fault)
        | none       => (f.solve live ro s).mapError .graph
      else .error (.settings (.outOfRange s.maxRequeue)) := by
  unfold analyze Settings.validate
  cases s.isValid <;> rfl

theorem analyze_ok (h : f.analyze live ro s = .ok a) : f.fault? = none ∧ f.solve live ro s = .ok a := by
  rw [analyze_eq] at h
  split at h
  · split at h
    · cases h
    · rename_i hf
      refine ⟨hf, ?_⟩
      cases hs : f.solve live ro s with
      | error e =>
        rw [hs] at h
        cases h
      | ok b =>
        rw [hs] at h
        cases h
        rfl
  · cases h

theorem lt_of_instruction {n : Node} {i : Instruction} (h : f.instruction? n = some i) : n < f.size := by
  unfold instruction? at h
  cases hn : f.nodes[n]? with
  | none =>
    rw [hn] at h
    cases h
  | some o => exact (Array.getElem?_eq_some_iff.1 hn).1

theorem entry_lt (h : f.fault? = none) : f.entry < f.graph.size := by
  unfold fault? at h
  split at h
  · cases h
  · rename_i hle
    exact Nat.lt_of_not_le hle

theorem nodeFault?_eq_none (h : f.fault? = none) {n : Node} {i : Instruction} (hi : f.instruction? n = some i) :
    f.nodeFault? n = none := by
  unfold fault? at h
  split at h
  · cases h
  · exact List.findSome?_eq_none_iff.1 h n (List.mem_range.2 (lt_of_instruction hi))

theorem successor_lt (h : f.fault? = none) {n k : Node} (hk : k ∈ f.graph.successors n) : k < f.graph.size := by
  obtain ⟨i, hi, hk⟩ := mem_successors.1 hk
  have hfault := nodeFault?_eq_none h hi
  unfold nodeFault? at hfault
  rw [hi] at hfault
  simp only at hfault
  split at hfault
  · cases hfault
  · rename_i hfind
    have hnot := List.find?_eq_none.1 hfind k hk
    exact Nat.lt_of_not_le fun hle => hnot (decide_eq_true hle)

/-- **A function without a fault has a solution**, whatever the table and the settings. -/
theorem solve_total (hf : f.fault? = none) (live : Liveness) (ro : ReadOnly) (s : Settings) :
    ∃ a, f.solve live ro s = .ok a :=
  solve_ok (entry_lt hf) fun _ x fact hmem => successor_lt hf (outgoing_successor x fact hmem)

theorem analyze_total (hs : s.isValid = true) (hf : f.fault? = none) (live : Liveness) (ro : ReadOnly) :
    ∃ a, f.analyze live ro s = .ok a := by
  obtain ⟨a, ha⟩ := solve_total hf live ro s
  refine ⟨a, ?_⟩
  rw [analyze_eq, if_pos hs, hf, ha]
  rfl

theorem analyze_solves (hro : ro.WellFormed) (h : f.analyze live ro s = .ok a) :
    a.Solves f.graph (f.transfer live ro s) f.entry (.entry f.params) :=
  solve_solves State.orderOn (State.wellFormed_entry f.params) (fun _ _ hx => wellFormed_outgoing hro hx) (analyze_ok h).2

theorem analyze_states (hro : ro.WellFormed) (h : f.analyze live ro s = .ok a) :
    (∀ e ∈ (f.run live ro s).log, e.2.WellFormed) ∧ ∀ n x, a.state? n = some x → x.WellFormed :=
  solve_states State.orderOn (State.wellFormed_entry f.params) (fun _ _ hx => wellFormed_outgoing hro hx) (analyze_ok h).2

/-- **Every state of a run is well formed**: those evaluated, those sent to a successor, and those reported. -/
theorem analyze_wellFormed {floats : Bool} {globals : List Global} (hro : ReadOnly.ofGlobals floats globals = .ok ro)
    (h : f.analyze live ro s = .ok a) :
    (f.run live ro s).result = .ok a ∧
      (∀ e ∈ (f.run live ro s).log,
        e.2.WellFormed ∧ ∀ k, ((f.transfer live ro s e.1 e.2).get k).WellFormed) ∧
      ∀ n x, a.state? n = some x → x.WellFormed := by
  have hro := ReadOnly.wellFormed_ofGlobals hro
  obtain ⟨hlog, hstates⟩ := analyze_states hro h
  exact ⟨(analyze_ok h).2, fun e he => ⟨hlog e he, wellFormed_transfer hro (hlog e he)⟩, hstates⟩

/-- A read-only global that holds a number and an address. -/
def sampleTable : Global := ⟨⟨1⟩, "table", true, false, [.int32 5, .space 4, .addrOf ⟨2⟩ 16]⟩

def sampleReadOnly : ReadOnly := Table.empty.insert ⟨1⟩ (sampleTable.contents true)

theorem sampleReadOnly_ok : ReadOnly.ofGlobals true [sampleTable] = .ok sampleReadOnly := rfl

/-- Stores its parameter through a pointer into the frame that moves on each round, then copies the table. -/
def sweep : Function where
  name := "sweep"
  entry := 0
  params := [⟨0⟩]
  nodes := #[
    some (.op (.addrStack 8) [] ⟨1⟩ 1),
    some (.store .int64 (.indexed 0) [⟨1⟩] ⟨0⟩ 2),
    some (.load .int64 (.indexed 0) [⟨1⟩] ⟨2⟩ 3),
    some (.op (.addImmLong 8) [⟨1⟩] ⟨1⟩ 4),
    some (.cond (.cmpluImm .ne 0) [⟨2⟩] 1 5),
    some (.builtin (.memcpy 16 8) [.addrGlobal ⟨7⟩ 0, .addrGlobal ⟨1⟩ 0] none 6),
    some (.ret (some ⟨2⟩))]

theorem sweep_accepted : ∃ a x, sweep.analyze .unknown sampleReadOnly .standard = .ok a ∧ a.state? 6 = some x ∧
    x.isReachable = true := by
  obtain ⟨a, ha, h⟩ := exists_ok_of_any (e := sweep.analyze .unknown sampleReadOnly .standard)
    (p := (·.isReachable 6)) (by decide +kernel)
  obtain ⟨x, hx, hlive⟩ := (Option.any_eq_true _ _).1 h
  exact ⟨a, x, ha, hx, hlive⟩

theorem analyze_wellFormed_sweep : ReadOnly.ofGlobals true [sampleTable] = .ok sampleReadOnly ∧
    ∃ a x, sweep.analyze .unknown sampleReadOnly .standard = .ok a ∧ a.state? 6 = some x ∧ x.isReachable = true ∧
      x.WellFormed := by
  obtain ⟨a, x, ha, hx, hlive⟩ := sweep_accepted
  exact ⟨sampleReadOnly_ok, a, x, ha, hx, hlive, (analyze_wellFormed sampleReadOnly_ok ha).2.2 6 x hx⟩

/-! ## Paths -/

/-- **The states along the paths of regular nodes**: from the entry's, what each node sends to the next one. -/
inductive Along (f : Function) (live : Liveness) (ro : ReadOnly) (s : Settings) : Node → State → Prop where
  | entry : Along f live ro s f.entry (.entry f.params)
  | step {n k : Node} {x : State} (path : Along f live ro s n x) (edge : k ∈ f.graph.successors n)
    (regular : f.RegularAt ro n x) : Along f live ro s k ((f.transfer live ro s n x).get k)

theorem Along.wellFormed (hro : ro.WellFormed) {n : Node} {x : State} (h : f.Along live ro s n x) : x.WellFormed := by
  induction h with
  | entry => exact State.wellFormed_entry f.params
  | step _ _ _ ih => exact wellFormed_transfer hro ih _

theorem sent_le (hro : ro.WellFormed) (h : f.analyze live ro s = .ok a) {n k : Node} {x : State}
    (hx : a.state? n = some x) (hk : k ∈ f.graph.successors n) :
    ∃ y, a.state? k = some y ∧ (f.transfer live ro s n x).get k ≤ y := by
  have hsolves := analyze_solves hro h
  have hwf := (analyze_states hro h).2 n x hx
  have hlt : k < a.states.size := hsolves.size ▸ successor_lt (analyze_ok h).1 hk
  refine ⟨_, Array.getElem?_eq_getElem hlt, ?_⟩
  cases hgave : a.stats.gaveUp with
  | true =>
    rw [hsolves.gaveUp hgave k _ (Array.getElem?_eq_getElem hlt)]
    exact State.le_eq_true.1 (State.orderOn.le_top (wellFormed_transfer hro hwf k))
  | false =>
    cases x with
    | unreachable => exact State.unreachable_le _
    | live regs mem =>
      rcases f.get_mem_outgoing live ro s n hwf k with hnone | hmem
      · rw [hnone]
        exact State.unreachable_le _
      · obtain ⟨y, hy, hle⟩ := hsolves.covered hgave n _ hx (.inr rfl) _ hmem
        obtain rfl := Option.some_inj.1 ((Array.getElem?_eq_getElem hlt).symm.trans hy)
        exact State.le_eq_true.1 hle

/-- **The analysis covers every path of regular nodes**, of any length, whether or not the solver gave up. -/
theorem analyze_covers_paths {floats : Bool} {globals : List Global}
    (hro : ReadOnly.ofGlobals floats globals = .ok ro) (h : f.analyze live ro s = .ok a) {n : Node} {x : State}
    (hpath : f.Along live ro s n x) : ∃ y, a.state? n = some y ∧ Domain.le x y = true := by
  have hro := ReadOnly.wellFormed_ofGlobals hro
  have hstates := (analyze_states hro h).2
  induction hpath with
  | entry => exact (analyze_solves hro h).entry_le
  | @step n k x path edge regular ih =>
    obtain ⟨y, hy, hle⟩ := ih
    obtain ⟨z, hz, hsent⟩ := sent_le hro h hy edge
    have hx := path.wellFormed hro
    have hywf := hstates n y hy
    have hmono := transfer_mono live s hro hx hywf (State.le_eq_true.1 hle) regular k
    exact ⟨z, hz, State.le_eq_true.2 (State.lattice.trans (wellFormed_transfer hro hx k)
      (wellFormed_transfer hro hywf k) (hstates k z hz) hmono hsent)⟩

/-- Once round the loop, the pointer is at 16 and the reported state covers it. -/
theorem analyze_covers_paths_sweep : ReadOnly.ofGlobals true [sampleTable] = .ok sampleReadOnly ∧
    ∃ a x, sweep.analyze .unknown sampleReadOnly .standard = .ok a ∧ sweep.Along .unknown sampleReadOnly .standard 1 x ∧
      x.regs?.map (·.get ⟨1⟩) = some (.ptr (.stackAt 16)) ∧ ∃ y, a.state? 1 = some y ∧ Domain.le x y = true := by
  obtain ⟨a, -, ha, -⟩ := sweep_accepted
  have h₁ : sweep.Along .unknown sampleReadOnly .standard 1 _ := .step .entry (by decide) (by decide)
  have h₂ : sweep.Along .unknown sampleReadOnly .standard 2 _ := .step h₁ (by decide) (by decide)
  have h₃ : sweep.Along .unknown sampleReadOnly .standard 3 _ := .step h₂ (by decide) (by decide)
  have h₄ : sweep.Along .unknown sampleReadOnly .standard 4 _ := .step h₃ (by decide) (by decide)
  have h₅ : sweep.Along .unknown sampleReadOnly .standard 1 _ := .step h₄ (by decide) (by decide)
  exact ⟨sampleReadOnly_ok, a, _, ha, h₅, by decide, analyze_covers_paths sampleReadOnly_ok ha h₅⟩

end Function
end ValueFlow
