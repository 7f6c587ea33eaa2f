import ValueFlow.Proofs.Analysis
/-!
# Reachability is exact

A node is reported as reached exactly when a path leads to it along which each node, from the state reported for it,
sends something to the next.  A run reaches a node while the states are still small.  But states only grow, and a larger
state sends to every node that a smaller one sends to; so the path that first led to a node is still there in the end
(`traced_reaches`).
-/
namespace ValueFlow
namespace Solver

section
variable {L : Type} [Domain L] [BEq L] {n bound : Nat} {g : Graph} {transfer : Node → L → Fiber L} {P : L → Prop}
  {entry : Node} {init : L}

/-- From the state in its slot, node `i` sends something to `k`. -/
def SendsTo (g : Graph) (transfer : Node → L → Fiber L) (slots : Vector (Slot L) n) (i k : Nat) : Prop :=
  ∃ h : i < n, ∃ fact ∈ outgoing g i (transfer i slots[i].state), fact.1 = k

/-- **Whatever is reached, the entry leads to**, each node sending to the next from the state it has now. -/
theorem traced_reaches (ord : Domain.OrderOn P) (hinit : P init)
    (htransfer : ∀ i x, P x → ∀ fact ∈ outgoing g i (transfer i x), P fact.2)
    (hgrow : ∀ i x y, P x → P y → Domain.le x y = true → ∀ fact ∈ outgoing g i (transfer i x),
      ∃ fact' ∈ outgoing g i (transfer i y), fact'.1 = fact.1)
    (hsilent : ∀ i x, Domain.isBottom x = true → outgoing g i (transfer i x) = []) {p : Progress L n}
    (h : Reaches g bound transfer (start n entry init) p) :
    ∀ i (hi : i < n), Domain.isBottom p.slots[i].state = false →
      Relation.ReflTransGen (SendsTo g transfer p.slots) entry i := by
  induction h with
  | refl =>
    intro i hi hlive
    by_cases hentry : i = entry
    · rw [hentry]
    · simp only [start, Vector.getElem_ofFn, if_neg hentry, ord.isBottom_bottom] at hlive
      cases hlive
  | @tail p q hp hlast ih =>
    have inv := invariant_reaches ord hinit htransfer hp
    obtain ⟨node, hnode, -, hfold, -⟩ := hlast
    have hpopped := inv.states.popped hnode
    obtain ⟨hstates, hraised, -⟩ := deliverAll_raised ord hpopped (htransfer node _ (inv.states node hnode)) hfold
    have hkept : ∀ i k, SendsTo g transfer p.slots i k → SendsTo g transfer q.slots i k := by
      rintro i k ⟨hi, fact, hmem, rfl⟩
      have hle := hraised.grows i hi
      rw [state_popped] at hle
      exact ⟨hi, hgrow i _ _ (inv.states i hi) (hstates i hi) hle fact hmem⟩
    -- a node that got a fact has a path through the sender; any other is as it was
    intro i hi hlive
    by_cases hfact : ∃ fact ∈ outgoing g node (transfer node p.slots[node].state), fact.1 = i
    · have hsender : Domain.isBottom p.slots[node].state = false := by
        cases hb : Domain.isBottom p.slots[node].state with
        | false => rfl
        | true =>
          obtain ⟨fact, hmem, -⟩ := hfact
          rw [hsilent node _ hb] at hmem
          cases hmem
      exact .tail (.mono hkept _ _ (ih node hnode hsender)) (hkept node i ⟨hnode, hfact⟩)
    · have hsame : q.slots[i].state = p.slots[i].state := by
        rw [deliverAll_frame hi hfact hfold, state_popped]
      rw [hsame] at hlive
      exact .mono hkept _ _ (ih i hi hlive)

end
end Solver

section
variable {L : Type} [Domain L] [BEq L] {P : L → Prop} {g : Graph} {transfer : Node → L → Fiber L} {entry : Node}
  {init : L} {bound : Nat} {sol : Solution L}

open Solver

theorem solve_traced (ord : Domain.OrderOn P) (hinit : P init)
    (htransfer : ∀ i x, P x → ∀ fact ∈ outgoing g i (transfer i x), P fact.2)
    (hgrow : ∀ i x y, P x → P y → Domain.le x y = true → ∀ fact ∈ outgoing g i (transfer i x),
      ∃ fact' ∈ outgoing g i (transfer i y), fact'.1 = fact.1)
    (hsilent : ∀ i x, Domain.isBottom x = true → outgoing g i (transfer i x) = [])
    (h : solve g bound transfer entry init = .ok sol) (hgave : sol.stats.gaveUp = false) {i : Node} {x : L}
    (hx : sol.state? i = some x) (hlive : Domain.isBottom x = false) :
    Relation.ReflTransGen (fun i k => ∃ y, sol.state? i = some y ∧ ∃ fact ∈ outgoing g i (transfer i y), fact.1 = k)
      entry i := by
  obtain ⟨-, q, hq, ⟨-, -, rfl⟩ | ⟨node, hnode, stats, -, rfl, hstats⟩⟩ := solve_reaches h
  · obtain ⟨hi, rfl⟩ := state?_slots.1 hx
    refine Relation.ReflTransGen.mono ?_ _ _ (traced_reaches ord hinit htransfer hgrow hsilent hq i hi hlive)
    rintro i k ⟨hi, hsent⟩
    exact ⟨_, state?_slots.2 ⟨hi, rfl⟩, hsent⟩
  · rw [hstats] at hgave
    cases hgave

end

namespace Function
variable {f : Function} {live : Liveness} {ro : ReadOnly} {s : Settings} {a : Analysis} {n k : Node}

/-- **A larger state sends to more nodes.**  A branch that may go one way still may when less is known. -/
theorem outgoing_grows {x y : State} (hx : x.WellFormed) (hy : y.WellFormed) (hxy : x ≤ y) :
    ∀ fact ∈ Solver.outgoing f.graph n (f.transfer live ro s n x),
      ∃ fact' ∈ Solver.outgoing f.graph n (f.transfer live ro s n y), fact'.1 = fact.1 := by
  intro fact hmem
  rcases f.transfer_cases_le live ro s n hx hy hxy with
    h | ⟨i, regs, mem, regs', mem', hi, rfl, rfl, hregs, -, hsends, hsends'⟩
  · rw [h] at hmem
    cases hmem
  · have htarget : fact.1 ∈ i.targets regs := ((hsends.outgoing f.graph n fact).1 hmem).1
    have htarget' : fact.1 ∈ i.targets regs' := i.targets_mono hx.1 hy.1 hregs htarget
    let sent := (i.after ro s.volatileFloor regs' mem').without (dropped live s n)
    exact ⟨(fact.1, sent), (hsends'.outgoing f.graph n (fact.1, sent)).2 ⟨htarget', rfl⟩, rfl⟩

theorem outgoing_live {x : State} :
    ∀ fact ∈ Solver.outgoing f.graph n (f.transfer live ro s n x), fact.2.isReachable = true := by
  refine transfer_outgoing (transfer_entries (Q := fun _ y => y.isReachable = true) ?_ ?_ ?_)
  · intro k a b ha hb
    cases a with
    | unreachable => exact hb
    | live regs mem => cases b <;> rfl
  · intro k a ha
    cases a with
    | unreachable => cases ha
    | live regs mem => rfl
  · intro i regs mem hi hx k hk
    obtain ⟨mem', h | ⟨r, v, -, h⟩⟩ := i.after_cases ro s.volatileFloor regs mem <;> rw [h] <;> rfl

/-- From the state reported for it, a node has an entry for another. -/
def Feasible (f : Function) (live : Liveness) (ro : ReadOnly) (s : Settings) (a : Analysis) (n m : Node) : Prop :=
  ∃ x t, a.state? n = some x ∧ f.transfer live ro s n x = .facts t ∧ t.contains m = true

theorem isReachable_iff : a.isReachable n = true ↔ ∃ x, a.state? n = some x ∧ x.isReachable = true :=
  Option.any_eq_true _ _

theorem isBottom_eq_false {x : State} : Domain.isBottom x = false ↔ x.isReachable = true := by
  cases x with
  | unreachable => exact ⟨nofun, nofun⟩
  | live regs mem => exact ⟨fun _ => rfl, fun _ => rfl⟩

theorem isReachable_of_le {x y : State} (hxy : x ≤ y) (hx : x.isReachable = true) : y.isReachable = true := by
  cases x with
  | unreachable => cases hx
  | live regs mem =>
    obtain ⟨regs', mem', rfl, -⟩ := State.live_le.1 hxy
    rfl

theorem feasible_iff {m : Node} : f.Feasible live ro s a n m ↔
    ∃ x, a.state? n = some x ∧ ∃ fact ∈ Solver.outgoing f.graph n (f.transfer live ro s n x), fact.1 = m := by
  constructor
  · rintro ⟨x, t, hx, ht, hm⟩
    obtain ⟨y, hy⟩ := Option.isSome_iff_exists.1 hm
    refine ⟨x, hx, (m, y), ?_, rfl⟩
    rw [ht]
    exact Table.mem_entries_iff.2 hy
  · rintro ⟨x, hx, ⟨m, y⟩, hmem, rfl⟩
    obtain ⟨t, ht, -⟩ := f.transfer_successor live ro s n x
    rw [ht] at hmem
    exact ⟨x, t, hx, ht, Option.isSome_iff_exists.2 ⟨y, Table.mem_entries_iff.1 hmem⟩⟩

theorem path_of_isReachable (hro : ro.WellFormed) (h : f.analyze live ro s = .ok a) (hgave : a.stats.gaveUp = false)
    (hlive : a.isReachable n = true) : Relation.ReflTransGen (f.Feasible live ro s a) f.entry n := by
  obtain ⟨x, hx, hlive⟩ := isReachable_iff.1 hlive
  have hsilent : ∀ i x, Domain.isBottom x = true → Solver.outgoing f.graph i (f.transfer live ro s i x) = [] := by
    intro i x hx
    obtain rfl : x = .unreachable := eq_of_beq hx
    rfl
  have htraced := solve_traced State.orderOn (State.wellFormed_entry f.params)
    (fun _ _ hx => wellFormed_outgoing hro hx)
    (fun _ _ _ hx hy hxy => outgoing_grows hx hy (State.le_eq_true.1 hxy)) hsilent (analyze_ok h).2 hgave hx
    (isBottom_eq_false.2 hlive)
  exact Relation.ReflTransGen.mono (fun _ _ => feasible_iff.2) _ _ htraced

theorem isReachable_of_path (hro : ro.WellFormed) (h : f.analyze live ro s = .ok a) (hgave : a.stats.gaveUp = false)
    (path : Relation.ReflTransGen (f.Feasible live ro s a) f.entry n) : a.isReachable n = true := by
  have hsolves := analyze_solves hro h
  induction path with
  | refl =>
    obtain ⟨x, hx, hle⟩ := hsolves.entry_le
    exact isReachable_iff.2 ⟨x, hx, isReachable_of_le (State.le_eq_true.1 hle) rfl⟩
  | @tail n m _ edge ih =>
    obtain ⟨x, hx, hlive⟩ := isReachable_iff.1 ih
    obtain ⟨x', hx', fact, hmem, rfl⟩ := feasible_iff.1 edge
    obtain rfl : x = x' := Option.some_inj.1 (hx.symm.trans hx')
    obtain ⟨y, hy, hle⟩ := hsolves.covered hgave n x hx (.inr (isBottom_eq_false.2 hlive)) fact hmem
    exact isReachable_iff.2 ⟨y, hy, isReachable_of_le (State.le_eq_true.1 hle) (outgoing_live fact hmem)⟩

/-- **A node is reported as reached exactly when a path of feasible edges leads to it.**  Those are edges of the graph. -/
theorem analyze_reachable {floats : Bool} {globals : List Global} (hro : ReadOnly.ofGlobals floats globals = .ok ro)
    (h : f.analyze live ro s = .ok a) (hgave : a.stats.gaveUp = false) (n : Node) :
    (a.isReachable n = true ↔ Relation.ReflTransGen (f.Feasible live ro s a) f.entry n) ∧
      (a.isReachable n = true →
        Relation.ReflTransGen (fun n m => ∃ i, f.instruction? n = some i ∧ m ∈ i.successors) f.entry n) := by
  have hro := ReadOnly.wellFormed_ofGlobals hro
  have hpath : a.isReachable n = true → Relation.ReflTransGen (f.Feasible live ro s a) f.entry n :=
    path_of_isReachable hro h hgave
  refine ⟨⟨hpath, isReachable_of_path hro h hgave⟩, fun hlive => ?_⟩
  refine Relation.ReflTransGen.mono ?_ _ _ (hpath hlive)
  intro n m edge
  obtain ⟨x, -, fact, hmem, rfl⟩ := feasible_iff.1 edge
  exact mem_successors.1 (outgoing_successor x fact hmem)

/-- Its loop is left only when the zero of the first round is joined with the one of the second.  Then a constant is
tested that has one outcome. -/
def countUp : Function where
  name := "countUp"
  entry := 0
  params := []
  nodes := #[
    some (.op (.intConst 0) [] ⟨1⟩ 1),
    some (.cond (.cmpImm .eq 0) [⟨1⟩] 2 3),
    some (.op (.intConst 1) [] ⟨1⟩ 1),
    some (.op (.intConst 7) [] ⟨2⟩ 4),
    some (.cond (.cmpImm .eq 7) [⟨2⟩] 5 6),
    some (.ret none),
    some (.ret none)]

theorem analyze_reachable_countUp : ReadOnly.ofGlobals true [sampleTable] = .ok sampleReadOnly ∧
    ∃ a, countUp.analyze .unknown sampleReadOnly .standard = .ok a ∧ a.stats.gaveUp = false ∧
      Relation.ReflTransGen (countUp.Feasible .unknown sampleReadOnly .standard a) 0 5 ∧
      6 ∈ countUp.graph.successors 4 ∧
      ¬ Relation.ReflTransGen (countUp.Feasible .unknown sampleReadOnly .standard a) 0 6 := by
  obtain ⟨a, ha, h⟩ := exists_ok_of_any (e := countUp.analyze .unknown sampleReadOnly .standard)
    (p := fun a => !a.stats.gaveUp && a.isReachable 5 && !a.isReachable 6) (by decide +kernel)
  simp only [Bool.and_eq_true, Bool.not_eq_true'] at h
  obtain ⟨⟨hgave, hfive⟩, hsix⟩ := h
  refine ⟨sampleReadOnly_ok, a, ha, hgave, ?_, by decide, fun hpath => ?_⟩
  · exact (analyze_reachable sampleReadOnly_ok ha hgave 5).1.1 hfive
  · have hreached : a.isReachable 6 = true := (analyze_reachable sampleReadOnly_ok ha hgave 6).1.2 hpath
    rw [hsix] at hreached
    cases hreached

end Function
end ValueFlow
