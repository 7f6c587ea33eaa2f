import ValueFlow.Proofs.Lists
import ValueFlow.Proofs.PostFixpoint
/-!
# What a run costs

Nothing is asked here of the domain, not even the laws of its join, nor of the transfer function.  A node is evaluated
once for each time that it became pending, except for the time that it is waiting out now: `Counted`.  A delivery that
counts one more time starts a wait, and an evaluation ends one.  Until the run ends no node became pending more often than
the bound allows, so none was evaluated more often either; and when nothing is waiting any more, the two numbers are the
same.
-/
namespace ValueFlow
namespace Solver

/-! ## Counting by nodes -/

section
variable {L : Type} {n : Nat}

/-- How often the nodes became pending, all together. -/
def enqueues (slots : Vector (Slot L) n) : Nat :=
  slots.toList.foldr (fun s total => s.enqueued + total) 0

theorem enqueues_eq_sum {slots : Vector (Slot L) n} {f : Node → Nat} (h : ∀ i (hi : i < n), slots[i].enqueued = f i) :
    enqueues slots = ∑ i ∈ Finset.range n, f i := by
  have hmap : slots.toList.map Slot.enqueued = (List.range n).map f :=
    List.ext_getElem (by simp) fun i hi _ => by simpa using h i (by simpa using hi)
  calc enqueues slots = (slots.toList.map Slot.enqueued).sum := by rw [List.sum_eq_foldr, List.foldr_map]; rfl
    _ = ((List.range n).map f).sum := by rw [hmap]
    _ = ∑ i ∈ Finset.range n, f i := rfl

theorem maxEnqueued_le {p : Progress L n} {gaveUp : Bool} {b : Nat} :
    (p.stats gaveUp).maxEnqueued ≤ b ↔ ∀ i (h : i < n), p.slots[i].enqueued ≤ b := by
  simp only [Progress.stats, foldl_max_le, Nat.zero_le, true_and, List.forall_mem_map, List.forall_mem_iff_forall_getElem,
    Vector.length_toList, Vector.getElem_toList]

/-- **Each node was evaluated as often as it became pending**, but for the time that it is waiting out, and the bound was
kept. -/
structure Counted (bound : Nat) (p : Progress L n) : Prop where
  inside : ∀ i ∈ p.log.map Prod.fst, i < n
  visits : ∀ i (h : i < n), (p.log.map Prod.fst).count i + p.slots[i].pending.toNat = p.slots[i].enqueued
  within : ∀ i (h : i < n), p.slots[i].enqueued ≤ bound

theorem Counted.length_le {bound : Nat} {p : Progress L n} (hp : Counted bound p) : p.log.length ≤ n * bound := by
  rw [← List.length_map Prod.fst]
  refine length_le_of_count_le hp.inside fun i hi => ?_
  have := hp.visits i hi
  have := hp.within i hi
  omega

theorem Counted.length_lt {bound : Nat} {p : Progress L n} (hp : Counted bound p) {node : Nat} (hnode : node < n)
    (hpending : p.slots[node].pending = true) : p.log.length + 1 ≤ n * bound := by
  have hlen : (node :: p.log.map Prod.fst).length = p.log.length + 1 := by simp
  rw [← hlen]
  refine length_le_of_count_le (List.forall_mem_cons.2 ⟨hnode, hp.inside⟩) fun i hi => ?_
  have hvisits := hp.visits i hi
  have hwithin := hp.within i hi
  rw [List.count_cons]
  by_cases hne : node = i
  · subst hne
    rw [hpending, Bool.toNat_true] at hvisits
    rw [if_pos (beq_self_eq_true node)]
    omega
  · rw [if_neg (by simpa using hne)]
    omega

theorem Counted.enqueues_of_settled {bound : Nat} {p : Progress L n} (hp : Counted bound p)
    (hdone : ∀ i (h : i < n), p.slots[i].pending = false) : enqueues p.slots = p.log.length := by
  have hcount : ∀ i (h : i < n), p.slots[i].enqueued = (p.log.map Prod.fst).count i := fun i hi => by
    rw [← hp.visits i hi, hdone i hi]
    rfl
  rw [enqueues_eq_sum hcount, sum_count_eq_length hp.inside, List.length_map]

/-! ## What deliveries and evaluations do to the counts -/

variable [Domain L] [BEq L] {bound : Nat} {g : Graph} {transfer : Node → L → Fiber L} {entry : Node} {init : L}

theorem deliver_counts {slots slots' : Vector (Slot L) n} {fact : Node × L} (h : deliver bound slots fact = .ok slots')
    (i : Nat) (hi : i < n) :
    slots'[i].enqueued + slots[i].pending.toNat = slots[i].enqueued + slots'[i].pending.toNat ∧
      (slots[i].enqueued ≤ bound → slots'[i].enqueued ≤ bound) := by
  obtain ⟨hlt, ⟨-, rfl⟩ | ⟨-, count, rfl, hcount⟩⟩ := deliver_cases h
  · exact ⟨rfl, id⟩
  · by_cases hne : fact.1 = i
    · subst hne
      rw [Vector.getElem_set_self]
      rcases hcount with ⟨hp, rfl⟩ | ⟨hp, rfl, hle⟩
      · rw [hp]
        exact ⟨rfl, id⟩
      · rw [hp]
        exact ⟨rfl, fun _ => hle⟩
    · rw [Vector.getElem_set_ne hlt hi hne]
      exact ⟨rfl, id⟩

theorem deliverAll_counts (i : Nat) (hi : i < n) : ∀ {facts : List (Node × L)} {slots slots' : Vector (Slot L) n},
    facts.foldlM (deliver bound) slots = .ok slots' →
    slots'[i].enqueued + slots[i].pending.toNat = slots[i].enqueued + slots'[i].pending.toNat ∧
      (slots[i].enqueued ≤ bound → slots'[i].enqueued ≤ bound)
  | [], slots, slots', h => by
    cases h
    exact ⟨rfl, id⟩
  | fact :: facts, slots, slots', h => by
    obtain ⟨mid, hd, hrest⟩ := deliverAll_cons h
    obtain ⟨hone, hle⟩ := deliver_counts hd i hi
    obtain ⟨hall, hle'⟩ := deliverAll_counts i hi hrest
    exact ⟨by omega, fun hb => hle' (hle hb)⟩

omit [BEq L] in
theorem counted_start (hbound : 1 ≤ bound) : Counted bound (start n entry init) where
  inside i hi := nomatch hi
  visits i hi := by
    simp only [start, Vector.getElem_ofFn]
    split <;> rfl
  within i hi := by
    simp only [start, Vector.getElem_ofFn]
    split
    · exact hbound
    · exact Nat.zero_le bound

/-- **An evaluation keeps the counts**, whichever pending node it is of. -/
theorem Counted.evaluates {p q : Progress L n} (hp : Counted bound p) (h : Evaluates g bound transfer p q) :
    Counted bound q := by
  obtain ⟨node, hnode, hpending, hfold, hlog⟩ := h
  refine ⟨?_, fun i hi => ?_, fun i hi => ?_⟩
  · rw [hlog, List.map_cons]
    exact List.forall_mem_cons.2 ⟨hnode, hp.inside⟩
  · obtain ⟨hcount, -⟩ := deliverAll_counts i hi hfold
    have hvisits := hp.visits i hi
    rw [enqueued_popped] at hcount
    rw [hlog, List.map_cons, List.count_cons]
    by_cases hne : node = i
    · subst hne
      -- its wait is over, and its facts may have started the next
      simp only [pending_popped_self, Bool.toNat_false, hpending, Bool.toNat_true, beq_self_eq_true, if_true]
        at hcount hvisits ⊢
      omega
    · rw [popped_of_ne hnode hi hne] at hcount
      rw [if_neg (by simpa using hne)]
      omega
  · refine (deliverAll_counts i hi hfold).2 ?_
    rw [enqueued_popped]
    exact hp.within i hi

/-- **A run that gives up has one node that became pending once too often.** -/
theorem Counted.exceeded {p q : Progress L n} (hp : Counted bound p) (h : step g bound transfer p = .exceeded q)
    (gaveUp : Bool) : (q.stats gaveUp).maxEnqueued = bound + 1 := by
  have hstep := step_stepped g bound transfer p
  rw [h] at hstep
  cases hstep with
  | exceeded hnode low hfold =>
    obtain ⟨before, fact, after, mid, -, hbefore, hfail⟩ := deliverAll_error hfold
    have hmid : ∀ i (hi : i < n), mid[i].enqueued ≤ bound := fun i hi => by
      refine (deliverAll_counts i hi hbefore).2 ?_
      rw [enqueued_popped]
      exact hp.within i hi
    rcases deliver_error hfail with ⟨-, heq⟩ | ⟨hlt, -, hmore, heq⟩
    · cases heq
    · cases heq
      apply Nat.le_antisymm
      · refine maxEnqueued_le.2 fun i hi => ?_
        rw [Vector.getElem_set]
        split
        · exact Nat.add_le_add_right (hmid _ hlt) 1
        · exact Nat.le_succ_of_le (hmid i hi)
      · refine Nat.lt_of_not_le fun hle => ?_
        have hkept := maxEnqueued_le.1 hle fact.1 hlt
        rw [Vector.getElem_set_self] at hkept
        exact absurd hkept (Nat.not_le.2 hmore)

/-! ## Whole runs -/

/-- **One step after the other**, each with the lowest pending node. -/
def Steps (g : Graph) (bound : Nat) (transfer : Node → L → Fiber L) : Progress L n → Progress L n → Prop :=
  Relation.ReflTransGen fun p q => step g bound transfer p = .next q

theorem Counted.steps {p q : Progress L n} (hp : Counted bound p) (h : Steps g bound transfer p q) : Counted bound q := by
  induction h with
  | refl => exact hp
  | tail _ hlast ih => exact ih.evaluates (step_next hlast)

end
end Solver

/-! ## The bound on a run -/

section
variable {L : Type} [Domain L] [BEq L] {g : Graph} {bound : Nat} {transfer : Node → L → Fiber L} {entry : Node}
  {init : L} {sol : Solution L}

open Solver

/-- **What the statistics of a solution say.**  A run that settled evaluated every node as often as it became pending. -/
structure Solution.Accounted (g : Graph) (bound : Nat) (transfer : Node → L → Fiber L) (entry : Node) (init : L)
    (sol : Solution L) : Prop where
  iterations_eq : sol.stats.iterations = (run g bound transfer entry init).log.length
  iterations_le : sol.stats.iterations ≤ g.size * bound
  maxEnqueued_le : sol.stats.maxEnqueued ≤ bound + 1
  gaveUp_iff : sol.stats.gaveUp = true ↔ sol.stats.maxEnqueued = bound + 1
  settled : sol.stats.gaveUp = false → ∃ q : Progress L g.size,
    Steps g bound transfer (start g.size entry init) q ∧ step g bound transfer q = .settled ∧
      sol.states = (q.slots.map Slot.state).toArray ∧ sol.stats.iterations = enqueues q.slots ∧
      ∀ i (h : i < g.size), (run g bound transfer entry init).trace.count i = q.slots[i].enqueued

theorem accounted_of_settled {q : Progress L g.size} (hbound : 1 ≤ bound)
    (hq : Steps g bound transfer (start g.size entry init) q) (hs : step g bound transfer q = .settled)
    (hrun : run g bound transfer entry init =
      ⟨q.log.reverse, .ok ⟨(q.slots.map Slot.state).toArray, q.stats false⟩⟩) :
    Solution.Accounted g bound transfer entry init ⟨(q.slots.map Slot.state).toArray, q.stats false⟩ := by
  have hcounted := (counted_start hbound).steps hq
  have hdone := step_settled hs
  have hmax : (q.stats false).maxEnqueued ≤ bound := maxEnqueued_le.2 hcounted.within
  constructor
  · rw [hrun, List.length_reverse]
    rfl
  · exact hcounted.length_le
  · exact Nat.le_succ_of_le hmax
  · exact ⟨nofun, fun heq => absurd hmax (heq ▸ Nat.not_succ_le_self bound)⟩
  · refine fun _ => ⟨q, hq, hs, rfl, (hcounted.enqueues_of_settled hdone).symm, fun i hi => ?_⟩
    rw [← hcounted.visits i hi, hdone i hi, Run.trace, hrun, List.map_reverse, List.count_reverse]
    rfl

theorem accounted_of_exceeded {q r : Progress L g.size} (hbound : 1 ≤ bound)
    (hq : Steps g bound transfer (start g.size entry init) q) (hs : step g bound transfer q = .exceeded r)
    (hrun : run g bound transfer entry init = ⟨r.log.reverse, .ok ⟨Array.replicate g.size Domain.top, r.stats true⟩⟩) :
    Solution.Accounted g bound transfer entry init ⟨Array.replicate g.size Domain.top, r.stats true⟩ := by
  have hcounted := (counted_start hbound).steps hq
  have hmax : (r.stats true).maxEnqueued = bound + 1 := hcounted.exceeded hs true
  obtain ⟨node, hnode, hpending, hlog⟩ := step_exceeded hs
  constructor
  · rw [hrun, List.length_reverse]
    rfl
  · show r.log.length ≤ g.size * bound
    rw [hlog]
    exact hcounted.length_lt hnode hpending
  · exact hmax.le
  · exact ⟨fun _ => hmax, fun _ => rfl⟩
  · exact nofun

/-- **What a fault says is so**: the entry is outside the graph, or an evaluation sent a fact outside it. -/
def GraphFault.Justified (g : Graph) (bound : Nat) (transfer : Node → L → Fiber L) (entry : Node) (init : L)
    (fault : GraphFault) : Prop :=
  g.size ≤ entry ∧ fault = .missingEntry entry ∨
    ∃ node x t y, fault = .danglingSuccessor node t ∧ (node, x) ∈ (run g bound transfer entry init).log ∧
      (t, y) ∈ outgoing g node (transfer node x) ∧ g.size ≤ t

theorem solve_cases (g : Graph) (transfer : Node → L → Fiber L) (entry : Node) (init : L) (hbound : 1 ≤ bound) :
    (∃ sol, solve g bound transfer entry init = .ok sol ∧ sol.Accounted g bound transfer entry init) ∨
      ∃ fault, solve g bound transfer entry init = .error fault ∧ fault.Justified g bound transfer entry init ∧
        (run g bound transfer entry init).log.length ≤ g.size * bound := by
  by_cases hentry : entry < g.size
  · have hsteps : ∀ {p q : Progress L g.size}, Steps g bound transfer (start g.size entry init) p →
        step g bound transfer p = .next q → Steps g bound transfer (start g.size entry init) q :=
      Relation.ReflTransGen.tail
    obtain ⟨q, hq, ⟨hs, hrun⟩ | ⟨r, hs, hrun⟩ | ⟨node, t, l, hs, hrun⟩⟩ :=
      run_ends bound transfer init hentry .refl hsteps
    · exact .inl ⟨_, congrArg Run.result hrun, accounted_of_settled hbound hq hs hrun⟩
    · exact .inl ⟨_, congrArg Run.result hrun, accounted_of_exceeded hbound hq hs hrun⟩
    · obtain ⟨hnode, hpending, rfl, y, hmem, hout⟩ := step_dangling hs
      have hlength := ((counted_start hbound).steps hq).length_lt hnode hpending
      refine .inr ⟨_, congrArg Run.result hrun, .inr ⟨node, _, t, y, rfl, ?_, hmem, hout⟩, ?_⟩
      · rw [hrun]
        exact List.mem_reverse.2 List.mem_cons_self
      · rw [hrun, List.length_reverse]
        exact hlength
  · have hrun := run_missing g bound transfer init hentry
    refine .inr ⟨_, congrArg Run.result hrun, .inl ⟨Nat.le_of_not_lt hentry, rfl⟩, ?_⟩
    rw [hrun]
    exact Nat.zero_le _

/-- **A run ends within its bound, whatever the domain and the transfer function are**, and fails only on a fault of the
graph. -/
theorem solve_bounded (hbound : 1 ≤ bound) :
    (run g bound transfer entry init).log.length ≤ g.size * bound ∧
      (∀ sol, solve g bound transfer entry init = .ok sol → sol.Accounted g bound transfer entry init) ∧
      ∀ fault, solve g bound transfer entry init = .error fault → fault.Justified g bound transfer entry init := by
  rcases solve_cases g transfer entry init hbound with ⟨sol, hsol, haccounted⟩ | ⟨fault, hfault, hjustified, hlength⟩
  · refine ⟨haccounted.iterations_eq ▸ haccounted.iterations_le, fun sol' h => ?_, fun fault h => ?_⟩
    · rw [hsol] at h
      cases h
      exact haccounted
    · rw [hsol] at h
      cases h
  · refine ⟨hlength, fun sol h => ?_, fun fault' h => ?_⟩
    · rw [hfault] at h
      cases h
    · rw [hfault] at h
      cases h
      exact hjustified

end

/-- A domain without laws, whose join counts joins and so never says that nothing is new. -/
structure Ticks where
  count : Nat
deriving DecidableEq

instance : Domain Ticks := ⟨⟨0⟩, ⟨0⟩, fun a b => ⟨a.count + b.count + 1⟩⟩

/-- Two nodes that send to each other use up all that the bound allows, where every join says something new. -/
theorem solve_bounded_ticks : 1 ≤ 3 ∧ ∃ sol : Solution Ticks,
    Solver.solve ⟨2, fun n => [1 - n]⟩ 3 (fun n x => .single (1 - n) x) 0 ⟨0⟩ = .ok sol ∧ sol.stats.gaveUp = true ∧
      sol.stats.iterations = 2 * 3 ∧ sol.stats.iterations ≤ 2 * 3 ∧ sol.stats.maxEnqueued = 3 + 1 := by
  let solved := Solver.solve ⟨2, fun n => [1 - n]⟩ 3 (fun n x => .single (1 - n) x) 0 (⟨0⟩ : Ticks)
  have hstats : solved.toOption.map (fun sol => (sol.stats.gaveUp, sol.stats.iterations)) = some (true, 2 * 3) := by
    decide +kernel
  cases h : solved with
  | error e =>
    rw [h] at hstats
    cases hstats
  | ok sol =>
    rw [h] at hstats
    simp only [Except.toOption, Option.map_some, Option.some.injEq, Prod.mk.injEq] at hstats
    have haccounted := (solve_bounded (by decide)).2.1 sol h
    exact ⟨by decide, sol, h, hstats.1, hstats.2, haccounted.iterations_le, haccounted.gaveUp_iff.1 hstats.1⟩

end ValueFlow
