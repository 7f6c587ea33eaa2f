import ValueFlow.Proofs.LeastSolution
import ValueFlow.Proofs.Termination
/-!
# One pass over a forward graph

Where every fact goes to a later node, the lowest pending node is past every node that was evaluated: whatever becomes
pending was sent to by a lower node that was itself the lowest one.  So no state changes once its node was evaluated,
every node is evaluated at most once, and the states are what one pass over the nodes in their order computes.  The facts
need not grow with the states for that, since no node sends twice.
-/
namespace ValueFlow
namespace Solver

section
variable {L : Type} [Domain L] [BEq L] [LawfulUpToBEq L] {n : Nat} {bound : Nat} {g : Graph}
  {transfer : Node → L → Fiber L} {entry : Node} {init : L}

/-- **Every fact goes to a later node of the graph.** -/
def ForwardFacts (g : Graph) (transfer : Node → L → Fiber L) : Prop :=
  ∀ n x, n < g.size → ∀ fact ∈ outgoing g n (transfer n x), n < fact.1 ∧ fact.1 < g.size

/-- **An evaluation joins into each state what its node receives.** -/
theorem evaluation_joins {p : Progress L n} (hreached : PendingReached entry p.slots) {node : Nat} (hnode : node < n)
    {f : Fiber L} {slots : Vector (Slot L) n}
    (h : (outgoing g node f).foldlM (deliver bound) (popped p.slots node hnode) = .ok slots) :
    PendingReached entry slots ∧
      ∀ i (hi : i < n), slots[i].state == Domain.join p.slots[i].state (f.received g node i) := by
  have hbelow : Below (fun i => Domain.join (p.stateAt i) (f.received g node i)) entry slots := by
    refine Below.deliverAll (Below.popped ⟨fun i hi => ?_, hreached⟩ hnode) (fun fact hmem hlt => ?_) h
    · rw [stateAt_eq p hi]
      exact Domain.orderOn_all.le_join_left trivial trivial
    · rw [received_of_mem_outgoing hmem]
      exact Domain.orderOn_all.le_join_right trivial trivial
  obtain ⟨-, hraised, hcovered⟩ := deliverAll_raised Domain.orderOn_all (fun _ _ => trivial) (fun _ _ => trivial) h
  refine ⟨hbelow.reached, fun i hi => Domain.beq_of_le_of_le ?_ (Domain.join_le ?_ ?_)⟩
  · rw [← stateAt_eq p hi]
    exact hbelow.le i hi
  · rw [← state_popped p.slots hnode i hi]
    exact hraised.grows i hi
  · rcases mem_outgoing_of_received g node f i with hnone | hmem
    · rw [hnone]
      exact Domain.bottom_le _
    · obtain ⟨_, hle⟩ := hcovered _ hmem
      exact hle

def initialState (entry : Node) (init : L) (i : Node) : L := if i = entry then init else Domain.bottom

/-- **What holds between two steps of a forward run.**  Whatever is pending is past every node that was evaluated, and
the states are what the evaluated nodes sent. -/
structure Passing (g : Graph) (transfer : Node → L → Fiber L) (entry : Node) (init : L) (p : Progress L n) : Prop where
  descending : p.log.Pairwise (fun d e => e.1 < d.1)
  ahead : ∀ i (h : i < n), p.slots[i].pending = true → ∀ e ∈ p.log, e.1 < i
  kept : ∀ e ∈ p.log, ∃ h : e.1 < n, p.slots[e.1].state = e.2
  live : ∀ e ∈ p.log, e.1 = entry ∨ Domain.isBottom e.2 = false
  reached : PendingReached entry p.slots
  untouched : ∀ i (h : i < n), p.slots[i].enqueued = 0 → i ≠ entry ∧ p.slots[i].state = Domain.bottom
  sent : ∀ i (h : i < n), p.slots[i].state ==
    p.log.foldr (fun e x => Domain.join x ((transfer e.1 e.2).received g e.1 i)) (initialState entry init i)

theorem passing_start : Passing g transfer entry init (start n entry init) where
  descending := .nil
  ahead _ _ _ _ he := nomatch he
  kept _ he := nomatch he
  live _ he := nomatch he
  reached := pendingReached_start
  untouched i hi hzero := by
    simp only [start, Vector.getElem_ofFn] at hzero ⊢
    split at hzero
    · cases hzero
    · rename_i hne
      rw [if_neg hne]
      exact ⟨hne, rfl⟩
  sent i hi := by
    simp only [start, Vector.getElem_ofFn, List.foldr_nil, initialState]
    split <;> exact Domain.beq_self _

omit [LawfulUpToBEq L] in
theorem kept_behind (hforward : ForwardFacts g transfer) {p : Progress L g.size} {node : Nat} (hnode : node < g.size)
    {x : L} {slots : Vector (Slot L) g.size}
    (h : (outgoing g node (transfer node x)).foldlM (deliver bound) (popped p.slots node hnode) = .ok slots)
    {i : Nat} (hi : i < g.size) (hle : i ≤ node) : slots[i] = (popped p.slots node hnode)[i] := by
  refine deliverAll_frame hi ?_ h
  rintro ⟨fact, hmem, rfl⟩
  exact Nat.not_lt.2 hle (hforward node x hnode fact hmem).1

omit [LawfulUpToBEq L] in
theorem lt_of_pending (hforward : ForwardFacts g transfer) {p : Progress L g.size} {node : Nat} {hnode : node < g.size}
    (low : Lowest p.slots node hnode) {x : L} {slots : Vector (Slot L) g.size}
    (h : (outgoing g node (transfer node x)).foldlM (deliver bound) (popped p.slots node hnode) = .ok slots)
    {i : Nat} (hi : i < g.size) (hp : slots[i].pending = true) : node < i := by
  by_contra hle
  rw [kept_behind hforward hnode h hi (Nat.le_of_not_lt hle)] at hp
  by_cases hne : node = i
  · subst hne
    rw [pending_popped_self] at hp
    cases hp
  · rw [popped_of_ne hnode hi hne] at hp
    have := low.first i hi hp
    omega

theorem Passing.next (hforward : ForwardFacts g transfer) {p q : Progress L g.size}
    (hp : Passing g transfer entry init p) (hcounted : Counted bound q) (h : step g bound transfer p = .next q) :
    Passing g transfer entry init q := by
  have hstep := step_stepped g bound transfer p
  rw [h] at hstep
  cases hstep with
  | @next node slots hnode low hfold =>
    have hlog : ∀ e ∈ p.log, e.1 < node := hp.ahead node hnode low.pending
    have hlater : ∀ i (hi : i < g.size), slots[i].pending = true → node < i := fun i hi =>
      lt_of_pending hforward low hfold hi
    obtain ⟨hreached, hjoins⟩ := evaluation_joins hp.reached hnode hfold
    constructor
    · exact List.pairwise_cons.2 ⟨hlog, hp.descending⟩
    · intro i hi hpending
      refine List.forall_mem_cons.2 ⟨hlater i hi hpending, fun e he => ?_⟩
      exact Nat.lt_trans (hlog e he) (hlater i hi hpending)
    · refine List.forall_mem_cons.2 ⟨⟨hnode, ?_⟩, fun e he => ?_⟩
      · rw [kept_behind hforward hnode hfold hnode (Nat.le_refl node), state_popped]
      · obtain ⟨hlt, hstate⟩ := hp.kept e he
        refine ⟨hlt, ?_⟩
        rw [kept_behind hforward hnode hfold hlt (Nat.le_of_lt (hlog e he)), state_popped, hstate]
    · exact List.forall_mem_cons.2 ⟨hp.reached node hnode low.pending, hp.live⟩
    · exact hreached
    · intro i hi hzero
      -- a node that never became pending is not pending, so nothing was delivered to it
      have hidle : slots[i].pending = false := by
        have hvisits := hcounted.visits i hi
        cases hpending : slots[i].pending with
        | false => rfl
        | true =>
          simp only [hpending, hzero, Bool.toNat_true] at hvisits
          omega
      obtain ⟨-, hraised, -⟩ := deliverAll_raised Domain.orderOn_all (fun _ _ => trivial) (fun _ _ => trivial) hfold
      have hsame := hraised.unchanged i hi hidle
      simp only [hsame, enqueued_popped, state_popped] at hzero ⊢
      exact hp.untouched i hi hzero
    · intro i hi
      exact PartialEquivBEq.trans (hjoins i hi) (LawfulUpToBEq.join_congr (hp.sent i hi))

/-- **No node becomes pending twice**: a fact goes past every node that was evaluated. -/
theorem Passing.not_exceeded (hforward : ForwardFacts g transfer) (hbound : 1 ≤ bound) {p q : Progress L g.size}
    (hp : Passing g transfer entry init p) (hcounted : Counted bound p) : step g bound transfer p ≠ .exceeded q := by
  intro h
  have hstep := step_stepped g bound transfer p
  rw [h] at hstep
  cases hstep with
  | @exceeded node slots hnode low hfold =>
    obtain ⟨before, fact, after, mid, hsplit, hbefore, hfail⟩ := deliverAll_error hfold
    rcases deliver_error hfail with ⟨-, heq⟩ | ⟨hlt, hidle, hmore, -⟩
    · cases heq
    · have hpast : node < fact.1 := by
        refine (hforward node p.slots[node].state hnode fact ?_).1
        rw [hsplit]
        exact List.mem_append_right before List.mem_cons_self
      obtain ⟨-, hraised, -⟩ := deliverAll_raised Domain.orderOn_all (fun _ _ => trivial) (fun _ _ => trivial) hbefore
      have hsame := hraised.unchanged fact.1 hlt hidle
      rw [popped_of_ne hnode hlt (Nat.ne_of_lt hpast)] at hsame
      have hcount : (p.log.map Prod.fst).count fact.1 = 0 := by
        refine List.count_eq_zero.2 fun hmem => ?_
        obtain ⟨e, he, heq⟩ := List.mem_map.1 hmem
        have hbehind : e.1 < node := hp.ahead node hnode low.pending e he
        exact Nat.lt_asymm hpast (heq ▸ hbehind)
      have hvisits := hcounted.visits fact.1 hlt
      rw [hsame] at hidle hmore
      rw [hcount, hidle] at hvisits
      simp only [Bool.toNat_false] at hvisits
      omega

/-! ## Whole runs -/

/-- **A forward run settles**, and all its steps keep the invariant. -/
theorem run_passes (hforward : ForwardFacts g transfer) (hbound : 1 ≤ bound) (init : L) (hentry : entry < g.size) :
    ∃ q : Progress L g.size, Passing g transfer entry init q ∧ Counted bound q ∧
      (∀ i (h : i < g.size), q.slots[i].pending = false) ∧ run g bound transfer entry init =
        ⟨q.log.reverse, .ok ⟨(q.slots.map Slot.state).toArray, q.stats false⟩⟩ := by
  have hkeeps : ∀ {p q : Progress L g.size}, Passing g transfer entry init p ∧ Counted bound p →
      step g bound transfer p = .next q → Passing g transfer entry init q ∧ Counted bound q := fun {p q} hp hs =>
    have hcounted := hp.2.evaluates (step_next hs)
    ⟨hp.1.next hforward hcounted hs, hcounted⟩
  obtain ⟨q, ⟨hpassing, hcounted⟩, ⟨hs, hrun⟩ | ⟨r, hs, -⟩ | ⟨node, t, l, hs, -⟩⟩ :=
    run_ends bound transfer init hentry ⟨passing_start, counted_start hbound⟩ hkeeps
  · exact ⟨q, hpassing, hcounted, step_settled hs, hrun⟩
  · exact absurd hs (hpassing.not_exceeded hforward hbound hcounted)
  · obtain ⟨hnode, -, -, y, hmem, hout⟩ := step_dangling hs
    exact absurd (hforward node _ hnode (t, y) hmem).2 (Nat.not_lt.2 hout)

omit [BEq L] [LawfulUpToBEq L] in
theorem received_behind (hforward : ForwardFacts g transfer) {node m : Node} (hnode : node < g.size) (hle : m ≤ node)
    (x : L) : (transfer node x).received g node m = Domain.bottom := by
  rcases mem_outgoing_of_received g node (transfer node x) m with hnone | hmem
  · exact hnone
  · exact absurd (hforward node x hnode _ hmem).1 (Nat.not_lt.2 hle)

/-- What node `m` gets from nodes that have the states of `X`, one after the other. -/
def gather (g : Graph) (transfer : Node → L → Fiber L) (X : Node → L) (m : Node) (x : L) (nodes : List Node) : L :=
  nodes.foldl (fun x n => Domain.join x ((transfer n (X n)).received g n m)) x

theorem sent_eq_gather (hforward : ForwardFacts g transfer) (X : Node → L) (m : Node) (x : L) :
    ∀ {log : List (Node × L)}, (∀ e ∈ log, e.1 < g.size ∧ X e.1 = e.2) →
    log.foldr (fun e x => Domain.join x ((transfer e.1 e.2).received g e.1 m)) x ==
      gather g transfer X m x ((log.reverse.map Prod.fst).filter (· < m))
  | [], _ => Domain.beq_self x
  | e :: log, hlog => by
    obtain ⟨⟨hnode, hstate⟩, hlog⟩ := List.forall_mem_cons.1 hlog
    have ih := sent_eq_gather hforward X m x hlog
    simp only [List.foldr_cons, List.reverse_cons, List.map_append, List.map_cons, List.map_nil, List.filter_append]
    by_cases hlt : e.1 < m
    · rw [List.filter_cons_of_pos (by simpa using hlt), gather, List.foldl_append]
      simp only [List.filter_nil, List.foldl_cons, List.foldl_nil, hstate]
      exact LawfulUpToBEq.join_congr ih
    · rw [List.filter_cons_of_neg (by simpa using hlt), List.filter_nil, List.append_nil,
        received_behind hforward hnode (Nat.le_of_not_lt hlt)]
      exact PartialEquivBEq.trans (LawfulUpToBEq.join_comm _ _) (PartialEquivBEq.trans (LawfulUpToBEq.bottom_join _) ih)

theorem Passing.mem_trace_iff {q : Progress L n} (hq : Passing g transfer entry init q) (hcounted : Counted bound q)
    (hdone : ∀ i (h : i < n), q.slots[i].pending = false) {m : Nat} (hm : m < n) :
    m ∈ q.log.map Prod.fst ↔ m = entry ∨ Domain.isBottom q.slots[m].state = false := by
  constructor
  · intro hmem
    obtain ⟨e, he, rfl⟩ := List.mem_map.1 hmem
    obtain ⟨_, hstate⟩ := hq.kept e he
    rw [hstate]
    exact hq.live e he
  · intro hreached
    by_contra hnot
    have hzero : q.slots[m].enqueued = 0 := by
      rw [← hcounted.visits m hm, hdone m hm, List.count_eq_zero.2 hnot]
      rfl
    obtain ⟨hne, hbottom⟩ := hq.untouched m hm hzero
    rcases hreached with heq | hlive
    · exact hne heq
    · rw [hbottom, Domain.orderOn_all.isBottom_bottom] at hlive
      cases hlive

omit [LawfulUpToBEq L] in
theorem Passing.counted_once {q : Progress L n} (hq : Passing g transfer entry init q) (hcounted : Counted bound q)
    (hdone : ∀ i (h : i < n), q.slots[i].pending = false) : Counted 1 q where
  inside := hcounted.inside
  visits := hcounted.visits
  within i hi := by
    have hnodup : (q.log.map Prod.fst).Nodup :=
      List.pairwise_map.2 (hq.descending.imp fun hlt => (Nat.ne_of_lt hlt).symm)
    rw [← hcounted.visits i hi, hdone i hi]
    exact List.nodup_iff_count_le_one.1 hnodup i

end
end Solver

section
variable {L : Type} [Domain L] [BEq L] {g : Graph} {transfer : Node → L → Fiber L} {entry : Node} {bound : Nat}

open Solver

/-- **On a forward graph one pass is enough.**  Every node that is reached is evaluated once, in increasing order, and
every state is the join of what the nodes before it sent from their final states. -/
theorem solve_onePass [LawfulUpToBEq L] (hforward : ForwardFacts g transfer) (hbound : 1 ≤ bound)
    (hentry : entry < g.size) (init : L) :
    ∃ sol, solve g bound transfer entry init = .ok sol ∧ sol.states.size = g.size ∧ sol.stats.gaveUp = false ∧
      (run g bound transfer entry init).trace.Pairwise (· < ·) ∧
      sol.stats.iterations = (run g bound transfer entry init).trace.length ∧
      sol.stats.iterations ≤ g.size ∧ sol.stats.maxEnqueued = 1 ∧
      ∀ m x, sol.state? m = some x →
        (m ∈ (run g bound transfer entry init).trace ↔ m = entry ∨ Domain.isBottom x = false) ∧
        x == gather g transfer (fun n => (sol.state? n).getD Domain.bottom) m (if m = entry then init else Domain.bottom)
          ((run g bound transfer entry init).trace.filter (· < m)) := by
  obtain ⟨q, hpassing, hcounted, hdone, hrun⟩ := run_passes hforward hbound init hentry
  have honce := hpassing.counted_once hcounted hdone
  have htrace : (run g bound transfer entry init).trace = q.log.reverse.map Prod.fst := by rw [Run.trace, hrun]
  rw [htrace]
  refine ⟨_, congrArg Run.result hrun, by simp, rfl, ?_, ?_, ?_, ?_, fun m x hx => ?_⟩
  · rw [List.map_reverse, List.pairwise_reverse, List.pairwise_map]
    exact hpassing.descending
  · simp [Progress.stats]
  · have hlength : q.log.length ≤ g.size * 1 := honce.length_le
    rwa [Nat.mul_one] at hlength
  · refine Nat.le_antisymm (maxEnqueued_le.2 honce.within) (Nat.lt_of_not_le fun hle => ?_)
    have hzero := Nat.le_zero.1 (maxEnqueued_le.1 hle entry hentry)
    exact (hpassing.untouched entry hentry hzero).1 rfl
  · obtain ⟨hm, rfl⟩ := state?_slots.1 hx
    refine ⟨?_, PartialEquivBEq.trans (hpassing.sent m hm) (sent_eq_gather hforward _ m _ fun e he => ?_)⟩
    · rw [List.map_reverse, List.mem_reverse]
      exact hpassing.mem_trace_iff hcounted hdone hm
    · obtain ⟨hlt, hstate⟩ := hpassing.kept e he
      refine ⟨hlt, ?_⟩
      rw [state?_slots.2 ⟨hlt, hstate⟩]
      rfl

end

/-- After the fork the third node tells the fourth less the more it knows itself. -/
def detourGraph : Graph := ⟨4, fun n => [[1, 2], [2], [3]].getD n []⟩

def detourTransfer (n : Node) (x : Pointer) : Fiber Pointer :=
  match n with
  | 2 => .single 3 (if x.isExact then .anyGlobal else .stackAt 16)
  | n => forkTransfer n x

theorem forwardFacts_detour : Solver.ForwardFacts detourGraph detourTransfer := by
  intro n x hn fact hmem
  have hn : n < 4 := hn
  obtain rfl | rfl | rfl | rfl : n = 0 ∨ n = 1 ∨ n = 2 ∨ n = 3 := by omega
  · have hfacts : fact ∈ [(1, x), (2, x)] := hmem
    simp only [List.mem_cons, List.not_mem_nil, or_false] at hfacts
    rcases hfacts with rfl | rfl <;> simp [detourGraph]
  · obtain rfl : fact = (2, x.shift 8) := List.mem_singleton.1 hmem
    simp [detourGraph]
  · obtain rfl : fact = (3, if x.isExact then .anyGlobal else .stackAt 16) := List.mem_singleton.1 hmem
    simp [detourGraph]
  · cases hmem

/-- The third node is evaluated when both its facts are there, so the fourth hears only what follows from both. -/
theorem solve_onePass_detour : Solver.ForwardFacts detourGraph detourTransfer ∧ ∃ sol : Solution Pointer,
    Solver.solve detourGraph 1 detourTransfer 0 (.stackAt 0) = .ok sol ∧ sol.stats.gaveUp = false ∧
      sol.stats.maxEnqueued = 1 ∧ sol.stats.iterations ≤ 4 ∧
      (Solver.run detourGraph 1 detourTransfer 0 (.stackAt 0)).trace = [0, 1, 2, 3] ∧
      sol.state? 2 = some .anyStack ∧ sol.state? 3 = some (.stackAt 16) := by
  obtain ⟨sol, hsol, -, hgave, -, -, hiter, hmax, -⟩ :=
    solve_onePass forwardFacts_detour (Nat.le_refl 1) (show 0 < detourGraph.size by decide) (.stackAt 0)
  have hstates : (Solver.solve detourGraph 1 detourTransfer 0 (.stackAt 0)).toOption.map
      (fun sol => (sol.state? 2, sol.state? 3)) = some (some .anyStack, some (.stackAt 16)) := by decide +kernel
  rw [hsol] at hstates
  simp only [Except.toOption, Option.map_some, Option.some.injEq, Prod.mk.injEq] at hstates
  exact ⟨forwardFacts_detour, sol, hsol, hgave, hmax, hiter, by decide +kernel, hstates.1, hstates.2⟩

end ValueFlow
