import ValueFlow.Proofs.PostFixpoint
/-!
# The least solution

Where the facts that a node sends grow with its state, a run stays below every solution of the equations: a pending node
is the entry or holds something, so the solution covers what that node sends, and with it each delivery.  A settled run
is a solution itself, hence the least one.  Nothing in this asks which pending node comes next, so every order of
evaluation that settles ends with the same states.
-/
namespace ValueFlow

/-- What `node` makes each other node receive.  `Fiber.top` speaks to the successors in the graph alone. -/
def Fiber.received {L : Type} [Domain L] (g : Graph) (node : Node) (f : Fiber L) (m : Node) : L :=
  match f with
  | .top     => if m ∈ g.successors node then Domain.top else Domain.bottom
  | .facts t => (facts t).get m

namespace Domain
variable {L : Type} [Domain L] [BEq L] [LawfulUpToBEq L] {a b c : L}

open LawfulUpToBEq

theorem bottom_le (a : L) : le bottom a = true := bottom_join a

theorem join_le (hac : le a c = true) (hbc : le b c = true) : le (join a b) c = true := by
  have h₁ : join (join a b) c == join a (join b c) := join_assoc a b c
  have h₂ : join a (join b c) == join a c := join_congr_right hbc
  exact PartialEquivBEq.trans h₁ (PartialEquivBEq.trans h₂ hac)

theorem beq_of_le_of_le (hab : le a b = true) (hba : le b a = true) : a == b := by
  have h : join b a == b := PartialEquivBEq.trans (join_comm b a) hab
  exact PartialEquivBEq.trans (PartialEquivBEq.symm hba) h

theorem isBottom_of_le (hab : le a b = true) (hb : isBottom b = true) : isBottom a = true := by
  have h₁ : join a b == join a bottom := join_congr_right hb
  have h₂ : join a bottom == a := PartialEquivBEq.trans (join_comm a bottom) (bottom_join a)
  have h₃ : a == b := PartialEquivBEq.trans (PartialEquivBEq.symm (PartialEquivBEq.trans h₁ h₂)) hab
  exact PartialEquivBEq.trans h₃ hb

theorem isBottom_join_of_ne (h : (join a b == a) = false) : isBottom (join a b) = false := by
  cases hb : isBottom (join a b) with
  | false => rfl
  | true =>
    have ha : isBottom a = true := isBottom_of_le (orderOn_all.le_join_left trivial trivial) hb
    have heq : join a b == a := PartialEquivBEq.trans hb (PartialEquivBEq.symm ha)
    rw [heq] at h
    cases h

end Domain

/-! ## Equations and their solutions -/

section
variable {L : Type} [Domain L] [BEq L]

/-- **What each node of the graph receives grows with the sender's state.** -/
def MonotoneFacts (g : Graph) (transfer : Node → L → Fiber L) : Prop :=
  ∀ n x y, n < g.size → Domain.le x y = true → ∀ m, m < g.size →
    Domain.le ((transfer n x).received g n m) ((transfer n y).received g n m) = true

/-- **`X` covers the entry's state, and what every node that it reaches makes the others receive.** -/
structure PostFixpoint (g : Graph) (transfer : Node → L → Fiber L) (entry : Node) (init : L) (X : Node → L) : Prop where
  entry_le : Domain.le init (X entry) = true
  received_le : ∀ n, n < g.size → (n = entry ∨ Domain.isBottom (X n) = false) → ∀ m, m < g.size →
    Domain.le ((transfer n (X n)).received g n m) (X m) = true

end

namespace Solver
section
variable {L : Type} [Domain L] {g : Graph} {node : Node} {f : Fiber L}

theorem received_of_mem_outgoing {fact : Node × L} (h : fact ∈ outgoing g node f) :
    f.received g node fact.1 = fact.2 := by
  cases f with
  | top =>
    obtain ⟨s, hs, rfl⟩ := List.mem_map.1 h
    exact if_pos hs
  | facts t =>
    have hget : t.get? fact.1 = some fact.2 := Table.mem_entries_iff.1 h
    simp [Fiber.received, Fiber.get, hget]

theorem mem_outgoing_of_received (g : Graph) (node : Node) (f : Fiber L) (m : Node) :
    f.received g node m = Domain.bottom ∨ (m, f.received g node m) ∈ outgoing g node f := by
  cases f with
  | top =>
    by_cases hm : m ∈ g.successors node
    · refine .inr (List.mem_map.2 ⟨m, hm, ?_⟩)
      simp [Fiber.received, hm]
    · exact .inl (if_neg hm)
  | facts t =>
    cases hget : t.get? m with
    | none => exact .inl (by simp [Fiber.received, Fiber.get, hget])
    | some x => exact .inr (Table.mem_entries_iff.2 (by simp [Fiber.received, Fiber.get, hget]))

/-- The states of a run, with nothing outside the graph. -/
def Progress.stateAt {n : Nat} (p : Progress L n) (i : Node) : L := (p.slots[i]?.map Slot.state).getD Domain.bottom

theorem stateAt_eq {n : Nat} (p : Progress L n) {i : Node} (h : i < n) : p.stateAt i = p.slots[i].state := by
  simp [Progress.stateAt, Vector.getElem?_eq_getElem h]

end

/-! ## Staying below a solution -/

section
variable {L : Type} [Domain L] [BEq L] [LawfulUpToBEq L] {n : Nat} {g : Graph} {transfer : Node → L → Fiber L}
  {entry : Node} {init : L} {bound : Nat} {X : Node → L}

/-- What is pending is the entry or holds something. -/
def PendingReached (entry : Node) (slots : Vector (Slot L) n) : Prop :=
  ∀ i (h : i < n), slots[i].pending = true → i = entry ∨ Domain.isBottom slots[i].state = false

omit [LawfulUpToBEq L] in
theorem pendingReached_start : PendingReached entry (start n entry init).slots := by
  intro i h hp
  simp only [start, Vector.getElem_ofFn] at hp
  split at hp
  · rename_i hi
    exact .inl hi
  · cases hp

/-- **No state is above `X`**, and what is pending was reached. -/
structure Below (X : Node → L) (entry : Node) (slots : Vector (Slot L) n) : Prop where
  le : ∀ i (h : i < n), Domain.le slots[i].state (X i) = true
  reached : PendingReached entry slots

theorem below_start (hinit : Domain.le init (X entry) = true) : Below X entry (start n entry init).slots where
  le i h := by
    simp only [start, Vector.getElem_ofFn]
    split
    · rename_i hi
      rw [hi]
      exact hinit
    · exact Domain.bottom_le _
  reached := pendingReached_start

omit [LawfulUpToBEq L] in
theorem Below.popped {slots : Vector (Slot L) n} (h : Below X entry slots) {node : Nat} (hnode : node < n) :
    Below X entry (popped slots node hnode) where
  le i hi := by
    rw [state_popped]
    exact h.le i hi
  reached i hi hp := by
    rw [state_popped]
    by_cases hne : node = i
    · subst hne
      rw [pending_popped_self] at hp
      cases hp
    · rw [popped_of_ne hnode hi hne] at hp
      exact h.reached i hi hp

theorem Below.deliver {slots slots' : Vector (Slot L) n} {fact : Node × L} (h : Below X entry slots)
    (hfact : fact.1 < n → Domain.le fact.2 (X fact.1) = true) (hd : deliver bound slots fact = .ok slots') :
    Below X entry slots' := by
  obtain ⟨hlt, ⟨-, rfl⟩ | ⟨hne, count, rfl, -⟩⟩ := deliver_cases hd
  · exact h
  · constructor
    · intro i hi
      rw [Vector.getElem_set]
      split
      · rename_i heq
        subst heq
        exact Domain.join_le (h.le _ hlt) (hfact hlt)
      · exact h.le i hi
    · intro i hi hp
      rw [Vector.getElem_set] at hp ⊢
      split at hp
      · rename_i heq
        rw [if_pos heq]
        -- the target's state changed, so it is not `bottom` any more
        exact .inr (Domain.isBottom_join_of_ne hne)
      · rename_i hi'
        rw [if_neg hi']
        exact h.reached i hi hp

theorem Below.deliverAll : ∀ {facts : List (Node × L)} {slots slots' : Vector (Slot L) n}, Below X entry slots →
    (∀ fact ∈ facts, fact.1 < n → Domain.le fact.2 (X fact.1) = true) →
    facts.foldlM (Solver.deliver bound) slots = .ok slots' → Below X entry slots'
  | [], slots, slots', h, _, hd => by
    cases hd
    exact h
  | fact :: facts, slots, slots', h, hfacts, hd => by
    obtain ⟨hfact, hfacts⟩ := List.forall_mem_cons.1 hfacts
    obtain ⟨mid, hone, hrest⟩ := deliverAll_cons hd
    exact (h.deliver hfact hone).deliverAll hfacts hrest

/-- **One evaluation stays below every solution.** -/
theorem Below.evaluates (hX : PostFixpoint g transfer entry init X) (hmono : MonotoneFacts g transfer)
    {p q : Progress L g.size} (h : Below X entry p.slots) (hpq : Evaluates g bound transfer p q) :
    Below X entry q.slots := by
  obtain ⟨node, hnode, hpending, hfold, -⟩ := hpq
  refine (h.popped hnode).deliverAll (fun fact hmem hlt => ?_) hfold
  have hstate := h.le node hnode
  have hreached : node = entry ∨ Domain.isBottom (X node) = false := by
    refine (h.reached node hnode hpending).imp id fun hlive => ?_
    cases hb : Domain.isBottom (X node) with
    | false => rfl
    | true =>
      rw [Domain.isBottom_of_le hstate hb] at hlive
      cases hlive
  have hgrow := hmono node _ _ hnode hstate fact.1 hlt
  rw [received_of_mem_outgoing hmem] at hgrow
  exact Domain.orderOn_all.le_trans trivial trivial trivial hgrow (hX.received_le node hnode hreached fact.1 hlt)

theorem below_reaches (hX : PostFixpoint g transfer entry init X) (hmono : MonotoneFacts g transfer)
    {p : Progress L g.size} (h : Reaches g bound transfer (start g.size entry init) p) : Below X entry p.slots := by
  induction h with
  | refl => exact below_start hX.entry_le
  | tail _ hlast ih => exact ih.evaluates hX hmono hlast

/-! ## Settled runs -/

theorem postFixpoint_of_settled (hentry : entry < g.size) {p : Progress L g.size}
    (h : Reaches g bound transfer (start g.size entry init) p)
    (hdone : ∀ i (h : i < g.size), p.slots[i].pending = false) : PostFixpoint g transfer entry init p.stateAt := by
  have inv := invariant_reaches Domain.orderOn_all trivial (fun _ _ _ _ _ => trivial) h
  refine ⟨?_, fun i hi hreached m hm => ?_⟩
  · rw [stateAt_eq p hentry]
    exact inv.entry_le hentry
  · rw [stateAt_eq p hi] at hreached ⊢
    rw [stateAt_eq p hm]
    rcases mem_outgoing_of_received g i (transfer i p.slots[i].state) m with hnone | hmem
    · rw [hnone]
      exact Domain.bottom_le _
    · obtain ⟨_, hle⟩ := inv.covered Domain.orderOn_all hi (hdone i hi) hreached _ hmem
      exact hle

/-- **Two settled runs, each in its own order, end with the same states.** -/
theorem settled_unique (hentry : entry < g.size) (hmono : MonotoneFacts g transfer) {bound' : Nat}
    {p q : Progress L g.size} (hp : Reaches g bound transfer (start g.size entry init) p)
    (hq : Reaches g bound' transfer (start g.size entry init) q)
    (hpdone : ∀ i (h : i < g.size), p.slots[i].pending = false)
    (hqdone : ∀ i (h : i < g.size), q.slots[i].pending = false) (i : Nat) (hi : i < g.size) :
    p.slots[i].state == q.slots[i].state := by
  have hpq := (below_reaches (postFixpoint_of_settled hentry hq hqdone) hmono hp).le i hi
  have hqp := (below_reaches (postFixpoint_of_settled hentry hp hpdone) hmono hq).le i hi
  rw [stateAt_eq _ hi] at hpq hqp
  exact Domain.beq_of_le_of_le hpq hqp

end
end Solver

/-! ## The solver's solution -/

section
variable {L : Type} [Domain L] [BEq L] {g : Graph} {transfer : Node → L → Fiber L} {entry : Node} {init : L}
  {bound : Nat} {sol : Solution L}

open Solver

/-- **For monotone facts the solver finds the least solution**, and so does every order of evaluation that settles. -/
theorem solve_least [LawfulUpToBEq L] (hmono : MonotoneFacts g transfer)
    (h : solve g bound transfer entry init = .ok sol) (hgave : sol.stats.gaveUp = false) :
    PostFixpoint g transfer entry init (fun n => (sol.state? n).getD Domain.bottom) ∧
      (∀ X, PostFixpoint g transfer entry init X → ∀ n x, sol.state? n = some x → Domain.le x (X n) = true) ∧
      ∀ (bound' : Nat) (p : Progress L g.size), Reaches g bound' transfer (start g.size entry init) p →
        (∀ i (h : i < g.size), p.slots[i].pending = false) →
        ∀ i (h : i < g.size), ∃ x, sol.state? i = some x ∧ (p.slots[i].state == x) = true := by
  obtain ⟨hentry, q, hq, ⟨hdone, -, rfl⟩ | ⟨node, hnode, stats, -, rfl, hstats⟩⟩ := solve_reaches h
  · refine ⟨?_, fun X hX n x hx => ?_, fun bound' p hp hpdone i hi => ?_⟩
    · have hstates : (fun n => ((⟨(q.slots.map Slot.state).toArray, q.stats false⟩ : Solution L).state? n).getD
          Domain.bottom) = q.stateAt := by
        funext n
        simp [Solution.state?, Progress.stateAt]
      rw [hstates]
      exact postFixpoint_of_settled hentry hq hdone
    · obtain ⟨hn, rfl⟩ := state?_slots.1 hx
      exact (below_reaches hX hmono hq).le n hn
    · exact ⟨_, state?_slots.2 ⟨hi, rfl⟩, settled_unique hentry hmono hp hq hpdone hdone i hi⟩
  · rw [hstats] at hgave
    cases hgave

end

/-- The first node leads to both others, and the second to the third with the pointer moved. -/
def forkGraph : Graph := ⟨3, fun n => [[1, 2], [2]].getD n []⟩

def forkTransfer (n : Node) (x : Pointer) : Fiber Pointer :=
  match n with
  | 0 => (Fiber.single 1 x).add 2 x
  | 1 => .single 2 (x.shift 8)
  | _ => .empty

theorem forkTransfer_received (n : Node) (x : Pointer) (m : Node) :
    (forkTransfer n x).received forkGraph n m =
      if n = 0 ∧ (m = 1 ∨ m = 2) then x else if n = 1 ∧ m = 2 then x.shift 8 else Domain.bottom := by
  match n with
  | 0 =>
    by_cases h₁ : m = 1
    · subst h₁
      rfl
    · by_cases h₂ : m = 2
      · subst h₂
        rfl
      · simp [forkTransfer, Fiber.received, Fiber.single, Fiber.add, Fiber.get, Table.get?_insert, h₁, h₂, Ne.symm h₁,
          Ne.symm h₂]
  | 1 =>
    by_cases h₂ : m = 2
    · subst h₂
      rfl
    · simp [forkTransfer, Fiber.received, Fiber.single, Fiber.get, Table.get?_insert, h₂, Ne.symm h₂]
  | n + 2 => simp [forkTransfer, Fiber.received, Fiber.empty, Fiber.get]

theorem monotoneFacts_fork : MonotoneFacts forkGraph forkTransfer := by
  intro n x y _ hxy m _
  have hle : x ≤ y := Pointer.join_eq_right.1 (eq_of_beq hxy)
  have hshift := Pointer.join_eq_right.2 (Pointer.shift_mono 8 hle)
  rw [forkTransfer_received, forkTransfer_received]
  split
  · exact hxy
  · split
    · exact beq_iff_eq.2 hshift
    · rfl

/-- The third node evaluated before the second has to be evaluated again, and ends with the same state. -/
theorem solve_least_fork : MonotoneFacts forkGraph forkTransfer ∧
    ∃ (sol : Solution Pointer) (p : Solver.Progress Pointer 3),
      Solver.solve forkGraph 4 forkTransfer 0 (.stackAt 0) = .ok sol ∧ sol.stats.gaveUp = false ∧
      sol.stats.iterations = 3 ∧ sol.state? 2 = some .anyStack ∧
      Solver.Reaches forkGraph 4 forkTransfer (Solver.start 3 0 (.stackAt 0)) p ∧ p.log.map Prod.fst = [2, 1, 2, 0] ∧
      (∃ x, sol.state? 2 = some x ∧ (p.slots[2].state == x) = true) ∧
      ∀ X, PostFixpoint forkGraph forkTransfer 0 (.stackAt 0) X → Domain.le .anyStack (X 2) = true := by
  let o := Pointer.stackAt 0
  let p₁ : Solver.Progress Pointer 3 := ⟨#v[⟨o, 1, false⟩, ⟨o, 1, true⟩, ⟨o, 1, true⟩], [(0, o)]⟩
  let p₂ : Solver.Progress Pointer 3 := ⟨#v[⟨o, 1, false⟩, ⟨o, 1, true⟩, ⟨o, 1, false⟩], [(2, o), (0, o)]⟩
  let p₃ : Solver.Progress Pointer 3 :=
    ⟨#v[⟨o, 1, false⟩, ⟨o, 1, false⟩, ⟨.anyStack, 2, true⟩], [(1, o), (2, o), (0, o)]⟩
  let p₄ : Solver.Progress Pointer 3 :=
    ⟨#v[⟨o, 1, false⟩, ⟨o, 1, false⟩, ⟨.anyStack, 2, false⟩], [(2, .anyStack), (1, o), (2, o), (0, o)]⟩
  have h₁ : Solver.Evaluates forkGraph 4 forkTransfer (Solver.start 3 0 o) p₁ := ⟨0, by decide, rfl, rfl, rfl⟩
  have h₂ : Solver.Evaluates forkGraph 4 forkTransfer p₁ p₂ := ⟨2, by decide, rfl, rfl, rfl⟩
  have h₃ : Solver.Evaluates forkGraph 4 forkTransfer p₂ p₃ := ⟨1, by decide, rfl, rfl, rfl⟩
  have h₄ : Solver.Evaluates forkGraph 4 forkTransfer p₃ p₄ := ⟨2, by decide, rfl, rfl, rfl⟩
  have hp : Solver.Reaches forkGraph 4 forkTransfer (Solver.start 3 0 o) p₄ :=
    (((Relation.ReflTransGen.single h₁).tail h₂).tail h₃).tail h₄
  have hdone : ∀ i (h : i < 3), p₄.slots[i].pending = false := by decide
  have hsol : (Solver.solve forkGraph 4 forkTransfer 0 o).toOption.map
      (fun sol => (sol.stats.gaveUp, sol.stats.iterations, sol.state? 2)) = some (false, 3, some .anyStack) := by
    decide +kernel
  cases h : Solver.solve forkGraph 4 forkTransfer 0 o with
  | error e =>
    rw [h] at hsol
    cases hsol
  | ok sol =>
    rw [h] at hsol
    simp only [Except.toOption, Option.map_some, Option.some.injEq, Prod.mk.injEq] at hsol
    obtain ⟨hgave, hiter, hstate⟩ := hsol
    obtain ⟨-, hleast, horder⟩ := solve_least monotoneFacts_fork h hgave
    exact ⟨monotoneFacts_fork, sol, p₄, rfl, hgave, hiter, hstate, hp, rfl, horder 4 p₄ hp hdone 2 (by decide),
      fun X hX => hleast X hX 2 _ hstate⟩

end ValueFlow
