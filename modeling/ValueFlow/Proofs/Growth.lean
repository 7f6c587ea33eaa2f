import ValueFlow.Proofs.LeastSolution
import ValueFlow.Proofs.Termination
/-!
# States only grow

A slot's state is an upper bound of every state that its node was evaluated with, and a strict one while the node is
pending: `Chained`.  Deliveries may raise the state any number of times before the node comes up again, but the first of
them that says something new marks it as pending, and from then on the bound is strict.  So the next evaluation reads a
strictly larger state than all before it, whatever the transfer function is and however the run ends.
-/
namespace ValueFlow

namespace Domain
variable {L : Type} [Domain L] [BEq L]

/-- **`b` says more than `a`.** -/
def Lt (a b : L) : Prop := le a b = true ∧ (a == b) = false

variable [LawfulUpToBEq L] {a b c : L}

theorem le_of_beq (h : a == b) : le b a = true :=
  PartialEquivBEq.trans (LawfulUpToBEq.join_congr (PartialEquivBEq.symm h)) (LawfulUpToBEq.join_self a)

theorem lt_join (h : le a b = true) (hnew : (join b c == b) = false) : Lt a (join b c) := by
  have hgrow : le b (join b c) = true := orderOn_all.le_join_left trivial trivial
  refine ⟨orderOn_all.le_trans trivial trivial trivial h hgrow, ?_⟩
  cases heq : a == join b c with
  | false => rfl
  | true =>
    have hback : le (join b c) b = true := orderOn_all.le_trans trivial trivial trivial (le_of_beq heq) h
    rw [beq_of_le_of_le hback hgrow] at hnew
    cases hnew

end Domain

namespace Solver
section
variable {L : Type} [Domain L] [BEq L] {n : Nat} {bound : Nat} {g : Graph} {transfer : Node → L → Fiber L} {entry : Node}
  {init : L}

/-! ## One change of the slots -/

/-- **The changes that the evaluation after `p` makes, one by one.**  Its node is taken from the pending ones; then its
facts are delivered, the one that exceeds the bound included. -/
inductive Changes (g : Graph) (bound : Nat) (transfer : Node → L → Fiber L) (p : Progress L n) :
    Vector (Slot L) n → Vector (Slot L) n → Prop where
  | pop {node : Nat} (hnode : node < n) (low : Lowest p.slots node hnode) :
    Changes g bound transfer p p.slots (popped p.slots node hnode)
  | deliver {node : Nat} {before after : List (Node × L)} {fact : Node × L} {slots slots' : Vector (Slot L) n}
    (hnode : node < n) (low : Lowest p.slots node hnode)
    (hsplit : outgoing g node (transfer node p.slots[node].state) = before ++ fact :: after)
    (hbefore : before.foldlM (deliver bound) (popped p.slots node hnode) = .ok slots)
    (h : deliver bound slots fact = .ok slots' ∨ deliver bound slots fact = .error (.exceeded slots')) :
    Changes g bound transfer p slots slots'

/-- **What a change does to one slot**: its state grows, and stays as it is unless the node was pending or became so. -/
structure Slot.Grows (s t : Slot L) : Prop where
  le : Domain.le s.state t.state = true
  kept : t.state = s.state ∨ s.pending = true ∨
    s.pending = false ∧ t.pending = true ∧ t.enqueued = s.enqueued + 1

theorem Slot.Grows.of_state [LawfulUpToBEq L] {s t : Slot L} (h : t.state = s.state) : s.Grows t where
  le := by
    rw [h]
    exact Domain.orderOn_all.le_refl trivial
  kept := .inl h

theorem grows_set [LawfulUpToBEq L] {slots : Vector (Slot L) n} {k : Nat} (hk : k < n) {slot : Slot L}
    (h : slots[k].Grows slot) (i : Nat) (hi : i < n) : slots[i].Grows (slots.set k slot)[i] := by
  rw [Vector.getElem_set]
  split
  · rename_i heq
    subst heq
    exact h
  · exact .of_state rfl

theorem Changes.grows [LawfulUpToBEq L] {p : Progress L n} {slots slots' : Vector (Slot L) n}
    (h : Changes g bound transfer p slots slots') (i : Nat) (hi : i < n) : slots[i].Grows slots'[i] := by
  cases h with
  | pop hnode low => exact .of_state (state_popped p.slots hnode i hi)
  | deliver hnode low hsplit hbefore h =>
    rename_i fact
    have hle : ∀ hlt : fact.1 < n,
        Domain.le slots[fact.1].state (Domain.join slots[fact.1].state fact.2) = true := fun _ =>
      Domain.orderOn_all.le_join_left trivial trivial
    rcases h with h | h
    · obtain ⟨hlt, ⟨-, rfl⟩ | ⟨-, count, rfl, hcount⟩⟩ := deliver_cases h
      · exact .of_state rfl
      · refine grows_set hlt ⟨hle hlt, .inr ?_⟩ i hi
        rcases hcount with ⟨hp, -⟩ | ⟨hp, rfl, -⟩
        · exact .inl hp
        · exact .inr ⟨hp, rfl, rfl⟩
    · rcases deliver_error h with ⟨-, heq⟩ | ⟨hlt, hp, -, heq⟩
      · cases heq
      · cases heq
        exact grows_set hlt ⟨hle hlt, .inr (.inr ⟨hp, rfl, rfl⟩)⟩ i hi

theorem changes_deliverAll {p : Progress L n} {node : Nat} (hnode : node < n) (low : Lowest p.slots node hnode) :
    ∀ {facts : List (Node × L)} (before after : List (Node × L)) {slots slots' : Vector (Slot L) n},
    outgoing g node (transfer node p.slots[node].state) = before ++ (facts ++ after) →
    before.foldlM (deliver bound) (popped p.slots node hnode) = .ok slots →
    facts.foldlM (deliver bound) slots = .ok slots' →
    Relation.ReflTransGen (Changes g bound transfer p) slots slots'
  | [], _, _, _, _, _, _, h => by
    cases h
    exact .refl
  | fact :: facts, before, after, slots, slots', hsplit, hbefore, h => by
    obtain ⟨mid, hd, hrest⟩ := deliverAll_cons h
    have hbefore' : (before ++ [fact]).foldlM (deliver bound) (popped p.slots node hnode) = .ok mid := by
      rw [List.foldlM_append, hbefore]
      show List.foldlM (deliver bound) slots [fact] = .ok mid
      rw [List.foldlM_cons, hd]
      rfl
    refine .head (.deliver hnode low hsplit hbefore (.inl hd)) ?_
    exact changes_deliverAll hnode low (before ++ [fact]) after (by rw [hsplit]; simp) hbefore' hrest

/-- **An evaluation is made of changes**, also the one that exceeds the bound. -/
theorem step_changes {p q : Progress L n}
    (h : step g bound transfer p = .next q ∨ step g bound transfer p = .exceeded q) :
    Relation.ReflTransGen (Changes g bound transfer p) p.slots q.slots := by
  have hstep := step_stepped g bound transfer p
  rcases h with h | h
  · rw [h] at hstep
    cases hstep with
    | next hnode low hfold =>
      exact .head (.pop hnode low) (changes_deliverAll hnode low [] [] (by simp) rfl hfold)
  · rw [h] at hstep
    cases hstep with
    | exceeded hnode low hfold =>
      obtain ⟨before, fact, after, mid, hsplit, hbefore, hfail⟩ := deliverAll_error hfold
      refine .head (.pop hnode low) (.tail (b := mid) ?_ (.deliver hnode low hsplit hbefore (.inr hfail)))
      exact changes_deliverAll hnode low [] (fact :: after) hsplit rfl hbefore

/-! ## The evaluations of one node -/

/-- **The evaluations so far, the last one first, with the slots after them.**  Each read a strictly larger state than
those of the same node before it, and what waits to be read is larger still. -/
structure Chained (log : List (Node × L)) (slots : Vector (Slot L) n) : Prop where
  chain : log.Pairwise fun later earlier => earlier.1 = later.1 → Domain.Lt earlier.2 later.2
  le : ∀ e ∈ log, ∀ h : e.1 < n, Domain.le e.2 slots[e.1].state = true
  lt : ∀ e ∈ log, ∀ h : e.1 < n, slots[e.1].pending = true → Domain.Lt e.2 slots[e.1].state

theorem chained_nil (slots : Vector (Slot L) n) : Chained [] slots := ⟨.nil, nofun, nofun⟩

variable [LawfulUpToBEq L]

theorem Chained.pop {log : List (Node × L)} {slots : Vector (Slot L) n} (h : Chained log slots) {node : Nat}
    (hnode : node < n) (hpending : slots[node].pending = true) :
    Chained ((node, slots[node].state) :: log) (popped slots node hnode) where
  chain := by
    refine List.pairwise_cons.2 ⟨fun e he heq => ?_, h.chain⟩
    subst heq
    exact h.lt e he hnode hpending
  le e he hlt := by
    rw [state_popped]
    rcases List.mem_cons.1 he with rfl | he
    · exact Domain.orderOn_all.le_refl trivial
    · exact h.le e he hlt
  lt e he hlt hp := by
    have hne : node ≠ e.1 := by
      rintro rfl
      rw [pending_popped_self] at hp
      cases hp
    rw [popped_of_ne hnode hlt hne] at hp ⊢
    rcases List.mem_cons.1 he with rfl | he
    · exact absurd rfl hne
    · exact h.lt e he hlt hp

theorem Chained.deliver {log : List (Node × L)} {slots slots' : Vector (Slot L) n} {fact : Node × L}
    (h : Chained log slots) (hd : deliver bound slots fact = .ok slots') : Chained log slots' := by
  obtain ⟨hlt, ⟨-, rfl⟩ | ⟨hnew, count, rfl, -⟩⟩ := deliver_cases hd
  · exact h
  · have habove : ∀ e ∈ log, ∀ he : fact.1 = e.1, Domain.Lt e.2 (Domain.join slots[fact.1].state fact.2) :=
      fun e hmem heq => by
        have hle := h.le e hmem (heq ▸ hlt)
        simp only [← heq] at hle
        exact Domain.lt_join hle hnew
    refine ⟨h.chain, fun e he hi => ?_, fun e he hi hp => ?_⟩
    · rw [Vector.getElem_set]
      split
      · rename_i heq
        exact (habove e he heq).1
      · exact h.le e he hi
    · rw [Vector.getElem_set] at hp ⊢
      split at hp
      · rename_i heq
        rw [if_pos heq]
        exact habove e he heq
      · rename_i hne
        rw [if_neg hne]
        exact h.lt e he hi hp

theorem Chained.deliverAll {log : List (Node × L)} : ∀ {facts : List (Node × L)} {slots slots' : Vector (Slot L) n},
    Chained log slots → facts.foldlM (Solver.deliver bound) slots = .ok slots' → Chained log slots'
  | [], _, _, h, hd => by
    cases hd
    exact h
  | _ :: _, _, _, h, hd => by
    obtain ⟨mid, hone, hrest⟩ := deliverAll_cons hd
    exact (h.deliver hone).deliverAll hrest

theorem Chained.next {p q : Progress L n} (h : Chained p.log p.slots) (hs : step g bound transfer p = .next q) :
    Chained q.log q.slots := by
  obtain ⟨node, hnode, hpending, hfold, hlog⟩ := step_next hs
  rw [hlog]
  exact (h.pop hnode hpending).deliverAll hfold

/-- **The evaluations of a run, however it ends.** -/
theorem run_chained (g : Graph) (bound : Nat) (transfer : Node → L → Fiber L) (entry : Node) (init : L) :
    ∃ slots : Vector (Slot L) g.size, Chained (run g bound transfer entry init).log.reverse slots := by
  by_cases hentry : entry < g.size
  · obtain ⟨q, hq, ⟨-, hrun⟩ | ⟨r, hs, hrun⟩ | ⟨node, t, l, hs, hrun⟩⟩ :=
      run_ends bound transfer init hentry (chained_nil (start g.size entry init).slots) Chained.next
    · rw [hrun, List.reverse_reverse]
      exact ⟨_, hq⟩
    · obtain ⟨node, hnode, hpending, hlog⟩ := step_exceeded hs
      rw [hrun, List.reverse_reverse, hlog]
      exact ⟨_, hq.pop hnode hpending⟩
    · obtain ⟨hnode, hpending, rfl, -⟩ := step_dangling hs
      rw [hrun, List.reverse_reverse]
      exact ⟨_, hq.pop hnode hpending⟩
  · rw [run_missing g bound transfer init hentry]
    exact ⟨(start g.size entry init).slots, chained_nil _⟩

/-- **States only grow, whatever the transfer function is and however the run ends.**  A node is evaluated with strictly
larger states each time; and every change that an evaluation makes raises states, of nodes that were pending or become
pending by it. -/
theorem run_grows (g : Graph) (bound : Nat) (transfer : Node → L → Fiber L) (entry : Node) (init : L) :
    ((run g bound transfer entry init).log.Pairwise fun e f =>
      e.1 = f.1 → Domain.le e.2 f.2 = true ∧ (e.2 == f.2) = false) ∧
    ∀ p : Progress L g.size, Steps g bound transfer (start g.size entry init) p →
      (∀ q, step g bound transfer p = .next q ∨ step g bound transfer p = .exceeded q →
        Relation.ReflTransGen (Changes g bound transfer p) p.slots q.slots) ∧
      ∀ slots slots', Changes g bound transfer p slots slots' → ∀ i (hi : i < g.size),
        Domain.le slots[i].state slots'[i].state = true ∧
        (slots'[i].state = slots[i].state ∨ slots[i].pending = true ∨
          slots[i].pending = false ∧ slots'[i].pending = true ∧ slots'[i].enqueued = slots[i].enqueued + 1) := by
  refine ⟨?_, fun p _ => ⟨fun q h => step_changes h, fun slots slots' h i hi => ?_⟩⟩
  · obtain ⟨slots, hchained⟩ := run_chained g bound transfer entry init
    exact List.pairwise_reverse.1 hchained.chain
  · obtain ⟨hle, hkept⟩ := h.grows i hi
    exact ⟨hle, hkept⟩

end
end Solver

/-- A loop that turns back from the widest class: what it sends does not grow with its state, and its states do. -/
def turningTransfer (n : Node) (x : Pointer) : Fiber Pointer :=
  match n, x with
  | 0, x          => .single 1 x
  | _, .stackAt o => .single 1 (.stackAt (o + 8))
  | _, .anyStack  => .single 1 .nonStack
  | _, _          => .single 1 (.stackAt 0)

theorem run_grows_turning :
    let log := (Solver.run ⟨2, fun _ => [1]⟩ 4 turningTransfer 0 (.stackAt 8)).log
    log = [(0, .stackAt 8), (1, .stackAt 8), (1, .anyStack), (1, .top)] ∧
      Domain.le (Pointer.stackAt 8) .anyStack = true ∧ (Pointer.stackAt 8 == .anyStack) = false ∧
      Domain.le Pointer.anyStack .top = true ∧ (Pointer.anyStack == .top) = false := by
  intro log
  have hlog : log = [(0, .stackAt 8), (1, .stackAt 8), (1, .anyStack), (1, .top)] := by decide +kernel
  have hchain := (Solver.run_grows ⟨2, fun _ => [1]⟩ 4 turningTransfer 0 (.stackAt 8)).1
  rw [show (Solver.run ⟨2, fun _ => [1]⟩ 4 turningTransfer 0 (.stackAt 8)).log = _ from hlog] at hchain
  simp only [List.pairwise_cons] at hchain
  obtain ⟨-, hfirst, hsecond, -⟩ := hchain
  obtain ⟨hle, hne⟩ := hfirst (1, .anyStack) (by simp) rfl
  obtain ⟨hle', hne'⟩ := hsecond (1, .top) (by simp) rfl
  exact ⟨hlog, hle, hne, hle', hne'⟩

end ValueFlow
