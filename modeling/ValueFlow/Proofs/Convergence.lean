import Mathlib.Data.DFinsupp.WellFounded
import ValueFlow.Proofs.PostFixpoint
/-!
# Convergence without the bound

A run that does not give up never met its bound, so with any larger one it does the same.  And where the domain has no
infinite chain of joins every run settles if its bound is large enough: a delivery that changes a slot uses up some of
the room that the slot's state has left, and an evaluation that changes none has one pending node less
(`step_measure`).
-/
namespace ValueFlow

/-- **Joins within `P` use up room**: `room` gets smaller whenever a join changes a state. -/
structure Domain.RoomOn {L α : Type} [Domain L] [BEq L] [LT α] (P : L → Prop) (room : L → α) : Prop where
  bottom_mem : P Domain.bottom
  join_mem : ∀ {a b}, P a → P b → P (Domain.join a b)
  room_lt : ∀ {a b}, P a → P b → (Domain.join a b == a) = false → room (Domain.join a b) < room a

namespace Solver

/-! ## Larger bounds -/

section
variable {L : Type} [Domain L] [BEq L] {n B bound : Nat} {g : Graph} {transfer : Node → L → Fiber L}

theorem deliver_bound (hle : B ≤ bound) {slots slots' : Vector (Slot L) n} {fact : Node × L}
    (h : deliver B slots fact = .ok slots') : deliver bound slots fact = .ok slots' := by
  unfold deliver at h ⊢
  split at h
  · rename_i hlt
    rw [dif_pos hlt]
    simp only at h ⊢
    split at h
    · rename_i heq
      rw [if_pos heq, h]
    · rename_i hne
      rw [if_neg hne]
      split at h
      · rename_i hp
        rw [if_pos hp, h]
      · rename_i hp
        rw [if_neg hp]
        split at h
        · cases h
        · rename_i hB
          have hbound : ¬ bound < slots[fact.1].enqueued + 1 := by omega
          rw [if_neg hbound, h]
  · cases h

theorem deliverAll_bound (hle : B ≤ bound) : ∀ {facts : List (Node × L)} {slots slots' : Vector (Slot L) n},
    facts.foldlM (deliver B) slots = .ok slots' → facts.foldlM (deliver bound) slots = .ok slots'
  | [], _, _, h => h
  | fact :: facts, slots, slots', h => by
    obtain ⟨mid, hd, hrest⟩ := deliverAll_cons h
    rw [List.foldlM_cons, deliver_bound hle hd]
    exact deliverAll_bound hle hrest

theorem step_settled_bound {p : Progress L n} (h : step g B transfer p = .settled) (bound : Nat) :
    step g bound transfer p = .settled := by
  unfold step at h ⊢
  split at h
  · rfl
  · simp only at h
    split at h <;> cases h

theorem step_next_bound (hle : B ≤ bound) {p q : Progress L n} (h : step g B transfer p = .next q) :
    step g bound transfer p = .next q := by
  unfold step at h ⊢
  split at h
  · cases h
  · rename_i node hfind
    simp only at h ⊢
    split at h
    · rename_i slots hfold
      rw [deliverAll_bound hle hfold]
      exact h
    · cases h
    · cases h

/-- **A larger bound changes nothing** in a run that does not give up. -/
theorem loop_bound (hle : B ≤ bound) {p : Progress L n} {log : List (Node × L)} {sol : Solution L}
    (h : loop g B transfer p = ⟨log, .ok sol⟩) (hgave : sol.stats.gaveUp = false) :
    loop g bound transfer p = ⟨log, .ok sol⟩ := by
  induction p using loop.induct g B transfer with
  | case1 p hstep =>
    rw [loop_settled (step_settled_bound hstep bound), ← h, loop_settled hstep]
  | case2 p q hstep =>
    rw [loop_exceeded hstep] at h
    cases h
    cases hgave
  | case3 p node t l hstep =>
    rw [loop_dangling hstep] at h
    cases h
  | case4 p q hstep ih =>
    rw [loop_next (step_next_bound hle hstep)]
    rw [loop_next hstep] at h
    exact ih h

/-! ## A bound that is large enough -/

theorem deliver_inside (slots : Vector (Slot L) n) {fact : Node × L} (hlt : fact.1 < n) :
    ∃ N slots', deliver N slots fact = .ok slots' := by
  refine ⟨slots[fact.1].enqueued + 1, ?_⟩
  unfold deliver
  rw [dif_pos hlt]
  simp only
  split
  · exact ⟨_, rfl⟩
  · split
    · exact ⟨_, rfl⟩
    · rw [if_neg (Nat.lt_irrefl _)]
      exact ⟨_, rfl⟩

theorem deliverAll_inside : ∀ (facts : List (Node × L)) (slots : Vector (Slot L) n), (∀ fact ∈ facts, fact.1 < n) →
    ∃ N slots', facts.foldlM (deliver N) slots = .ok slots'
  | [], slots, _ => ⟨0, slots, rfl⟩
  | fact :: facts, slots, hinside => by
    obtain ⟨hfact, hfacts⟩ := List.forall_mem_cons.1 hinside
    obtain ⟨N₁, mid, hd⟩ := deliver_inside slots hfact
    obtain ⟨N₂, slots', hrest⟩ := deliverAll_inside facts mid hfacts
    refine ⟨max N₁ N₂, slots', ?_⟩
    rw [List.foldlM_cons, deliver_bound (Nat.le_max_left N₁ N₂) hd]
    exact deliverAll_bound (Nat.le_max_right N₁ N₂) hrest

theorem step_inside (g : Graph) (transfer : Node → L → Fiber L) (p : Progress L n)
    (hinside : ∀ i (h : i < n), ∀ fact ∈ outgoing g i (transfer i p.slots[i].state), fact.1 < n) :
    ∃ N, step g N transfer p = .settled ∨ ∃ q, step g N transfer p = .next q := by
  unfold step
  cases hfind : nextPending? p.slots with
  | none => exact ⟨0, .inl rfl⟩
  | some node =>
    obtain ⟨N, slots, hfold⟩ := deliverAll_inside _
      (p.slots.set node { p.slots[node] with pending := false }) (hinside node node.isLt)
    refine ⟨N, .inr ⟨⟨slots, (node.val, p.slots[node].state) :: p.log⟩, ?_⟩⟩
    simp only [Fin.getElem_fin] at hfold ⊢
    rw [hfold]

end

/-! ## Room -/

section
variable {L α : Type} [Domain L] [BEq L] [Preorder α] {n bound : Nat} {g : Graph} {transfer : Node → L → Fiber L}
  {P : L → Prop} {room : L → α}

def rooms (room : L → α) (slots : Vector (Slot L) n) (i : Fin n) : α := room (getElem slots i.val i.isLt).state

/-- What a run has left to do: first the room of its states, then how many nodes are pending. -/
def Progress.measure (room : L → α) (p : Progress L n) : (Fin n → α) × Nat :=
  (rooms room p.slots, p.slots.toList.countP Slot.pending)

theorem deliver_rooms (hroom : Domain.RoomOn P room) {slots slots' : Vector (Slot L) n} {fact : Node × L}
    (hP : AllStates P slots) (hfact : P fact.2) (h : deliver bound slots fact = .ok slots') :
    AllStates P slots' ∧ (slots' = slots ∨ rooms room slots' < rooms room slots) := by
  obtain ⟨hlt, ⟨-, rfl⟩ | ⟨hne, count, rfl, -⟩⟩ := deliver_cases h
  · exact ⟨hP, .inl rfl⟩
  · have hjoin := hroom.join_mem (hP _ hlt) hfact
    have hless := hroom.room_lt (hP _ hlt) hfact hne
    refine ⟨hP.set hlt hjoin, .inr (Pi.lt_def.2 ⟨fun i => ?_, ⟨fact.1, hlt⟩, ?_⟩)⟩
    · simp only [rooms, Vector.getElem_set]
      split
      · rename_i heq
        simp only [← heq]
        exact hless.le
      · exact le_rfl
    · simp only [rooms, Vector.getElem_set_self]
      exact hless

theorem deliverAll_rooms (hroom : Domain.RoomOn P room) : ∀ {facts : List (Node × L)} {slots slots' : Vector (Slot L) n},
    AllStates P slots → (∀ fact ∈ facts, P fact.2) → facts.foldlM (deliver bound) slots = .ok slots' →
    AllStates P slots' ∧ (slots' = slots ∨ rooms room slots' < rooms room slots)
  | [], _, _, hP, _, h => by
    cases h
    exact ⟨hP, .inl rfl⟩
  | fact :: facts, slots, slots', hP, hfacts, h => by
    obtain ⟨hfact, hfacts⟩ := List.forall_mem_cons.1 hfacts
    obtain ⟨mid, hd, hrest⟩ := deliverAll_cons h
    obtain ⟨hmid, hone⟩ := deliver_rooms hroom hP hfact hd
    obtain ⟨hP', hall⟩ := deliverAll_rooms hroom hmid hfacts hrest
    refine ⟨hP', ?_⟩
    rcases hone with rfl | hone
    · exact hall
    · rcases hall with rfl | hall
      · exact .inr hone
      · exact .inr (hall.trans hone)

omit [Domain L] [BEq L] [Preorder α] in
theorem rooms_popped (slots : Vector (Slot L) n) {node : Nat} (hnode : node < n) :
    rooms room (popped slots node hnode) = rooms room slots := by
  funext i
  simp only [rooms, state_popped]

omit [Domain L] [BEq L] in
theorem countP_popped {slots : Vector (Slot L) n} {node : Nat} (hnode : node < n) (hp : slots[node].pending = true) :
    (popped slots node hnode).toList.countP Slot.pending < slots.toList.countP Slot.pending := by
  have hlen : node < slots.toList.length := by simpa using hnode
  have hget : slots.toList[node].pending = true := by simpa using hp
  have hpos : 0 < slots.toList.countP Slot.pending := List.countP_pos_iff.2 ⟨_, List.getElem_mem hlen, hget⟩
  rw [popped, Vector.toList_set, List.countP_set hlen, hget]
  simp only [if_true, Bool.false_eq_true, if_false]
  omega

/-- **An evaluation uses up room, or leaves one pending node less.** -/
theorem step_measure (hroom : Domain.RoomOn P room)
    (htransfer : ∀ i x, P x → ∀ fact ∈ outgoing g i (transfer i x), P fact.2) {p q : Progress L n}
    (hP : AllStates P p.slots) (h : step g bound transfer p = .next q) :
    AllStates P q.slots ∧ Prod.Lex (· < ·) (· < ·) (q.measure room) (p.measure room) := by
  obtain ⟨node, hnode, hpending, hfold, -⟩ := step_next h
  have hpopped := hP.popped hnode
  obtain ⟨hstates, hsame | hless⟩ := deliverAll_rooms hroom hpopped (htransfer node _ (hP node hnode)) hfold
  · refine ⟨hstates, Prod.lex_def.2 (.inr ⟨?_, ?_⟩)⟩
    · show rooms room q.slots = rooms room p.slots
      rw [hsame, rooms_popped]
    · show q.slots.toList.countP Slot.pending < p.slots.toList.countP Slot.pending
      rw [hsame]
      exact countP_popped hnode hpending
  · refine ⟨hstates, Prod.lex_def.2 (.inl ?_)⟩
    rw [rooms_popped] at hless
    exact hless

/-- **With a large enough bound a run settles.** -/
theorem loop_converges [WellFoundedLT α] (hroom : Domain.RoomOn P room)
    (htransfer : ∀ i x, P x → ∀ fact ∈ outgoing g i (transfer i x), P fact.2)
    (hinside : ∀ i x, ∀ fact ∈ outgoing g i (transfer i x), fact.1 < n) (p : Progress L n) (hP : AllStates P p.slots) :
    ∃ N log sol, loop g N transfer p = ⟨log, .ok sol⟩ ∧ sol.stats.gaveUp = false := by
  have hwf : WellFounded (Prod.Lex (α := Fin n → α) (· < ·) (· < · : Nat → Nat → Prop)) :=
    WellFounded.prod_lex wellFounded_lt wellFounded_lt
  induction hm : p.measure room using hwf.induction generalizing p with
  | _ m ih =>
    subst hm
    obtain ⟨N, hsettled | ⟨q, hnext⟩⟩ := step_inside g transfer p fun i hi => hinside i _
    · exact ⟨N, _, _, loop_settled hsettled, rfl⟩
    · -- the step and the rest of the run may each ask for a bound of their own
      obtain ⟨hQ, hless⟩ := step_measure hroom htransfer hP hnext
      obtain ⟨M, log, sol, hrest, hgave⟩ := ih _ hless q hQ rfl
      refine ⟨max N M, log, sol, ?_, hgave⟩
      rw [loop_next (step_next_bound (Nat.le_max_left N M) hnext)]
      exact loop_bound (Nat.le_max_right N M) hrest hgave

end
end Solver

section
variable {L α : Type} [Domain L] [BEq L] [Preorder α] [WellFoundedLT α] {P : L → Prop} {room : L → α} {g : Graph}
  {transfer : Node → L → Fiber L} {entry : Node} {init : L} {B bound : Nat} {sol : Solution L}

open Solver

theorem solve_bound (h : solve g B transfer entry init = .ok sol) (hgave : sol.stats.gaveUp = false) (hle : B ≤ bound) :
    solve g bound transfer entry init = .ok sol := by
  unfold solve run at h ⊢
  split at h
  · rename_i hentry
    have hloop : loop g B transfer (start g.size entry init) =
        ⟨(loop g B transfer (start g.size entry init)).log, .ok sol⟩ := congrArg (Run.mk _) h
    rw [if_pos hentry, loop_bound hle hloop hgave]
  · cases h

theorem solve_converges (hroom : Domain.RoomOn P room) (hentry : entry < g.size) (hinit : P init)
    (htransfer : ∀ i x, P x → ∀ fact ∈ outgoing g i (transfer i x), P fact.2)
    (hinside : ∀ i x, ∀ fact ∈ outgoing g i (transfer i x), fact.1 < g.size) :
    ∃ N sol, sol.stats.gaveUp = false ∧ ∀ bound, N ≤ bound → solve g bound transfer entry init = .ok sol := by
  obtain ⟨N, log, sol, hloop, hgave⟩ := loop_converges hroom htransfer hinside _
    (allStates_start hroom.bottom_mem hinit)
  refine ⟨N, sol, hgave, fun bound hle => ?_⟩
  unfold solve run
  rw [if_pos hentry, loop_bound hle hloop hgave]

end
end ValueFlow
