import Mathlib.Logic.Relation
import ValueFlow.Proofs.Pointer
import ValueFlow.Solver
/-!
# A finished run is a post-fixpoint

Between two evaluations, a node that is not pending is either untouched or has sent its facts from the very state it
still has, and those facts are covered: `Invariant`.  One delivery only raises states, and marks whatever it changes as
pending (`deliver_cases`), so the invariant survives a node's own outgoing loop, its edge to itself included.  Nothing is
assumed of the transfer function, nor of the order in which pending nodes are evaluated (`Evaluates`): where nothing is
pending any more, every fact is covered.
-/
namespace ValueFlow

/-- **The laws of a bounded join-semilattice, up to the equality test.** -/
class LawfulUpToBEq (L : Type) [Domain L] [BEq L] : Prop extends PartialEquivBEq L where
  join_congr : ∀ {a b c : L}, a == b → Domain.join a c == Domain.join b c
  join_comm : ∀ a b : L, Domain.join a b == Domain.join b a
  join_assoc : ∀ a b c : L, Domain.join (Domain.join a b) c == Domain.join a (Domain.join b c)
  join_self : ∀ a : L, Domain.join a a == a
  bottom_join : ∀ a : L, Domain.join Domain.bottom a == a
  top_join : ∀ a : L, Domain.join Domain.top a == Domain.top

instance {L : Type} [Domain L] [BEq L] [LawfulBEq L] [LawfulDomain L] : LawfulUpToBEq L where
  join_congr h := by rw [eq_of_beq h]; exact beq_self_eq_true _
  join_comm a b := by rw [LawfulDomain.join_comm]; exact beq_self_eq_true _
  join_assoc a b c := by rw [LawfulDomain.join_assoc]; exact beq_self_eq_true _
  join_self a := by rw [LawfulDomain.join_self]; exact beq_self_eq_true _
  bottom_join a := by rw [LawfulDomain.bottom_join]; exact beq_self_eq_true _
  top_join a := by rw [LawfulDomain.top_join]; exact beq_self_eq_true _

/-- **What the solver needs of the order** on the states of `P`, which joins keep. -/
structure Domain.OrderOn {L : Type} [Domain L] [BEq L] (P : L → Prop) : Prop where
  bottom_mem : P Domain.bottom
  top_mem : P Domain.top
  join_mem : ∀ {a b : L}, P a → P b → P (Domain.join a b)
  isBottom_bottom : Domain.isBottom (Domain.bottom : L) = true
  le_refl : ∀ {a : L}, P a → Domain.le a a = true
  le_trans : ∀ {a b c : L}, P a → P b → P c → Domain.le a b = true → Domain.le b c = true → Domain.le a c = true
  le_join_left : ∀ {a b : L}, P a → P b → Domain.le a (Domain.join a b) = true
  le_join_right : ∀ {a b : L}, P a → P b → Domain.le b (Domain.join a b) = true
  le_of_join : ∀ {a b : L}, P a → P b → Domain.join a b == a → Domain.le b a = true
  le_top : ∀ {a : L}, P a → Domain.le a Domain.top = true

namespace Domain
variable {L : Type} [Domain L] [BEq L] [LawfulUpToBEq L]

open LawfulUpToBEq

theorem join_congr_right {a b c : L} (h : b == c) : join a b == join a c :=
  PartialEquivBEq.trans (join_comm a b) (PartialEquivBEq.trans (join_congr h) (join_comm c a))

theorem beq_self (a : L) : a == a :=
  PartialEquivBEq.trans (PartialEquivBEq.symm (join_self a)) (join_self a)

theorem orderOn_all : OrderOn (fun _ : L => True) where
  bottom_mem := trivial
  top_mem := trivial
  join_mem _ _ := trivial
  isBottom_bottom := beq_self _
  le_refl {a} _ := join_self a
  le_trans {a b c} _ _ _ hab hbc := by
    have h₁ : join a c == join a (join b c) := join_congr_right (PartialEquivBEq.symm hbc)
    have h₂ : join a (join b c) == join (join a b) c := PartialEquivBEq.symm (join_assoc a b c)
    have h₃ : join (join a b) c == join b c := join_congr hab
    exact PartialEquivBEq.trans h₁ (PartialEquivBEq.trans h₂ (PartialEquivBEq.trans h₃ hbc))
  le_join_left {a b} _ _ :=
    PartialEquivBEq.trans (PartialEquivBEq.symm (join_assoc a a b)) (join_congr (join_self a))
  le_join_right {a b} _ _ := by
    have h₁ : join b (join a b) == join b (join b a) := join_congr_right (join_comm a b)
    have h₂ : join b (join b a) == join (join b b) a := PartialEquivBEq.symm (join_assoc b b a)
    have h₃ : join (join b b) a == join b a := join_congr (join_self b)
    exact PartialEquivBEq.trans h₁ (PartialEquivBEq.trans h₂ (PartialEquivBEq.trans h₃ (join_comm b a)))
  le_of_join {a b} _ _ h := PartialEquivBEq.trans (join_comm b a) h
  le_top {a} _ := PartialEquivBEq.trans (join_comm a top) (top_join a)

end Domain

namespace Solver
section
variable {L : Type} [Domain L] [BEq L] {n : Nat}

/-! ## One delivery -/

/-- **A delivery says nothing new, or raises its target's state and marks it as pending.**  Only a target that was not
pending has one more time counted. -/
theorem deliver_cases {bound : Nat} {slots slots' : Vector (Slot L) n} {fact : Node × L}
    (h : deliver bound slots fact = .ok slots') :
    ∃ hlt : fact.1 < n, (Domain.join slots[fact.1].state fact.2 == slots[fact.1].state) = true ∧ slots' = slots ∨
      (Domain.join slots[fact.1].state fact.2 == slots[fact.1].state) = false ∧
        ∃ count, slots' = slots.set fact.1 ⟨Domain.join slots[fact.1].state fact.2, count, true⟩ ∧
          (slots[fact.1].pending = true ∧ count = slots[fact.1].enqueued ∨
            slots[fact.1].pending = false ∧ count = slots[fact.1].enqueued + 1 ∧ count ≤ bound) := by
  unfold deliver at h
  split at h
  · rename_i hlt
    simp only at h
    split at h
    · rename_i heq
      cases h
      exact ⟨hlt, .inl ⟨heq, rfl⟩⟩
    · rename_i hne
      have hne := (Bool.not_eq_true _).mp hne
      split at h
      · rename_i hp
        cases h
        exact ⟨hlt, .inr ⟨hne, slots[fact.1].enqueued, by rw [← hp], .inl ⟨hp, rfl⟩⟩⟩
      · rename_i hp
        split at h
        · cases h
        · rename_i hb
          cases h
          exact ⟨hlt, .inr ⟨hne, slots[fact.1].enqueued + 1, rfl,
            .inr ⟨(Bool.not_eq_true _).mp hp, rfl, Nat.le_of_not_lt hb⟩⟩⟩
  · cases h

/-- **A delivery fails** if its target is outside the graph, or was not pending and had become so as often as it may. -/
theorem deliver_error {bound : Nat} {slots : Vector (Slot L) n} {fact : Node × L} {halt : Halt L n}
    (h : deliver bound slots fact = .error halt) :
    n ≤ fact.1 ∧ halt = .dangling fact.1 ∨
      ∃ hlt : fact.1 < n, slots[fact.1].pending = false ∧ bound < slots[fact.1].enqueued + 1 ∧ halt = .exceeded
        (slots.set fact.1 ⟨Domain.join slots[fact.1].state fact.2, slots[fact.1].enqueued + 1, true⟩) := by
  unfold deliver at h
  split at h
  · rename_i hlt
    simp only at h
    split at h
    · cases h
    · split at h
      · cases h
      · rename_i hp
        split at h
        · rename_i hb
          cases h
          exact .inr ⟨hlt, (Bool.not_eq_true _).mp hp, hb, rfl⟩
        · cases h
  · rename_i hlt
    cases h
    exact .inl ⟨Nat.le_of_not_lt hlt, rfl⟩

/-- **Deliveries in order stop at the first one that fails.** -/
theorem deliverAll_error {bound : Nat} {halt : Halt L n} : ∀ {facts : List (Node × L)} {slots : Vector (Slot L) n},
    facts.foldlM (deliver bound) slots = .error halt →
    ∃ before fact after mid, facts = before ++ fact :: after ∧ before.foldlM (deliver bound) slots = .ok mid ∧
      deliver bound mid fact = .error halt
  | [], _, h => by cases h
  | fact :: facts, slots, h => by
    rw [List.foldlM_cons] at h
    cases hd : deliver bound slots fact with
    | error e =>
      rw [hd] at h
      cases h
      exact ⟨[], fact, facts, slots, rfl, rfl, hd⟩
    | ok mid =>
      rw [hd] at h
      obtain ⟨before, fact', after, mid', rfl, hbefore, hfail⟩ := deliverAll_error h
      refine ⟨fact :: before, fact', after, mid', rfl, ?_, hfail⟩
      rw [List.foldlM_cons, hd]
      exact hbefore

theorem deliverAll_frame {bound i : Nat} (hi : i < n) : ∀ {facts : List (Node × L)} {slots slots' : Vector (Slot L) n},
    (¬ ∃ fact ∈ facts, fact.1 = i) → facts.foldlM (deliver bound) slots = .ok slots' → slots'[i] = slots[i]
  | [], _, _, _, h => by
    cases h
    rfl
  | fact :: facts, slots, slots', hnot, h => by
    obtain ⟨mid, hd, hrest⟩ := deliverAll_cons h
    have hne : fact.1 ≠ i := fun heq => hnot ⟨fact, List.mem_cons_self, heq⟩
    have hmid : mid[i] = slots[i] := by
      obtain ⟨hlt, ⟨-, rfl⟩ | ⟨-, count, rfl, -⟩⟩ := deliver_cases hd
      · rfl
      · exact Vector.getElem_set_ne hlt hi hne
    rw [← hmid]
    refine deliverAll_frame hi ?_ hrest
    rintro ⟨fact', hmem, heq⟩
    exact hnot ⟨fact', List.mem_cons_of_mem fact hmem, heq⟩

/-- **One state of the slots follows another**: states grew, and whatever changed is pending. -/
structure Raised (slots slots' : Vector (Slot L) n) : Prop where
  grows : ∀ i (h : i < n), Domain.le slots[i].state slots'[i].state = true
  unchanged : ∀ i (h : i < n), slots'[i].pending = false → slots'[i] = slots[i]

def Covered (slots : Vector (Slot L) n) (facts : List (Node × L)) : Prop :=
  ∀ fact ∈ facts, ∃ h : fact.1 < n, Domain.le fact.2 slots[fact.1].state = true

variable {P : L → Prop}

def AllStates (P : L → Prop) (slots : Vector (Slot L) n) : Prop := ∀ i (h : i < n), P slots[i].state

omit [Domain L] [BEq L] in
theorem AllStates.set {slots : Vector (Slot L) n} (hP : AllStates P slots) {k : Nat} (hk : k < n) {slot : Slot L}
    (hslot : P slot.state) : AllStates P (slots.set k slot) := fun i hi => by
  rw [Vector.getElem_set]
  split
  · exact hslot
  · exact hP i hi

omit [BEq L] in
theorem allStates_start {entry : Node} {init : L} (hbottom : P Domain.bottom) (hinit : P init) :
    AllStates P (start n entry init).slots := fun i hi => by
  simp only [start, Vector.getElem_ofFn]
  split
  · exact hinit
  · exact hbottom

theorem Raised.refl (ord : Domain.OrderOn P) {slots : Vector (Slot L) n} (hP : AllStates P slots) : Raised slots slots :=
  ⟨fun i h => ord.le_refl (hP i h), fun _ _ _ => rfl⟩

theorem Raised.trans (ord : Domain.OrderOn P) {a b c : Vector (Slot L) n} (ha : AllStates P a) (hb : AllStates P b)
    (hc : AllStates P c) (hab : Raised a b) (hbc : Raised b c) : Raised a c where
  grows i h := ord.le_trans (ha i h) (hb i h) (hc i h) (hab.grows i h) (hbc.grows i h)
  unchanged i h hp := by
    have hcb := hbc.unchanged i h hp
    rw [hcb]
    exact hab.unchanged i h (hcb ▸ hp)

theorem Covered.raised (ord : Domain.OrderOn P) {a b : Vector (Slot L) n} {facts : List (Node × L)}
    (ha : AllStates P a) (hb : AllStates P b) (hfacts : ∀ fact ∈ facts, P fact.2) (hab : Raised a b)
    (h : Covered a facts) : Covered b facts := fun fact hmem => by
  obtain ⟨hlt, hle⟩ := h fact hmem
  exact ⟨hlt, ord.le_trans (hfacts fact hmem) (ha _ hlt) (hb _ hlt) hle (hab.grows _ hlt)⟩

theorem deliver_raised (ord : Domain.OrderOn P) {bound : Nat} {slots slots' : Vector (Slot L) n} {fact : Node × L}
    (hP : AllStates P slots) (hfact : P fact.2) (h : deliver bound slots fact = .ok slots') :
    AllStates P slots' ∧ Raised slots slots' ∧ Covered slots' [fact] := by
  obtain ⟨hlt, ⟨heq, rfl⟩ | ⟨-, count, rfl, -⟩⟩ := deliver_cases h
  · refine ⟨hP, .refl ord hP, fun f hf => ?_⟩
    obtain rfl := List.mem_singleton.1 hf
    exact ⟨hlt, ord.le_of_join (hP _ hlt) hfact heq⟩
  · have hjoin := ord.join_mem (hP _ hlt) hfact
    refine ⟨hP.set hlt hjoin, ⟨fun i hi => ?_, fun i hi hp => ?_⟩, fun f hf => ?_⟩
    · rw [Vector.getElem_set]
      split
      · rename_i heq
        subst heq
        exact ord.le_join_left (hP _ hlt) hfact
      · exact ord.le_refl (hP i hi)
    · rw [Vector.getElem_set] at hp ⊢
      split at hp
      · cases hp
      · rename_i hne
        rw [if_neg hne]
    · obtain rfl := List.mem_singleton.1 hf
      refine ⟨hlt, ?_⟩
      rw [Vector.getElem_set_self]
      exact ord.le_join_right (hP _ hlt) hfact

/-! ## One evaluation -/

/-- **The facts of one evaluation, delivered in order, are all covered in the end.** -/
theorem deliverAll_raised (ord : Domain.OrderOn P) {bound : Nat} : ∀ {facts : List (Node × L)}
    {slots slots' : Vector (Slot L) n}, AllStates P slots → (∀ fact ∈ facts, P fact.2) →
    facts.foldlM (deliver bound) slots = .ok slots' → AllStates P slots' ∧ Raised slots slots' ∧ Covered slots' facts
  | [], slots, slots', hP, _, h => by
    cases h
    exact ⟨hP, .refl ord hP, fun _ hf => nomatch hf⟩
  | fact :: facts, slots, slots', hP, hfacts, h => by
    obtain ⟨hfact, hfacts⟩ := List.forall_mem_cons.1 hfacts
    obtain ⟨mid, hd, hrest⟩ := deliverAll_cons h
    obtain ⟨hmid, hraised, hcov⟩ := deliver_raised ord hP hfact hd
    obtain ⟨hP', hraised', hcov'⟩ := deliverAll_raised ord hmid hfacts hrest
    refine ⟨hP', .trans ord hP hmid hP' hraised hraised', List.forall_mem_cons.2 ⟨?_, hcov'⟩⟩
    have hone := hcov.raised ord hmid hP' (fun f hf => List.mem_singleton.1 hf ▸ hfact) hraised'
    exact hone fact List.mem_cons_self

/-- The slots once a node was taken from the pending ones. -/
def popped (slots : Vector (Slot L) n) (node : Nat) (hnode : node < n) : Vector (Slot L) n :=
  slots.set node { slots[node] with pending := false }

omit [Domain L] [BEq L] in
theorem getElem_popped (slots : Vector (Slot L) n) {node : Nat} (hnode : node < n) (i : Nat) (h : i < n) :
    (popped slots node hnode)[i] = if node = i then { slots[i] with pending := false } else slots[i] := by
  unfold popped
  rw [Vector.getElem_set]
  split
  · rename_i heq
    subst heq
    rfl
  · rfl

omit [Domain L] [BEq L] in
theorem state_popped (slots : Vector (Slot L) n) {node : Nat} (hnode : node < n) (i : Nat) (h : i < n) :
    (popped slots node hnode)[i].state = slots[i].state := by
  rw [getElem_popped]
  split <;> rfl

omit [Domain L] [BEq L] in
theorem enqueued_popped (slots : Vector (Slot L) n) {node : Nat} (hnode : node < n) (i : Nat) (h : i < n) :
    (popped slots node hnode)[i].enqueued = slots[i].enqueued := by
  rw [getElem_popped]
  split <;> rfl

omit [Domain L] [BEq L] in
theorem AllStates.popped {slots : Vector (Slot L) n} (hP : AllStates P slots) {node : Nat} (hnode : node < n) :
    AllStates P (popped slots node hnode) := hP.set hnode (hP node hnode)

omit [Domain L] [BEq L] in
theorem popped_of_ne {slots : Vector (Slot L) n} {node i : Nat} (hnode : node < n) (h : i < n) (hne : node ≠ i) :
    (popped slots node hnode)[i] = slots[i] := by
  rw [getElem_popped, if_neg hne]

omit [Domain L] [BEq L] in
theorem pending_popped_self (slots : Vector (Slot L) n) {node : Nat} (hnode : node < n) :
    (popped slots node hnode)[node].pending = false := by
  rw [getElem_popped, if_pos rfl]

/-- **One pending node is evaluated**, whichever it is, and all its facts are delivered. -/
def Evaluates (g : Graph) (bound : Nat) (transfer : Node → L → Fiber L) (p q : Progress L n) : Prop :=
  ∃ (node : Nat) (hnode : node < n), p.slots[node].pending = true ∧
    (outgoing g node (transfer node p.slots[node].state)).foldlM (deliver bound) (popped p.slots node hnode) =
      .ok q.slots ∧
    q.log = (node, p.slots[node].state) :: p.log

/-- **Some pending nodes are evaluated one after the other**, in any order. -/
def Reaches (g : Graph) (bound : Nat) (transfer : Node → L → Fiber L) : Progress L n → Progress L n → Prop :=
  Relation.ReflTransGen (Evaluates g bound transfer)

/-- **The node is pending, and none before it is.** -/
structure Lowest (slots : Vector (Slot L) n) (node : Nat) (hnode : node < n) : Prop where
  pending : slots[node].pending = true
  first : ∀ i (h : i < n), slots[i].pending = true → node ≤ i

omit [Domain L] [BEq L] in
theorem lowest_of_nextPending? {slots : Vector (Slot L) n} {node : Fin n} (h : nextPending? slots = some node) :
    Lowest slots node node.isLt where
  pending := by simpa using List.find?_some h
  first i hi hp := by
    obtain ⟨-, before, after, hsplit, hbefore⟩ := List.find?_eq_some_iff_append.1 h
    have hsorted := List.pairwise_lt_finRange n
    have hmem := List.mem_finRange (⟨i, hi⟩ : Fin n)
    rw [hsplit, List.pairwise_append, List.pairwise_cons] at hsorted
    rw [hsplit, List.mem_append, List.mem_cons] at hmem
    rcases hmem with hmem | heq | hmem
    · have := hbefore _ hmem
      simp [hp] at this
    · exact Nat.le_of_eq (congrArg Fin.val heq).symm
    · exact Nat.le_of_lt (hsorted.2.1.1 _ hmem)

/-- **What a step can do.**  Nothing is pending, or the lowest pending node is evaluated and its facts are delivered, all
of them or up to one that fails. -/
inductive Stepped (g : Graph) (bound : Nat) (transfer : Node → L → Fiber L) (p : Progress L n) : Step L n → Prop where
  | settled (h : ∀ i (hi : i < n), p.slots[i].pending = false) : Stepped g bound transfer p .settled
  | next {node : Nat} {slots : Vector (Slot L) n} (hnode : node < n) (low : Lowest p.slots node hnode)
      (h : (outgoing g node (transfer node p.slots[node].state)).foldlM (deliver bound) (popped p.slots node hnode) =
        .ok slots) : Stepped g bound transfer p (.next ⟨slots, (node, p.slots[node].state) :: p.log⟩)
  | exceeded {node : Nat} {slots : Vector (Slot L) n} (hnode : node < n) (low : Lowest p.slots node hnode)
      (h : (outgoing g node (transfer node p.slots[node].state)).foldlM (deliver bound) (popped p.slots node hnode) =
        .error (.exceeded slots)) : Stepped g bound transfer p (.exceeded ⟨slots, (node, p.slots[node].state) :: p.log⟩)
  | dangling {node : Nat} {t : Node} (hnode : node < n) (low : Lowest p.slots node hnode)
      (h : (outgoing g node (transfer node p.slots[node].state)).foldlM (deliver bound) (popped p.slots node hnode) =
        .error (.dangling t)) : Stepped g bound transfer p (.dangling node t ((node, p.slots[node].state) :: p.log))

theorem step_stepped (g : Graph) (bound : Nat) (transfer : Node → L → Fiber L) (p : Progress L n) :
    Stepped g bound transfer p (step g bound transfer p) := by
  unfold step
  split
  · rename_i hnone
    refine .settled fun i hi => ?_
    have := List.find?_eq_none.1 hnone ⟨i, hi⟩ (List.mem_finRange _)
    simpa using this
  · rename_i node hfind
    have low := lowest_of_nextPending? hfind
    simp only
    split
    · rename_i slots hfold
      exact .next node.isLt low hfold
    · rename_i slots hfold
      exact .exceeded node.isLt low hfold
    · rename_i t hfold
      exact .dangling node.isLt low hfold

theorem step_next {g : Graph} {bound : Nat} {transfer : Node → L → Fiber L} {p q : Progress L n}
    (h : step g bound transfer p = .next q) : Evaluates g bound transfer p q := by
  have hstep := step_stepped g bound transfer p
  rw [h] at hstep
  cases hstep with
  | next hnode low hfold => exact ⟨_, hnode, low.pending, hfold, rfl⟩

theorem step_exceeded {g : Graph} {bound : Nat} {transfer : Node → L → Fiber L} {p q : Progress L n}
    (h : step g bound transfer p = .exceeded q) :
    ∃ (node : Nat) (_ : node < n), p.slots[node].pending = true ∧ q.log = (node, p.slots[node].state) :: p.log := by
  have hstep := step_stepped g bound transfer p
  rw [h] at hstep
  cases hstep with
  | exceeded hnode low _ => exact ⟨_, hnode, low.pending, rfl⟩

theorem step_dangling {g : Graph} {bound : Nat} {transfer : Node → L → Fiber L} {p : Progress L n} {node t : Node}
    {l : List (Node × L)} (h : step g bound transfer p = .dangling node t l) :
    ∃ hnode : node < n, p.slots[node].pending = true ∧ l = (node, p.slots[node].state) :: p.log ∧
      ∃ y, (t, y) ∈ outgoing g node (transfer node p.slots[node].state) ∧ n ≤ t := by
  have hstep := step_stepped g bound transfer p
  rw [h] at hstep
  cases hstep with
  | dangling hnode low hfold =>
    obtain ⟨before, fact, after, mid, hsplit, -, hfail⟩ := deliverAll_error hfold
    rcases deliver_error hfail with ⟨hout, heq⟩ | ⟨_, -, -, heq⟩
    · cases heq
      refine ⟨hnode, low.pending, rfl, fact.2, ?_, hout⟩
      rw [hsplit]
      exact List.mem_append_right before List.mem_cons_self
    · cases heq

theorem step_settled {g : Graph} {bound : Nat} {transfer : Node → L → Fiber L} {p : Progress L n}
    (h : step g bound transfer p = .settled) : ∀ i (hi : i < n), p.slots[i].pending = false := by
  have hstep := step_stepped g bound transfer p
  rw [h] at hstep
  cases hstep with
  | settled hdone => exact hdone

end

/-! ## Whole runs -/

section
variable {L : Type} [Domain L] [BEq L] {n : Nat}

theorem loop_settled {g : Graph} {bound : Nat} {transfer : Node → L → Fiber L} {p : Progress L n}
    (h : step g bound transfer p = .settled) :
    loop g bound transfer p = ⟨p.log.reverse, .ok ⟨(p.slots.map Slot.state).toArray, p.stats false⟩⟩ := by
  rw [loop]
  split <;> simp_all

theorem loop_exceeded {g : Graph} {bound : Nat} {transfer : Node → L → Fiber L} {p q : Progress L n}
    (h : step g bound transfer p = .exceeded q) :
    loop g bound transfer p = ⟨q.log.reverse, .ok ⟨Array.replicate n Domain.top, q.stats true⟩⟩ := by
  rw [loop]
  split <;> simp_all

theorem loop_dangling {g : Graph} {bound : Nat} {transfer : Node → L → Fiber L} {p : Progress L n} {node s : Node}
    {l : List (Node × L)} (h : step g bound transfer p = .dangling node s l) :
    loop g bound transfer p = ⟨l.reverse, .error (.danglingSuccessor node s)⟩ := by
  rw [loop]
  split <;> simp_all

theorem loop_next {g : Graph} {bound : Nat} {transfer : Node → L → Fiber L} {p q : Progress L n}
    (h : step g bound transfer p = .next q) : loop g bound transfer p = loop g bound transfer q := by
  rw [loop]
  split <;> simp_all

/-- **A run ends after its last step.**  What every step keeps holds before that step. -/
theorem loop_ends {g : Graph} {bound : Nat} {transfer : Node → L → Fiber L} {Inv : Progress L n → Prop}
    (hstep : ∀ {p q}, Inv p → step g bound transfer p = .next q → Inv q) (p : Progress L n) (hp : Inv p) :
    ∃ q, Inv q ∧
      ((step g bound transfer q = .settled ∧ loop g bound transfer p =
          ⟨q.log.reverse, .ok ⟨(q.slots.map Slot.state).toArray, q.stats false⟩⟩) ∨
        (∃ r, step g bound transfer q = .exceeded r ∧ loop g bound transfer p =
          ⟨r.log.reverse, .ok ⟨Array.replicate n Domain.top, r.stats true⟩⟩) ∨
        ∃ node s l, step g bound transfer q = .dangling node s l ∧ loop g bound transfer p =
          ⟨l.reverse, .error (.danglingSuccessor node s)⟩) := by
  induction p using loop.induct g bound transfer with
  | case1 p h => exact ⟨p, hp, .inl ⟨h, loop_settled h⟩⟩
  | case2 p r h => exact ⟨p, hp, .inr (.inl ⟨r, h, loop_exceeded h⟩)⟩
  | case3 p node s l h => exact ⟨p, hp, .inr (.inr ⟨node, s, l, h, loop_dangling h⟩)⟩
  | case4 p q h ih =>
    obtain ⟨r, hr, hend⟩ := ih (hstep hp h)
    exact ⟨r, hr, loop_next h ▸ hend⟩

/-- **How a run ends**: settled, past the bound, or with a fact for a node outside the graph. -/
theorem run_ends {g : Graph} (bound : Nat) (transfer : Node → L → Fiber L) {entry : Node} (init : L)
    (hentry : entry < g.size) {Inv : Progress L g.size → Prop} (hstart : Inv (start g.size entry init))
    (hstep : ∀ {p q}, Inv p → step g bound transfer p = .next q → Inv q) :
    ∃ q, Inv q ∧
      ((step g bound transfer q = .settled ∧ run g bound transfer entry init =
          ⟨q.log.reverse, .ok ⟨(q.slots.map Slot.state).toArray, q.stats false⟩⟩) ∨
        (∃ r, step g bound transfer q = .exceeded r ∧ run g bound transfer entry init =
          ⟨r.log.reverse, .ok ⟨Array.replicate g.size Domain.top, r.stats true⟩⟩) ∨
        ∃ node s l, step g bound transfer q = .dangling node s l ∧ run g bound transfer entry init =
          ⟨l.reverse, .error (.danglingSuccessor node s)⟩) := by
  have hrun : run g bound transfer entry init = loop g bound transfer (start g.size entry init) := if_pos hentry
  rw [hrun]
  exact loop_ends hstep (start g.size entry init) hstart

theorem run_missing (g : Graph) (bound : Nat) (transfer : Node → L → Fiber L) {entry : Node} (init : L)
    (hentry : ¬ entry < g.size) : run g bound transfer entry init = ⟨[], .error (.missingEntry entry)⟩ := if_neg hentry

/-- **What holds between two evaluations.**  A node that is not pending was never reached, or sent its facts from the
state that it still has, and they are covered. -/
structure Invariant (P : L → Prop) (g : Graph) (transfer : Node → L → Fiber L) (entry : Node) (init : L)
    (p : Progress L n) : Prop where
  states : AllStates P p.slots
  log : ∀ e ∈ p.log, P e.2
  entry_le : ∀ h : entry < n, Domain.le init p.slots[entry].state = true
  settled : ∀ i (h : i < n), p.slots[i].pending = false →
    i ≠ entry ∧ p.slots[i].state = Domain.bottom ∨ Covered p.slots (outgoing g i (transfer i p.slots[i].state))

variable {P : L → Prop} {g : Graph} {transfer : Node → L → Fiber L} {entry : Node} {init : L} {bound : Nat}

theorem Invariant.covered (ord : Domain.OrderOn P) {p : Progress L n} (inv : Invariant P g transfer entry init p)
    {i : Nat} (h : i < n) (hdone : p.slots[i].pending = false)
    (hreached : i = entry ∨ Domain.isBottom p.slots[i].state = false) :
    Covered p.slots (outgoing g i (transfer i p.slots[i].state)) := by
  rcases inv.settled i h hdone with ⟨hne, hbottom⟩ | hcov
  · rcases hreached with heq | hlive
    · exact absurd heq hne
    · rw [hbottom, ord.isBottom_bottom] at hlive
      cases hlive
  · exact hcov

theorem invariant_start (ord : Domain.OrderOn P) (hinit : P init) : Invariant P g transfer entry init (start n entry init) where
  states := allStates_start ord.bottom_mem hinit
  log e he := nomatch he
  entry_le h := by
    simp only [start, Vector.getElem_ofFn, if_true]
    exact ord.le_refl hinit
  settled i h hp := by
    simp only [start, Vector.getElem_ofFn] at hp ⊢
    split at hp
    · cases hp
    · rename_i hne
      rw [if_neg hne]
      exact .inl ⟨hne, rfl⟩

theorem invariant_evaluates (ord : Domain.OrderOn P) (hinit : P init)
    (htransfer : ∀ i x, P x → ∀ fact ∈ outgoing g i (transfer i x), P fact.2) {p q : Progress L n}
    (inv : Invariant P g transfer entry init p) (h : Evaluates g bound transfer p q) :
    Invariant P g transfer entry init q := by
  obtain ⟨node, hnode, hpending, hfold, hlog⟩ := h
  have hstate : P p.slots[node].state := inv.states node hnode
  have hpopped := inv.states.popped hnode
  obtain ⟨hstates, hraised, hcov⟩ := deliverAll_raised ord hpopped (htransfer node _ hstate) hfold
  refine ⟨hstates, ?_, fun hlt => ?_, fun i hi hp => ?_⟩
  · rw [hlog]
    exact List.forall_mem_cons.2 ⟨hstate, inv.log⟩
  · have hgrow := hraised.grows entry hlt
    rw [state_popped] at hgrow
    exact ord.le_trans hinit (inv.states entry hlt) (hstates entry hlt) (inv.entry_le hlt) hgrow
  · have hsame := hraised.unchanged i hi hp
    by_cases hne : node = i
    · subst hne
      -- the evaluated node is not pending again, so it still has the state that its facts came from
      refine .inr ?_
      rw [hsame, state_popped]
      exact hcov
    · rw [popped_of_ne hnode hi hne] at hsame
      rw [hsame] at hp ⊢
      refine (inv.settled i hi hp).imp id fun hcov => ?_
      have hcov' : Covered (popped p.slots node hnode) (outgoing g i (transfer i p.slots[i].state)) := fun fact hmem => by
        obtain ⟨hlt, hle⟩ := hcov fact hmem
        exact ⟨hlt, by rwa [state_popped]⟩
      exact hcov'.raised ord hpopped hstates (htransfer i _ (inv.states i hi)) hraised

theorem invariant_reaches (ord : Domain.OrderOn P) (hinit : P init)
    (htransfer : ∀ i x, P x → ∀ fact ∈ outgoing g i (transfer i x), P fact.2) {p : Progress L n}
    (h : Reaches g bound transfer (start n entry init) p) : Invariant P g transfer entry init p := by
  induction h with
  | refl => exact invariant_start ord hinit
  | tail _ hlast ih => exact invariant_evaluates ord hinit htransfer ih hlast

/-- **A run with a solution ended settled, with its slots' states, or gave up, with `top` everywhere.** -/
theorem solve_reaches {sol : Solution L} (h : solve g bound transfer entry init = .ok sol) :
    entry < g.size ∧ ∃ q : Progress L g.size, Reaches g bound transfer (start g.size entry init) q ∧
      ((∀ i (h : i < g.size), q.slots[i].pending = false) ∧ (run g bound transfer entry init).log = q.log.reverse ∧
          sol = ⟨(q.slots.map Slot.state).toArray, q.stats false⟩ ∨
        ∃ (node : Nat) (hnode : node < g.size) (stats : Stats),
          (run g bound transfer entry init).log = ((node, q.slots[node].state) :: q.log).reverse ∧
          sol = ⟨Array.replicate g.size Domain.top, stats⟩ ∧ stats.gaveUp = true) := by
  have hentry : entry < g.size := by
    by_contra hout
    rw [solve, run_missing g bound transfer init hout] at h
    cases h
  obtain ⟨q, hq, ⟨hs, hrun⟩ | ⟨r, hs, hrun⟩ | ⟨node, s, l, hs, hrun⟩⟩ :=
    run_ends bound transfer init hentry .refl fun hp hs => Relation.ReflTransGen.tail hp (step_next hs)
  · rw [solve, hrun] at h
    rw [hrun]
    cases h
    exact ⟨hentry, q, hq, .inl ⟨step_settled hs, rfl, rfl⟩⟩
  · rw [solve, hrun] at h
    rw [hrun]
    cases h
    obtain ⟨node, hnode, -, hlog⟩ := step_exceeded hs
    exact ⟨hentry, q, hq, .inr ⟨node, hnode, _, by rw [hlog], rfl, rfl⟩⟩
  · rw [solve, hrun] at h
    cases h

end
end Solver

/-! ## Solutions -/

section
variable {L : Type} [Domain L] [BEq L] {P : L → Prop} {g : Graph} {transfer : Node → L → Fiber L} {entry : Node}
  {init : L} {bound : Nat} {sol : Solution L}

open Solver

omit [Domain L] [BEq L] in
theorem state?_slots {n : Nat} {slots : Vector (Slot L) n} {stats : Stats} {i : Nat} {x : L} :
    (⟨(slots.map Slot.state).toArray, stats⟩ : Solution L).state? i = some x ↔ ∃ h : i < n, slots[i].state = x := by
  simp only [Solution.state?, Vector.toArray_map, Array.getElem?_map, Vector.getElem?_toArray, Option.map_eq_some_iff,
    Vector.getElem?_eq_some_iff]
  constructor
  · rintro ⟨_, ⟨h, rfl⟩, rfl⟩
    exact ⟨h, rfl⟩
  · rintro ⟨h, rfl⟩
    exact ⟨_, ⟨h, rfl⟩, rfl⟩

omit [BEq L] in
theorem state?_top {n : Nat} {stats : Stats} {i : Nat} {x : L} :
    (⟨Array.replicate n Domain.top, stats⟩ : Solution L).state? i = some x ↔ i < n ∧ Domain.top = x := by
  simp [Solution.state?, Array.getElem?_eq_some_iff]

/-- **The equations hold of a solution, as inequalities**: it covers the entry's state, and the facts that each reached
node sends from its state.  A run that gave up has `top` everywhere. -/
structure Solution.Solves (g : Graph) (transfer : Node → L → Fiber L) (entry : Node) (init : L) (sol : Solution L) :
    Prop where
  size : sol.states.size = g.size
  entry_le : ∃ x, sol.state? entry = some x ∧ Domain.le init x = true
  covered : sol.stats.gaveUp = false → ∀ i x, sol.state? i = some x → (i = entry ∨ Domain.isBottom x = false) →
    ∀ fact ∈ outgoing g i (transfer i x), ∃ y, sol.state? fact.1 = some y ∧ Domain.le fact.2 y = true
  gaveUp : sol.stats.gaveUp = true → ∀ i x, sol.state? i = some x → x = Domain.top

theorem solve_solves (ord : Domain.OrderOn P) (hinit : P init)
    (htransfer : ∀ i x, P x → ∀ fact ∈ outgoing g i (transfer i x), P fact.2)
    (h : solve g bound transfer entry init = .ok sol) : sol.Solves g transfer entry init := by
  obtain ⟨hentry, q, hq, ⟨hdone, -, rfl⟩ | ⟨node, hnode, stats, -, rfl, hstats⟩⟩ := solve_reaches h
  · have inv := invariant_reaches ord hinit htransfer hq
    refine ⟨by simp, ⟨_, state?_slots.2 ⟨hentry, rfl⟩, inv.entry_le hentry⟩, fun _ i x hx hreached => ?_, nofun⟩
    obtain ⟨hi, rfl⟩ := state?_slots.1 hx
    intro fact hmem
    obtain ⟨hlt, hle⟩ := inv.covered ord hi (hdone i hi) hreached fact hmem
    exact ⟨_, state?_slots.2 ⟨hlt, rfl⟩, hle⟩
  · refine ⟨by simp, ⟨_, state?_top.2 ⟨hentry, rfl⟩, ord.le_top hinit⟩, fun hno => ?_, fun _ i x hx => ?_⟩
    · rw [hstats] at hno
      cases hno
    · exact (state?_top.1 hx).2.symm

theorem solve_states (ord : Domain.OrderOn P) (hinit : P init)
    (htransfer : ∀ i x, P x → ∀ fact ∈ outgoing g i (transfer i x), P fact.2)
    (h : solve g bound transfer entry init = .ok sol) :
    (∀ e ∈ (run g bound transfer entry init).log, P e.2) ∧ ∀ i x, sol.state? i = some x → P x := by
  obtain ⟨-, q, hq, ⟨-, hlog, rfl⟩ | ⟨node, hnode, stats, hlog, rfl, -⟩⟩ := solve_reaches h
  · have inv := invariant_reaches ord hinit htransfer hq
    rw [hlog]
    refine ⟨fun e he => inv.log e (List.mem_reverse.1 he), fun i x hx => ?_⟩
    obtain ⟨hi, rfl⟩ := state?_slots.1 hx
    exact inv.states i hi
  · have inv := invariant_reaches ord hinit htransfer hq
    rw [hlog]
    refine ⟨fun e he => ?_, fun i x hx => ?_⟩
    · rcases List.mem_cons.1 (List.mem_reverse.1 he) with rfl | he
      · exact inv.states node hnode
      · exact inv.log e he
    · rw [← (state?_top.1 hx).2]
      exact ord.top_mem

/-- **A run ends with a solution** if no fact leaves the graph. -/
theorem solve_ok (hentry : entry < g.size)
    (hinside : ∀ i x, ∀ fact ∈ outgoing g i (transfer i x), fact.1 < g.size) :
    ∃ sol, solve g bound transfer entry init = .ok sol := by
  obtain ⟨q, -, ⟨-, hrun⟩ | ⟨r, -, hrun⟩ | ⟨node, t, l, hs, -⟩⟩ :=
    run_ends bound transfer init hentry trivial fun {_ _} (_ : True) _ => trivial
  · exact ⟨_, congrArg Run.result hrun⟩
  · exact ⟨_, congrArg Run.result hrun⟩
  · obtain ⟨_, -, -, y, hmem, hout⟩ := step_dangling hs
    exact absurd (hinside node _ (t, y) hmem) (Nat.not_lt.2 hout)

/-- **What a node sends is covered by a solution.**  All targets are in the graph, unless the run gave up: then those
that are. -/
def Solution.Covers (g : Graph) (sol : Solution L) (node : Node) : Fiber L → Prop
  | .top     => ∀ s ∈ g.successors node, (sol.stats.gaveUp = false → s < g.size) ∧
      ∀ y, sol.state? s = some y → y == Domain.top
  | .facts t => ∀ s out, t.get? s = some out → (sol.stats.gaveUp = false → s < g.size) ∧
      ∀ y, sol.state? s = some y → Domain.le out y = true

/-- **A solution is a post-fixpoint, whatever the transfer function is.** -/
theorem solve_postFixpoint [LawfulUpToBEq L] (h : solve g bound transfer entry init = .ok sol) :
    sol.states.size = g.size ∧
      (∃ x, sol.state? entry = some x ∧ Domain.le init x = true) ∧
      (sol.stats.gaveUp = true → ∀ n x, sol.state? n = some x → x = Domain.top) ∧
      ∀ n x, sol.state? n = some x → (n = entry ∨ Domain.isBottom x = false) → sol.Covers g n (transfer n x) := by
  have hsolves := solve_solves Domain.orderOn_all trivial (fun _ _ _ _ _ => trivial) h
  refine ⟨hsolves.size, hsolves.entry_le, hsolves.gaveUp, fun n x hx hreached => ?_⟩
  have hsent : ∀ fact ∈ outgoing g n (transfer n x), (sol.stats.gaveUp = false → fact.1 < g.size) ∧
      ∀ y, sol.state? fact.1 = some y → Domain.le fact.2 y = true := fun fact hmem => by
    cases hgave : sol.stats.gaveUp with
    | true =>
      refine ⟨nofun, fun y hy => ?_⟩
      rw [hsolves.gaveUp hgave _ _ hy]
      exact Domain.orderOn_all.le_top trivial
    | false =>
      obtain ⟨y, hy, hle⟩ := hsolves.covered hgave n x hx hreached fact hmem
      have hlt : fact.1 < sol.states.size := (Array.getElem?_eq_some_iff.1 hy).1
      refine ⟨fun _ => hsolves.size ▸ hlt, fun y' hy' => ?_⟩
      rw [hy, Option.some_inj] at hy'
      exact hy' ▸ hle
  cases hf : transfer n x with
  | top =>
    intro s hs
    rw [hf] at hsent
    obtain ⟨hlt, hle⟩ := hsent (s, Domain.top) (List.mem_map.2 ⟨s, hs, rfl⟩)
    refine ⟨hlt, fun y hy => ?_⟩
    exact PartialEquivBEq.trans (PartialEquivBEq.symm (hle y hy)) (LawfulUpToBEq.top_join y)
  | facts t =>
    intro s out hout
    rw [hf] at hsent
    exact hsent (s, out) (Table.mem_entries_iff.2 hout)

end

/-- A pointer that a loop moves by eight bytes each time round may be anywhere in the frame. -/
theorem solve_postFixpoint_movingPointer : ∃ sol : Solution Pointer,
    Solver.solve ⟨2, fun _ => [1]⟩ 4 (fun _ x => .single 1 (x.shift 8)) 0 (.stackAt 0) = .ok sol ∧
      sol.state? 1 = some .anyStack ∧ sol.Covers ⟨2, fun _ => [1]⟩ 1 (.single 1 (Pointer.anyStack.shift 8)) := by
  let solved := Solver.solve ⟨2, fun _ => [1]⟩ 4 (fun _ x => .single 1 (x.shift 8)) 0 (Pointer.stackAt 0)
  have hstate : solved.toOption.bind (·.state? 1) = some .anyStack := by decide +kernel
  cases h : solved with
  | error e =>
    rw [h] at hstate
    cases hstate
  | ok sol =>
    rw [h] at hstate
    exact ⟨sol, h, hstate, (solve_postFixpoint h).2.2.2 1 _ hstate (.inr rfl)⟩

end ValueFlow
