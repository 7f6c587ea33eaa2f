import ValueFlow.Fiber
/-!
# Forward propagation to a fixpoint

Every node has a slot with the state that reaches it.  The lowest pending node is evaluated, what
its transfer function sends to each successor is joined into that successor's slot, and a successor
whose state changed becomes pending.  A node that becomes pending more often than the bound allows
ends the run with `top` everywhere.

The bound is also why a run ends, whatever the domain and the transfer function are: becoming
pending uses up one of a slot's allowed times, and being evaluated one pending mark
(`step_weight`).
-/
namespace ValueFlow

/-- A control-flow graph on the nodes `0 … size - 1`. -/
structure Graph where
  size : Nat
  successors : Node → List Node

inductive GraphFault where
  | missingEntry (entry : Node)
  | danglingSuccessor (node successor : Node)
  | unsupportedWidth (width : Int64)
deriving DecidableEq, Repr, Inhabited

structure Stats where
  /-- evaluations of the transfer function -/
  iterations : Nat
  /-- how often the most often pending node became pending -/
  maxEnqueued : Nat
  /-- the bound was exceeded -/
  gaveUp : Bool
deriving DecidableEq, Repr, Inhabited

structure Solution (L : Type) where
  states : Array L
  stats : Stats
deriving Inhabited

def Solution.state? {L : Type} (s : Solution L) (n : Node) : Option L := s.states[n]?

/-- A finished run: the evaluations in order, each with the state it read, and what came of it. -/
structure Run (L : Type) where
  log : List (Node × L)
  result : Except GraphFault (Solution L)

def Run.trace {L : Type} (r : Run L) : List Node := r.log.map Prod.fst

namespace Solver

structure Slot (L : Type) where
  state : L
  /-- how often the node became pending -/
  enqueued : Nat
  pending : Bool
deriving Inhabited

/-- A run between two evaluations. -/
structure Progress (L : Type) (n : Nat) where
  slots : Vector (Slot L) n
  /-- the evaluations so far, the last one first -/
  log : List (Node × L)

inductive Halt (L : Type) (n : Nat) where
  /-- a node became pending too often -/
  | exceeded (slots : Vector (Slot L) n)
  /-- a fact was sent outside the graph -/
  | dangling (successor : Node)

/-- One evaluation, or the end of the run. -/
inductive Step (L : Type) (n : Nat) where
  /-- nothing is pending -/
  | settled
  | next (p : Progress L n)
  | exceeded (p : Progress L n)
  | dangling (node successor : Node) (log : List (Node × L))

section
variable {L : Type} [Domain L] [BEq L] {n : Nat}

/-- Join one fact into its successor's slot. -/
def deliver (bound : Nat) (slots : Vector (Slot L) n) (fact : Node × L) :
    Except (Halt L n) (Vector (Slot L) n) :=
  if h : fact.1 < n then
    let slot := slots[fact.1]
    let joined := Domain.join slot.state fact.2
    if joined == slot.state then .ok slots
    else if slot.pending then .ok (slots.set fact.1 { slot with state := joined })
    else
      let slots := slots.set fact.1 ⟨joined, slot.enqueued + 1, true⟩
      if slot.enqueued + 1 > bound then .error (.exceeded slots) else .ok slots
  else .error (.dangling fact.1)

/-- The facts a fiber sends, in the order of delivery. -/
def outgoing (g : Graph) (node : Node) : Fiber L → List (Node × L)
  | .top     => (g.successors node).map (·, Domain.top)
  | .facts t => t.entries

def nextPending? (slots : Vector (Slot L) n) : Option (Fin n) :=
  (List.finRange n).find? (fun i => slots[i].pending)

def step (g : Graph) (bound : Nat) (transfer : Node → L → Fiber L) (p : Progress L n) : Step L n :=
  match nextPending? p.slots with
  | none      => .settled
  | some node =>
    let slot := p.slots[node]
    let log := (node.val, slot.state) :: p.log
    let popped := p.slots.set node { slot with pending := false }
    match (outgoing g node (transfer node slot.state)).foldlM (deliver bound) popped with
    | .ok slots                => .next ⟨slots, log⟩
    | .error (.exceeded slots) => .exceeded ⟨slots, log⟩
    | .error (.dangling s)     => .dangling node s log

end

/-! ## Why a run ends -/

section
variable {L : Type} {n : Nat}

/-- What a slot can still cost: two for each time it may become pending, one while it is. -/
def Slot.weight (bound : Nat) (s : Slot L) : Nat :=
  2 * (bound + 1 - s.enqueued) + (if s.pending then 1 else 0)

def weight (bound : Nat) (slots : Vector (Slot L) n) : Nat :=
  slots.toList.foldr (fun s total => s.weight bound + total) 0

theorem total_set (f : Slot L → Nat) : ∀ (l : List (Slot L)) (i : Nat) (h : i < l.length) (s : Slot L),
    (l.set i s).foldr (fun s total => f s + total) 0 + f l[i] = l.foldr (fun s total => f s + total) 0 + f s
  | _ :: l, 0, _, s => by
    simp only [List.set_cons_zero, List.foldr_cons, List.getElem_cons_zero]
    omega
  | _ :: l, i + 1, h, s => by
    have := total_set f l i (by simpa using h) s
    simp only [List.set_cons_succ, List.foldr_cons, List.getElem_cons_succ]
    omega

theorem weight_set (bound : Nat) (slots : Vector (Slot L) n) (i : Nat) (h : i < n) (s : Slot L) :
    weight bound (slots.set i s) + slots[i].weight bound = weight bound slots + s.weight bound := by
  have := total_set (Slot.weight bound) slots.toList i (by simpa using h) s
  simpa [weight, Vector.toList_set] using this

variable [Domain L] [BEq L]

theorem deliver_weight {bound : Nat} {slots slots' : Vector (Slot L) n} {fact : Node × L}
    (h : deliver bound slots fact = .ok slots') : weight bound slots' ≤ weight bound slots := by
  unfold deliver at h
  split at h
  · rename_i hlt
    simp only at h
    split at h
    · cases h; exact Nat.le_refl _
    · split at h
      · rename_i hp
        cases h
        have := weight_set bound slots fact.1 hlt
          { slots[fact.1] with state := Domain.join slots[fact.1].state fact.2 }
        simp only [Slot.weight] at this
        omega
      · rename_i hp
        split at h
        · cases h
        · rename_i hb
          cases h
          have := weight_set bound slots fact.1 hlt
            ⟨Domain.join slots[fact.1].state fact.2, slots[fact.1].enqueued + 1, true⟩
          simp only [Slot.weight, hp, if_true] at this
          simp at this
          omega
  · cases h

theorem deliverAll_cons {bound : Nat} {fact : Node × L} {facts : List (Node × L)} {slots slots' : Vector (Slot L) n}
    (h : (fact :: facts).foldlM (deliver bound) slots = .ok slots') :
    ∃ mid, deliver bound slots fact = .ok mid ∧ facts.foldlM (deliver bound) mid = .ok slots' := by
  rw [List.foldlM_cons] at h
  cases hd : deliver bound slots fact with
  | error e =>
    rw [hd] at h
    cases h
  | ok mid =>
    rw [hd] at h
    exact ⟨mid, rfl, h⟩

theorem foldlM_deliver_weight {bound : Nat} : ∀ {facts : List (Node × L)} {slots slots' : Vector (Slot L) n},
    facts.foldlM (deliver bound) slots = .ok slots' → weight bound slots' ≤ weight bound slots
  | [], slots, slots', h => by cases h; exact Nat.le_refl _
  | fact :: facts, slots, slots', h => by
    obtain ⟨mid, hd, hrest⟩ := deliverAll_cons h
    exact Nat.le_trans (foldlM_deliver_weight hrest) (deliver_weight hd)

theorem step_weight {g : Graph} {bound : Nat} {transfer : Node → L → Fiber L} {p q : Progress L n}
    (h : step g bound transfer p = .next q) : weight bound q.slots < weight bound p.slots := by
  unfold step at h
  split at h
  · cases h
  · rename_i node hfind
    have hpending : p.slots[node.val].pending = true := by
      simpa using List.find?_some hfind
    simp only at h
    split at h
    · rename_i slots hfold
      cases h
      have hle := foldlM_deliver_weight hfold
      have hset := weight_set bound p.slots node.val node.isLt { p.slots[node] with pending := false }
      simp only [Slot.weight, Fin.getElem_fin, hpending] at hset hle ⊢
      simp at hset
      omega
    · cases h
    · cases h

end

/-! ## Runs -/

section
variable {L : Type} [Domain L] [BEq L] {n : Nat}

def Progress.stats (p : Progress L n) (gaveUp : Bool) : Stats where
  iterations := p.log.length
  maxEnqueued := (p.slots.toList.map Slot.enqueued).foldl max 0
  gaveUp := gaveUp

def loop (g : Graph) (bound : Nat) (transfer : Node → L → Fiber L) (p : Progress L n) : Run L :=
  match _h : step g bound transfer p with
  | .settled           => ⟨p.log.reverse, .ok ⟨(p.slots.map Slot.state).toArray, p.stats false⟩⟩
  | .exceeded q        => ⟨q.log.reverse, .ok ⟨Array.replicate n Domain.top, q.stats true⟩⟩
  | .dangling node s l => ⟨l.reverse, .error (.danglingSuccessor node s)⟩
  | .next q            => loop g bound transfer q
termination_by weight bound p.slots
decreasing_by exact step_weight _h

/-- The entry pending with its state, all else `bottom`. -/
def start (n entry : Nat) (init : L) : Progress L n where
  slots := Vector.ofFn fun i : Fin n =>
    if i.val = entry then ⟨init, 1, true⟩ else ⟨Domain.bottom, 0, false⟩
  log := []

def run (g : Graph) (bound : Nat) (transfer : Node → L → Fiber L) (entry : Node) (init : L) : Run L :=
  if entry < g.size then loop g bound transfer (start g.size entry init)
  else ⟨[], .error (.missingEntry entry)⟩

def solve (g : Graph) (bound : Nat) (transfer : Node → L → Fiber L) (entry : Node) (init : L) :
    Except GraphFault (Solution L) :=
  (run g bound transfer entry init).result

end
end Solver
end ValueFlow
