import ValueFlow.Proofs.Lists
import ValueFlow.Proofs.Transfer
/-!
# What a node sends from any state

From a well-formed state every target gets the one state that the instruction leaves (`Fiber.Sends`).  From any other a
target that is named twice gets that state joined with itself, which need not be the same.  So here two fibers are
compared entry by entry: a relation between the states that two runs leave, if joins keep it, is one between all that
the runs send.  A fiber compared with itself shows what each of its entries has.
-/
namespace ValueFlow

namespace Fiber
variable {L : Type} {R S : Node → L → L → Prop} {f g : Fiber L}

/-- **Two fibers have entries for the same nodes, and `R` relates them.** -/
def Alike (R : Node → L → L → Prop) (f g : Fiber L) : Prop :=
  ∃ t u, f = facts t ∧ g = facts u ∧ ∀ k, Option.Rel (R k) (t.get? k) (u.get? k)

theorem alike_empty (R : Node → L → L → Prop) : (empty : Fiber L).Alike R empty :=
  ⟨_, _, rfl, rfl, fun _ => .none⟩

theorem Alike.insert {t u : Table Node L} (h : ∀ k, Option.Rel (R k) (t.get? k) (u.get? k)) {n : Node} {x y : L}
    (hxy : R n x y) : (facts (t.insert n x)).Alike R (facts (u.insert n y)) := by
  refine ⟨_, _, rfl, rfl, fun k => ?_⟩
  rw [Table.get?_insert, Table.get?_insert]
  by_cases hk : n = k
  · subst hk
    rw [if_pos rfl, if_pos rfl]
    exact .some hxy
  · rw [if_neg hk, if_neg hk]
    exact h k

theorem Alike.addFirst (h : f.Alike R g) {n : Node} {x y : L} (hxy : R n x y) :
    (f.addFirst n x).Alike R (g.addFirst n y) := by
  obtain ⟨t, u, rfl, rfl, htu⟩ := h
  simp only [Fiber.addFirst, Table.contains]
  obtain ⟨ht, hu⟩ | ⟨a, b, ht, hu, -⟩ := rel_cases (htu n)
  · simp only [ht, hu, Option.isSome_none, Bool.false_eq_true, if_false]
    exact Alike.insert htu hxy
  · simp only [ht, hu, Option.isSome_some, if_true]
    exact ⟨t, u, rfl, rfl, htu⟩

theorem Alike.add [Domain L] (hjoin : ∀ {k a b c d}, R k a b → R k c d → R k (Domain.join a c) (Domain.join b d))
    (h : f.Alike R g) {n : Node} {x y : L} (hxy : R n x y) : (f.add n x).Alike R (g.add n y) := by
  obtain ⟨t, u, rfl, rfl, htu⟩ := h
  simp only [Fiber.add]
  obtain ⟨ht, hu⟩ | ⟨a, b, ht, hu, hab⟩ := rel_cases (htu n)
  · simp only [ht, hu]
    exact Alike.insert htu hxy
  · simp only [ht, hu]
    exact Alike.insert htu (hjoin hab hxy)

theorem Alike.addAllFirst {x y : L} : ∀ (l : List Node) {f g : Fiber L}, f.Alike R g → (∀ k ∈ l, R k x y) →
    (l.foldl (fun f k => f.addFirst k x) f).Alike R (l.foldl (fun f k => f.addFirst k y) g)
  | [], _, _, h, _ => h
  | _ :: l, _, _, h, hl => by
    obtain ⟨hk, hrest⟩ := List.forall_mem_cons.1 hl
    exact addAllFirst l (h.addFirst hk) hrest

theorem Alike.addAll [Domain L] (hjoin : ∀ {k a b c d}, R k a b → R k c d → R k (Domain.join a c) (Domain.join b d))
    {x y : L} : ∀ (l : List Node) {f g : Fiber L}, f.Alike R g → (∀ k ∈ l, R k x y) →
    (l.foldl (fun f k => f.add k x) f).Alike R (l.foldl (fun f k => f.add k y) g)
  | [], _, _, h, _ => h
  | _ :: l, _, _, h, hl => by
    obtain ⟨hk, hrest⟩ := List.forall_mem_cons.1 hl
    exact addAll hjoin l (h.add hjoin hk) hrest

theorem Alike.map {p q : L → L} (h : f.Alike R g) (hS : ∀ {k x y}, R k x y → S k (p x) (q y)) :
    (f.map p).Alike S (g.map q) := by
  obtain ⟨t, u, rfl, rfl, htu⟩ := h
  refine ⟨_, _, rfl, rfl, fun k => ?_⟩
  rw [Table.get?_map, Table.get?_map]
  obtain ⟨ht, hu⟩ | ⟨a, b, ht, hu, hab⟩ := rel_cases (htu k)
  · rw [ht, hu]
    exact .none
  · rw [ht, hu]
    exact .some (hS hab)

theorem Alike.get [Domain L] (h : f.Alike R g) (k : Node) :
    f.get k = Domain.bottom ∧ g.get k = Domain.bottom ∨ R k (f.get k) (g.get k) := by
  obtain ⟨t, u, rfl, rfl, htu⟩ := h
  simp only [Fiber.get]
  obtain ⟨ht, hu⟩ | ⟨a, b, ht, hu, hab⟩ := rel_cases (htu k)
  · exact .inl ⟨by rw [ht]; rfl, by rw [hu]; rfl⟩
  · rw [ht, hu]
    exact .inr hab

theorem Alike.entries (h : f.Alike R f) : ∃ t, f = facts t ∧ ∀ k x, t.get? k = some x → R k x x := by
  obtain ⟨t, u, rfl, hu, htu⟩ := h
  cases hu
  refine ⟨t, rfl, fun k x hx => ?_⟩
  obtain ⟨ht, -⟩ | ⟨a, b, ha, hb, hab⟩ := rel_cases (htu k)
  · rw [hx] at ht
    cases ht
  · rw [hx] at ha hb
    cases ha
    cases hb
    exact hab

end Fiber

namespace Instruction
variable {regs regs' : Registers} {mem mem' : Memory} {ro : ReadOnly} {floor : Floor}

def dest? : Instruction → Option Reg
  | op _ _ dest _ | load _ _ _ dest _ | call _ _ dest _ => some dest
  | builtin _ _ dest _                                  => dest
  | _                                                   => none

theorem after_cases (i : Instruction) (ro : ReadOnly) (floor : Floor) (regs : Registers) (mem : Memory) :
    ∃ mem', i.after ro floor regs mem = .live regs mem' ∨
      ∃ r v, i.dest? = some r ∧ i.after ro floor regs mem = .live (regs.set r v) mem' := by
  cases i with
  | op | load | call => exact ⟨_, .inr ⟨_, _, rfl, rfl⟩⟩
  | builtin b args dest =>
    cases dest with
    | none => exact ⟨_, .inl rfl⟩
    | some r => exact ⟨_, .inr ⟨r, _, rfl, rfl⟩⟩
  | _ => exact ⟨_, .inl rfl⟩

/-- **An instruction adds the state that it leaves to each target in turn.**  A jump table does so once for each. -/
theorem transfer_eq (i : Instruction) (ro : ReadOnly) (floor : Floor) (regs : Registers) (mem : Memory) :
    i.transfer ro floor regs mem =
      if i matches .jumpTable _ _ then
        (i.targets regs).foldl (fun f k => f.addFirst k (i.after ro floor regs mem)) .empty
      else (i.targets regs).foldl (fun f k => f.add k (i.after ro floor regs mem)) .empty := by
  cases i with
  | cond c args ifso ifnot =>
    cases ht : (c.eval (regs.getAll args)).mayBeTrue <;> cases hf : (c.eval (regs.getAll args)).mayBeFalse <;>
      simp [transfer, targets, after, ht, hf]
  | _ => rfl

theorem transfer_alike {R : Node → State → State → Prop} (i : Instruction)
    (hjoin : ∀ {k a b c d}, R k a b → R k c d → R k (a.join c) (b.join d)) (htargets : i.targets regs = i.targets regs')
    (hafter : ∀ k ∈ i.targets regs, R k (i.after ro floor regs mem) (i.after ro floor regs' mem')) :
    (i.transfer ro floor regs mem).Alike R (i.transfer ro floor regs' mem') := by
  rw [transfer_eq, transfer_eq, ← htargets]
  split
  · exact Fiber.Alike.addAllFirst _ (Fiber.alike_empty R) hafter
  · exact Fiber.Alike.addAll hjoin _ (Fiber.alike_empty R) hafter

end Instruction

namespace Function
variable {f : Function} {live : Liveness} {ro : ReadOnly} {s : Settings} {n : Node}

/-- **A node sends entries**, and what holds of the state that its instruction leaves, and what joins and dropping
registers keep, holds of each of them. -/
theorem transfer_entries {Q : Node → State → Prop} {x : State}
    (hjoin : ∀ {k a b}, Q k a → Q k b → Q k (a.join b)) (hdrop : ∀ {k a}, Q k a → Q k (a.without (dropped live s n)))
    (hafter : ∀ i regs mem, f.instruction? n = some i → x = .live regs mem → ∀ k ∈ i.targets regs,
      Q k (i.after ro s.volatileFloor regs mem)) :
    ∃ t, f.transfer live ro s n x = .facts t ∧ ∀ k y, t.get? k = some y → Q k y := by
  have hnothing : ∃ t, (.empty : Fiber State) = .facts t ∧ ∀ k y, t.get? k = some y → Q k y := by
    refine ⟨Table.empty, rfl, fun k y hy => ?_⟩
    rw [Table.get?_empty] at hy
    cases hy
  cases x with
  | unreachable => exact hnothing
  | live regs mem =>
    cases hi : f.instruction? n with
    | none =>
      rw [transfer, hi]
      exact hnothing
    | some i =>
      rw [transfer_live hi]
      let sent := i.transfer ro s.volatileFloor regs mem
      have hsent : sent.Alike (fun k a _ => Q k a) sent := i.transfer_alike hjoin rfl (hafter i regs mem hi rfl)
      exact (hsent.map (S := fun k a _ => Q k a) hdrop).entries

theorem transfer_outgoing {Q : Node → State → Prop} {x : State}
    (h : ∃ t, f.transfer live ro s n x = .facts t ∧ ∀ k y, t.get? k = some y → Q k y) :
    ∀ fact ∈ Solver.outgoing f.graph n (f.transfer live ro s n x), Q fact.1 fact.2 := by
  obtain ⟨t, ht, hall⟩ := h
  intro fact hmem
  rw [ht] at hmem
  exact hall fact.1 fact.2 (Table.mem_entries_iff.1 hmem)

theorem transfer_successor (f : Function) (live : Liveness) (ro : ReadOnly) (s : Settings) (n : Node) (x : State) :
    ∃ t, f.transfer live ro s n x = .facts t ∧ ∀ k y, t.get? k = some y → k ∈ f.graph.successors n := by
  refine transfer_entries (Q := fun k _ => k ∈ f.graph.successors n) (fun h _ => h) id fun i regs mem hi _ k hk => ?_
  exact mem_successors.2 ⟨i, hi, i.targets_subset regs hk⟩

/-- **Facts follow the edges of the graph.** -/
theorem outgoing_successor (x : State) :
    ∀ fact ∈ Solver.outgoing f.graph n (f.transfer live ro s n x), fact.1 ∈ f.graph.successors n :=
  transfer_outgoing (f.transfer_successor live ro s n x)

end Function
end ValueFlow
