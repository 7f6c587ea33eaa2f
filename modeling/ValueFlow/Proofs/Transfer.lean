import ValueFlow.Transfer
import ValueFlow.Proofs.Operation
import ValueFlow.Proofs.State
/-!
# What a node sends

Every instruction makes one state from the one it gets (`Instruction.after`) and sends it to each node control may go to
(`Instruction.targets`).  That said once, a property of everything a node sends is a property of `after`: it keeps
states well formed, and it is monotone where no block is copied and every address that is used may be a pointer.
-/
namespace ValueFlow

namespace Instruction

def after (i : Instruction) (ro : ReadOnly) (floor : Floor) (regs : Registers) (mem : Memory) : State :=
  match i with
  | op o args dest _        => .live (regs.set dest (o.eval (regs.getAll args))) mem
  | load c addr args dest _ => .live (regs.set dest (mem.load ro c (addr.eval (regs.getAll args)).addressClass)) mem
  | store c addr args src _ => .live regs (mem.store c (addr.eval (regs.getAll args)).addressClass (regs.get src))
  | call _ args dest _      =>
    let kind := mem.classifyCall (regs.getAll args)
    .live (regs.set dest kind.result) (mem.afterCall kind)
  | builtin b args dest _   =>
    let (result, mem') := b.eval (args.map (·.eval regs mem ro)) mem ro floor
    .live (match dest with | some r => regs.set r result | none => regs) mem'
  | _                       => .live regs mem

def targets (i : Instruction) (regs : Registers) : List Node :=
  match i with
  | cond c args ifso ifnot =>
    (if (c.eval (regs.getAll args)).mayBeTrue then [ifso] else []) ++
      (if (c.eval (regs.getAll args)).mayBeFalse then [ifnot] else [])
  | i                      => i.successors

end Instruction

/-! ## Every successor gets the same state -/

namespace Fiber
variable {L : Type} {f : Fiber L} {x : L} {l : List Node}

/-- **The fiber sends `x` to the nodes of `l` and nothing to any other.** -/
def Sends (f : Fiber L) (x : L) (l : List Node) : Prop :=
  ∃ t, f = facts t ∧ ∀ k, t.get? k = if k ∈ l then some x else none

theorem sends_empty (x : L) : (empty : Fiber L).Sends x [] := ⟨_, rfl, fun _ => rfl⟩

theorem sends_single (n : Node) (x : L) : (single n x).Sends x [n] := by
  refine ⟨_, rfl, fun k => ?_⟩
  rw [Table.get?_insert]
  simp only [List.mem_singleton, eq_comm (a := k), Table.get?_empty]

theorem Sends.insert {t u : Table Node L} (ht : ∀ k, t.get? k = if k ∈ l then some x else none) {n : Node}
    (hu : ∀ k, u.get? k = if n = k then some x else t.get? k) : (facts u).Sends x (l ++ [n]) := by
  refine ⟨u, rfl, fun k => ?_⟩
  rw [hu, ht]
  by_cases hk : n = k
  · rw [if_pos hk, if_pos (List.mem_append_right l (by rw [hk]; exact List.mem_singleton_self k))]
  · rw [if_neg hk]
    simp only [List.mem_append, List.mem_singleton, Ne.symm hk, or_false]

theorem Sends.addFirst (h : f.Sends x l) (n : Node) : (f.addFirst n x).Sends x (l ++ [n]) := by
  obtain ⟨t, rfl, ht⟩ := h
  refine Sends.insert ht fun k => ?_
  by_cases hn : n ∈ l
  · have hx : t.get? n = some x := (ht n).trans (if_pos hn)
    rw [if_pos (by rw [Table.contains, hx]; rfl)]
    by_cases hk : n = k
    · rw [if_pos hk, ← hk, hx]
    · rw [if_neg hk]
  · have hx : t.get? n = none := (ht n).trans (if_neg hn)
    rw [if_neg (by rw [Table.contains, hx]; exact Bool.false_ne_true), Table.get?_insert]

theorem Sends.addAllFirst : ∀ (targets : List Node) {f : Fiber L} {l : List Node}, f.Sends x l →
    (targets.foldl (fun f n => f.addFirst n x) f).Sends x (l ++ targets)
  | [], _, l, h => (List.append_nil l).symm ▸ h
  | n :: targets, f, l, h => by
    have hrest := addAllFirst targets (h.addFirst n)
    rwa [List.append_assoc] at hrest

theorem Sends.add [Domain L] (h : f.Sends x l) (hx : Domain.join x x = x) (n : Node) : (f.add n x).Sends x (l ++ [n]) := by
  obtain ⟨t, rfl, ht⟩ := h
  refine Sends.insert ht fun k => ?_
  rw [Table.get?_insert, ht n]
  by_cases hn : n ∈ l
  · simp only [if_pos hn, hx]
  · simp only [if_neg hn]

theorem Sends.map (h : f.Sends x l) (g : L → L) : (f.map g).Sends (g x) l := by
  obtain ⟨t, rfl, ht⟩ := h
  refine ⟨_, rfl, fun k => ?_⟩
  rw [Table.get?_map, ht]
  split <;> rfl

theorem Sends.get [Domain L] (h : f.Sends x l) (k : Node) : f.get k = if k ∈ l then x else Domain.bottom := by
  obtain ⟨t, rfl, ht⟩ := h
  rw [Fiber.get, ht]
  split <;> rfl

theorem Sends.outgoing [Domain L] (h : f.Sends x l) (g : Graph) (n : Node) :
    ∀ fact, fact ∈ Solver.outgoing g n f ↔ fact.1 ∈ l ∧ fact.2 = x := by
  obtain ⟨t, rfl, ht⟩ := h
  intro fact
  rw [Solver.outgoing, show fact = (fact.1, fact.2) from rfl, Table.mem_entries_iff, ht]
  split
  · rename_i hl
    simp [hl, eq_comm]
  · rename_i hl
    simp [hl]

end Fiber

theorem Instruction.sends (i : Instruction) (ro : ReadOnly) (floor : Floor) {regs : Registers} {mem : Memory}
    (hr : regs.WellFormed) (hm : mem.WellFormed) :
    (i.transfer ro floor regs mem).Sends (i.after ro floor regs mem) (i.targets regs) := by
  cases i with
  | nop | op | load | store | call | builtin => exact Fiber.sends_single _ _
  | tailCall | ret => exact Fiber.sends_empty _
  | cond c args ifso ifnot =>
    have hidem : Domain.join (State.live regs mem) (.live regs mem) = .live regs mem := State.lattice.idem ⟨hr, hm⟩
    cases ht : (c.eval (regs.getAll args)).mayBeTrue <;> cases hf : (c.eval (regs.getAll args)).mayBeFalse <;>
      simp only [transfer, targets, ht, hf, if_true, Bool.false_eq_true, if_false]
    · exact Fiber.sends_empty _
    · exact (Fiber.sends_empty _).add hidem ifnot
    · exact (Fiber.sends_empty _).add hidem ifso
    · exact ((Fiber.sends_empty _).add hidem ifso).add hidem ifnot
  | jumpTable r ts => exact Fiber.Sends.addAllFirst ts (Fiber.sends_empty _)

/-! ## States stay well formed -/

section
variable {regs regs' : Registers} {mem mem' : Memory} {ro : ReadOnly}

theorem BuiltinArg.canonical_eval (hr : regs.WellFormed) (hm : mem.WellFormed) (hro : ro.WellFormed) (a : BuiltinArg) :
    (a.eval regs mem ro).Canonical := by
  cases a with
  | reg r => exact hr.canonical r
  | loadStack c ofs => exact hm.canonical_load hro c (.stackAt ofs)
  | loadGlobal c s ofs => exact hm.canonical_load hro c (.globalAt s ofs)
  | _ => exact ⟨nofun, nofun⟩

theorem BuiltinArg.canonical_evalAll (hr : regs.WellFormed) (hm : mem.WellFormed) (hro : ro.WellFormed)
    (args : List BuiltinArg) : ∀ v ∈ args.map (·.eval regs mem ro), v.Canonical := by
  intro v hv
  obtain ⟨a, -, rfl⟩ := List.mem_map.1 hv
  exact a.canonical_eval hr hm hro

theorem Builtin.wellFormed_eval {args : List Value} (hargs : ∀ v ∈ args, v.Canonical) (hm : mem.WellFormed)
    (hro : ro.WellFormed) (floor : Floor) (b : Builtin) :
    (b.eval args mem ro floor).1.Canonical ∧ (b.eval args mem ro floor).2.WellFormed := by
  cases b with
  | external => exact ⟨Memory.canonical_result _, hm.afterCall _⟩
  | volatileLoad c =>
    have hfloor := Value.canonical_normalize (Value.canonical_mixed floor.pointer) c
    exact ⟨Value.canonical_join (hm.canonical_load hro c _) hfloor, hm⟩
  | volatileStore c => exact ⟨⟨nofun, nofun⟩, (hm.store c _ (canonical_argument hargs 1)).join hm⟩
  | memcpy size align =>
    refine ⟨⟨nofun, nofun⟩, ?_⟩
    show (if 0 < size then _ else mem : Memory).WellFormed
    split
    · exact hm.copy hro _ _ _
    · exact hm
  | note | noteValue | debug => exact ⟨⟨nofun, nofun⟩, hm⟩

theorem Instruction.wellFormed_after (i : Instruction) (floor : Floor) (hr : regs.WellFormed) (hm : mem.WellFormed)
    (hro : ro.WellFormed) : (i.after ro floor regs mem).WellFormed := by
  cases i with
  | op o args dest => exact ⟨hr.set dest (Operation.canonical_eval (Registers.getAll_canonical hr args) o), hm⟩
  | load c addr args dest => exact ⟨hr.set dest (hm.canonical_load hro c _), hm⟩
  | store c addr args src => exact ⟨hr, hm.store c _ (hr.canonical src)⟩
  | call _ args dest => exact ⟨hr.set dest (Memory.canonical_result _), hm.afterCall _⟩
  | builtin b args dest =>
    obtain ⟨hres, hmem⟩ := b.wellFormed_eval (BuiltinArg.canonical_evalAll hr hm hro args) hm hro floor
    cases dest with
    | none => exact ⟨hr, hmem⟩
    | some r => exact ⟨hr.set r hres, hmem⟩
  | _ => exact ⟨hr, hm⟩

/-! ## Monotone instructions -/

def Instruction.address? (i : Instruction) (ro : ReadOnly) (regs : Registers) (mem : Memory) : Option Value :=
  match i with
  | load _ addr args _ _ | store _ addr args _ _                                  => some (addr.eval (regs.getAll args))
  | builtin (.volatileLoad _) args _ _ | builtin (.volatileStore _) args _ _ =>
    some (argument (args.map (·.eval regs mem ro)) 0)
  | _                                                                             => none

/-- **What monotonicity asks of an instruction**: it copies no block, no tracked global is a read-only one, and an
address it uses may be a pointer. -/
structure Instruction.Regular (i : Instruction) (ro : ReadOnly) (regs : Registers) (mem : Memory) : Prop where
  noCopy : i.copySize? = none
  avoids : mem.Avoids ro
  address : ∀ v ∈ i.address? ro regs mem, v ≠ .bottom ∧ v.provenance ≠ .bottom

instance (i : Instruction) (ro : ReadOnly) (regs : Registers) (mem : Memory) : Decidable (i.Regular ro regs mem) :=
  decidable_of_iff
    (i.copySize? = none ∧ mem.Avoids ro ∧ ∀ v ∈ i.address? ro regs mem, v ≠ .bottom ∧ v.provenance ≠ .bottom)
    ⟨fun ⟨hc, hav, ha⟩ => ⟨hc, hav, ha⟩, fun h => ⟨h.noCopy, h.avoids, h.address⟩⟩

theorem BuiltinArg.eval_mono (hm : mem.WellFormed) (hm' : mem'.WellFormed) (hro : ro.WellFormed)
    (hregs : regs ≤ regs') (hmem : mem ≤ mem') (hav : mem.Avoids ro) (a : BuiltinArg) :
    a.eval regs mem ro ≤ a.eval regs' mem' ro := by
  cases a with
  | reg r => exact Registers.get_mono hregs r
  | loadStack c ofs => exact Memory.load_mono_memory hm hm' hro hmem hav c (.stackAt ofs)
  | loadGlobal c s ofs => exact Memory.load_mono_memory hm hm' hro hmem hav c (.globalAt s ofs)
  | _ => exact Value.le_refl ⟨nofun, nofun⟩

theorem BuiltinArg.argsLe (hr : regs.WellFormed) (hr' : regs'.WellFormed) (hm : mem.WellFormed) (hm' : mem'.WellFormed)
    (hro : ro.WellFormed) (hregs : regs ≤ regs') (hmem : mem ≤ mem') (hav : mem.Avoids ro) (args : List BuiltinArg) :
    ArgsLe (args.map (·.eval regs mem ro)) (args.map (·.eval regs' mem' ro)) where
  canonical := canonical_evalAll hr hm hro args
  canonical' := canonical_evalAll hr' hm' hro args
  le := by
    rw [List.forall₂_map_left_iff, List.forall₂_map_right_iff, List.forall₂_same]
    exact fun a _ => a.eval_mono hm hm' hro hregs hmem hav

theorem Registers.argsLe (hr : regs.WellFormed) (hr' : regs'.WellFormed) (hregs : regs ≤ regs') (l : List Reg) :
    ArgsLe (regs.getAll l) (regs'.getAll l) :=
  ⟨getAll_canonical hr l, getAll_canonical hr' l, getAll_mono hregs l⟩

theorem Value.addressClass_mono {v w : Value} (hv : v.provenance ≠ .bottom) (h : v ≤ w) :
    v.addressClass ≤ w.addressClass ∧ v.addressClass ≠ .bottom := by
  have hle := provenance_mono h
  have hw : w.provenance ≠ .bottom := fun hw => hv (Pointer.le_bottom.1 (hw ▸ hle))
  rw [addressClass_eq hv, addressClass_eq hw]
  exact ⟨hle, hv⟩

theorem Builtin.eval_mono {args args' : List Value} (hargs : ArgsLe args args') (hm : mem.WellFormed)
    (hm' : mem'.WellFormed) (hro : ro.WellFormed) (hmem : mem ≤ mem') (hav : mem.Avoids ro) (floor : Floor) (b : Builtin)
    (hcopy : ∀ size align, b ≠ .memcpy size align)
    (haddr : ∀ c, b = .volatileLoad c ∨ b = .volatileStore c → (argument args 0).provenance ≠ .bottom) :
    (b.eval args mem ro floor).1 ≤ (b.eval args' mem' ro floor).1 ∧
      (b.eval args mem ro floor).2 ≤ (b.eval args' mem' ro floor).2 := by
  obtain ⟨hc₁, hc₁', hle₁⟩ := hargs.argument 1
  have htop : Value.top ≤ Value.top := rfl
  cases b with
  | external =>
    have hk : mem'.classifyCall args' = .confined → mem.classifyCall args = .confined :=
      Memory.classifyCall_anti hmem hargs.le
    exact ⟨Memory.result_mono hk, Memory.afterCall_mono hmem hk⟩
  | volatileLoad c =>
    obtain ⟨hpq, -⟩ := Value.addressClass_mono (haddr c (.inl rfl)) (hargs.argument 0).2.2
    have hfloor := Value.canonical_normalize (Value.canonical_mixed floor.pointer) c
    exact ⟨Value.lattice.join_mono (hm.canonical_load hro c _) hfloor (hm'.canonical_load hro c _) hfloor
      (Memory.load_mono hm hm' hro hmem hav c hpq) (Value.le_refl hfloor), hmem⟩
  | volatileStore c =>
    obtain ⟨hpq, hp⟩ := Value.addressClass_mono (haddr c (.inr rfl)) (hargs.argument 0).2.2
    exact ⟨htop, Memory.lattice.join_mono (hm.store c _ hc₁) hm (hm'.store c _ hc₁') hm'
      (Memory.store_mono hm hm' hmem c hp hpq hc₁ hc₁' hle₁) hmem⟩
  | memcpy size align => exact absurd rfl (hcopy size align)
  | note | noteValue | debug => exact ⟨htop, hmem⟩

/-- **A regular instruction is monotone.** -/
theorem Instruction.after_mono (i : Instruction) (floor : Floor) (hr : regs.WellFormed) (hr' : regs'.WellFormed)
    (hm : mem.WellFormed) (hm' : mem'.WellFormed) (hro : ro.WellFormed) (hregs : regs ≤ regs') (hmem : mem ≤ mem')
    (h : i.Regular ro regs mem) : i.after ro floor regs mem ≤ i.after ro floor regs' mem' := by
  cases i with
  | op o args dest =>
    have hargs := Registers.argsLe hr hr' hregs args
    have hset := Registers.set_mono hr' hregs dest (Operation.canonical_eval hargs.canonical' o) (hargs.operation o)
    exact State.live_le.2 ⟨_, _, rfl, hset, hmem⟩
  | load c addr args dest =>
    have hargs := Registers.argsLe hr hr' hregs args
    obtain ⟨hpq, -⟩ := Value.addressClass_mono (h.address _ rfl).2 (hargs.addressing addr)
    have hload := Memory.load_mono hm hm' hro hmem h.avoids c hpq
    exact State.live_le.2 ⟨_, _, rfl, Registers.set_mono hr' hregs dest (hm'.canonical_load hro c _) hload, hmem⟩
  | store c addr args src =>
    have hargs := Registers.argsLe hr hr' hregs args
    obtain ⟨hpq, hp⟩ := Value.addressClass_mono (h.address _ rfl).2 (hargs.addressing addr)
    have hstore := Memory.store_mono hm hm' hmem c hp hpq (hr.canonical src) (hr'.canonical src)
      (Registers.get_mono hregs src)
    exact State.live_le.2 ⟨_, _, rfl, hregs, hstore⟩
  | call _ args dest =>
    have hk := Memory.classifyCall_anti hmem (Registers.getAll_mono hregs args)
    have hset := Registers.set_mono hr' hregs dest (Memory.canonical_result _) (Memory.result_mono hk)
    exact State.live_le.2 ⟨_, _, rfl, hset, Memory.afterCall_mono hmem hk⟩
  | builtin b args dest =>
    have hargs := BuiltinArg.argsLe hr hr' hm hm' hro hregs hmem h.avoids args
    have hcopy : ∀ size align, b ≠ .memcpy size align := fun size align hb => by
      have := h.noCopy
      rw [hb] at this
      cases this
    have haddr : ∀ c, b = .volatileLoad c ∨ b = .volatileStore c →
        (argument (args.map (·.eval regs mem ro)) 0).provenance ≠ .bottom := by
      rintro c (rfl | rfl) <;> exact (h.address _ rfl).2
    obtain ⟨hres, hmem₁⟩ := b.eval_mono hargs hm hm' hro hmem h.avoids floor hcopy haddr
    have hcan := (b.wellFormed_eval hargs.canonical' hm' hro floor).1
    cases dest with
    | none => exact State.live_le.2 ⟨_, _, rfl, hregs, hmem₁⟩
    | some r => exact State.live_le.2 ⟨_, _, rfl, Registers.set_mono hr' hregs r hcan hres, hmem₁⟩
  | _ => exact State.live_le.2 ⟨_, _, rfl, hregs, hmem⟩

theorem Instruction.targets_subset (i : Instruction) (regs : Registers) : i.targets regs ⊆ i.successors := by
  cases i with
  | cond c args ifso ifnot =>
    intro k hk
    simp only [targets, List.mem_append, List.mem_ite_nil_right, List.mem_singleton] at hk
    rcases hk with ⟨-, rfl⟩ | ⟨-, rfl⟩ <;> simp [successors]
  | _ => exact fun _ h => h

theorem Instruction.targets_mono (i : Instruction) (hr : regs.WellFormed) (hr' : regs'.WellFormed)
    (hregs : regs ≤ regs') : i.targets regs ⊆ i.targets regs' := by
  cases i with
  | cond c args ifso ifnot =>
    have hc := (Registers.argsLe hr hr' hregs args).condition c
    intro k hk
    simp only [targets, List.mem_append, List.mem_ite_nil_right, List.mem_singleton] at hk ⊢
    exact hk.imp (fun h => ⟨Verdict.mayBeTrue_mono hc h.1, h.2⟩) (fun h => ⟨Verdict.mayBeFalse_mono hc h.1, h.2⟩)
  | _ => exact fun _ h => h

end

/-! ## The transfer function -/

namespace Function

def dropped (live : Liveness) (s : Settings) (n : Node) : List Reg := if s.livenessTrim then live n else []

theorem without_nil (x : State) : x.without [] = x := by cases x <;> rfl

theorem map_without_nil (f : Fiber State) : f.map (·.without []) = f := by
  cases f with
  | top => rfl
  | facts t =>
    refine congrArg Fiber.facts (Table.ext_get? fun k => ?_)
    rw [Table.get?_map]
    simp only [without_nil, Option.map_id']

/-- **A node sends what its instruction sends, without the dropped registers.** -/
theorem transfer_live {f : Function} {n : Node} {i : Instruction} (hi : f.instruction? n = some i) (live : Liveness) (ro : ReadOnly)
    (s : Settings) (regs : Registers) (mem : Memory) :
    f.transfer live ro s n (.live regs mem) =
      (i.transfer ro s.volatileFloor regs mem).map (·.without (dropped live s n)) := by
  rw [transfer, hi, dropped]
  simp only
  by_cases hs : s.livenessTrim = true
  · cases hl : live n with
    | nil => simp [hs, map_without_nil]
    | cons r l => simp [hs]
  · simp [hs, map_without_nil]

/-- **A node that is not reached or has no instruction sends nothing; any other sends the state its instruction leaves,
without the dropped registers, to the nodes control may go to.** -/
theorem transfer_cases (f : Function) (live : Liveness) (ro : ReadOnly) (s : Settings) (n : Node) {x : State}
    (hx : x.WellFormed) : (x = .unreachable ∨ f.instruction? n = none) ∧ f.transfer live ro s n x = .empty ∨
      ∃ i regs mem, f.instruction? n = some i ∧ x = .live regs mem ∧
        (f.transfer live ro s n x).Sends ((i.after ro s.volatileFloor regs mem).without (dropped live s n))
          (i.targets regs) := by
  cases x with
  | unreachable => exact .inl ⟨.inl rfl, rfl⟩
  | live regs mem =>
    cases hi : f.instruction? n with
    | none =>
      refine .inl ⟨.inr rfl, ?_⟩
      rw [transfer, hi]
    | some i =>
      refine .inr ⟨i, regs, mem, rfl, rfl, ?_⟩
      rw [transfer_live hi]
      exact (i.sends ro s.volatileFloor hx.1 hx.2).map _

variable {f : Function} {live : Liveness} {ro : ReadOnly} {s : Settings} {n : Node}

theorem wellFormed_transfer (hro : ro.WellFormed) {x : State} (hx : x.WellFormed) (k : Node) :
    ((f.transfer live ro s n x).get k).WellFormed := by
  rcases f.transfer_cases live ro s n hx with ⟨-, h⟩ | ⟨i, regs, mem, -, rfl, hsends⟩
  · rw [h]
    trivial
  · rw [hsends.get]
    split
    · exact (i.wellFormed_after s.volatileFloor hx.1 hx.2 hro).without _
    · trivial

theorem wellFormed_outgoing (hro : ro.WellFormed) {x : State} (hx : x.WellFormed) :
    ∀ fact ∈ Solver.outgoing f.graph n (f.transfer live ro s n x), fact.2.WellFormed := by
  intro fact hmem
  rcases f.transfer_cases live ro s n hx with ⟨-, h⟩ | ⟨i, regs, mem, -, rfl, hsends⟩
  · rw [h] at hmem
    cases hmem
  · rw [((hsends.outgoing f.graph n fact).1 hmem).2]
    exact (i.wellFormed_after s.volatileFloor hx.1 hx.2 hro).without _

theorem mem_successors {k : Node} :
    k ∈ f.graph.successors n ↔ ∃ i, f.instruction? n = some i ∧ k ∈ i.successors := by
  show k ∈ ((f.instruction? n).map Instruction.successors).getD [] ↔ _
  cases f.instruction? n with
  | none => simp
  | some i => simp

theorem get_mem_outgoing (f : Function) (live : Liveness) (ro : ReadOnly) (s : Settings) (n : Node) {x : State}
    (hx : x.WellFormed) (k : Node) :
    (f.transfer live ro s n x).get k = .unreachable ∨
      (k, (f.transfer live ro s n x).get k) ∈ Solver.outgoing f.graph n (f.transfer live ro s n x) := by
  rcases f.transfer_cases live ro s n hx with ⟨-, h⟩ | ⟨i, regs, mem, -, rfl, hsends⟩
  · rw [h]
    exact .inl rfl
  · rw [hsends.outgoing, hsends.get]
    split
    · rename_i hk
      exact .inr ⟨hk, rfl⟩
    · exact .inl rfl

/-- The instruction at a node is regular in a state that reaches it. -/
def RegularAt (f : Function) (ro : ReadOnly) (n : Node) (x : State) : Prop :=
  ∀ i ∈ f.instruction? n, ∀ regs ∈ x.regs?, ∀ mem ∈ x.mem?, i.Regular ro regs mem

instance (f : Function) (ro : ReadOnly) (n : Node) (x : State) : Decidable (f.RegularAt ro n x) :=
  inferInstanceAs (Decidable (∀ i ∈ f.instruction? n, ∀ regs ∈ x.regs?, ∀ mem ∈ x.mem?, i.Regular ro regs mem))

theorem transfer_cases_le (f : Function) (live : Liveness) (ro : ReadOnly) (s : Settings) (n : Node) {x y : State}
    (hx : x.WellFormed) (hy : y.WellFormed) (hxy : x ≤ y) : f.transfer live ro s n x = .empty ∨
      ∃ i regs mem regs' mem', f.instruction? n = some i ∧ x = .live regs mem ∧ y = .live regs' mem' ∧
        regs ≤ regs' ∧ mem ≤ mem' ∧
        (f.transfer live ro s n x).Sends ((i.after ro s.volatileFloor regs mem).without (dropped live s n))
          (i.targets regs) ∧
        (f.transfer live ro s n y).Sends ((i.after ro s.volatileFloor regs' mem').without (dropped live s n))
          (i.targets regs') := by
  rcases f.transfer_cases live ro s n hx with ⟨-, h⟩ | ⟨i, regs, mem, hi, rfl, hsends⟩
  · exact .inl h
  obtain ⟨regs', mem', rfl, hregs, hmem⟩ := State.live_le.1 hxy
  rcases f.transfer_cases live ro s n hy with ⟨hnone | hnone, -⟩ | ⟨j, regs₁, mem₁, hj, heq, hsends'⟩
  · cases hnone
  · cases hi.symm.trans hnone
  cases heq
  obtain rfl : i = j := Option.some_inj.1 (hi.symm.trans hj)
  exact .inr ⟨i, regs, mem, regs', mem', hi, rfl, rfl, hregs, hmem, hsends, hsends'⟩

/-- **From a larger state a regular node sends more to each successor.** -/
theorem transfer_mono (live : Liveness) (s : Settings) (hro : ro.WellFormed) {x y : State} (hx : x.WellFormed)
    (hy : y.WellFormed) (hxy : x ≤ y) (hreg : f.RegularAt ro n x) (k : Node) :
    (f.transfer live ro s n x).get k ≤ (f.transfer live ro s n y).get k := by
  rcases f.transfer_cases_le live ro s n hx hy hxy with
    h | ⟨i, regs, mem, regs', mem', hi, rfl, rfl, hregs, hmem, hsends, hsends'⟩
  · rw [h]
    exact State.unreachable_le _
  rw [hsends.get, hsends'.get]
  by_cases hk : k ∈ i.targets regs
  · rw [if_pos hk, if_pos (i.targets_mono hx.1 hy.1 hregs hk)]
    have hafter := i.after_mono s.volatileFloor hx.1 hy.1 hx.2 hy.2 hro hregs hmem (hreg i hi regs rfl mem rfl)
    exact State.without_mono (i.wellFormed_after _ hy.1 hy.2 hro) hafter _
  · rw [if_neg hk]
    exact State.unreachable_le _

end Function

/-! ## States that come about -/

/-- **The states that come about** from a function's entry, or where nothing is known, by what nodes send and by
joins. -/
inductive State.Arises (ro : ReadOnly) : State → Prop where
  | unreachable : Arises ro unreachable
  | top : Arises ro top
  | entry (params : List Reg) : Arises ro (entry params)
  | sent {x : State} (f : Function) (live : Liveness) (s : Settings) (n k : Node) :
    Arises ro x → Arises ro ((f.transfer live ro s n x).get k)
  | join {x y : State} : Arises ro x → Arises ro y → Arises ro (x.join y)

theorem State.Arises.wellFormed {ro : ReadOnly} (hro : ro.WellFormed) {x : State} (h : x.Arises ro) : x.WellFormed := by
  induction h with
  | unreachable => trivial
  | top => exact wellFormed_top
  | entry params => exact wellFormed_entry params
  | sent f live s n k _ ih => exact Function.wellFormed_transfer hro ih k
  | join _ _ ihx ihy => exact ihx.join ihy

namespace Function

/-- **The transfer function is monotone at regular nodes**, on well-formed states and so on all that come about. -/
theorem transfer_covers {floats : Bool} {globals : List Global} {ro : ReadOnly}
    (hro : ReadOnly.ofGlobals floats globals = .ok ro) :
    (∀ x : State, x.Arises ro → x.WellFormed) ∧
      ∀ (f : Function) (live : Liveness) (s : Settings) (n : Node) (x y : State), x.WellFormed → y.WellFormed →
        Domain.le x y = true → f.RegularAt ro n x → ∀ k,
          Domain.le ((f.transfer live ro s n x).get k) ((f.transfer live ro s n y).get k) = true := by
  have hro := ReadOnly.wellFormed_ofGlobals hro
  refine ⟨fun x hx => hx.wellFormed hro, fun f live s n x y hx hy hxy hreg k => ?_⟩
  exact State.le_eq_true.2 (transfer_mono live s hro hx hy (State.le_eq_true.1 hxy) hreg k)

/-- A store at a known offset of the frame, and the same store where the address may be anything. -/
theorem transfer_covers_weakStore :
    let table : Global := ⟨⟨1⟩, "table", true, false, [.int32 5, .addrOf ⟨2⟩ 16]⟩
    let ro : ReadOnly := Table.empty.insert ⟨1⟩ (table.contents true)
    let f : Function := ⟨"f", 0, [⟨0⟩], #[some (.store .int64 (.indexed 8) [⟨1⟩] ⟨0⟩ 1), none]⟩
    let mem := Memory.entry.store .int32 (.globalAt ⟨7⟩ 0) (.int 3)
    let x := State.live ((Registers.entry [⟨0⟩]).set ⟨1⟩ (.ptr (.stackAt 0))) mem
    let y := State.live ((Registers.entry [⟨0⟩]).set ⟨1⟩ .top) mem
    ReadOnly.ofGlobals true [table] = .ok ro ∧ (x.WellFormed ∧ y.WellFormed ∧ Domain.le x y = true) ∧
      f.RegularAt ro 0 x ∧
      ((f.transfer .unknown ro .standard 0 x).get 1).mem?.map (·.frame.load .int64 8) = some (.numOrPtr .nonStack) ∧
      ((f.transfer .unknown ro .standard 0 y).get 1).mem?.map (·.outside) = some .top ∧
      Domain.le ((f.transfer .unknown ro .standard 0 x).get 1) ((f.transfer .unknown ro .standard 0 y).get 1) = true := by
  intro table ro f mem x y
  have hro : ReadOnly.ofGlobals true [table] = .ok ro := rfl
  have hmem : mem.WellFormed := Memory.wellFormed_entry.store _ _ (by decide)
  have hx : x.WellFormed := ⟨(Registers.wellFormed_entry _).set _ (by decide), hmem⟩
  have hy : y.WellFormed := ⟨(Registers.wellFormed_entry _).set _ (by decide), hmem⟩
  have hxy : Domain.le x y = true := by decide
  have hreg : f.RegularAt ro 0 x := by decide
  exact ⟨hro, ⟨hx, hy, hxy⟩, hreg, by decide, by decide,
    (transfer_covers hro).2 f .unknown .standard 0 x y hx hy hxy hreg 1⟩

end Function
end ValueFlow
