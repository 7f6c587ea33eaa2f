import ValueFlow.Proofs.Analysis
/-!
# Dropping dead registers cannot be observed

Two runs take the same path, one drops the registers that are dead after each node and the other keeps them.  Between
two nodes they agree on reachability, on the memory and on every register that some path reads before it writes it
(`State.Agree`).  An instruction reads such registers only, so both runs leave the same memory, go to the same nodes and
write the same value; and what is dropped after a node no path from its successors reads first.
-/
namespace ValueFlow

/-! ## What an instruction reads -/

def BuiltinArg.reg? : BuiltinArg → Option Reg
  | reg r => some r
  | _     => none

/-- The registers on which the effect of an instruction depends.  What a jump table, a return or a tail call is given
has no effect here. -/
def Instruction.operands : Instruction → List Reg
  | op _ args _ _ | load _ _ args _ _ | call _ args _ _ | cond _ args _ _ => args
  | store _ _ args src _                                                  => src :: args
  | builtin _ args _ _                                                    => args.filterMap BuiltinArg.reg?
  | _                                                                     => []

namespace Function

/-- **Some path from a node reads `r` before it writes it.** -/
inductive ReadFirst (f : Function) (r : Reg) : Node → Prop where
  | here {n : Node} {i : Instruction} (at_ : f.instruction? n = some i) (read : r ∈ i.operands) : ReadFirst f r n
  | later {n k : Node} {i : Instruction} (at_ : f.instruction? n = some i) (edge : k ∈ i.successors)
    (kept : i.dest? ≠ some r) (path : ReadFirst f r k) : ReadFirst f r n

theorem not_readFirst {f : Function} {r : Reg} {nodes : List Node}
    (h : ∀ n ∈ nodes, ∀ i ∈ f.instruction? n, r ∉ i.operands ∧ (i.dest? = some r ∨ ∀ k ∈ i.successors, k ∈ nodes))
    {n : Node} (hn : n ∈ nodes) : ¬ f.ReadFirst r n := by
  intro hread
  induction hread with
  | here at_ read => exact (h _ hn _ at_).1 read
  | later at_ edge kept _ ih =>
    rcases (h _ hn _ at_).2 with hwrites | hclosed
    · exact kept hwrites
    · exact ih (hclosed _ edge)

/-- **What is reported dead after a node no path that leaves the node reads before it writes it.** -/
def SoundLiveness (f : Function) (dead : Liveness) : Prop :=
  ∀ n i, f.instruction? n = some i → ∀ k ∈ i.successors, ∀ r ∈ dead n, ¬ f.ReadFirst r k

/-- The state that a list of nodes leads to: each hands on what it sends to the next. -/
def follow (f : Function) (live : Liveness) (ro : ReadOnly) (s : Settings) (n : Node) (x : State) : List Node → State
  | []        => x
  | k :: path => f.follow live ro s k ((f.transfer live ro s n x).get k) path

end Function

/-! ## States that agree -/

/-- **Both are not reached, or both are with one memory and the same values of the registers of `P`.** -/
inductive State.Agree (P : Reg → Prop) : State → State → Prop where
  | unreachable : Agree P .unreachable .unreachable
  | live {regs regs' : Registers} {mem : Memory} (same : ∀ r, P r → regs.get r = regs'.get r) :
    Agree P (.live regs mem) (.live regs' mem)

namespace State
variable {P : Reg → Prop} {x y : State}

theorem Agree.refl (P : Reg → Prop) (x : State) : Agree P x x := by
  cases x with
  | unreachable => exact .unreachable
  | live regs mem => exact .live fun _ _ => rfl

theorem Agree.join {x' y' : State} (h : Agree P x y) (h' : Agree P x' y') : Agree P (x.join x') (y.join y') := by
  cases h with
  | unreachable => exact h'
  | live same =>
    cases h' with
    | unreachable => exact .live same
    | live same' =>
      refine .live fun r hr => ?_
      rw [Registers.get_join, Registers.get_join, same r hr, same' r hr]

theorem Agree.without (h : Agree P x y) {dead dead' : List Reg} (hdead : ∀ r ∈ dead, ¬ P r)
    (hdead' : ∀ r ∈ dead', ¬ P r) : Agree P (x.without dead) (y.without dead') := by
  cases h with
  | unreachable => exact .unreachable
  | live same =>
    refine .live fun r hr => ?_
    have hkept : r ∉ dead := fun hmem => hdead r hmem hr
    have hkept' : r ∉ dead' := fun hmem => hdead' r hmem hr
    rw [Registers.get_kill, Registers.get_kill, if_neg hkept, if_neg hkept']
    exact same r hr

theorem Agree.isReachable_eq (h : Agree P x y) : x.isReachable = y.isReachable := by
  cases h with
  | unreachable => rfl
  | live same => rfl

theorem Agree.mem?_eq (h : Agree P x y) : x.mem? = y.mem? := by
  cases h with
  | unreachable => rfl
  | live same => rfl

theorem Agree.get_eq (h : Agree P x y) {r : Reg} (hr : P r) : x.regs?.map (·.get r) = y.regs?.map (·.get r) := by
  cases h with
  | unreachable => rfl
  | live same => exact congrArg some (same r hr)

end State

/-! ## One instruction -/

section
variable {regs regs' : Registers}

theorem Registers.getAll_congr {l : List Reg} (h : ∀ r ∈ l, regs.get r = regs'.get r) : regs.getAll l = regs'.getAll l :=
  List.map_congr_left h

theorem BuiltinArg.evalAll_congr {args : List BuiltinArg} (h : ∀ r ∈ args.filterMap reg?, regs.get r = regs'.get r)
    (mem : Memory) (ro : ReadOnly) : args.map (·.eval regs mem ro) = args.map (·.eval regs' mem ro) := by
  refine List.map_congr_left fun a ha => ?_
  cases a with
  | reg r => exact h r (List.mem_filterMap.2 ⟨.reg r, ha, rfl⟩)
  | _ => rfl

theorem Registers.set_agree {P : Reg → Prop} {dest : Reg} (same : ∀ r, P r → some dest ≠ some r → regs.get r = regs'.get r)
    (v : Value) (r : Reg) (hr : P r) : (regs.set dest v).get r = (regs'.set dest v).get r := by
  rw [get_set, get_set]
  by_cases hd : dest = r
  · rw [if_pos hd, if_pos hd]
  · rw [if_neg hd, if_neg hd]
    exact same r hr fun h => hd (Option.some_inj.1 h)

namespace Instruction

theorem targets_congr (i : Instruction) (h : ∀ r ∈ i.operands, regs.get r = regs'.get r) :
    i.targets regs = i.targets regs' := by
  cases i with
  | cond c args ifso ifnot =>
    have hargs : regs.getAll args = regs'.getAll args := Registers.getAll_congr h
    simp only [targets, hargs]
  | _ => rfl

/-- **From files that agree on its operands an instruction leaves one memory, and the same value wherever it writes.** -/
theorem after_agree {P : Reg → Prop} (i : Instruction) (h : ∀ r ∈ i.operands, regs.get r = regs'.get r)
    (same : ∀ r, P r → i.dest? ≠ some r → regs.get r = regs'.get r) (ro : ReadOnly) (floor : Floor) (mem : Memory) :
    State.Agree P (i.after ro floor regs mem) (i.after ro floor regs' mem) := by
  cases i with
  | op o args dest =>
    have hargs : regs.getAll args = regs'.getAll args := Registers.getAll_congr h
    simp only [after, hargs]
    exact .live (Registers.set_agree same _)
  | load c addr args dest =>
    have hargs : regs.getAll args = regs'.getAll args := Registers.getAll_congr h
    simp only [after, hargs]
    exact .live (Registers.set_agree same _)
  | store c addr args src =>
    obtain ⟨hsrc, hrest⟩ := List.forall_mem_cons.1 h
    have hargs : regs.getAll args = regs'.getAll args := Registers.getAll_congr hrest
    simp only [after, hargs, hsrc]
    exact .live fun r hr => same r hr (Option.some_ne_none r).symm
  | call callee args dest =>
    have hargs : regs.getAll args = regs'.getAll args := Registers.getAll_congr h
    simp only [after, hargs]
    exact .live (Registers.set_agree same _)
  | builtin b args dest =>
    have hargs := BuiltinArg.evalAll_congr h mem ro
    simp only [after, hargs]
    cases dest with
    | none => exact .live fun r hr => same r hr (Option.some_ne_none r).symm
    | some d => exact .live (Registers.set_agree same _)
  | _ => exact .live fun r hr => same r hr (Option.some_ne_none r).symm

end Instruction
end

/-! ## Whole paths -/

namespace Function
variable {f : Function} {dead : Liveness}

/-- **One node keeps two runs in agreement** if neither drops a register that is read first later. -/
theorem transfer_agree (hdead : f.SoundLiveness dead)
    (ro : ReadOnly) {s s' : Settings} (hfloor : s.volatileFloor = s'.volatileFloor) {n : Node} {x y : State}
    (h : State.Agree (f.ReadFirst · n) x y) (k : Node) :
    State.Agree (f.ReadFirst · k) ((f.transfer dead ro s n x).get k) ((f.transfer dead ro s' n y).get k) := by
  cases h with
  | unreachable => exact .unreachable
  | @live regs regs' mem same =>
    cases hi : f.instruction? n with
    | none =>
      simp only [transfer, hi]
      exact .unreachable
    | some i =>
      have hoperands : ∀ r ∈ i.operands, regs.get r = regs'.get r := fun r hr => same r (.here hi hr)
      -- `k` is kept with the states: only along an edge is what is read first at `k` known at `n`
      have hsent : (i.transfer ro s.volatileFloor regs mem).Alike
          (fun k x y => k ∈ i.successors ∧ State.Agree (f.ReadFirst · k) x y)
          (i.transfer ro s.volatileFloor regs' mem) := by
        refine i.transfer_alike (fun h h' => ⟨h.1, h.2.join h'.2⟩) (i.targets_congr hoperands) fun k hk => ?_
        have hedge := i.targets_subset regs hk
        exact ⟨hedge, i.after_agree hoperands (fun r hr hkept => same r (.later hi hedge hkept hr)) ro _ mem⟩
      have hdropped : ∀ (s : Settings) (k : Node), k ∈ i.successors → ∀ r ∈ dropped dead s n, ¬ f.ReadFirst r k := by
        intro s k hk r hr
        unfold dropped at hr
        split at hr
        · exact hdead n i hi k hk r hr
        · cases hr
      rw [transfer_live hi, transfer_live hi, ← hfloor]
      have htrimmed := hsent.map (S := fun k x y => State.Agree (f.ReadFirst · k) x y) fun h =>
        h.2.without (hdropped s _ h.1) (hdropped s' _ h.1)
      rcases htrimmed.get k with ⟨hx, hy⟩ | hagree
      · rw [hx, hy]
        exact .unreachable
      · exact hagree

theorem follow_agree (hdead : f.SoundLiveness dead)
    (ro : ReadOnly) {s s' : Settings} (hfloor : s.volatileFloor = s'.volatileFloor) :
    ∀ (path : List Node) {n : Node} {x y : State}, State.Agree (f.ReadFirst · n) x y →
      State.Agree (f.ReadFirst · (path.getLastD n)) (f.follow dead ro s n x path) (f.follow dead ro s' n y path)
  | [], _, _, _, h => h
  | k :: path, n, x, y, h => by
    have hrest := follow_agree hdead ro hfloor path (transfer_agree hdead ro hfloor h k)
    rwa [List.getLastD_cons]

/-- **Dropping dead registers cannot be observed.**  Along every path, and from any state, the run that drops them and
the run that keeps them are reached alike and have the same memory and the same registers, as far as these are read
again. -/
theorem follow_trimmed (hdead : f.SoundLiveness dead)
    (ro : ReadOnly) (s : Settings) (n : Node) (x : State) (path : List Node) :
    let trimmed := f.follow dead ro { s with livenessTrim := true } n x path
    let kept := f.follow dead ro { s with livenessTrim := false } n x path
    trimmed.isReachable = kept.isReachable ∧ trimmed.mem? = kept.mem? ∧
      ∀ r, f.ReadFirst r (path.getLastD n) → trimmed.regs?.map (·.get r) = kept.regs?.map (·.get r) := by
  intro trimmed kept
  have hfloor : ({ s with livenessTrim := true } : Settings).volatileFloor =
      ({ s with livenessTrim := false } : Settings).volatileFloor := rfl
  have hagree : State.Agree (f.ReadFirst · (path.getLastD n)) trimmed kept :=
    follow_agree hdead ro hfloor path (.refl _ x)
  exact ⟨hagree.isReachable_eq, hagree.mem?_eq, fun r hr => hagree.get_eq hr⟩

/-- In the loop of `sweep` the loaded value is dead after the branch: the next round overwrites it before its only use. -/
def sweepDead : Liveness := .ofEntries [(4, [⟨2⟩])]

theorem soundLiveness_sweepDead : sweep.SoundLiveness sweepDead := by
  intro n i hi k hk r hr
  have hn : n = 4 := by
    by_contra hne
    simp [sweepDead, Liveness.ofEntries, Ne.symm hne] at hr
  subst hn
  obtain rfl : r = ⟨2⟩ := by simpa [sweepDead, Liveness.ofEntries] using hr
  obtain rfl := Option.some_inj.1 hi
  -- nodes 1, 5 and 6 do not read it and lead to one another or to 2, which writes it
  have hnot : ∀ k ∈ [1, 2, 5, 6], ¬ sweep.ReadFirst ⟨2⟩ k := fun k => not_readFirst (by decide)
  refine hnot k ?_
  revert k
  decide

/-- Once round the loop of `sweep`: the loaded value is forgotten in one run and known in the other. -/
theorem follow_trimmed_sweep : sweep.SoundLiveness sweepDead ∧
    let trimmed := sweep.follow sweepDead sampleReadOnly { Settings.standard with livenessTrim := true } 0
      (.entry sweep.params) [1, 2, 3, 4, 1]
    let kept := sweep.follow sweepDead sampleReadOnly { Settings.standard with livenessTrim := false } 0
      (.entry sweep.params) [1, 2, 3, 4, 1]
    trimmed.regs?.map (·.get ⟨2⟩) = some .bottom ∧ kept.regs?.map (·.get ⟨2⟩) = some (.numOrPtr .nonStack) ∧
      sweep.ReadFirst ⟨1⟩ 1 ∧ trimmed.regs?.map (·.get ⟨1⟩) = some (.ptr (.stackAt 16)) ∧
      trimmed.isReachable = kept.isReachable ∧ trimmed.mem? = kept.mem? ∧
      ∀ r, sweep.ReadFirst r 1 → trimmed.regs?.map (·.get r) = kept.regs?.map (·.get r) :=
  ⟨soundLiveness_sweepDead, by decide +kernel, by decide +kernel, .here rfl (by decide), by decide +kernel,
    follow_trimmed soundLiveness_sweepDead sampleReadOnly .standard 0 (.entry sweep.params) [1, 2, 3, 4, 1]⟩

end Function
end ValueFlow
