import ValueFlow.Proofs.Transfer
/-!
# A frame that escaped stays escaped

The class `outside` says what a byte outside the frame may point to, and with it whether a callee can reach the frame.
A call into a confined callee resets it.  It never shrinks all the same: such a call is made only where `outside` has
nothing of the frame, and the reset keeps everything else.  It starts at `nonStack`, and above that there is only `top`;
so the first pointer into the frame that is written outside raises it to `top`, for good.
-/
namespace ValueFlow

/-- Some address of the class may lie outside the frame. -/
def Pointer.leavesFrame : Pointer → Bool
  | bottom | stackAt _ | anyStack => false
  | _                             => true

theorem Pointer.join_eq_top {p q : Pointer} (hp : nonStack ≤ p) (hq : ¬ q ≤ nonStack) : p.join q = top := by
  rcases nonStack_le.1 (le_trans hp (le_join_left p q)) with h | h
  · exact absurd (h ▸ le_join_right p q) hq
  · exact h

namespace Memory

/-! ## What can happen to a memory -/

/-- **The steps of a memory**: what instructions do to it, and the join with the memory of another path. -/
inductive Action where
  | store (c : Chunk) (addr : Pointer) (v : Value)
  | volatileStore (c : Chunk) (addr : Pointer) (v : Value)
  | copy (ro : ReadOnly) (dst src : Pointer) (size : Int)
  | join (other : Memory)
  /-- a call, or a builtin of which nothing is known -/
  | call (args : List Value)

def perform (m : Memory) : Action → Memory
  | .store c addr v         => m.store c addr v
  | .volatileStore c addr v => (m.store c addr v).join m
  | .copy ro dst src size   => m.copy ro dst src size
  | .join other             => m.join other
  | .call args              => m.afterCall (m.classifyCall args)

def run (m : Memory) (actions : List Action) : Memory := actions.foldl perform m

/-- **The action may let a pointer into the frame out of it.** -/
def publishes (m : Memory) : Action → Bool
  | .store _ addr v | .volatileStore _ addr v => addr.leavesFrame && !v.provenance.excludesStack
  | .copy ro dst src _                        => dst.leavesFrame && !(m.loadBytes ro src).excludesStack
  | .join _                                   => false
  | .call args                                => m.classifyCall args == .exposed

/-! ## One step -/

variable {m : Memory}

theorem outside_le_write (m : Memory) (addr prov : Pointer) (update : Block → Int64 → Block) :
    m.outside ≤ (m.write addr prov update).outside := by
  cases addr with
  | bottom | stackAt | anyStack => exact le_rfl
  | globalAt | anyOffsetOf | anyGlobal | nonStack => exact Pointer.le_join_left _ _
  | top => exact Pointer.le_top _

theorem outside_write_eq_top (hout : .nonStack ≤ m.outside) {addr prov : Pointer} (haddr : addr.leavesFrame = true)
    (hprov : ¬ prov ≤ .nonStack) (update : Block → Int64 → Block) : (m.write addr prov update).outside = .top := by
  cases addr with
  | bottom | stackAt | anyStack => cases haddr
  | globalAt | anyOffsetOf | anyGlobal | nonStack => exact Pointer.join_eq_top hout hprov
  | top => rfl

/-- **No step shrinks what is outside**, the reset after a confined callee included. -/
theorem outside_le_perform (m : Memory) (a : Action) : m.outside ≤ (m.perform a).outside := by
  cases a with
  | store c addr v => exact outside_le_write m addr _ _
  | volatileStore c addr v => exact (outside_le_write m addr _ _).trans (Pointer.le_join_left _ _)
  | copy ro dst src size => exact outside_le_write m dst _ _
  | join other => exact Pointer.le_join_left _ _
  | call args =>
    cases hkind : m.classifyCall args with
    | exposed =>
      rw [perform, hkind]
      exact Pointer.le_top _
    | confined =>
      rw [perform, hkind]
      -- a confined callee was called because `outside` has nothing of the frame
      exact (classifyCall_confined.1 hkind).2.trans (Pointer.le_join_right _ _)

theorem outside_perform_eq_top (hout : .nonStack ≤ m.outside) {a : Action} (h : m.publishes a = true) :
    (m.perform a).outside = .top := by
  have escapes : ∀ {addr prov : Pointer}, (addr.leavesFrame && !prov.excludesStack) = true →
      ∀ update, (m.write addr prov update).outside = .top := by
    intro addr prov hboth update
    rw [Bool.and_eq_true, Bool.not_eq_true'] at hboth
    refine outside_write_eq_top hout hboth.1 (fun hle => ?_) update
    exact Bool.false_ne_true (hboth.2.symm.trans hle)
  cases a with
  | store c addr v => exact escapes h _
  | volatileStore c addr v =>
    have hstore : (m.store c addr v).outside = .top := escapes h _
    show (m.store c addr v).outside.join m.outside = .top
    rw [hstore, Pointer.top_join]
  | copy ro dst src size => exact escapes h _
  | join other => cases h
  | call args =>
    rw [perform, eq_of_beq h]
    rfl

/-! ## Whole runs -/

theorem run_cons (m : Memory) (a : Action) (actions : List Action) : m.run (a :: actions) = (m.perform a).run actions := rfl

theorem run_append (m : Memory) (before after : List Action) : m.run (before ++ after) = (m.run before).run after :=
  List.foldl_append

theorem outside_le_run : ∀ (m : Memory) (actions : List Action), m.outside ≤ (m.run actions).outside
  | _, [] => le_rfl
  | m, a :: actions => (outside_le_perform m a).trans (outside_le_run (m.perform a) actions)

theorem classifyCall_of_escaped (h : m.outside = .top) (args : List Value) : m.classifyCall args = .exposed := by
  cases hkind : m.classifyCall args with
  | exposed => rfl
  | confined =>
    have hle := (classifyCall_confined.1 hkind).2
    rw [h] at hle
    revert hle
    decide

end Memory

/-! ## What instructions do -/

def Builtin.action? (b : Builtin) (args : List Value) (ro : ReadOnly) : Option Memory.Action :=
  match b with
  | external _      => some (.call args)
  | volatileStore c => some (.volatileStore c (argument args 0).addressClass (argument args 1))
  | memcpy size _   =>
    if 0 < size then some (.copy ro (argument args 0).addressClass (argument args 1).addressClass size.toInt) else none
  | _               => none

def Instruction.action? (i : Instruction) (ro : ReadOnly) (regs : Registers) (mem : Memory) : Option Memory.Action :=
  match i with
  | store c addr args src _ => some (.store c (addr.eval (regs.getAll args)).addressClass (regs.get src))
  | call _ args _ _         => some (.call (regs.getAll args))
  | builtin b args _ _      => b.action? (args.map (·.eval regs mem ro)) ro
  | _                       => none

theorem Builtin.eval_memory (b : Builtin) (args : List Value) (mem : Memory) (ro : ReadOnly) (floor : Floor) :
    (b.eval args mem ro floor).2 = mem.run (b.action? args ro).toList := by
  cases b with
  | memcpy size align =>
    by_cases h : 0 < size <;> simp only [eval, action?, h, if_true, if_false] <;> rfl
  | _ => rfl

theorem Instruction.after_memory (i : Instruction) (ro : ReadOnly) (floor : Floor) (regs : Registers) (mem : Memory) :
    (i.after ro floor regs mem).mem? = some (mem.run (i.action? ro regs mem).toList) := by
  cases i with
  | builtin b args dest succ => exact congrArg some (b.eval_memory _ mem ro floor)
  | _ => rfl

/-- **The memory that a node sends on is the one it got, after its instruction's action.** -/
theorem Function.sent_memory (f : Function) (live : Liveness) (ro : ReadOnly) (s : Settings) (n : Node)
    {regs regs' : Registers} {mem mem' : Memory} (hwf : (State.live regs mem).WellFormed) {k : Node}
    (h : (f.transfer live ro s n (.live regs mem)).get k = .live regs' mem') :
    ∃ i, f.instruction? n = some i ∧ mem' = mem.run (i.action? ro regs mem).toList := by
  rcases f.transfer_cases live ro s n hwf with ⟨-, hempty⟩ | ⟨i, regs₁, mem₁, hi, heq, hsends⟩
  · rw [hempty] at h
    cases h
  · cases heq
    refine ⟨i, hi, ?_⟩
    rw [hsends.get] at h
    split at h
    · have hafter := i.after_memory ro s.volatileFloor regs mem
      cases ha : i.after ro s.volatileFloor regs mem with
      | unreachable =>
        rw [ha] at h
        cases h
      | live regs₂ mem₂ =>
        rw [ha] at h hafter
        cases h
        exact Option.some_inj.1 hafter
    · cases h

/-! ## Permanence -/

namespace Memory

/-- **Escape is permanent.**  Nothing that nodes do to memory shrinks what is outside the frame, and once an action has
published a pointer into the frame, `outside` is `top` after any further actions: every later callee is exposed. -/
theorem escape_permanent :
    (∀ (f : Function) live ro s n regs mem k regs' mem', (State.live regs mem).WellFormed →
      (f.transfer live ro s n (.live regs mem)).get k = .live regs' mem' →
      ∃ i, f.instruction? n = some i ∧ mem' = mem.run (i.action? ro regs mem).toList) ∧
    (∀ before after, (entry.run before).outside.le (entry.run (before ++ after)).outside = true) ∧
    ∀ before a after, (entry.run before).publishes a = true →
      let m := entry.run (before ++ a :: after)
      m.outside = .top ∧ ∀ args, m.classifyCall args = .exposed ∧ (m.classifyCall args).result = .top ∧
        m.afterCall (m.classifyCall args) = top := by
  refine ⟨fun f live ro s n _ _ _ _ _ hwf h => f.sent_memory live ro s n hwf h, fun before after => ?_, ?_⟩
  · rw [run_append]
    exact outside_le_run _ after
  · intro before a after hpub m
    have hnow : ((entry.run before).perform a).outside = .top :=
      outside_perform_eq_top (outside_le_run entry before) hpub
    have hlater : ((entry.run before).perform a).outside ≤ m.outside := by
      show _ ≤ (entry.run (before ++ a :: after)).outside
      rw [run_append, run_cons]
      exact outside_le_run _ after
    rw [hnow] at hlater
    have hout : m.outside = .top := le_antisymm (Pointer.le_top _) hlater
    refine ⟨hout, fun args => ?_⟩
    rw [classifyCall_of_escaped hout args]
    exact ⟨rfl, rfl, rfl⟩

/-- Neither clearing the global that held the pointer nor joining a memory that never did takes the escape back. -/
theorem escape_permanent_clearedGlobal :
    let before : List Action := [.store .int32 (.stackAt 0) (.int 4), .call [.int 1]]
    let publish : Action := .volatileStore .int64 (.globalAt ⟨5⟩ 0) (.ptr (.stackAt 0))
    let after : List Action := [.store .int64 (.globalAt ⟨5⟩ 0) (.long 0), .join entry]
    let m := entry.run (before ++ publish :: after)
    ((entry.run before).classifyCall [] = .confined ∧ (entry.run before).publishes publish = true) ∧
      m.outside = .top ∧ m.classifyCall [] = .exposed ∧ (m.classifyCall []).result = .top ∧
      m.afterCall (m.classifyCall []) = top := by
  intro before publish after m
  have hpub : (entry.run before).publishes publish = true := by decide
  obtain ⟨hout, hcalls⟩ := escape_permanent.2.2 before publish after hpub
  exact ⟨⟨by decide, hpub⟩, hout, hcalls []⟩

end Memory
end ValueFlow
