import ValueFlow.Proofs.Analysis
/-!
# What is analysed and what is refused

An analysis has a result exactly when the settings are in range and the function is sound.  Otherwise the first thing
wrong is named: the settings, then the entry, then the lowest node with a defect.  A program is analysed when all its
functions are; then each result stands at its function's place, and otherwise the first failing function counts.
-/
namespace ValueFlow

/-! ## Specifications -/

def Settings.InRange (s : Settings) : Prop := 1 ≤ s.maxRequeue.toNat ∧ s.maxRequeue.toNat ≤ 1000000

namespace Function

/-- **Control stays inside and block copies have a size**, at every node that has an instruction. -/
structure Sound (f : Function) : Prop where
  entry : f.entry < f.size
  successors : ∀ n i, f.instruction? n = some i → ∀ k ∈ i.successors, k < f.size
  copies : ∀ n size align args dest succ,
    f.instruction? n = some (.builtin (.memcpy size align) args dest succ) → 0 ≤ size

/-- **What is wrong at a node**: its first successor outside, else the size of its block copy. -/
inductive Defect (f : Function) (n : Node) : GraphFault → Prop where
  | dangling {i : Instruction} {before after : List Node} {k : Node} (at_ : f.instruction? n = some i)
    (split : i.successors = before ++ k :: after) (inside : ∀ j ∈ before, j < f.size) (outside : f.size ≤ k) :
    Defect f n (.danglingSuccessor n k)
  | width {size align : Int64} {args : List BuiltinArg} {dest : Option Reg} {succ : Node}
    (at_ : f.instruction? n = some (.builtin (.memcpy size align) args dest succ)) (inside : succ < f.size)
    (negative : size < 0) : Defect f n (.unsupportedWidth size)

/-- **Why a function is refused**: its entry, else the defect of the lowest node that has one. -/
inductive Rejected (f : Function) : GraphFault → Prop where
  | entry (outside : f.size ≤ f.entry) : Rejected f (.missingEntry f.entry)
  | node {n : Node} {e : GraphFault} (inside : f.entry < f.size) (lowest : ∀ m < n, ∀ e', ¬ f.Defect m e')
    (defect : f.Defect n e) : Rejected f e

inductive FailsWith (f : Function) (s : Settings) : Failure → Prop where
  | settings (range : ¬ s.InRange) : FailsWith f s (.settings (.outOfRange s.maxRequeue))
  | graph {e : GraphFault} (range : s.InRange) (rejected : f.Rejected e) : FailsWith f s (.graph e)

end Function

/-- **Why a program is refused**: the settings, else its globals, else the first function that is. -/
inductive Program.FailsWith (p : Program) (s : Settings) : Failure → Prop where
  | settings (range : ¬ s.InRange) : FailsWith p s (.settings (.outOfRange s.maxRequeue))
  | initializer {e : InitError} (range : s.InRange)
    (table : ReadOnly.ofGlobals s.floatConstants p.globals = .error e) : FailsWith p s (.initializer e)
  | function {ro : ReadOnly} {i : Nat} {f : Function} {e : Failure} (range : s.InRange)
    (table : ReadOnly.ofGlobals s.floatConstants p.globals = .ok ro) (place : p.functions[i]? = some f)
    (first : ∀ j < i, ∀ g, p.functions[j]? = some g → g.Sound) (fails : f.FailsWith s e) : FailsWith p s e

/-! ## Functions -/

theorem Settings.isValid_iff {s : Settings} : s.isValid = true ↔ s.InRange := by
  simp only [isValid, InRange, Bool.and_eq_true, decide_eq_true_eq]
  omega

theorem Instruction.copySize?_eq_some {i : Instruction} {size : Int64} (h : i.copySize? = some size) :
    ∃ align args dest succ, i = .builtin (.memcpy size align) args dest succ := by
  unfold copySize? at h
  split at h
  · cases h
    exact ⟨_, _, _, _, rfl⟩
  · cases h

namespace Function
variable {f : Function} {s : Settings} {n : Node} {e : GraphFault}

theorem nodeFault?_eq_some : f.nodeFault? n = some e ↔ f.Defect n e := by
  constructor
  · intro h
    unfold nodeFault? at h
    split at h
    · cases h
    · rename_i i hi
      split at h
      · rename_i k hfind
        cases h
        obtain ⟨houtside, before, after, hsplit, hinside⟩ := List.find?_eq_some_iff_append.1 hfind
        refine .dangling hi hsplit (fun j hj => ?_) (of_decide_eq_true houtside)
        simpa using hinside j hj
      · rename_i hfind
        split at h
        · rename_i size hsize
          split at h
          · rename_i hneg
            cases h
            obtain ⟨align, args, dest, succ, rfl⟩ := Instruction.copySize?_eq_some hsize
            refine .width hi ?_ hneg
            simpa using List.find?_eq_none.1 hfind succ List.mem_cons_self
          · cases h
        · cases h
  · intro h
    unfold nodeFault?
    cases h with
    | @dangling i before after k at_ split inside outside =>
      have hfind : i.successors.find? (fun k => f.size ≤ k) = some k := by
        refine List.find?_eq_some_iff_append.2 ⟨decide_eq_true outside, before, after, split, fun j hj => ?_⟩
        simpa using inside j hj
      rw [at_]
      simp only [hfind]
    | width at_ inside negative =>
      rw [at_]
      simp [Instruction.successors, Instruction.copySize?, Nat.not_le.2 inside, negative]

theorem fault?_eq_some : f.fault? = some e ↔ f.Rejected e := by
  unfold fault?
  by_cases hentry : f.size ≤ f.entry
  · rw [if_pos hentry]
    constructor
    · intro h
      cases h
      exact .entry hentry
    · intro h
      cases h with
      | entry outside => rfl
      | node inside => exact absurd inside (Nat.not_lt.2 hentry)
  · rw [if_neg hentry, findSome?_range]
    constructor
    · rintro ⟨i, -, hfault, hbefore⟩
      refine .node (Nat.lt_of_not_le hentry) (fun m hm e' hdefect => ?_) (nodeFault?_eq_some.1 hfault)
      have hm' := hbefore m hm
      rw [nodeFault?_eq_some.2 hdefect] at hm'
      cases hm'
    · intro h
      cases h with
      | entry outside => exact absurd outside hentry
      | @node n e inside lowest defect =>
        have hn : n < f.size := by cases defect with | dangling at_ | width at_ => exact lt_of_instruction at_
        refine ⟨n, hn, nodeFault?_eq_some.2 defect, fun j hj => ?_⟩
        exact Option.eq_none_iff_forall_ne_some.2 fun e' he' => lowest j hj e' (nodeFault?_eq_some.1 he')

theorem Sound.not_defect (h : f.Sound) : ¬ f.Defect n e := by
  intro hdefect
  cases hdefect with
  | @dangling i before after k at_ split inside outside =>
    have hk : k ∈ i.successors := split ▸ List.mem_append_right _ List.mem_cons_self
    exact absurd (h.successors n i at_ k hk) (Nat.not_lt.2 outside)
  | width at_ inside negative => exact absurd (h.copies _ _ _ _ _ _ at_) (Int64.not_le.2 negative)

theorem fault?_eq_none : f.fault? = none ↔ f.Sound := by
  constructor
  · intro h
    have hsuccessors : ∀ n i, f.instruction? n = some i → ∀ k ∈ i.successors, k < f.size := fun n i hi k hk =>
      successor_lt h (mem_successors.2 ⟨i, hi, hk⟩)
    refine ⟨entry_lt h, hsuccessors, fun n size align args dest succ hi => ?_⟩
    by_contra hneg
    have hdefect : f.Defect n (.unsupportedWidth size) :=
      .width hi (hsuccessors n _ hi succ List.mem_cons_self) (Int64.not_le.1 hneg)
    have hfault := nodeFault?_eq_none h hi
    rw [nodeFault?_eq_some.2 hdefect] at hfault
    cases hfault
  · intro h
    refine Option.eq_none_iff_forall_ne_some.2 fun e he => ?_
    cases fault?_eq_some.1 he with
    | entry outside => exact absurd h.entry (Nat.not_lt.2 outside)
    | node inside lowest defect => exact h.not_defect defect

theorem analyze_eq_error (live : Liveness) (ro : ReadOnly) {e : Failure} :
    f.analyze live ro s = .error e ↔ f.FailsWith s e := by
  rw [analyze_eq]
  by_cases hs : s.isValid = true
  · have hrange := Settings.isValid_iff.1 hs
    rw [if_pos hs]
    cases hf : f.fault? with
    | some fault =>
      constructor
      · intro h
        cases h
        exact .graph hrange (fault?_eq_some.1 hf)
      · intro h
        cases h with
        | settings range => exact absurd hrange range
        | graph _ rejected =>
          obtain rfl := Option.some_inj.1 (hf.symm.trans (fault?_eq_some.2 rejected))
          rfl
    | none =>
      obtain ⟨a, ha⟩ := solve_total hf live ro s
      rw [ha]
      constructor
      · intro h
        cases h
      · intro h
        cases h with
        | settings range => exact absurd hrange range
        | graph _ rejected => cases hf.symm.trans (fault?_eq_some.2 rejected)
  · have hrange : ¬ s.InRange := fun h => hs (Settings.isValid_iff.2 h)
    rw [if_neg hs]
    constructor
    · intro h
      cases h
      exact .settings hrange
    · intro h
      cases h with
      | settings range => rfl
      | graph range _ => exact absurd range hrange

theorem analyze_accepts (live : Liveness) (ro : ReadOnly) : (∃ a, f.analyze live ro s = .ok a) ↔ s.InRange ∧ f.Sound := by
  constructor
  · rintro ⟨a, ha⟩
    refine ⟨?_, fault?_eq_none.1 (analyze_ok ha).1⟩
    by_contra hrange
    cases ha.symm.trans ((analyze_eq_error live ro).2 (.settings hrange))
  · rintro ⟨hrange, hsound⟩
    exact analyze_total (Settings.isValid_iff.2 hrange) (fault?_eq_none.2 hsound) live ro

end Function

/-! ## Programs -/

namespace Program

def analyzeAt (live : List Liveness) (ro : ReadOnly) (s : Settings) (e : Function × Nat) :
    Except Failure (String × Analysis) :=
  (e.1.analyze (live[e.2]?.getD .unknown) ro s).map (e.1.name, ·)

variable {p : Program} {live : List Liveness} {ro : ReadOnly} {s : Settings} {f : Function} {i : Nat}

theorem analyze_eq (p : Program) (live : List Liveness) (s : Settings) :
    p.analyze live s =
      if s.isValid then
        match ReadOnly.ofGlobals s.floatConstants p.globals with
        | .error e => .error (.initializer e)
        | .ok ro   => (p.functions.zipIdx.mapM (analyzeAt live ro s)).map (⟨ro, ·⟩)
      else .error (.settings (.outOfRange s.maxRequeue)) := by
  unfold analyze Settings.validate
  cases s.isValid with
  | false => rfl
  | true =>
    cases ReadOnly.ofGlobals s.floatConstants p.globals with
    | error e => rfl
    | ok ro => rfl

theorem analyzeAt_eq_ok {r : String × Analysis} : analyzeAt live ro s (f, i) = .ok r ↔
    ∃ a, r = (f.name, a) ∧ f.analyze (live[i]?.getD .unknown) ro s = .ok a := by
  unfold analyzeAt
  cases f.analyze (live[i]?.getD .unknown) ro s with
  | error e => simp [Except.map]
  | ok a => simp [Except.map, eq_comm]

theorem analyzeAt_eq_error {e : Failure} : analyzeAt live ro s (f, i) = .error e ↔ f.FailsWith s e := by
  rw [← Function.analyze_eq_error (live[i]?.getD .unknown) ro, analyzeAt]
  cases f.analyze (live[i]?.getD .unknown) ro s <;> simp [Except.map]

/-- **A program's analysis holds, at each function's place, the function's own.** -/
theorem analyze_eq_ok {a : ProgramAnalysis} : p.analyze live s = .ok a ↔
    s.InRange ∧ ReadOnly.ofGlobals s.floatConstants p.globals = .ok a.readOnly ∧
      a.functions.length = p.functions.length ∧
      ∀ (i : Nat) (f : Function), p.functions[i]? = some f → ∃ r, a.functions[i]? = some (f.name, r) ∧
        f.analyze (live[i]?.getD .unknown) a.readOnly s = .ok r := by
  rw [analyze_eq]
  constructor
  · intro h
    split at h
    · rename_i hs
      refine ⟨Settings.isValid_iff.1 hs, ?_⟩
      split at h
      · cases h
      · rename_i ro hro
        cases hl : p.functions.zipIdx.mapM (analyzeAt live ro s) with
        | error e =>
          rw [hl] at h
          cases h
        | ok l =>
          rw [hl] at h
          cases h
          obtain ⟨hlen, hall⟩ := mapM_eq_ok.1 hl
          refine ⟨hro, hlen.trans List.length_zipIdx, fun i f hf => ?_⟩
          obtain ⟨r, hr, hok⟩ := hall i (f, i) (getElem?_zipIdx_eq_some.2 ⟨hf, rfl⟩)
          obtain ⟨b, rfl, hb⟩ := analyzeAt_eq_ok.1 hok
          exact ⟨b, hr, hb⟩
    · cases h
  · rintro ⟨hrange, hro, hlen, hall⟩
    have hl : p.functions.zipIdx.mapM (analyzeAt live a.readOnly s) = .ok a.functions := by
      refine mapM_eq_ok.2 ⟨hlen.trans List.length_zipIdx.symm, ?_⟩
      rintro i ⟨f, j⟩ he
      obtain ⟨hf, rfl⟩ := getElem?_zipIdx_eq_some.1 he
      obtain ⟨r, hr, hok⟩ := hall j f hf
      exact ⟨(f.name, r), hr, analyzeAt_eq_ok.2 ⟨r, rfl, hok⟩⟩
    rw [if_pos (Settings.isValid_iff.2 hrange), hro]
    simp only [hl]
    rfl

theorem analyze_eq_error {e : Failure} : p.analyze live s = .error e ↔ p.FailsWith s e := by
  rw [analyze_eq]
  constructor
  · intro h
    split at h
    · rename_i hs
      have hrange := Settings.isValid_iff.1 hs
      split at h
      · rename_i e' hro
        cases h
        exact .initializer hrange hro
      · rename_i ro hro
        cases hl : p.functions.zipIdx.mapM (analyzeAt live ro s) with
        | ok l =>
          rw [hl] at h
          cases h
        | error e' =>
          rw [hl] at h
          cases h
          obtain ⟨i, ⟨f, j⟩, he, hfails, hbefore⟩ := mapM_eq_error.1 hl
          obtain ⟨hf, rfl⟩ := getElem?_zipIdx_eq_some.1 he
          refine .function hrange hro hf (fun k hk g hg => ?_) (analyzeAt_eq_error.1 hfails)
          obtain ⟨r, hr⟩ := hbefore k hk (g, k) (getElem?_zipIdx_eq_some.2 ⟨hg, rfl⟩)
          obtain ⟨b, -, hb⟩ := analyzeAt_eq_ok.1 hr
          exact ((Function.analyze_accepts _ ro).1 ⟨b, hb⟩).2
    · rename_i hs
      cases h
      exact .settings fun hrange => hs (Settings.isValid_iff.2 hrange)
  · intro h
    cases h with
    | settings range => rw [if_neg fun hs => range (Settings.isValid_iff.1 hs)]
    | initializer range table => rw [if_pos (Settings.isValid_iff.2 range), table]
    | @function ro i f e range table place first fails =>
      have hl : p.functions.zipIdx.mapM (analyzeAt live ro s) = .error e := by
        refine mapM_eq_error.2 ⟨i, (f, i), getElem?_zipIdx_eq_some.2 ⟨place, rfl⟩, analyzeAt_eq_error.2 fails, ?_⟩
        rintro j hj ⟨g, k⟩ hg
        obtain ⟨hg, rfl⟩ := getElem?_zipIdx_eq_some.1 hg
        obtain ⟨b, hb⟩ := (Function.analyze_accepts (live[k]?.getD .unknown) ro).2 ⟨range, first k hj g hg⟩
        exact ⟨(g.name, b), analyzeAt_eq_ok.2 ⟨b, rfl, hb⟩⟩
      rw [if_pos (Settings.isValid_iff.2 range), table]
      simp only [hl]
      rfl

theorem analyze_accepts (p : Program) (live : List Liveness) (s : Settings) :
    (∃ a, p.analyze live s = .ok a) ↔
      s.InRange ∧ (∃ ro, ReadOnly.ofGlobals s.floatConstants p.globals = .ok ro) ∧ ∀ f ∈ p.functions, f.Sound := by
  constructor
  · rintro ⟨a, ha⟩
    obtain ⟨hrange, hro, -, hall⟩ := analyze_eq_ok.1 ha
    refine ⟨hrange, ⟨a.readOnly, hro⟩, fun f hf => ?_⟩
    obtain ⟨i, hi⟩ := List.getElem?_of_mem hf
    obtain ⟨r, -, hr⟩ := hall i f hi
    exact ((Function.analyze_accepts _ a.readOnly).1 ⟨r, hr⟩).2
  · rintro ⟨hrange, ⟨ro, hro⟩, hsound⟩
    cases h : p.analyze live s with
    | ok a => exact ⟨a, rfl⟩
    | error e =>
      cases analyze_eq_error.1 h with
      | settings range => exact absurd hrange range
      | initializer _ table => cases hro.symm.trans table
      | function _ _ place _ fails =>
        cases fails with
        | settings range => exact absurd hrange range
        | graph _ rejected =>
          have hf := Function.fault?_eq_none.2 (hsound _ (List.mem_of_getElem? place))
          cases hf.symm.trans (Function.fault?_eq_some.2 rejected)

end Program

/-- **Analysis fails exactly on ill-formed input, and names the first thing wrong.**  A function that passes the checks
is always solved, since nothing is ever sent but to a successor. -/
theorem analyze_exact :
    (∀ (f : Function) (live : Liveness) (ro : ReadOnly) (s : Settings),
      ((∃ a, f.analyze live ro s = .ok a) ↔ s.InRange ∧ f.Sound) ∧
      (∀ e, f.analyze live ro s = .error e ↔ f.FailsWith s e) ∧
      (f.Sound → ∃ a, f.solve live ro s = .ok a) ∧
      ∀ n x, ∃ t, f.transfer live ro s n x = .facts t ∧
        ∀ k y, t.get? k = some y → ∃ i, f.instruction? n = some i ∧ k ∈ i.successors) ∧
    ∀ (p : Program) (live : List Liveness) (s : Settings),
      ((∃ a, p.analyze live s = .ok a) ↔
        s.InRange ∧ (∃ ro, ReadOnly.ofGlobals s.floatConstants p.globals = .ok ro) ∧ ∀ f ∈ p.functions, f.Sound) ∧
      (∀ a, p.analyze live s = .ok a → ReadOnly.ofGlobals s.floatConstants p.globals = .ok a.readOnly ∧
        a.functions.length = p.functions.length ∧
        ∀ (i : Nat) (f : Function), p.functions[i]? = some f → ∃ r, a.functions[i]? = some (f.name, r) ∧
          f.analyze (live[i]?.getD .unknown) a.readOnly s = .ok r) ∧
      ∀ e, p.analyze live s = .error e ↔ p.FailsWith s e := by
  refine ⟨fun f live ro s => ⟨f.analyze_accepts live ro, fun e => f.analyze_eq_error live ro, ?_, fun n x => ?_⟩,
    fun p live s => ⟨p.analyze_accepts live s, fun a h => (Program.analyze_eq_ok.1 h).2, fun e => Program.analyze_eq_error⟩⟩
  · exact fun hsound => Function.solve_total (Function.fault?_eq_none.2 hsound) live ro s
  · obtain ⟨t, ht, hall⟩ := f.transfer_successor live ro s n x
    exact ⟨t, ht, fun k y hy => Function.mem_successors.1 (hall k y hy)⟩

end ValueFlow
