import ValueFlow.Proofs.Memory
import ValueFlow.Proofs.Operation
/-!
# Integer arithmetic keeps provenance

Up to offsets, the result of an integer operator points where its operands point, no less and no more: known numbers point
nowhere and fold to a number, a pointer and a number give a pointer of the same region, and everything else degrades to
the join.  The one exception is the distance of two exact pointers into one region, a number.  So what is computed from a
frame address, in however many steps, keeps a callee from being confined.
-/
namespace ValueFlow
namespace Value

@[simp] theorem provenance_unknown (k : Kind) (p : Pointer) : (unknown k p).provenance = p.widen := by
  unfold unknown
  split
  · rename_i hp
    rw [hp]
    rfl
  · exact provenance_mixed _

theorem IsConstant.provenance_eq {v : Value} (h : v.IsConstant) : v.provenance = .bottom := by
  obtain ⟨k, hk, -⟩ := h.kind
  exact provenance_of_kind hk

/-! ## One operand -/

theorem Degrades.provenance_widen {k : Kind} {f : Value → Value} (hf : Degrades k true f) (v : Value) :
    (f v).provenance.widen = v.provenance.widen := by
  by_cases hb : v = .bottom
  · rw [hb, hf.bottom]
  by_cases hc : v.IsConstant
  · rw [hc.provenance_eq, provenance_of_kind (hf.folds hc)]
  · have hunknown : f v = unknown k v.provenance := hf.degrades hb hc
    rw [hunknown, provenance_unknown, Pointer.widen_widen]

/-! ## Two operands -/

theorem provenance_foldRead {α β : Type} {k : Kind} {read : Value → Option α} {read' : Value → Option β}
    {fold : α → β → Value} (hread : ∀ {v x}, read v = some x → v.IsConstant)
    (hread' : ∀ {v y}, read' v = some y → v.IsConstant) (hfold : ∀ x y, (fold x y).kind? = some k) {a b : Value}
    (ha : a ≠ .bottom) (hb : b ≠ .bottom) :
    (foldRead k true read read' fold a b).provenance.widen = (a.provenance.join b.provenance).widen := by
  rcases foldRead_cases k true read read' fold ha hb with ⟨x, y, hx, hy, h⟩ | h
  · rw [h, provenance_of_kind (hfold x y), (hread hx).provenance_eq, (hread' hy).provenance_eq]
    rfl
  · have hdegraded : degraded k true a b = unknown k (a.provenance.join b.provenance) := rfl
    rw [h, hdegraded, provenance_unknown, Pointer.widen_widen]

theorem provenance_foldWords {w : Width} {f : BitVec w.bits → BitVec w.bits → Option (BitVec w.bits)} {a b : Value}
    (ha : a ≠ .bottom) (hb : b ≠ .bottom) :
    (foldWords w f a b).provenance.widen = (a.provenance.join b.provenance).widen := by
  rw [foldWords_eq]
  exact provenance_foldRead isConstant_of_word? isConstant_of_word? (fun _ _ => kind?_getD_map (kind?_word w) _) ha hb

theorem provenance_foldShift {w : Width} {op : ShiftOp} {a b : Value} (ha : a ≠ .bottom) (hb : b ≠ .bottom) :
    (foldShift w op a b).provenance.widen = (a.provenance.join b.provenance).widen := by
  rw [foldShift_eq]
  exact provenance_foldRead isConstant_of_word? isConstant_of_word? (fun _ _ => kind?_getD_map (kind?_word w) _) ha hb

theorem provenance_movedBy (g : Int64 → Int64) (p : Pointer) (n : Value) : (movedBy g p n).provenance.widen = p.widen := by
  unfold movedBy
  split
  · cases p <;> rfl
  · exact Pointer.widen_widen p

theorem provenance_add {w : Width} {a b : Value} (hca : a.Canonical) (hcb : b.Canonical) (ha : a ≠ .bottom)
    (hb : b ≠ .bottom) : (add w a b).provenance.widen = (a.provenance.join b.provenance).widen := by
  rcases add_cases (w := w) hca hcb ha hb with ⟨p, rfl, hn, h⟩ | ⟨p, rfl, hn, h⟩ | h
  · rw [h, provenance_movedBy, (isPlainNumber_iff.1 hn).2, Pointer.join_bottom]
    rfl
  · rw [h, provenance_movedBy, (isPlainNumber_iff.1 hn).2, Pointer.bottom_join]
    rfl
  · rw [h, provenance_foldWords ha hb]

theorem provenance_le_add_long {v : Value} (hc : v.Canonical) (hb : v ≠ .bottom) (n : Int64) :
    v.provenance.widen ≤ (add .w64 v (.long n)).provenance.widen := by
  rw [provenance_add hc (b := .long n) ⟨nofun, nofun⟩ hb nofun]
  exact Pointer.widen_mono (Pointer.le_join_left _ _)

/-- **Exact pointers into one region.** -/
def SameRegion (a b : Value) : Prop := ∃ (r : Region) (x y : Int64), a = ptr (r.addr x) ∧ b = ptr (r.addr y)

theorem sameRegion_of_distance? {a b : Value} {n : Int64} (h : distance? a b = some n) : SameRegion a b := by
  unfold distance? at h
  split at h
  · exact ⟨.frame, _, _, rfl, rfl⟩
  · split at h
    · rename_i hst
      subst hst
      exact ⟨.global _, _, _, rfl, rfl⟩
    · cases h
  · cases h

theorem SameRegion.sub_eq {a b : Value} (h : SameRegion a b) : ∃ n, sub .w64 a b = long n := by
  obtain ⟨r, x, y, rfl, rfl⟩ := h
  have hdistance : distance? (ptr (r.addr x)) (ptr (r.addr y)) = some (x - y) := by
    cases r with
    | frame => rfl
    | global s => exact if_pos rfl
  have hpointer : (ptr (r.addr y)).isPlainNumber = false := by cases r <;> rfl
  refine ⟨x - y, ?_⟩
  simp only [sub, reduceCtorEq, or_self, if_false, hpointer, hdistance, Bool.false_eq_true]

theorem provenance_sub {w : Width} {a b : Value} (ha : a ≠ .bottom) (hb : b ≠ .bottom)
    (hregion : ¬ (w = .w64 ∧ SameRegion a b)) :
    (sub w a b).provenance.widen = (a.provenance.join b.provenance).widen := by
  rcases sub_cases (w := w) ha hb with ⟨p, rfl, hn, h⟩ | ⟨n, hw, hn, -⟩ | h
  · rw [h, provenance_movedBy, (isPlainNumber_iff.1 hn).2, Pointer.join_bottom]
    rfl
  · exact absurd ⟨hw, sameRegion_of_distance? hn⟩ hregion
  · rw [h, provenance_foldWords ha hb]

end Value

namespace Binary
open Value

/-- **The result of an integer operator points where its operands point**, up to offsets, unless it is a distance. -/
theorem provenance_eval {op : Binary} (hop : op.keepsProvenance = true) {a b : Value} (hca : a.Canonical)
    (hcb : b.Canonical) (ha : a ≠ .bottom) (hb : b ≠ .bottom) (hregion : ¬ (op = .arith .w64 .sub ∧ SameRegion a b)) :
    (op.eval a b).provenance.widen = (a.provenance.join b.provenance).widen := by
  cases op with
  | arith w op =>
    cases op with
    | add => exact provenance_add hca hcb ha hb
    | sub => exact provenance_sub ha hb fun h => hregion ⟨by rw [h.1], h.2⟩
    | _ => exact provenance_foldWords ha hb
  | shift w op => exact provenance_foldShift ha hb
  | float w op => cases hop

/-- A distance points nowhere, unlike what it is the distance of. -/
theorem provenance_distance {a b : Value} (h : SameRegion a b) :
    ¬ (a.provenance.join b.provenance).widen ≤ ((arith .w64 .sub).eval a b).provenance.widen := by
  obtain ⟨n, hn⟩ := h.sub_eq
  obtain ⟨r, x, y, rfl, rfl⟩ := h
  have hnumber : ((arith .w64 .sub).eval (ptr (r.addr x)) (ptr (r.addr y))).provenance.widen = .bottom := by
    show (sub .w64 _ _).provenance.widen = _
    rw [hn]
    rfl
  rw [hnumber, Pointer.le_bottom, Pointer.widen_eq_bottom, Pointer.join_eq_bottom]
  cases r <;> exact nofun

end Binary

/-! ## Operations and addresses -/

/-- How many arguments an integer operation computes with; none for any other operation. -/
def Operation.integerArity : Operation → Nat
  | move | addImmLong _ => 1
  | unary op            => if op.keepsProvenance then 1 else 0
  | binary op           => if op.keepsProvenance then 2 else 0
  | _                   => 0

def Addressing.arity : Addressing → Nat
  | indexed _ => 1
  | indexed2  => 2
  | _         => 0

/-- The operation takes the distance of two pointers into one region. -/
def Operation.IsDistance (op : Operation) (args : List Value) : Prop :=
  op = .binary (.arith .w64 .sub) ∧ Value.SameRegion (argument args 0) (argument args 1)

section
variable {args : List Value} {i : Nat}

theorem argument_supplied (h : ∀ v ∈ args, v.Canonical ∧ v ≠ .bottom) (i : Nat) :
    (argument args i).Canonical ∧ argument args i ≠ .bottom := by
  unfold argument
  cases hv : args[i]? with
  | none => decide
  | some v => exact h v (List.mem_of_getElem? hv)

theorem provenance_le_of_join {v : Value} (hi : i < 2)
    (hv : v.provenance.widen = ((argument args 0).provenance.join (argument args 1).provenance).widen) :
    (argument args i).provenance.widen ≤ v.provenance.widen := by
  rw [hv]
  refine Pointer.widen_mono ?_
  match i, hi with
  | 0, _ => exact Pointer.le_join_left _ _
  | 1, _ => exact Pointer.le_join_right _ _

/-- **Every operand of an integer operation is seen in its result.** -/
theorem Operation.provenance_eval (op : Operation) (hargs : ∀ v ∈ args, v.Canonical ∧ v ≠ .bottom)
    (hi : i < op.integerArity) (hdistance : ¬ op.IsDistance args) :
    (argument args i).provenance.widen ≤ (op.eval args).provenance.widen := by
  obtain ⟨hc₀, hb₀⟩ := argument_supplied hargs 0
  obtain ⟨hc₁, hb₁⟩ := argument_supplied hargs 1
  cases op with
  | move =>
    obtain rfl : i = 0 := Nat.lt_one_iff.1 hi
    exact le_rfl
  | unary op =>
    rw [integerArity] at hi
    split at hi
    · rename_i hkeeps
      obtain rfl : i = 0 := Nat.lt_one_iff.1 hi
      exact ((hkeeps ▸ op.degrades_eval).provenance_widen _).ge
    · exact absurd hi (Nat.not_lt_zero i)
  | binary op =>
    rw [integerArity] at hi
    split at hi
    · rename_i hkeeps
      refine provenance_le_of_join hi (Binary.provenance_eval hkeeps hc₀ hc₁ hb₀ hb₁ fun h => hdistance ?_)
      exact ⟨by rw [h.1], h.2⟩
    · exact absurd hi (Nat.not_lt_zero i)
  | addImmLong n =>
    obtain rfl : i = 0 := Nat.lt_one_iff.1 hi
    exact Value.provenance_le_add_long hc₀ hb₀ n
  | _ => exact absurd hi (Nat.not_lt_zero i)

theorem Addressing.provenance_eval (addr : Addressing) (hargs : ∀ v ∈ args, v.Canonical ∧ v ≠ .bottom)
    (hi : i < addr.arity) : (argument args i).provenance.widen ≤ (addr.eval args).provenance.widen := by
  obtain ⟨hc₀, hb₀⟩ := argument_supplied hargs 0
  obtain ⟨hc₁, hb₁⟩ := argument_supplied hargs 1
  cases addr with
  | indexed n =>
    obtain rfl : i = 0 := Nat.lt_one_iff.1 hi
    exact Value.provenance_le_add_long hc₀ hb₀ n
  | indexed2 => exact provenance_le_of_join hi (Value.provenance_add hc₀ hc₁ hb₀ hb₁)
  | _ => exact absurd hi (Nat.not_lt_zero i)

end

/-! ## Chains -/

/-- **What integer operations and address forms compute from `u`**, one after the other, with any other arguments that
executions supply.  Distances are left out. -/
inductive DerivedFrom (u : Value) : Value → Prop where
  | self : DerivedFrom u u
  | operation (op : Operation) {args : List Value} {i : Nat} (hargs : ∀ v ∈ args, v.Canonical ∧ v ≠ .bottom)
    (hi : i < op.integerArity) (hdistance : ¬ op.IsDistance args) :
    DerivedFrom u (argument args i) → DerivedFrom u (op.eval args)
  | addressing (addr : Addressing) {args : List Value} {i : Nat} (hargs : ∀ v ∈ args, v.Canonical ∧ v ≠ .bottom)
    (hi : i < addr.arity) : DerivedFrom u (argument args i) → DerivedFrom u (addr.eval args)

theorem DerivedFrom.provenance_le {u v : Value} (h : DerivedFrom u v) : u.provenance.widen ≤ v.provenance.widen := by
  induction h with
  | self => exact le_rfl
  | operation op hargs hi hdistance _ ih => exact ih.trans (op.provenance_eval hargs hi hdistance)
  | addressing addr hargs hi _ ih => exact ih.trans (addr.provenance_eval hargs hi)

theorem Memory.classifyCall_of_frame {v : Value} (hv : ¬ v.provenance ≤ .nonStack) (m : Memory) {args : List Value}
    (hmem : v ∈ args) : m.classifyCall args = .exposed := by
  cases hkind : m.classifyCall args with
  | exposed => rfl
  | confined => exact absurd ((classifyCall_confined.1 hkind).1 v hmem) hv

theorem DerivedFrom.exposes {u v : Value} (h : DerivedFrom u v) (hu : u.provenance.excludesStack = false) (m : Memory)
    {args : List Value} (hmem : v ∈ args) : m.classifyCall args = .exposed := by
  refine m.classifyCall_of_frame (fun hv => ?_) hmem
  -- outside the frame there is no offset that forgetting could lead into it
  have hwiden : u.provenance.widen ≤ .nonStack := h.provenance_le.trans (Pointer.widen_mono hv)
  have hexcludes : u.provenance.excludesStack = true := (Pointer.le_widen _).trans hwiden
  exact Bool.false_ne_true (hu.symm.trans hexcludes)

/-- **Integer arithmetic never launders provenance.**  Up to offsets, the operands' provenance is below that of the result
for every integer operator except exactly the distance of two exact pointers into one region, which is a number; so what
is derived from a frame address exposes the frame to every callee it is passed to. -/
theorem arithmetic_keeps_provenance :
    (∀ (op : Binary) (a b : Value), op.keepsProvenance = true → a.Canonical → b.Canonical → a ≠ .bottom → b ≠ .bottom →
      ((a.provenance.join b.provenance).widen.le (op.eval a b).provenance.widen = true ↔
        ¬ (op = .arith .w64 .sub ∧ Value.SameRegion a b)) ∧
      (op = .arith .w64 .sub → Value.SameRegion a b → ∃ n, op.eval a b = .long n)) ∧
    (∀ (op : Operation) (args : List Value) (i : Nat), (∀ v ∈ args, v.Canonical ∧ v ≠ .bottom) → i < op.integerArity →
      ¬ op.IsDistance args → (argument args i).provenance.widen.le (op.eval args).provenance.widen = true) ∧
    (∀ (addr : Addressing) (args : List Value) (i : Nat), (∀ v ∈ args, v.Canonical ∧ v ≠ .bottom) → i < addr.arity →
      (argument args i).provenance.widen.le (addr.eval args).provenance.widen = true) ∧
    ∀ u v : Value, DerivedFrom u v → u.provenance.excludesStack = false →
      ∀ (m : Memory) (args : List Value), v ∈ args → m.classifyCall args = .exposed := by
  refine ⟨fun op a b hop hca hcb ha hb => ⟨⟨fun hle hdistance => ?_, fun h => ?_⟩, fun hop hregion => ?_⟩,
    fun op _ _ hargs hi hdistance => op.provenance_eval hargs hi hdistance,
    fun addr _ _ hargs hi => addr.provenance_eval hargs hi, fun _ _ h hu m _ hmem => h.exposes hu m hmem⟩
  · obtain ⟨rfl, hregion⟩ := hdistance
    exact Binary.provenance_distance hregion hle
  · exact (Binary.provenance_eval hop hca hcb ha hb h).ge
  · rw [hop]
    exact hregion.sub_eq

/-- The low half of a frame address, shifted, masked with a number and used as an index into a global still exposes the
frame; two frame addresses leave only their distance. -/
theorem arithmetic_keeps_provenance_disguised :
    let address : Value := .ptr (.stackAt 16)
    let low := (Operation.unary .intOfLong).eval [address]
    let shifted := (Operation.binary (.shift .w32 .shl)).eval [low, .int 3]
    let masked := (Operation.binary (.arith .w32 .xor)).eval [.num .int, shifted]
    let element := Addressing.indexed2.eval [.ptr (.globalAt ⟨4⟩ 0), masked]
    (address.provenance.excludesStack = false ∧ DerivedFrom address element ∧ low = .numOrPtr .anyStack ∧ element = .top) ∧
      Memory.entry.classifyCall [.ptr (.globalAt ⟨4⟩ 0)] = .confined ∧
      Memory.entry.classifyCall [.int 0, element] = .exposed ∧
      (Binary.arith .w64 .sub).eval (.ptr (.stackAt 24)) address = .long 8 ∧
      Pointer.anyStack.le ((Binary.arith .w64 .sub).eval address (.num .long)).provenance.widen = true := by
  intro address low shifted masked element
  have hframe : address.provenance.excludesStack = false := by decide
  have hlow : DerivedFrom address low :=
    .operation (.unary .intOfLong) (i := 0) (by decide) (by decide) (fun h => by cases h.1) .self
  have hshifted : DerivedFrom address shifted :=
    .operation (.binary (.shift .w32 .shl)) (i := 0) (by decide) (by decide) (fun h => by cases h.1) hlow
  have hmasked : DerivedFrom address masked :=
    .operation (.binary (.arith .w32 .xor)) (i := 1) (by decide) (by decide) (fun h => by cases h.1) hshifted
  have helement : DerivedFrom address element := .addressing .indexed2 (i := 1) (by decide) (by decide) hmasked
  obtain ⟨hbinary, -, -, hchain⟩ := arithmetic_keeps_provenance
  have hnumber : ¬ Value.SameRegion address (.num .long) := by
    rintro ⟨r, x, y, -, h⟩
    cases h
  have hkept := (hbinary (.arith .w64 .sub) address (.num .long) rfl (by decide) (by decide) (by decide) (by decide)).1.2
    fun h => hnumber h.2
  exact ⟨⟨hframe, helement, by decide, by decide⟩, by decide, hchain address element helement hframe Memory.entry _ (by decide),
    by decide, hkept⟩

end ValueFlow
