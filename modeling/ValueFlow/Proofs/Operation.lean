import Mathlib.Data.List.Forall2
import ValueFlow.Operation
import ValueFlow.Proofs.Normalize
/-!
# Operators and conditions are monotone

An operator folds known operands, moves a pointer by a number, or degrades: it forgets everything but the provenance of
its operands.  The degraded result covers all the others, and less precise operands fold only when they are the same
operands; so a less precise operand never gives a more precise result.
-/
namespace ValueFlow
namespace Value

/-! ## Constants -/

def IsConstant : Value → Prop
  | int _ | long _ | single _ | float _ => True
  | _                                   => False

theorem IsConstant.kind {v : Value} (h : v.IsConstant) : ∃ k, v.kind? = some k ∧ v ≠ num k := by
  cases v <;> first | exact ⟨_, rfl, nofun⟩ | cases h

/-- **Only itself and nothing lie under a known number.** -/
theorem eq_of_le_constant {v w : Value} (hv : v.Canonical) (hb : v ≠ bottom) (hw : w.IsConstant) (h : v ≤ w) : v = w := by
  obtain ⟨k, hk, hne⟩ := hw.kind
  have hbelow := (le_iff_below hv (canonical_of_kind hk)).1 h
  exact (kind_of_below_number hk hb hbelow).2.resolve_right hne

theorem exists_ptr_of_le {v : Value} {q : Pointer} (hv : v.Canonical) (hb : v ≠ bottom) (hq : (ptr q).Canonical)
    (h : v ≤ ptr q) : ∃ p, v = ptr p ∧ p ≤ q ∧ p ≠ .bottom := by
  obtain ⟨p, rfl⟩ := exists_ptr_of_below hb ((le_iff_below hv hq).1 h)
  exact ⟨p, rfl, provenance_mono h, fun hp => hv.1 (congrArg ptr hp)⟩

theorem isConstant_of_word? {w : Width} {v : Value} {x : BitVec w.bits} (h : v.word? w = some x) : v.IsConstant := by
  cases w <;> cases v <;> trivial

theorem isConstant_of_real? {w : Width} {v : Value} {x : BitVec w.bits} (h : v.real? w = some x) : v.IsConstant := by
  cases w <;> cases v <;> trivial

theorem isConstant_of_offset? {v : Value} {d : Int64} (h : v.offset? = some d) : v.IsConstant := by
  cases v <;> trivial

@[simp] theorem kind?_word (w : Width) (x : BitVec w.bits) : (word w x).kind? = some w.intKind := by cases w <;> rfl

@[simp] theorem kind?_real (w : Width) (x : BitVec w.bits) : (real w x).kind? = some w.floatKind := by cases w <;> rfl

/-- A division without a result is some number of the kind. -/
theorem kind?_getD_map {α : Type} {k : Kind} {f : α → Value} (hf : ∀ x, (f x).kind? = some k) (o : Option α) :
    ((o.map f).getD (num k)).kind? = some k := by
  cases o with
  | none => exact kind?_num k
  | some x => exact hf x

/-! ## One operand -/

/-- **An operator of one operand that folds to numbers of kind `k` or else degrades**, keeping the operand's provenance
if `keeps`. -/
structure Degrades (k : Kind) (keeps : Bool) (f : Value → Value) : Prop where
  bottom : f .bottom = .bottom
  folds : ∀ {v}, v.IsConstant → (f v).kind? = some k
  degrades : ∀ {v}, v ≠ .bottom → ¬ v.IsConstant → f v = if keeps then unknown k v.provenance else num k

theorem degraded_mono (k : Kind) (keeps : Bool) {v w : Value} (h : v ≤ w) :
    (if keeps then unknown k v.provenance else num k) ≤ (if keeps then unknown k w.provenance else num k) := by
  cases keeps
  · exact le_refl (canonical_num k)
  · exact unknown_mono k (provenance_mono h)

theorem number_le_degraded {k : Kind} {v : Value} (keeps : Bool) (p : Pointer) (h : v.kind? = some k) :
    v ≤ if keeps then unknown k p else num k := by
  cases keeps
  · exact kind_le_num h
  · exact number_le_unknown h p

theorem Degrades.mono {k : Kind} {keeps : Bool} {f : Value → Value} (hf : Degrades k keeps f) {v w : Value}
    (hv : v.Canonical) (h : v ≤ w) : f v ≤ f w := by
  by_cases hb : v = .bottom
  · rw [hb, hf.bottom]
    exact bottom_le _
  by_cases hw : w.IsConstant
  · obtain rfl := eq_of_le_constant hv hb hw h
    exact le_refl (canonical_of_kind (hf.folds hw))
  rw [hf.degrades (ne_bottom_of_le h hb) hw]
  by_cases hc : v.IsConstant
  · exact number_le_degraded keeps _ (hf.folds hc)
  · rw [hf.degrades hb hc]
    exact degraded_mono k keeps h

theorem Degrades.canonical {k : Kind} {keeps : Bool} {f : Value → Value} (hf : Degrades k keeps f) (v : Value) :
    (f v).Canonical := by
  by_cases hb : v = .bottom
  · rw [hb, hf.bottom]
    exact ⟨nofun, nofun⟩
  by_cases hc : v.IsConstant
  · exact canonical_of_kind (hf.folds hc)
  · rw [hf.degrades hb hc]
    cases keeps
    · exact canonical_num k
    · exact canonical_unknown k _

end Value

namespace Unary
open Value

def resultKind : Unary → Kind
  | neg w | not w                                                => w.intKind
  | narrow _ | intOfLong | intOfFloat                            => .int
  | longOfInt | longOfIntUnsigned | longOfFloat                  => .long
  | negFloat w | absFloat w                                      => w.floatKind
  | floatOfSingle | floatOfInt | floatOfLong                     => .float
  | singleOfFloat                                                => .single

/-- Integer operators keep the provenance of what they do not fold. -/
def keepsProvenance : Unary → Bool
  | neg _ | not _ | narrow _ | longOfInt | longOfIntUnsigned | intOfLong => true
  | _                                                                    => false

theorem degrades_eval (op : Unary) : Degrades op.resultKind op.keepsProvenance op.eval where
  bottom := by
    cases op with
    | neg w | not w | negFloat w | absFloat w => cases w <;> rfl
    | _ => rfl
  folds {v} hv := by
    cases op with
    | neg w | not w | negFloat w | absFloat w => cases w <;> cases v <;> first | rfl | cases hv
    | intOfFloat | longOfFloat =>
      cases v with
      | float x => exact kind?_getD_map (fun _ => rfl) _
      | int | long | single => rfl
      | _ => cases hv
    | _ => cases v <;> first | rfl | cases hv
  degrades {v} hb hv := by
    cases op with
    | neg w | not w | negFloat w | absFloat w =>
      cases w <;> cases v <;> first | rfl | exact absurd rfl hb | exact absurd trivial hv
    | _ => cases v <;> first | rfl | exact absurd rfl hb | exact absurd trivial hv

end Unary

/-! ## Two operands -/

namespace Value

/-- What is left of two operands when nothing is folded. -/
def degraded (k : Kind) (keeps : Bool) (a b : Value) : Value :=
  if keeps then degradeTwo k a b else num k

/-- **An operator of two operands that never exceeds its degraded result**, and where it is more precise only grows. -/
structure DegradesTwo (k : Kind) (keeps : Bool) (f : Value → Value → Value) : Prop where
  bottom : ∀ {a b}, a = .bottom ∨ b = .bottom → f a b = .bottom
  canonical : ∀ {a b}, a.Canonical → b.Canonical → (f a b).Canonical
  le_degraded : ∀ {a b}, a.Canonical → b.Canonical → a ≠ .bottom → b ≠ .bottom → f a b ≤ degraded k keeps a b
  sharp : ∀ {a b c d}, a.Canonical → b.Canonical → c.Canonical → d.Canonical → a ≠ .bottom → b ≠ .bottom → a ≤ c →
    b ≤ d → f a b ≤ f c d ∨ f c d = degraded k keeps c d

theorem canonical_degraded (k : Kind) (keeps : Bool) (a b : Value) : (degraded k keeps a b).Canonical := by
  cases keeps
  · exact canonical_num k
  · exact canonical_unknown k _

theorem degraded_mono₂ (k : Kind) (keeps : Bool) {a b c d : Value} (hac : a ≤ c) (hbd : b ≤ d) :
    degraded k keeps a b ≤ degraded k keeps c d := by
  cases keeps
  · exact le_refl (canonical_num k)
  · exact unknown_mono k (Pointer.join_mono (provenance_mono hac) (provenance_mono hbd))

theorem number_le_degraded₂ {k : Kind} {v : Value} (keeps : Bool) (a b : Value) (h : v.kind? = some k) :
    v ≤ degraded k keeps a b :=
  number_le_degraded keeps _ h

theorem DegradesTwo.mono {k : Kind} {keeps : Bool} {f : Value → Value → Value} (hf : DegradesTwo k keeps f)
    {a b c d : Value} (ha : a.Canonical) (hb : b.Canonical) (hc : c.Canonical) (hd : d.Canonical) (hac : a ≤ c)
    (hbd : b ≤ d) : f a b ≤ f c d := by
  by_cases hbot : a = .bottom ∨ b = .bottom
  · rw [hf.bottom hbot]
    exact bottom_le _
  rw [not_or] at hbot
  rcases hf.sharp ha hb hc hd hbot.1 hbot.2 hac hbd with h | h
  · exact h
  · rw [h]
    exact lattice.trans (hf.canonical ha hb) (canonical_degraded k keeps a b) (canonical_degraded k keeps c d)
      (hf.le_degraded ha hb hbot.1 hbot.2) (degraded_mono₂ k keeps hac hbd)

/-- Reading two operands, folding what was read, and degrading everything else. -/
def foldRead {α β : Type} (k : Kind) (keeps : Bool) (read : Value → Option α) (read' : Value → Option β)
    (fold : α → β → Value) (a b : Value) : Value :=
  if a = .bottom ∨ b = .bottom then .bottom
  else match read a, read' b with
    | some x, some y => fold x y
    | _, _           => degraded k keeps a b

section
variable {α β : Type} {k : Kind} {keeps : Bool} {read : Value → Option α} {read' : Value → Option β}
  {fold : α → β → Value}

variable (k keeps read read' fold) in
theorem foldRead_cases {a b : Value} (ha : a ≠ .bottom) (hb : b ≠ .bottom) :
    (∃ x y, read a = some x ∧ read' b = some y ∧ foldRead k keeps read read' fold a b = fold x y) ∨
      foldRead k keeps read read' fold a b = degraded k keeps a b := by
  unfold foldRead
  rw [if_neg (not_or.2 ⟨ha, hb⟩)]
  split
  · rename_i x y hx hy
    exact .inl ⟨x, y, hx, hy, rfl⟩
  · exact .inr rfl

/-- **Folding only known numbers, to numbers of the kind, is an operator that degrades.** -/
theorem degradesTwo_foldRead (hread : ∀ {v x}, read v = some x → v.IsConstant)
    (hread' : ∀ {v y}, read' v = some y → v.IsConstant) (hfold : ∀ x y, (fold x y).kind? = some k) :
    DegradesTwo k keeps (foldRead k keeps read read' fold) where
  bottom h := if_pos h
  canonical {a b} _ _ := by
    by_cases hbot : a = .bottom ∨ b = .bottom
    · rw [foldRead, if_pos hbot]
      exact ⟨nofun, nofun⟩
    rw [not_or] at hbot
    rcases foldRead_cases k keeps read read' fold hbot.1 hbot.2 with ⟨x, y, -, -, h⟩ | h
    · exact h ▸ canonical_of_kind (hfold x y)
    · exact h ▸ canonical_degraded k keeps a b
  le_degraded {a b} _ _ ha hb := by
    rcases foldRead_cases k keeps read read' fold ha hb with ⟨x, y, -, -, h⟩ | h
    · exact h ▸ number_le_degraded₂ keeps a b (hfold x y)
    · rw [h]
      exact le_refl (canonical_degraded k keeps a b)
  sharp {a b c d} ha hb _ _ hna hnb hac hbd := by
    rcases foldRead_cases k keeps read read' fold (ne_bottom_of_le hac hna)
      (ne_bottom_of_le hbd hnb) with ⟨x, y, hx, hy, h⟩ | h
    · obtain rfl := eq_of_le_constant ha hna (hread hx) hac
      obtain rfl := eq_of_le_constant hb hnb (hread' hy) hbd
      exact .inl (h ▸ le_refl (canonical_of_kind (hfold x y)))
    · exact .inr h

end

theorem foldWords_eq (w : Width) (f : BitVec w.bits → BitVec w.bits → Option (BitVec w.bits)) :
    foldWords w f = foldRead w.intKind true (word? w) (word? w)
      (fun x y => ((f x y).map (word w)).getD (num w.intKind)) := by
  funext a b
  unfold foldWords foldRead
  cases a.word? w <;> cases b.word? w <;> rfl

theorem foldShift_eq (w : Width) (op : ShiftOp) :
    foldShift w op = foldRead w.intKind true (word? w) (word? .w32)
      (fun x y => ((op.fold x y.toNat).map (word w)).getD (num w.intKind)) := by
  funext a b
  unfold foldShift foldRead
  cases a.word? w <;> cases b.word? .w32 <;> rfl

theorem foldReals_eq (w : Width) (f : BitVec w.bits → BitVec w.bits → BitVec w.bits) :
    foldReals w f = foldRead w.floatKind false (real? w) (real? w) (fun x y => real w (f x y)) := by
  funext a b
  unfold foldReals foldRead
  cases a.real? w <;> cases b.real? w <;> rfl

theorem degradesTwo_foldWords (w : Width) (f : BitVec w.bits → BitVec w.bits → Option (BitVec w.bits)) :
    DegradesTwo w.intKind true (foldWords w f) := by
  rw [foldWords_eq]
  exact degradesTwo_foldRead isConstant_of_word? isConstant_of_word? fun _ _ => kind?_getD_map (kind?_word w) _

theorem degradesTwo_foldShift (w : Width) (op : ShiftOp) : DegradesTwo w.intKind true (foldShift w op) := by
  rw [foldShift_eq]
  exact degradesTwo_foldRead isConstant_of_word? isConstant_of_word? fun _ _ => kind?_getD_map (kind?_word w) _

theorem degradesTwo_foldReals (w : Width) (f : BitVec w.bits → BitVec w.bits → BitVec w.bits) :
    DegradesTwo w.floatKind false (foldReals w f) := by
  rw [foldReals_eq]
  exact degradesTwo_foldRead isConstant_of_real? isConstant_of_real? fun _ _ => kind?_real w _

/-! ## Pointers plus numbers -/

theorem isPlainNumber_iff {v : Value} : v.isPlainNumber = true ↔ v ≠ bottom ∧ v.provenance = .bottom := by
  simp [isPlainNumber]

theorem ne_ptr_of_isPlainNumber {v : Value} (hv : v.Canonical) (h : v.isPlainNumber = true) (p : Pointer) : v ≠ ptr p := by
  rintro rfl
  exact hv.1 (congrArg ptr (isPlainNumber_iff.1 h).2)

theorem isPlainNumber_of_le {v w : Value} (hb : v ≠ bottom) (h : v ≤ w) (hw : w.isPlainNumber = true) :
    v.isPlainNumber = true := by
  have := provenance_mono h
  rw [(isPlainNumber_iff.1 hw).2, Pointer.le_bottom] at this
  exact isPlainNumber_iff.2 ⟨hb, this⟩

/-- A pointer of class `p` moved by what `g` makes of the number `n`. -/
def movedBy (g : Int64 → Int64) (p : Pointer) (n : Value) : Value :=
  match n.offset? with
  | some d => ptr (p.shift (g d))
  | none   => ptr p.widen

theorem movedBy_eq (g : Int64 → Int64) (p : Pointer) (n : Value) (hp : p ≠ .bottom) :
    ∃ q, movedBy g p n = ptr q ∧ q ≤ p.widen ∧ q ≠ .bottom := by
  unfold movedBy
  split
  · exact ⟨_, rfl, Pointer.shift_le_widen _ p, by simpa using hp⟩
  · exact ⟨_, rfl, le_rfl, by simpa using hp⟩

theorem movedBy_le_degraded {k : Kind} (g : Int64 → Int64) {p q : Pointer} (n : Value) (hp : p ≠ .bottom)
    (h : p ≤ q) : movedBy g p n ≤ unknown k q := by
  obtain ⟨r, hr, hle, hne⟩ := movedBy_eq g p n hp
  rw [hr]
  exact ptr_le_unknown k hne (le_trans hle (Pointer.widen_mono h))

theorem canonical_movedBy (g : Int64 → Int64) {p : Pointer} (n : Value) (hp : p ≠ .bottom) :
    (movedBy g p n).Canonical := by
  obtain ⟨q, hq, -, hne⟩ := movedBy_eq g p n hp
  exact hq ▸ canonical_ptr hne

theorem movedBy_mono (g : Int64 → Int64) {p q : Pointer} {m n : Value} (hp : p ≠ .bottom) (hm : m.Canonical)
    (hmb : m ≠ bottom) (hpq : p ≤ q) (hmn : m ≤ n) : movedBy g p m ≤ movedBy g q n := by
  cases hn : n.offset? with
  | some d =>
    -- a known distance is the same distance on both sides
    obtain rfl := eq_of_le_constant hm hmb (isConstant_of_offset? hn) hmn
    simp only [movedBy, hn]
    exact congrArg ptr (Pointer.join_eq_right.2 (Pointer.shift_mono _ hpq))
  | none =>
    obtain ⟨r, hr, hle, -⟩ := movedBy_eq g p m hp
    rw [hr]
    simp only [movedBy, hn]
    exact congrArg ptr (Pointer.join_eq_right.2 (le_trans hle (Pointer.widen_mono hpq)))

theorem add_ptr_number {w : Width} {p : Pointer} {n : Value} (hn : n.Canonical) (h : n.isPlainNumber = true) :
    add w (ptr p) n = movedBy id p n := by
  have hptr := ne_ptr_of_isPlainNumber hn h
  have hb := (isPlainNumber_iff.1 h).1
  unfold add
  rw [if_neg (by simp [hb])]
  cases n with
  | ptr q => exact absurd rfl (hptr q)
  | _ => exact if_pos h

theorem add_number_ptr {w : Width} {p : Pointer} {n : Value} (hn : n.Canonical) (h : n.isPlainNumber = true) :
    add w n (ptr p) = movedBy id p n := by
  have hptr := ne_ptr_of_isPlainNumber hn h
  have hb := (isPlainNumber_iff.1 h).1
  unfold add
  rw [if_neg (by simp [hb])]
  cases n with
  | ptr q => exact absurd rfl (hptr q)
  | _ => exact if_pos h

/-- Anything but a pointer and a number is added as words are. -/
theorem add_words {w : Width} {a b : Value} (ha : a ≠ bottom) (hb : b ≠ bottom)
    (h : ∀ p, a = ptr p → b.isPlainNumber = false) (h' : ∀ p, b = ptr p → a.isPlainNumber = false) :
    add w a b = foldWords w ArithOp.add.fold a b := by
  unfold add
  rw [if_neg (not_or.2 ⟨ha, hb⟩)]
  split
  · rename_i p q
    rw [h p rfl, h' q rfl]
    rfl
  · rename_i p _
    rw [h p rfl]
    rfl
  · rename_i p _
    rw [h' p rfl]
    rfl
  · rfl

theorem add_cases {w : Width} {a b : Value} (hca : a.Canonical) (hcb : b.Canonical) (ha : a ≠ bottom) (hb : b ≠ bottom) :
    (∃ p, a = ptr p ∧ b.isPlainNumber = true ∧ add w a b = movedBy id p b) ∨
      (∃ p, b = ptr p ∧ a.isPlainNumber = true ∧ add w a b = movedBy id p a) ∨
      add w a b = foldWords w ArithOp.add.fold a b := by
  by_cases h : ∃ p, a = ptr p ∧ b.isPlainNumber = true
  · obtain ⟨p, rfl, hn⟩ := h
    exact .inl ⟨p, rfl, hn, add_ptr_number hcb hn⟩
  by_cases h' : ∃ p, b = ptr p ∧ a.isPlainNumber = true
  · obtain ⟨p, rfl, hn⟩ := h'
    exact .inr (.inl ⟨p, rfl, hn, add_number_ptr hca hn⟩)
  · refine .inr (.inr (add_words ha hb (fun p hp => ?_) fun p hp => ?_))
    · exact Bool.eq_false_iff.2 fun hn => h ⟨p, hp, hn⟩
    · exact Bool.eq_false_iff.2 fun hn => h' ⟨p, hp, hn⟩

/-- Where the less precise operands are words, both sides fold the same words or the larger one degrades. -/
theorem sharp_of_words {w : Width} {f : Value → Value → Value}
    {g : BitVec w.bits → BitVec w.bits → Option (BitVec w.bits)} {a b c d : Value} (hca : a.Canonical) (hcb : b.Canonical)
    (ha : a ≠ bottom) (hb : b ≠ bottom) (hac : a ≤ c) (hbd : b ≤ d) (h : f c d = foldWords w g c d) :
    f a b ≤ f c d ∨ f c d = degraded w.intKind true c d := by
  rw [foldWords_eq] at h
  rcases foldRead_cases _ _ (word? w) (word? w) _ (ne_bottom_of_le hac ha) (ne_bottom_of_le hbd hb) with
    ⟨x, y, hx, hy, hfold⟩ | hdeg
  · obtain rfl := eq_of_le_constant hca ha (isConstant_of_word? hx) hac
    obtain rfl := eq_of_le_constant hcb hb (isConstant_of_word? hy) hbd
    rw [h, hfold]
    exact .inl (le_refl (canonical_of_kind (kind?_getD_map (kind?_word w) _)))
  · exact .inr (h.trans hdeg)

theorem degradesTwo_add (w : Width) : DegradesTwo w.intKind true (add w) where
  bottom h := if_pos h
  canonical {a b} hca hcb := by
    by_cases hbot : a = .bottom ∨ b = .bottom
    · rw [show add w a b = .bottom from if_pos hbot]
      exact ⟨nofun, nofun⟩
    rw [not_or] at hbot
    rcases add_cases (w := w) hca hcb hbot.1 hbot.2 with ⟨p, rfl, -, h⟩ | ⟨p, rfl, -, h⟩ | h
    · exact h ▸ canonical_movedBy id b fun hp => hca.1 (congrArg ptr hp)
    · exact h ▸ canonical_movedBy id a fun hp => hcb.1 (congrArg ptr hp)
    · exact h ▸ (degradesTwo_foldWords w _).canonical hca hcb
  le_degraded {a b} hca hcb ha hb := by
    rcases add_cases (w := w) hca hcb ha hb with ⟨p, rfl, -, h⟩ | ⟨p, rfl, -, h⟩ | h
    · rw [h]
      exact movedBy_le_degraded id b (fun hp => hca.1 (congrArg ptr hp)) (Pointer.le_join_left _ _)
    · rw [h]
      exact movedBy_le_degraded id a (fun hp => hcb.1 (congrArg ptr hp)) (Pointer.le_join_right _ _)
    · rw [h]
      exact (degradesTwo_foldWords w _).le_degraded hca hcb ha hb
  sharp {a b c d} hca hcb hcc hcd ha hb hac hbd := by
    rcases add_cases (w := w) hcc hcd (ne_bottom_of_le hac ha) (ne_bottom_of_le hbd hb) with
      ⟨q, rfl, hn, h⟩ | ⟨q, rfl, hn, h⟩ | h
    · obtain ⟨p, rfl, hpq, hp⟩ := exists_ptr_of_le hca ha hcc hac
      rw [h, add_ptr_number hcb (isPlainNumber_of_le hb hbd hn)]
      exact .inl (movedBy_mono id hp hcb hb hpq hbd)
    · obtain ⟨p, rfl, hpq, hp⟩ := exists_ptr_of_le hcb hb hcd hbd
      rw [h, add_number_ptr hca (isPlainNumber_of_le ha hac hn)]
      exact .inl (movedBy_mono id hp hca ha hpq hac)
    · exact sharp_of_words hca hcb ha hb hac hbd h

/-- Pointers with a distance are single addresses. -/
theorem eq_of_le_distance {a b c d : Value} {n : Int64} (hca : a.Canonical) (hcb : b.Canonical) (hcc : c.Canonical)
    (hcd : d.Canonical) (ha : a ≠ bottom) (hb : b ≠ bottom) (hac : a ≤ c) (hbd : b ≤ d) (h : distance? c d = some n) :
    a = c ∧ b = d := by
  have hexact : ∃ p q, c = ptr p ∧ d = ptr q ∧ p.widen ≠ p ∧ q.widen ≠ q := by
    unfold distance? at h
    split at h
    · exact ⟨_, _, rfl, rfl, nofun, nofun⟩
    · exact ⟨_, _, rfl, rfl, nofun, nofun⟩
    · cases h
  obtain ⟨r, s, rfl, rfl, hr, hs⟩ := hexact
  obtain ⟨p, rfl, hpr, hp⟩ := exists_ptr_of_le hca ha hcc hac
  obtain ⟨q, rfl, hqs, hq⟩ := exists_ptr_of_le hcb hb hcd hbd
  exact ⟨congrArg ptr ((Pointer.eq_of_le_offset hpr hr).resolve_left hp),
    congrArg ptr ((Pointer.eq_of_le_offset hqs hs).resolve_left hq)⟩

theorem sub_ptr_number {w : Width} {p : Pointer} {n : Value} (h : n.isPlainNumber = true) :
    sub w (ptr p) n = movedBy (fun d => -d) p n := by
  have hb := (isPlainNumber_iff.1 h).1
  unfold sub
  rw [if_neg (by simp [hb])]
  exact if_pos h

theorem sub_cases {w : Width} {a b : Value} (ha : a ≠ bottom) (hb : b ≠ bottom) :
    (∃ p, a = ptr p ∧ b.isPlainNumber = true ∧ sub w a b = movedBy (fun d => -d) p b) ∨
      (∃ n, w = .w64 ∧ distance? a b = some n ∧ sub w a b = long n) ∨
      sub w a b = foldWords w ArithOp.sub.fold a b := by
  by_cases h : ∃ p, a = ptr p ∧ b.isPlainNumber = true
  · obtain ⟨p, rfl, hn⟩ := h
    exact .inl ⟨p, rfl, hn, sub_ptr_number hn⟩
  refine .inr ?_
  unfold sub
  rw [if_neg (not_or.2 ⟨ha, hb⟩)]
  split
  · rename_i p
    rw [if_neg fun hn => h ⟨p, rfl, hn⟩]
    split
    · rename_i n hn
      exact .inl ⟨n, rfl, hn, rfl⟩
    · exact .inr rfl
  · exact .inr rfl

theorem degradesTwo_sub (w : Width) : DegradesTwo w.intKind true (sub w) where
  bottom h := if_pos h
  canonical {a b} hca hcb := by
    by_cases hbot : a = .bottom ∨ b = .bottom
    · rw [show sub w a b = .bottom from if_pos hbot]
      exact ⟨nofun, nofun⟩
    rw [not_or] at hbot
    rcases sub_cases (w := w) hbot.1 hbot.2 with ⟨p, rfl, -, h⟩ | ⟨n, -, -, h⟩ | h
    · exact h ▸ canonical_movedBy _ b fun hp => hca.1 (congrArg ptr hp)
    · exact h ▸ canonical_of_kind rfl
    · exact h ▸ (degradesTwo_foldWords w _).canonical hca hcb
  le_degraded {a b} hca hcb ha hb := by
    rcases sub_cases (w := w) ha hb with ⟨p, rfl, -, h⟩ | ⟨n, rfl, -, h⟩ | h
    · rw [h]
      exact movedBy_le_degraded _ b (fun hp => hca.1 (congrArg ptr hp)) (Pointer.le_join_left _ _)
    · rw [h]
      exact number_le_degraded₂ true a b rfl
    · rw [h]
      exact (degradesTwo_foldWords w _).le_degraded hca hcb ha hb
  sharp {a b c d} hca hcb hcc hcd ha hb hac hbd := by
    rcases sub_cases (w := w) (ne_bottom_of_le hac ha) (ne_bottom_of_le hbd hb) with
      ⟨q, rfl, hn, h⟩ | ⟨n, rfl, hn, h⟩ | h
    · obtain ⟨p, rfl, hpq, hp⟩ := exists_ptr_of_le hca ha hcc hac
      rw [h, sub_ptr_number (isPlainNumber_of_le hb hbd hn)]
      exact .inl (movedBy_mono _ hp hcb hb hpq hbd)
    · obtain ⟨rfl, rfl⟩ := eq_of_le_distance hca hcb hcc hcd ha hb hac hbd hn
      exact .inl (h ▸ le_refl (canonical_of_kind rfl))
    · exact sharp_of_words hca hcb ha hb hac hbd h

end Value

namespace Binary
open Value

def resultKind : Binary → Kind
  | arith w _ | shift w _ => w.intKind
  | float w _             => w.floatKind

def keepsProvenance : Binary → Bool
  | arith _ _ | shift _ _ => true
  | float _ _             => false

theorem degradesTwo_eval (op : Binary) : DegradesTwo op.resultKind op.keepsProvenance op.eval := by
  cases op with
  | arith w op =>
    cases op with
    | add => exact degradesTwo_add w
    | sub => exact degradesTwo_sub w
    | _ => exact degradesTwo_foldWords w _
  | shift w op => exact degradesTwo_foldShift w op
  | float w op => exact degradesTwo_foldReals w _

end Binary

/-! ## Conditions -/

/-- `contradiction` knows most, `either` least. -/
instance : LE Verdict := ⟨fun a b => a = .contradiction ∨ b = .either ∨ a = b⟩

namespace Verdict

theorem le_rfl {a : Verdict} : a ≤ a := .inr (.inr rfl)

theorem le_either (a : Verdict) : a ≤ either := .inr (.inl rfl)

theorem mayBeTrue_mono {a b : Verdict} (h : a ≤ b) (ha : a.mayBeTrue = true) : b.mayBeTrue = true := by
  rcases h with rfl | rfl | rfl
  · cases ha
  · rfl
  · exact ha

theorem mayBeFalse_mono {a b : Verdict} (h : a ≤ b) (ha : a.mayBeFalse = true) : b.mayBeFalse = true := by
  rcases h with rfl | rfl | rfl
  · cases ha
  · rfl
  · exact ha

theorem canonical_value (a : Verdict) : a.value.Canonical := by cases a <;> exact ⟨nofun, nofun⟩

theorem value_mono {a b : Verdict} (h : a ≤ b) : a.value ≤ b.value := by
  rcases h with rfl | rfl | rfl
  · exact Value.bottom_le _
  · cases a <;> rfl
  · exact Value.le_refl (canonical_value a)

end Verdict

namespace Condition
open Value

/-- **A test that answers only on known numbers is monotone.** -/
theorem mono_of_constants {f : Value → Value → Verdict} {a b c d : Value}
    (hf : ¬ (c.IsConstant ∧ d.IsConstant) → f c d = .either) (hca : a.Canonical) (hcb : b.Canonical)
    (ha : a ≠ .bottom) (hb : b ≠ .bottom) (hac : a ≤ c) (hbd : b ≤ d) : f a b ≤ f c d := by
  by_cases h : c.IsConstant ∧ d.IsConstant
  · rw [eq_of_le_constant hca ha h.1 hac, eq_of_le_constant hcb hb h.2 hbd]
    exact Verdict.le_rfl
  · rw [hf h]
    exact Verdict.le_either _

/-- Comparisons of numbers, not of addresses, answer only on known numbers. -/
theorem test_of_unknown {cond : Condition} (harity : cond.arity = 2) (haddr : ∀ cmp, cond ≠ .cmplu cmp) {c d : Value}
    (h : ¬ (c.IsConstant ∧ d.IsConstant)) : cond.test c d = .either := by
  cases cond with
  | cmplu cmp => exact absurd rfl (haddr cmp)
  | cmpImm | cmpluImm | maskZero | maskNotZero => cases harity
  | _ => cases c <;> cases d <;> first | rfl | exact absurd ⟨trivial, trivial⟩ h

theorem testInt_mono (f : Int32 → Bool) {a c : Value} (hca : a.Canonical) (ha : a ≠ .bottom) (hac : a ≤ c) :
    testInt f a ≤ testInt f c := by
  by_cases hc : c.IsConstant
  · rw [eq_of_le_constant hca ha hc hac]
    exact Verdict.le_rfl
  · cases c with
    | int => exact absurd trivial hc
    | _ => exact Verdict.le_either _

theorem testAddresses_mono (cmp : Comparison) {a b c d : Value} (hca : a.Canonical) (hcb : b.Canonical)
    (hcc : c.Canonical) (hcd : d.Canonical) (ha : a ≠ .bottom) (hb : b ≠ .bottom) (hac : a ≤ c) (hbd : b ≤ d) :
    testAddresses cmp a b ≤ testAddresses cmp c d := by
  cases c with
  | long x =>
    obtain rfl := eq_of_le_constant (w := .long x) hca ha trivial hac
    cases d with
    | long y =>
      obtain rfl := eq_of_le_constant (w := .long y) hcb hb trivial hbd
      exact Verdict.le_rfl
    | ptr q =>
      obtain ⟨p, rfl, -, -⟩ := exists_ptr_of_le hcb hb hcd hbd
      exact Verdict.le_rfl
    | _ => exact Verdict.le_either _
  | ptr r =>
    obtain ⟨p, rfl, hpr, -⟩ := exists_ptr_of_le hca ha hcc hac
    cases d with
    | long y =>
      obtain rfl := eq_of_le_constant (w := .long y) hcb hb trivial hbd
      exact Verdict.le_rfl
    | ptr s =>
      obtain ⟨q, rfl, hqs, -⟩ := exists_ptr_of_le hcb hb hcd hbd
      by_cases hdis : r.disjoint s = true
      · simp only [testAddresses, hdis, Pointer.disjoint_anti hpr hqs hdis, if_true]
        exact Verdict.le_rfl
      · simp only [testAddresses, hdis]
        exact Verdict.le_either _
    | _ => exact Verdict.le_either _
  | _ => exact Verdict.le_either _

/-- **Less precise arguments never decide a condition the other way**; arguments a condition does not read may be
anything. -/
theorem test_mono (cond : Condition) {a b c d : Value} (hca : a.Canonical) (hcb : b.Canonical) (hcc : c.Canonical)
    (hcd : d.Canonical) (ha : a ≠ .bottom) (hb : cond.arity = 2 → b ≠ .bottom) (hac : a ≤ c) (hbd : b ≤ d) :
    cond.test a b ≤ cond.test c d := by
  cases cond with
  | cmpImm | maskZero | maskNotZero => exact testInt_mono _ hca ha hac
  | cmplu => exact testAddresses_mono _ hca hcb hcc hcd ha (hb rfl) hac hbd
  | cmpluImm _ n =>
    have hn : (Value.long n).Canonical := ⟨nofun, nofun⟩
    exact testAddresses_mono _ hca hn hcc hn ha nofun hac (Value.le_refl hn)
  | cmp | cmpu | cmpl | cmpf | notCmpf | cmpfs =>
    refine mono_of_constants (test_of_unknown rfl fun _ h => ?_) hca hcb ha (hb rfl) hac hbd
    cases h

theorem eval_cases (cond : Condition) (args : List Value) :
    cond.eval args = .contradiction ∨
      (∀ i < cond.arity, argument args i ≠ .bottom) ∧
        cond.eval args = cond.test (argument args 0) (argument args 1) := by
  by_cases h : (List.range cond.arity).any (fun i => argument args i == .bottom) = true
  · exact .inl (if_pos h)
  · refine .inr ⟨fun i hi hbot => h ?_, if_neg h⟩
    exact List.any_eq_true.2 ⟨i, List.mem_range.2 hi, beq_iff_eq.2 hbot⟩

theorem eval_eq_test {cond : Condition} {args : List Value} (h : ∀ i < cond.arity, argument args i ≠ .bottom) :
    cond.eval args = cond.test (argument args 0) (argument args 1) := by
  refine if_neg fun hany => ?_
  obtain ⟨i, hi, hbot⟩ := List.any_eq_true.1 hany
  exact h i (List.mem_range.1 hi) (beq_iff_eq.1 hbot)

theorem arity_pos (cond : Condition) : 0 < cond.arity := by cases cond <;> exact Nat.succ_pos _

end Condition

/-! ## Argument lists -/

/-- Canonical arguments, each below its counterpart. -/
structure ArgsLe (args args' : List Value) : Prop where
  canonical : ∀ v ∈ args, v.Canonical
  canonical' : ∀ v ∈ args', v.Canonical
  le : List.Forall₂ (· ≤ ·) args args'

theorem canonical_argument {args : List Value} (h : ∀ v ∈ args, v.Canonical) (i : Nat) : (argument args i).Canonical := by
  unfold argument
  cases hv : args[i]? with
  | none => exact ⟨nofun, nofun⟩
  | some v => exact h v (List.mem_of_getElem? hv)

theorem argument_mono {args args' : List Value} (h : List.Forall₂ (· ≤ ·) args args') (i : Nat) :
    argument args i ≤ argument args' i := by
  induction h generalizing i with
  | nil => exact Value.le_refl (v := .top) ⟨nofun, nofun⟩
  | cons hv _ ih =>
    cases i with
    | zero => exact hv
    | succ i => exact ih i

theorem Operation.canonical_eval {args : List Value} (h : ∀ v ∈ args, v.Canonical) (op : Operation) :
    (op.eval args).Canonical := by
  have h₀ := canonical_argument h 0
  cases op with
  | move => exact h₀
  | unary op => exact op.degrades_eval.canonical _
  | binary op => exact op.degradesTwo_eval.canonical h₀ (canonical_argument h 1)
  | addImmLong n => exact (Value.degradesTwo_add .w64).canonical h₀ ⟨nofun, nofun⟩
  | cmp cond => exact Verdict.canonical_value _
  | _ => exact ⟨nofun, nofun⟩

namespace ArgsLe
variable {args args' : List Value}

theorem argument (h : ArgsLe args args') (i : Nat) :
    (argument args i).Canonical ∧ (ValueFlow.argument args' i).Canonical ∧
      ValueFlow.argument args i ≤ ValueFlow.argument args' i :=
  ⟨canonical_argument h.canonical i, canonical_argument h.canonical' i, argument_mono h.le i⟩

theorem condition (h : ArgsLe args args') (cond : Condition) : cond.eval args ≤ cond.eval args' := by
  rcases cond.eval_cases args with hc | ⟨hne, ht⟩
  · exact .inl hc
  obtain ⟨hca, hcc, hac⟩ := h.argument 0
  obtain ⟨hcb, hcd, hbd⟩ := h.argument 1
  rw [ht, Condition.eval_eq_test fun i hi => Value.ne_bottom_of_le (argument_mono h.le i) (hne i hi)]
  exact cond.test_mono hca hcb hcc hcd (hne 0 cond.arity_pos) (fun h₂ => hne 1 (by omega)) hac hbd

theorem operation (h : ArgsLe args args') (op : Operation) : op.eval args ≤ op.eval args' := by
  obtain ⟨hca, hcc, hac⟩ := h.argument 0
  obtain ⟨hcb, hcd, hbd⟩ := h.argument 1
  cases op with
  | move => exact hac
  | unary op => exact op.degrades_eval.mono hca hac
  | binary op => exact op.degradesTwo_eval.mono hca hcb hcc hcd hac hbd
  | addImmLong n =>
    have hn : (Value.long n).Canonical := ⟨nofun, nofun⟩
    exact (Value.degradesTwo_add .w64).mono hca hn hcc hn hac (Value.le_refl hn)
  | cmp cond => exact Verdict.value_mono (h.condition cond)
  | _ => exact Value.le_refl ⟨nofun, nofun⟩

theorem addressing (h : ArgsLe args args') (addr : Addressing) : addr.eval args ≤ addr.eval args' := by
  obtain ⟨hca, hcc, hac⟩ := h.argument 0
  obtain ⟨hcb, hcd, hbd⟩ := h.argument 1
  cases addr with
  | indexed n =>
    have hn : (Value.long n).Canonical := ⟨nofun, nofun⟩
    exact (Value.degradesTwo_add .w64).mono hca hn hcc hn hac (Value.le_refl hn)
  | indexed2 => exact (Value.degradesTwo_add .w64).mono hca hcb hcc hcd hac hbd
  | _ => exact Value.le_refl ⟨nofun, nofun⟩

end ArgsLe

/-- **Less precise arguments never give a more precise result**, of an operation or of a condition; so what is folded from
known numbers is covered by what is computed from anything above them.  Of floating-point arithmetic nothing is used but
that it is a function of the bits. -/
theorem operators_monotone {args args' : List Value} (hargs : ∀ v ∈ args, v.Canonical) (hargs' : ∀ v ∈ args', v.Canonical)
    (h : List.Forall₂ (fun v w => v.le w = true) args args') :
    (∀ op : Operation, (op.eval args).le (op.eval args') = true) ∧ ∀ cond : Condition, cond.eval args ≤ cond.eval args' := by
  have hle : ArgsLe args args' := ⟨hargs, hargs', h.imp fun _ _ => Value.le_eq_true.1⟩
  exact ⟨fun op => Value.le_eq_true.2 (hle.operation op), hle.condition⟩

/-- A frame address that loses its offset, beside a null that becomes any number: the sum loses the offset too, and the
comparison that said they differ is undecided. -/
theorem operators_monotone_frameAddress :
    let args : List Value := [.ptr (.stackAt 8), .long 0]
    let args' : List Value := [.ptr .anyStack, .num .long]
    List.Forall₂ (fun v w : Value => v.le w = true) args args' ∧
      ((Operation.binary (.arith .w64 .add)).eval args = .ptr (.stackAt 8) ∧
        (Value.ptr (.stackAt 8)).le ((Operation.binary (.arith .w64 .add)).eval args') = true) ∧
      (Condition.cmplu .ne).eval args = .yes ∧ (Condition.cmplu .ne).eval args' = .either ∧ Verdict.yes ≤ Verdict.either := by
  intro args args'
  have hargs : ∀ v ∈ args, v.Canonical := by decide
  have hargs' : ∀ v ∈ args', v.Canonical := by decide
  have hle : List.Forall₂ (fun v w : Value => v.le w = true) args args' := .cons (by decide) (.cons (by decide) .nil)
  obtain ⟨hops, hconds⟩ := operators_monotone hargs hargs' hle
  exact ⟨hle, ⟨by decide, hops (.binary (.arith .w64 .add))⟩, by decide, by decide, hconds (.cmplu .ne)⟩

end ValueFlow
