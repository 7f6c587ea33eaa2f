import ValueFlow.Domain
/-!
# The order that a join makes

Most domains here order their elements by their join: `a` is below `b` when joining it to `b` changes nothing.  The laws
of a join hold only of well-formed elements (a value `numOrPtr top` is not its own join), so they are stated on a
predicate that the join keeps.
-/
namespace ValueFlow

/-- **`join` obeys the laws of a semilattice on the elements of `P`.** -/
structure SemilatticeOn {L : Type} (P : L → Prop) (join : L → L → L) : Prop where
  closed : ∀ {a b}, P a → P b → P (join a b)
  comm : ∀ {a b}, P a → P b → join a b = join b a
  assoc : ∀ {a b c}, P a → P b → P c → join (join a b) c = join a (join b c)
  idem : ∀ {a}, P a → join a a = a

namespace SemilatticeOn
variable {L : Type} {P : L → Prop} {join : L → L → L} {a b c d : L}

theorem trans (s : SemilatticeOn P join) (ha : P a) (hb : P b) (hc : P c) (hab : join a b = b) (hbc : join b c = c) :
    join a c = c := by
  rw [← hbc, ← s.assoc ha hb hc, hab]

theorem antisymm (s : SemilatticeOn P join) (ha : P a) (hb : P b) (hab : join a b = b) (hba : join b a = a) : a = b := by
  rw [← hba, s.comm hb ha, hab]

theorem le_join_left (s : SemilatticeOn P join) (ha : P a) (hb : P b) : join a (join a b) = join a b := by
  rw [← s.assoc ha ha hb, s.idem ha]

theorem le_join_right (s : SemilatticeOn P join) (ha : P a) (hb : P b) : join b (join a b) = join a b := by
  rw [s.comm ha hb]
  exact s.le_join_left hb ha

theorem join_le (s : SemilatticeOn P join) (ha : P a) (hb : P b) (hc : P c) (hac : join a c = c) (hbc : join b c = c) :
    join (join a b) c = c := by
  rw [s.assoc ha hb hc, hbc, hac]

theorem join_mono (s : SemilatticeOn P join) (ha : P a) (hb : P b) (hc : P c) (hd : P d) (hac : join a c = c)
    (hbd : join b d = d) : join (join a b) (join c d) = join c d := by
  have hcd := s.closed hc hd
  refine s.join_le ha hb hcd ?_ ?_
  · exact s.trans ha hc hcd hac (s.le_join_left hc hd)
  · exact s.trans hb hd hcd hbd (s.le_join_right hc hd)

/-- What holds on `P` holds on every part of it that the join keeps. -/
theorem restrict (s : SemilatticeOn P join) {Q : L → Prop} (hQ : ∀ {a}, Q a → P a)
    (closed : ∀ {a b}, Q a → Q b → Q (join a b)) : SemilatticeOn Q join where
  closed := closed
  comm ha hb := s.comm (hQ ha) (hQ hb)
  assoc ha hb hc := s.assoc (hQ ha) (hQ hb) (hQ hc)
  idem ha := s.idem (hQ ha)

end SemilatticeOn

/-- **A join-semilattice with a greatest element**, whose order is tested by `le`. -/
structure JoinLawsOn {L : Type} (P : L → Prop) (join : L → L → L) (le : L → L → Bool) (top : L) : Prop where
  top_mem : P top
  closed : ∀ a b, P a → P b → P (join a b)
  comm : ∀ a b, P a → P b → join a b = join b a
  assoc : ∀ a b c, P a → P b → P c → join (join a b) c = join a (join b c)
  idem : ∀ a, P a → join a a = a
  top_join : ∀ a, P a → join top a = top
  join_top : ∀ a, P a → join a top = top
  le_refl : ∀ a, P a → le a a = true
  le_antisymm : ∀ a b, P a → P b → le a b = true → le b a = true → a = b
  le_trans : ∀ a b c, P a → P b → P c → le a b = true → le b c = true → le a c = true
  le_join_left : ∀ a b, P a → P b → le a (join a b) = true
  le_join_right : ∀ a b, P a → P b → le b (join a b) = true
  join_le : ∀ a b c, P a → P b → P c → le a c = true → le b c = true → le (join a b) c = true

theorem SemilatticeOn.joinLaws {L : Type} {P : L → Prop} {join : L → L → L} (s : SemilatticeOn P join)
    {le : L → L → Bool} (hle : ∀ {a b}, le a b = true ↔ join a b = b) {top : L} (htop : P top)
    (habsorb : ∀ a, P a → join top a = top) : JoinLawsOn P join le top where
  top_mem := htop
  closed _ _ ha hb := s.closed ha hb
  comm _ _ ha hb := s.comm ha hb
  assoc _ _ _ ha hb hc := s.assoc ha hb hc
  idem _ ha := s.idem ha
  top_join := habsorb
  join_top a ha := (s.comm ha htop).trans (habsorb a ha)
  le_refl _ ha := hle.2 (s.idem ha)
  le_antisymm _ _ ha hb hab hba := s.antisymm ha hb (hle.1 hab) (hle.1 hba)
  le_trans _ _ _ ha hb hc hab hbc := hle.2 (s.trans ha hb hc (hle.1 hab) (hle.1 hbc))
  le_join_left _ _ ha hb := hle.2 (s.le_join_left ha hb)
  le_join_right _ _ ha hb := hle.2 (s.le_join_right ha hb)
  join_le _ _ _ ha hb hc hac hbc := hle.2 (s.join_le ha hb hc (hle.1 hac) (hle.1 hbc))

/-- **With a least element as well**, and the order that `le` tests is the one that the join makes. -/
structure BoundedJoinLawsOn {L : Type} (P : L → Prop) (join : L → L → L) (le : L → L → Bool) (bottom top : L) : Prop
    extends JoinLawsOn P join le top where
  bottom_mem : P bottom
  bottom_join : ∀ a, P a → join bottom a = a
  join_bottom : ∀ a, P a → join a bottom = a
  le_iff : ∀ a b, P a → P b → (le a b = true ↔ join a b = b)

theorem SemilatticeOn.boundedJoinLaws {L : Type} {P : L → Prop} {join : L → L → L} (s : SemilatticeOn P join)
    {le : L → L → Bool} (hle : ∀ {a b}, le a b = true ↔ join a b = b) {bottom top : L} (hbottom : P bottom) (htop : P top)
    (hidentity : ∀ a, P a → join bottom a = a) (habsorb : ∀ a, P a → join top a = top) :
    BoundedJoinLawsOn P join le bottom top where
  toJoinLawsOn := s.joinLaws hle htop habsorb
  bottom_mem := hbottom
  bottom_join := hidentity
  join_bottom a ha := (s.comm ha hbottom).trans (hidentity a ha)
  le_iff _ _ _ _ := hle

/-- **A least upper bound makes a semilattice.**  The order `R` may be coded apart from the join. -/
theorem SemilatticeOn.of_lub {L : Type} {P : L → Prop} {join : L → L → L} (R : L → L → Prop)
    (closed : ∀ {a b}, P a → P b → P (join a b))
    (refl : ∀ a, R a a) (trans : ∀ {a b c}, R a b → R b c → R a c)
    (antisymm : ∀ {a b}, P a → P b → R a b → R b a → a = b)
    (left : ∀ {a b}, P a → P b → R a (join a b)) (right : ∀ {a b}, P a → P b → R b (join a b))
    (least : ∀ {a b c}, P a → P b → P c → R a c → R b c → R (join a b) c) : SemilatticeOn P join where
  closed := closed
  comm {a b} ha hb :=
    have hab := closed ha hb
    have hba := closed hb ha
    antisymm hab hba (least ha hb hba (right hb ha) (left hb ha)) (least hb ha hab (right ha hb) (left ha hb))
  assoc {a b c} ha hb hc := by
    have hab := closed ha hb
    have hbc := closed hb hc
    have hl := closed hab hc
    have hr := closed ha hbc
    apply antisymm hl hr
    · refine least hab hc hr (least ha hb hr (left ha hbc) ?_) ?_
      · exact trans (left hb hc) (right ha hbc)
      · exact trans (right hb hc) (right ha hbc)
    · refine least ha hbc hl ?_ (least hb hc hl ?_ (right hab hc))
      · exact trans (left ha hb) (left hab hc)
      · exact trans (right ha hb) (left hab hc)
  idem {a} ha := antisymm (closed ha ha) ha (least ha ha ha (refl a) (refl a)) (left ha ha)

/-- **A semilattice with nothing known above it.**  What one side does not know, the join does not. -/
theorem SemilatticeOn.option {L : Type} {P : L → Prop} {join : L → L → L} (s : SemilatticeOn P join) :
    SemilatticeOn (fun x : Option L => ∀ a, x = some a → P a) (fun x y => x.bind fun a => y.map (join a)) where
  closed {x y} hx hy c h := by
    obtain ⟨a, ha, hc⟩ := Option.bind_eq_some_iff.1 h
    obtain ⟨b, hb, rfl⟩ := Option.map_eq_some_iff.1 hc
    exact s.closed (hx a ha) (hy b hb)
  comm {x y} hx hy := by
    cases x with
    | none => cases y <;> rfl
    | some a =>
      cases y with
      | none => rfl
      | some b => exact congrArg some (s.comm (hx a rfl) (hy b rfl))
  assoc {x y z} hx hy hz := by
    cases x with
    | none => rfl
    | some a =>
      cases y with
      | none => rfl
      | some b =>
        cases z with
        | none => rfl
        | some c => exact congrArg some (s.assoc (hx a rfl) (hy b rfl) (hz c rfl))
  idem {x} hx := by
    cases x with
    | none => rfl
    | some a => exact congrArg some (s.idem (hx a rfl))

end ValueFlow
