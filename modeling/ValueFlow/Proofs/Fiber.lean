import ValueFlow.Proofs.PostFixpoint
/-!
# The lattice of fibers

A fiber that has an explicit `bottom` says the same as one that leaves it out, and joins keep such entries.  So the laws
hold up to `==` only, and are proved by what each node gets: two fibers are equal when they are both `top` or neither is,
and every node gets the same from both (`beq_iff`); and a node gets from a join what it gets from its two sides, joined
(`get_join`).
-/
namespace ValueFlow

/-! ## Lists of entries that say something -/

section
variable {κ L : Type} [DecidableEq κ] [Domain L] [BEq L] {l m : List (κ × L)}

/-- Every key has the same in both lists, where nothing stands for `bottom`. -/
def LookupsAgree (l m : List (κ × L)) : Prop :=
  ∀ k, (lookupEntry k l).getD Domain.bottom == (lookupEntry k m).getD Domain.bottom

/-- No entry is `bottom`. -/
def Telling (l : List (κ × L)) : Prop := ∀ e ∈ l, Domain.isBottom e.2 = false

theorem LookupsAgree.exists_mem [Key κ] (h : LookupsAgree l m) (hl : Ascending l) (hm : Ascending m) (htell : Telling l)
    {e : κ × L} (he : e ∈ l) : ∃ d ∈ m, d.1 = e.1 := by
  have hfind : lookupEntry e.1 l = some e.2 := (mem_iff_lookupEntry hl).1 he
  have hk := h e.1
  rw [hfind, Option.getD_some] at hk
  cases hother : lookupEntry e.1 m with
  | none =>
    rw [hother, Option.getD_none] at hk
    have hnot := htell e he
    rw [Domain.isBottom, hk] at hnot
    cases hnot
  | some b => exact ⟨(e.1, b), (mem_iff_lookupEntry hm).2 hother, rfl⟩

variable [LawfulUpToBEq L]

theorem LookupsAgree.symm (h : LookupsAgree l m) : LookupsAgree m l := fun k => PartialEquivBEq.symm (h k)

theorem lookupsAgree_of_beq : ∀ {l m : List (κ × L)}, (l == m) = true → LookupsAgree l m
  | [], [], _, _ => Domain.beq_self _
  | [], _ :: _, h, _ => by cases h
  | _ :: _, [], h, _ => by cases h
  | (i, a) :: l, (j, b) :: m, h, k => by
    obtain ⟨hhead, htail⟩ := Bool.and_eq_true_iff.1 h
    obtain ⟨hkey, hvalue⟩ := Bool.and_eq_true_iff.1 hhead
    obtain rfl : i = j := eq_of_beq hkey
    simp only [lookupEntry]
    split
    · exact hvalue
    · exact lookupsAgree_of_beq htail k

/-- **Ascending lists of entries that say something are equal where their look-ups are.** -/
theorem beq_of_lookupsAgree [Key κ] : ∀ {l m : List (κ × L)}, Ascending l → Ascending m → Telling l → Telling m →
    LookupsAgree l m → (l == m) = true
  | [], [], _, _, _, _, _ => rfl
  | [], d :: m, hl, hm, _, htm, h => by
    obtain ⟨_, he, -⟩ := h.symm.exists_mem hm hl htm List.mem_cons_self
    cases he
  | e :: l, [], hl, hm, htl, _, h => by
    obtain ⟨_, hd, -⟩ := h.exists_mem hl hm htl List.mem_cons_self
    cases hd
  | (i, a) :: l, (j, b) :: m, hl, hm, htl, htm, h => by
    have hl' := List.pairwise_cons.1 hl
    have hm' := List.pairwise_cons.1 hm
    -- each head is listed on the other side, where nothing comes before the head
    have hij : i = j := by
      obtain ⟨d, hd, hdi⟩ := h.exists_mem hl hm htl List.mem_cons_self
      obtain ⟨e, he, hej⟩ := h.symm.exists_mem hm hl htm List.mem_cons_self
      rcases List.mem_cons.1 hd with rfl | hd
      · exact hdi.symm
      rcases List.mem_cons.1 he with rfl | he
      · exact hej
      have hlt := hm'.1 d hd
      have hgt := hl'.1 e he
      simp only [hdi, hej] at hlt hgt
      omega
    subst hij
    have hab : a == b := by simpa [lookupEntry] using h i
    have htail : LookupsAgree l m := fun k => by
      by_cases hk : i = k
      · subst hk
        rw [lookupEntry_eq_none_of_lt hl'.1, lookupEntry_eq_none_of_lt hm'.1]
        exact Domain.beq_self _
      · simpa [lookupEntry, hk] using h k
    have hrest := beq_of_lookupsAgree hl'.2 hm'.2 (fun e he => htl e (List.mem_cons_of_mem _ he))
      (fun e he => htm e (List.mem_cons_of_mem _ he)) htail
    exact Bool.and_eq_true_iff.2 ⟨Bool.and_eq_true_iff.2 ⟨beq_self_eq_true i, hab⟩, hrest⟩

end

namespace Fiber
variable {L : Type} [Domain L] [BEq L]

/-! ## Equality by what each node gets -/

theorem ascending_support (t : Table Node L) : Ascending (support t) := t.ascending.filter _

theorem telling_support (t : Table Node L) : Telling (support t) := fun e he => by
  simpa using (List.mem_filter.1 he).2

theorem lookupEntry_support (t : Table Node L) (n : Node) :
    lookupEntry n (support t) = (t.get? n).filter (fun x => !Domain.isBottom x) := by
  apply Option.ext
  intro x
  rw [← mem_iff_lookupEntry (ascending_support t), support, List.mem_filter, Table.mem_entries_iff,
    Option.filter_eq_some_iff]

variable [LawfulUpToBEq L]

theorem lookup_support (t : Table Node L) (n : Node) :
    (lookupEntry n (support t)).getD Domain.bottom == (facts t).get n := by
  rw [lookupEntry_support, get]
  cases t.get? n with
  | none => exact Domain.beq_self _
  | some x =>
    cases hx : Domain.isBottom x with
    | false =>
      simp only [Option.filter_some, hx, Bool.not_false, if_true, Option.getD_some]
      exact Domain.beq_self x
    | true =>
      simp only [Option.filter_some, hx, Bool.not_true, Bool.false_eq_true, if_false, Option.getD_none, Option.getD_some]
      exact PartialEquivBEq.symm hx

theorem facts_beq_iff {s t : Table Node L} :
    (facts s == facts t) = true ↔ ∀ n, ((facts s).get n == (facts t).get n) = true := by
  constructor
  · intro h n
    have hagree := lookupsAgree_of_beq (show (support s == support t) = true from h) n
    exact PartialEquivBEq.trans (PartialEquivBEq.symm (lookup_support s n))
      (PartialEquivBEq.trans hagree (lookup_support t n))
  · intro h
    refine beq_of_lookupsAgree (ascending_support s) (ascending_support t) (telling_support s) (telling_support t)
      fun n => ?_
    exact PartialEquivBEq.trans (lookup_support s n)
      (PartialEquivBEq.trans (h n) (PartialEquivBEq.symm (lookup_support t n)))

/-- **Fibers are equal when neither says more to any node.** -/
theorem beq_iff {f g : Fiber L} : (f == g) = true ↔ f.isTop = g.isTop ∧ ∀ n, (f.get n == g.get n) = true := by
  cases f with
  | top =>
    cases g with
    | top => exact ⟨fun _ => ⟨rfl, fun _ => Domain.beq_self _⟩, fun _ => rfl⟩
    | facts t => exact ⟨nofun, fun h => nomatch h.1⟩
  | facts s =>
    cases g with
    | top => exact ⟨nofun, fun h => nomatch h.1⟩
    | facts t => exact facts_beq_iff.trans ⟨fun h => ⟨rfl, h⟩, fun h => h.2⟩

instance : EquivBEq (Fiber L) where
  rfl := beq_iff.2 ⟨rfl, fun _ => Domain.beq_self _⟩
  symm h :=
    have ⟨htop, hget⟩ := beq_iff.1 h
    beq_iff.2 ⟨htop.symm, fun n => PartialEquivBEq.symm (hget n)⟩
  trans h h' :=
    have ⟨htop, hget⟩ := beq_iff.1 h
    have ⟨htop', hget'⟩ := beq_iff.1 h'
    beq_iff.2 ⟨htop.trans htop', fun n => PartialEquivBEq.trans (hget n) (hget' n)⟩

/-! ## Joins by what each node gets -/

omit [BEq L] [LawfulUpToBEq L] in
theorem add_facts (t : Table Node L) (n : Node) (x : L) :
    ∃ u, (facts t).add n x = facts u ∧
      ∀ k, u.get? k = if n = k then (t.get? n).merge Domain.join (some x) else t.get? k := by
  refine ⟨_, rfl, fun k => ?_⟩
  rw [Table.get?_insert]
  cases t.get? n <;> rfl

omit [BEq L] [LawfulUpToBEq L] in
theorem addAll_facts : ∀ {l : List (Node × L)} (s : Table Node L), Ascending l →
    ∃ u, l.foldl (fun f e => f.add e.1 e.2) (facts s) = facts u ∧
      ∀ k, u.get? k = (s.get? k).merge Domain.join (lookupEntry k l)
  | [], s, _ => ⟨s, rfl, fun k => by simp [lookupEntry]⟩
  | (n, x) :: l, s, h => by
    obtain ⟨hfirst, hl⟩ := List.pairwise_cons.1 h
    obtain ⟨v, hv, hget⟩ := add_facts s n x
    obtain ⟨u, hu, hmerge⟩ := addAll_facts v hl
    refine ⟨u, by rw [List.foldl_cons, hv, hu], fun k => ?_⟩
    rw [hmerge, hget, lookupEntry]
    split
    · rename_i heq
      subst heq
      -- later entries have larger keys
      rw [lookupEntry_eq_none_of_lt hfirst, Option.merge_none_right]
    · rfl

omit [BEq L] [LawfulUpToBEq L] in
theorem join_facts (s t : Table Node L) :
    ∃ u, (facts s).join (facts t) = facts u ∧ ∀ k, u.get? k = (s.get? k).merge Domain.join (t.get? k) :=
  addAll_facts s t.ascending

omit [BEq L] [LawfulUpToBEq L] in
@[simp] theorem isTop_join (f g : Fiber L) : (f.join g).isTop = (f.isTop || g.isTop) := by
  cases f with
  | top => rfl
  | facts s =>
    cases g with
    | top => rfl
    | facts t =>
      obtain ⟨u, hu, -⟩ := join_facts s t
      rw [hu]
      rfl

/-- **A node gets from a join what it gets from the two sides, joined.** -/
theorem get_join (f g : Fiber L) (n : Node) : (f.join g).get n == Domain.join (f.get n) (g.get n) := by
  cases f with
  | top => exact PartialEquivBEq.symm (LawfulUpToBEq.top_join _)
  | facts s =>
    cases g with
    | top => exact PartialEquivBEq.symm (Domain.orderOn_all.le_top trivial)
    | facts t =>
      obtain ⟨u, hu, hmerge⟩ := join_facts s t
      rw [hu]
      simp only [get, hmerge]
      cases s.get? n with
      | none =>
        rw [Option.merge_none_left]
        exact PartialEquivBEq.symm (LawfulUpToBEq.bottom_join _)
      | some x =>
        cases t.get? n with
        | none =>
          exact PartialEquivBEq.symm
            (PartialEquivBEq.trans (LawfulUpToBEq.join_comm x Domain.bottom) (LawfulUpToBEq.bottom_join x))
        | some y => exact Domain.beq_self _

theorem join_beq_join {f g f' g' : Fiber L} (htop : (f.isTop || g.isTop) = (f'.isTop || g'.isTop))
    (hget : ∀ n, Domain.join (f.get n) (g.get n) == Domain.join (f'.get n) (g'.get n)) : f.join g == f'.join g' := by
  refine beq_iff.2 ⟨by rw [isTop_join, isTop_join, htop], fun n => ?_⟩
  exact PartialEquivBEq.trans (get_join f g n) (PartialEquivBEq.trans (hget n) (PartialEquivBEq.symm (get_join f' g' n)))

/-- **Fibers over a lawful domain are a lawful domain**, up to their own equality. -/
instance : LawfulUpToBEq (Fiber L) where
  join_congr {f f' g} h := by
    obtain ⟨htop, hget⟩ := beq_iff.1 h
    exact join_beq_join (by rw [htop]) fun n => LawfulUpToBEq.join_congr (hget n)
  join_comm f g := join_beq_join (Bool.or_comm _ _) fun n => LawfulUpToBEq.join_comm _ _
  join_assoc f g h := by
    have htop : ((f.join g).isTop || h.isTop) = (f.isTop || (g.join h).isTop) := by
      rw [isTop_join, isTop_join, Bool.or_assoc]
    refine join_beq_join htop fun n => ?_
    have hleft := LawfulUpToBEq.join_congr (get_join f g n) (c := h.get n)
    have hright := Domain.join_congr_right (get_join g h n) (a := f.get n)
    exact PartialEquivBEq.trans hleft
      (PartialEquivBEq.trans (LawfulUpToBEq.join_assoc _ _ _) (PartialEquivBEq.symm hright))
  join_self f := by
    refine beq_iff.2 ⟨?_, fun n => PartialEquivBEq.trans (get_join f f n) (LawfulUpToBEq.join_self _)⟩
    exact (isTop_join f f).trans (Bool.or_self _)
  bottom_join f := by
    refine beq_iff.2 ⟨isTop_join empty f, fun n => ?_⟩
    exact PartialEquivBEq.trans (get_join empty f n) (LawfulUpToBEq.bottom_join _)
  top_join f := BEq.rfl

theorem facts_le_iff {s t : Table Node L} :
    Domain.le (facts s) (facts t) = true ↔ ∀ n, Domain.le ((facts s).get n) ((facts t).get n) = true := by
  constructor
  · intro h n
    have hget := (beq_iff.1 h).2 n
    exact PartialEquivBEq.trans (PartialEquivBEq.symm (get_join _ _ n)) hget
  · intro h
    exact beq_iff.2 ⟨isTop_join _ _, fun n => PartialEquivBEq.trans (get_join _ _ n) (h n)⟩

/-- **Fibers form a lattice up to their own equality, and what holds of them holds node by node.** -/
theorem join_pointwise :
    EquivBEq (Fiber L) ∧
      (∀ s t : Table Node L, (facts s == facts t) = true ↔ ∀ n, ((facts s).get n == (facts t).get n) = true) ∧
      (∀ f f' g g' : Fiber L, f == f' → g == g' → f.join g == f'.join g') ∧
      (∀ f g : Fiber L, f.join g == g.join f) ∧
      (∀ f g h : Fiber L, (f.join g).join h == f.join (g.join h)) ∧
      (∀ f : Fiber L, f.join f == f) ∧
      (∀ f : Fiber L, empty.join f == f ∧ f.join empty == f) ∧
      (∀ f : Fiber L, top.join f == top ∧ f.join top == top) ∧
      (∀ (f g : Fiber L) (n : Node), (f.join g).get n == Domain.join (f.get n) (g.get n)) ∧
      (∀ s t : Table Node L, Domain.le (facts s) (facts t) = true ↔
        ∀ n, Domain.le ((facts s).get n) ((facts t).get n) = true) ∧
      ∀ (f : Fiber L) (n : Node) (x : L), f.add n x = f.join (single n x) := by
  have hcomm : ∀ f g : Fiber L, f.join g == g.join f := LawfulUpToBEq.join_comm
  have hempty : ∀ f : Fiber L, empty.join f == f := LawfulUpToBEq.bottom_join
  have htop : ∀ f : Fiber L, top.join f == top := LawfulUpToBEq.top_join
  refine ⟨inferInstance, fun _ _ => facts_beq_iff, fun f f' g g' hf hg => ?_, hcomm, LawfulUpToBEq.join_assoc,
    LawfulUpToBEq.join_self, fun f => ⟨hempty f, BEq.trans (hcomm f empty) (hempty f)⟩,
    fun f => ⟨htop f, BEq.trans (hcomm f top) (htop f)⟩, get_join, fun _ _ => facts_le_iff, fun f n x => ?_⟩
  · exact BEq.trans (LawfulUpToBEq.join_congr hf : f.join g == f'.join g) (Domain.join_congr_right hg)
  · cases f <;> rfl

/-- An explicit `bottom` makes another table but the same fiber, before and after a join that puts something there. -/
theorem join_pointwise_explicitBottom :
    let s : Table Node Pointer := (Table.empty.insert 1 (.stackAt 0)).insert 5 .bottom
    let t : Table Node Pointer := Table.empty.insert 1 (.stackAt 0)
    let g : Fiber Pointer := single 5 .anyGlobal
    s ≠ t ∧ (facts s == facts t) = true ∧ (∀ n, ((facts s).get n == (facts t).get n) = true) ∧
      ((facts s).join g == (facts t).join g) = true ∧
      (((facts s).join g).get 5 == Pointer.bottom.join .anyGlobal) = true ∧
      ∀ n, Domain.le ((facts s).get n) ((facts (t.insert 1 .anyStack)).get n) = true := by
  intro s t g
  obtain ⟨hequiv, hbeq, hcongr, -, -, -, -, -, hget, hle, -⟩ := join_pointwise (L := Pointer)
  have hst : (facts s == facts t) = true := by decide
  exact ⟨by decide, hst, (hbeq s t).1 hst, hcongr _ _ _ _ hst hequiv.rfl, hget (facts s) g 5,
    (hle s (t.insert 1 .anyStack)).1 (by decide)⟩

end Fiber
end ValueFlow
