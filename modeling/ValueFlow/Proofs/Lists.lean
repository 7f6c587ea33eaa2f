import Mathlib.Algebra.Order.BigOperators.Group.Finset
/-!
# Lists, options and results

What the theory needs of them and the library does not say in this form: where a search over the numbers below a bound
stops, how often the members of a list occur in it, and what a function that may fail gives all along a list.
-/
namespace ValueFlow

/-! ## Lists -/

theorem findSome?_range {α : Type} {g : Nat → Option α} {a : α} : ∀ {n : Nat},
    (List.range n).findSome? g = some a ↔ ∃ i < n, g i = some a ∧ ∀ j < i, g j = none
  | 0 => by simp
  | n + 1 => by
    rw [List.range_succ, List.findSome?_append, Option.or_eq_some_iff, findSome?_range, List.findSome?_eq_none_iff,
      List.findSome?_singleton]
    constructor
    · rintro (⟨i, hi, h⟩ | ⟨hnone, hn⟩)
      · exact ⟨i, Nat.lt_succ_of_lt hi, h⟩
      · exact ⟨n, Nat.lt_succ_self n, hn, fun j hj => hnone j (List.mem_range.2 hj)⟩
    · rintro ⟨i, hi, ha, hbefore⟩
      by_cases hlt : i < n
      · exact .inl ⟨i, hlt, ha, hbefore⟩
      · obtain rfl : i = n := by omega
        exact .inr ⟨fun j hj => hbefore j (List.mem_range.1 hj), ha⟩

theorem getElem?_zipIdx_eq_some {α : Type} {l : List α} {i : Nat} {e : α × Nat} :
    l.zipIdx[i]? = some e ↔ l[i]? = some e.1 ∧ e.2 = i := by
  rw [List.getElem?_zipIdx, Nat.zero_add, Option.map_eq_some_iff]
  constructor
  · rintro ⟨a, ha, rfl⟩
    exact ⟨ha, rfl⟩
  · rintro ⟨ha, rfl⟩
    exact ⟨e.1, ha, rfl⟩

theorem takeWhile_dropWhile_of_head?_le {l : List Nat} {n : Nat} (h : ∀ a ∈ l.head?, a ≤ n) :
    l.takeWhile (fun a => n < a) = [] ∧ l.dropWhile (fun a => n < a) = l := by
  cases l with
  | nil => exact ⟨rfl, rfl⟩
  | cons a l =>
    have hle : a ≤ n := h a rfl
    exact ⟨List.takeWhile_cons_of_neg (by simpa using hle), List.dropWhile_cons_of_neg (by simpa using hle)⟩

theorem insertIdx_append_length {α : Type} (l more : List α) (a : α) :
    (l ++ more).insertIdx l.length a = l ++ a :: more := by
  induction l with
  | nil => rfl
  | cons b l ih => simp [ih]

theorem foldl_max_le {b : Nat} : ∀ {l : List Nat} {a : Nat}, l.foldl max a ≤ b ↔ a ≤ b ∧ ∀ x ∈ l, x ≤ b
  | [], a => by simp
  | x :: l, a => by
    rw [List.foldl_cons, foldl_max_le, List.forall_mem_cons, max_le_iff, and_assoc]

theorem sum_count_eq_length {n : Nat} {l : List Nat} (h : ∀ i ∈ l, i < n) :
    ∑ i ∈ Finset.range n, l.count i = l.length := by
  have := Multiset.sum_count_eq_card (m := (l : Multiset Nat)) fun i hi => Finset.mem_range.2 (h i hi)
  simpa using this

theorem length_le_of_count_le {n b : Nat} {l : List Nat} (h : ∀ i ∈ l, i < n) (hle : ∀ i, i < n → l.count i ≤ b) :
    l.length ≤ n * b := by
  rw [← sum_count_eq_length h]
  have := Finset.sum_le_card_nsmul (Finset.range n) (fun i => l.count i) b fun i hi => hle i (Finset.mem_range.1 hi)
  simpa using this

/-! ## Options and results -/

theorem rel_cases {α β : Type} {R : α → β → Prop} {x : Option α} {y : Option β} (h : Option.Rel R x y) :
    x = none ∧ y = none ∨ ∃ a b, x = some a ∧ y = some b ∧ R a b := by
  cases h with
  | none => exact .inl ⟨rfl, rfl⟩
  | some h => exact .inr ⟨_, _, rfl, rfl, h⟩

theorem exists_ok_of_any {ε α : Type} {e : Except ε α} {p : α → Bool} (h : e.toOption.any p = true) :
    ∃ a, e = .ok a ∧ p a = true := by
  cases e with
  | error e => cases h
  | ok a => exact ⟨a, rfl, h⟩

section
variable {α β ε : Type} {g : α → Except ε β}

theorem mapM_cons_eq_ok {a : α} {l : List α} {bs : List β} :
    (a :: l).mapM g = .ok bs ↔ ∃ b cs, g a = .ok b ∧ l.mapM g = .ok cs ∧ bs = b :: cs := by
  rw [List.mapM_cons]
  cases g a with
  | error e => simp [bind, Except.bind]
  | ok b => cases l.mapM g <;> simp [bind, Except.bind, pure, Except.pure, eq_comm]

theorem mapM_cons_eq_error {a : α} {l : List α} {e : ε} :
    (a :: l).mapM g = .error e ↔ g a = .error e ∨ ∃ b, g a = .ok b ∧ l.mapM g = .error e := by
  rw [List.mapM_cons]
  cases g a with
  | error e => simp [bind, Except.bind]
  | ok b => cases l.mapM g <;> simp [bind, Except.bind, pure, Except.pure]

theorem mapM_eq_ok : ∀ {l : List α} {bs : List β}, l.mapM g = .ok bs ↔
    bs.length = l.length ∧ ∀ (i : Nat) (a : α), l[i]? = some a → ∃ b, bs[i]? = some b ∧ g a = .ok b
  | [], bs => by
    constructor
    · intro h
      cases h
      exact ⟨rfl, nofun⟩
    · rintro ⟨hlen, -⟩
      rw [List.length_eq_zero_iff.1 hlen]
      rfl
  | a :: l, bs => by
    rw [mapM_cons_eq_ok]
    constructor
    · rintro ⟨b, cs, ha, hl, rfl⟩
      obtain ⟨hlen, hall⟩ := mapM_eq_ok.1 hl
      refine ⟨congrArg (· + 1) hlen, fun i x hx => ?_⟩
      cases i with
      | zero =>
        cases hx
        exact ⟨b, rfl, ha⟩
      | succ i => exact hall i x hx
    · rintro ⟨hlen, hall⟩
      cases bs with
      | nil => cases hlen
      | cons b cs =>
        obtain ⟨_, hb, ha⟩ := hall 0 a rfl
        cases hb
        exact ⟨b, cs, ha, mapM_eq_ok.2 ⟨Nat.succ.inj hlen, fun i x hx => hall (i + 1) x hx⟩, rfl⟩

theorem mapM_eq_error {e : ε} : ∀ {l : List α}, l.mapM g = .error e ↔
    ∃ (i : Nat) (a : α), l[i]? = some a ∧ g a = .error e ∧ ∀ j < i, ∀ c, l[j]? = some c → ∃ b, g c = .ok b
  | [] => by
    constructor
    · intro h
      cases h
    · rintro ⟨i, a, h, -⟩
      cases h
  | a :: l => by
    rw [mapM_cons_eq_error]
    constructor
    · rintro (ha | ⟨b, ha, hl⟩)
      · exact ⟨0, a, rfl, ha, nofun⟩
      · obtain ⟨i, x, hx, hfails, hbefore⟩ := mapM_eq_error.1 hl
        refine ⟨i + 1, x, hx, hfails, fun j hj c hc => ?_⟩
        cases j with
        | zero =>
          cases hc
          exact ⟨b, ha⟩
        | succ j => exact hbefore j (Nat.lt_of_succ_lt_succ hj) c hc
    · rintro ⟨i, x, hx, hfails, hbefore⟩
      cases i with
      | zero =>
        cases hx
        exact .inl hfails
      | succ i =>
        obtain ⟨b, ha⟩ := hbefore 0 (Nat.succ_pos i) a rfl
        refine .inr ⟨b, ha, mapM_eq_error.2 ⟨i, x, hx, hfails, fun j hj c hc => ?_⟩⟩
        exact hbefore (j + 1) (Nat.succ_lt_succ hj) c hc

end

end ValueFlow
