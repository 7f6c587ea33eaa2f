import ValueFlow.Ids
/-!
# Finite maps listed in key order

A `Table` is a list of entries with strictly ascending keys, so two tables with the same look-ups
are the same table (`Table.ext_get?`).  Fixpoint detection compares states for equality and every
listing is in key order; both rest on that.
-/
namespace ValueFlow

/-- Keys with a whole number of their own, which fixes the order of a listing. -/
class Key (κ : Type) where
  code : κ → Int
  code_inj : ∀ {a b : κ}, code a = code b → a = b

instance : Key Nat where
  code n := n
  code_inj h := by omega

instance : Key Reg where
  code r := r.id
  code_inj {a b} h := by cases a; cases b; simp at h; simp; omega

instance : Key Symbol where
  code s := s.id
  code_inj {a b} h := by cases a; cases b; simp at h; simp; omega

instance : Key Int64 where
  code o := o.toInt
  code_inj h := Int64.toInt_inj.1 h

section
variable {κ α β : Type} [Key κ]

/-- The entries of one list come strictly before those after them. -/
abbrev Ascending (l : List (κ × α)) : Prop :=
  l.Pairwise (fun a b => Key.code a.1 < Key.code b.1)

variable [DecidableEq κ]

/-! ## On lists of entries -/

/-- The value listed at a key. -/
def lookupEntry (k : κ) : List (κ × α) → Option α
  | []          => none
  | (j, a) :: l => if j = k then some a else lookupEntry k l

/-- Put an entry in its place, over the one with the same key. -/
def insertEntry (k : κ) (a : α) : List (κ × α) → List (κ × α)
  | []          => [(k, a)]
  | (j, b) :: l =>
    if Key.code k < Key.code j then (k, a) :: (j, b) :: l
    else if k = j then (k, a) :: l
    else (j, b) :: insertEntry k a l

theorem mem_insertEntry {k : κ} {a : α} {e : κ × α} : ∀ {l : List (κ × α)},
    e ∈ insertEntry k a l → e = (k, a) ∨ e ∈ l
  | [], h => by simpa [insertEntry] using h
  | (j, b) :: l, h => by
    simp only [insertEntry] at h
    split at h
    · simpa using h
    · split at h
      · rcases List.mem_cons.1 h with h | h
        · exact .inl h
        · exact .inr (List.mem_cons_of_mem _ h)
      · rcases List.mem_cons.1 h with h | h
        · exact .inr (h ▸ List.mem_cons_self)
        · rcases mem_insertEntry h with h | h
          · exact .inl h
          · exact .inr (List.mem_cons_of_mem _ h)

theorem ascending_insertEntry (k : κ) (a : α) : ∀ {l : List (κ × α)},
    Ascending l → Ascending (insertEntry k a l)
  | [], _ => by simp [insertEntry]
  | (j, b) :: l, h => by
    have hl := List.pairwise_cons.1 h
    simp only [insertEntry]
    split
    · rename_i hlt
      refine List.pairwise_cons.2 ⟨fun e he => ?_, h⟩
      rcases List.mem_cons.1 he with rfl | he
      · exact hlt
      · exact Int.lt_trans hlt (hl.1 e he)
    · split
      · rename_i heq
        subst heq
        exact List.pairwise_cons.2 hl
      · rename_i hnlt hne
        have hcode : Key.code k ≠ Key.code j := fun hh => hne (Key.code_inj hh)
        refine List.pairwise_cons.2 ⟨fun e he => ?_, ascending_insertEntry k a hl.2⟩
        rcases mem_insertEntry he with rfl | he
        · show Key.code j < Key.code k
          omega
        · exact hl.1 e he

theorem lookupEntry_insertEntry (k : κ) (a : α) (i : κ) : ∀ {l : List (κ × α)},
    lookupEntry i (insertEntry k a l) = if k = i then some a else lookupEntry i l
  | [] => by simp [insertEntry, lookupEntry]
  | (j, b) :: l => by
    have ih := lookupEntry_insertEntry k a i (l := l)
    simp only [insertEntry]
    split
    · simp [lookupEntry]
    · split
      · rename_i heq
        subst heq
        by_cases hki : k = i <;> simp [lookupEntry, hki]
      · rename_i hne
        simp only [lookupEntry, ih]
        by_cases hki : k = i
        · subst hki
          simp [Ne.symm hne]
        · simp [hki]

theorem lookupEntry_eq_none_of_lt {k : κ} : ∀ {l : List (κ × α)},
    (∀ e ∈ l, Key.code k < Key.code e.1) → lookupEntry k l = none
  | [], _ => rfl
  | (j, b) :: l, h => by
    have hj : Key.code k < Key.code j := h (j, b) List.mem_cons_self
    have hne : ¬ j = k := fun hh => by rw [hh] at hj; omega
    rw [lookupEntry, if_neg hne]
    exact lookupEntry_eq_none_of_lt fun e he => h e (List.mem_cons_of_mem _ he)

/-- An ascending list is the graph of its look-ups. -/
theorem mem_iff_lookupEntry {k : κ} {a : α} : ∀ {l : List (κ × α)}, Ascending l →
    ((k, a) ∈ l ↔ lookupEntry k l = some a)
  | [], _ => by simp [lookupEntry]
  | (j, b) :: l, h => by
    have hl := List.pairwise_cons.1 h
    rw [List.mem_cons, lookupEntry]
    by_cases hjk : j = k
    · subst hjk
      simp only [if_true, Prod.mk.injEq, true_and, Option.some.injEq]
      constructor
      · rintro (h | h)
        · exact h.symm
        · exact absurd (hl.1 _ h) (Int.lt_irrefl _)
      · exact fun h => .inl h.symm
    · rw [if_neg hjk, ← mem_iff_lookupEntry hl.2]
      simp [Ne.symm hjk]

theorem eq_of_lookupEntry_eq : ∀ {l m : List (κ × α)}, Ascending l → Ascending m →
    (∀ k, lookupEntry k l = lookupEntry k m) → l = m
  | [], [], _, _, _ => rfl
  | [], (j, b) :: m, _, _, h => by simpa [lookupEntry] using h j
  | (j, b) :: l, [], _, _, h => by simpa [lookupEntry] using h j
  | (i, a) :: l, (j, b) :: m, hl, hm, h => by
    have hl' := List.pairwise_cons.1 hl
    have hm' := List.pairwise_cons.1 hm
    have hij : i = j := by
      rcases Int.lt_trichotomy (Key.code i) (Key.code j) with hlt | heq | hgt
      · have hnone : lookupEntry i ((j, b) :: m) = none := lookupEntry_eq_none_of_lt fun e he => by
          rcases List.mem_cons.1 he with rfl | he
          · exact hlt
          · exact Int.lt_trans hlt (hm'.1 e he)
        have := h i
        rw [hnone] at this
        simp [lookupEntry] at this
      · exact Key.code_inj heq
      · have hnone : lookupEntry j ((i, a) :: l) = none := lookupEntry_eq_none_of_lt fun e he => by
          rcases List.mem_cons.1 he with rfl | he
          · exact hgt
          · exact Int.lt_trans hgt (hl'.1 e he)
        have := h j
        rw [hnone] at this
        simp [lookupEntry] at this
    subst hij
    have hab : a = b := by simpa [lookupEntry] using h i
    subst hab
    have htail : ∀ k, lookupEntry k l = lookupEntry k m := fun k => by
      by_cases hk : i = k
      · subst hk
        rw [lookupEntry_eq_none_of_lt hl'.1, lookupEntry_eq_none_of_lt hm'.1]
      · simpa [lookupEntry, hk] using h k
    rw [eq_of_lookupEntry_eq hl'.2 hm'.2 htail]

end

/-! ## Tables -/

/-- A finite map, its entries in strictly ascending key order. -/
structure Table (κ α : Type) [Key κ] where
  entries : List (κ × α)
  ascending : Ascending entries
deriving DecidableEq

namespace Table
variable {κ α β : Type} [Key κ] [DecidableEq κ]

def empty : Table κ α := ⟨[], List.Pairwise.nil⟩

instance : Inhabited (Table κ α) := ⟨empty⟩

def get? (t : Table κ α) (k : κ) : Option α := lookupEntry k t.entries

def insert (t : Table κ α) (k : κ) (a : α) : Table κ α :=
  ⟨insertEntry k a t.entries, ascending_insertEntry k a t.ascending⟩

/-- Keep, change or drop each entry. -/
def filterMap (t : Table κ α) (f : κ → α → Option β) : Table κ β where
  entries := t.entries.filterMap (fun e => (f e.1 e.2).map (e.1, ·))
  ascending := by
    rw [Ascending, List.pairwise_filterMap]
    refine t.ascending.imp fun {a b} hab x hx y hy => ?_
    obtain ⟨u, -, rfl⟩ := Option.map_eq_some_iff.1 hx
    obtain ⟨v, -, rfl⟩ := Option.map_eq_some_iff.1 hy
    exact hab

def filter (t : Table κ α) (p : κ → α → Bool) : Table κ α :=
  t.filterMap fun k a => if p k a then some a else none

def map (t : Table κ α) (f : α → β) : Table κ β :=
  t.filterMap fun _ a => some (f a)

def erase (t : Table κ α) (k : κ) : Table κ α :=
  t.filter fun j _ => j != k

def contains (t : Table κ α) (k : κ) : Bool := (t.get? k).isSome

def keys (t : Table κ α) : List κ := t.entries.map Prod.fst

def size (t : Table κ α) : Nat := t.entries.length

def isEmpty (t : Table κ α) : Bool := t.entries.isEmpty

/-! ### What each operation does to look-ups -/

theorem ext_get? {s t : Table κ α} (h : ∀ k, s.get? k = t.get? k) : s = t := by
  have := eq_of_lookupEntry_eq s.ascending t.ascending h
  cases s; cases t; simpa using this

theorem mem_entries_iff {t : Table κ α} {k : κ} {a : α} : (k, a) ∈ t.entries ↔ t.get? k = some a :=
  mem_iff_lookupEntry t.ascending

@[simp] theorem get?_empty (k : κ) : (empty : Table κ α).get? k = none := rfl

theorem get?_insert (t : Table κ α) (k : κ) (a : α) (i : κ) :
    (t.insert k a).get? i = if k = i then some a else t.get? i :=
  lookupEntry_insertEntry k a i

@[simp] theorem get?_insert_self (t : Table κ α) (k : κ) (a : α) : (t.insert k a).get? k = some a := by
  rw [get?_insert, if_pos rfl]

theorem get?_filterMap (t : Table κ α) (f : κ → α → Option β) (k : κ) :
    (t.filterMap f).get? k = (t.get? k).bind (f k) := by
  apply Option.ext
  intro b
  rw [← mem_entries_iff]
  simp only [filterMap, List.mem_filterMap, Option.map_eq_some_iff, Option.bind_eq_some_iff]
  constructor
  · rintro ⟨⟨j, a⟩, hmem, c, hc, heq⟩
    simp only [Prod.mk.injEq] at heq
    obtain ⟨rfl, rfl⟩ := heq
    exact ⟨a, mem_entries_iff.1 hmem, hc⟩
  · rintro ⟨a, ha, hb⟩
    exact ⟨(k, a), mem_entries_iff.2 ha, b, hb, rfl⟩

theorem get?_filter (t : Table κ α) (p : κ → α → Bool) (k : κ) :
    (t.filter p).get? k = (t.get? k).bind (fun a => if p k a then some a else none) :=
  get?_filterMap t _ k

theorem get?_map (t : Table κ α) (f : α → β) (k : κ) : (t.map f).get? k = (t.get? k).map f := by
  rw [map, get?_filterMap]
  cases t.get? k <;> rfl

theorem get?_erase (t : Table κ α) (k i : κ) :
    (t.erase k).get? i = if k = i then none else t.get? i := by
  rw [erase, get?_filter]
  by_cases h : k = i
  · subst h
    cases t.get? k <;> simp
  · cases t.get? i <;> simp [h, Ne.symm h]

end Table
end ValueFlow
