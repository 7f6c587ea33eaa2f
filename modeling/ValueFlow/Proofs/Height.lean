import ValueFlow.Proofs.Analysis
import ValueFlow.Proofs.Convergence
/-!
# The height of the states

How often joins can still change a state.  A pointer class can be raised as often as there are classes above it, a
value a few times more; a cell or a global that is known can be raised or forgotten; and of the registers only those
that the function writes ever hold anything.  Nothing here needs a well-formed state.
-/
namespace ValueFlow

theorem room_le_of_changed {α : Type} {r : α → Nat} {a a' : α} (h : a' = a ∨ r a' < r a) : r a' ≤ r a := by
  rcases h with rfl | h
  · exact Nat.le_refl _
  · exact Nat.le_of_lt h

theorem changed_add {α β : Type} {r : α → Nat} {s : β → Nat} {a a' : α} {b b' : β} (ha : a' = a ∨ r a' < r a)
    (hb : b' = b ∨ s b' < s b) : a' = a ∧ b' = b ∨ r a' + s b' < r a + s b := by
  rcases ha with rfl | ha <;> rcases hb with rfl | hb
  · exact .inl ⟨rfl, rfl⟩
  all_goals right; omega

/-! ## Pointers and values -/

namespace Pointer

/-- How often joins can raise a class. -/
def room : Pointer → Nat
  | bottom => 5
  | p      => p.wider.length

theorem room_le (p : Pointer) : p.room ≤ 5 := by cases p <;> simp [room, wider]

theorem room_lt_of_ne_bottom {p : Pointer} (h : p ≠ bottom) : p.room < 5 := by
  cases p with
  | bottom => exact absurd rfl h
  | _ => simp [room, wider]

theorem room_lt_of_mem_wider {p q : Pointer} (h : q ∈ p.wider) : q.room < p.room := by
  cases p <;> simp only [wider, List.mem_cons, List.not_mem_nil, or_false] at h <;>
    rcases h with rfl | rfl | rfl | rfl <;> simp [room, wider]

theorem room_join (p q : Pointer) : p.join q = p ∨ (p.join q).room < p.room := by
  by_cases hp : p = bottom
  · subst hp
    rw [bottom_join]
    by_cases hq : q = bottom
    · exact .inl hq
    · exact .inr (room_lt_of_ne_bottom hq)
  · rcases le_iff.1 (le_join_left p q) with h | h
    · exact absurd h hp
    · rcases List.mem_cons.1 h with h | h
      · exact .inl h
      · exact .inr (room_lt_of_mem_wider h)

theorem room_join_le (p q : Pointer) : (p.join q).room ≤ p.room := room_le_of_changed (room_join p q)

end Pointer

namespace Value

/-- How often joins can raise a value. -/
def room : Value → Nat
  | top        => 0
  | numOrPtr p => p.room + 1
  | ptr p      => p.room + 2
  | num _      => 7
  | bottom     => 9
  | _          => 8

theorem room_ptr (p : Pointer) : (ptr p).room = p.room + 2 := rfl

theorem room_numOrPtr (p : Pointer) : (numOrPtr p).room = p.room + 1 := rfl

theorem room_mixed_le (p : Pointer) : (mixed p).room ≤ p.room + 1 := by
  unfold mixed
  split
  · exact Nat.zero_le _
  · exact Nat.le_refl _

theorem room_lt_of_ne_bottom {v : Value} (h : v ≠ bottom) : v.room < 9 := by
  cases v with
  | bottom => exact absurd rfl h
  | ptr p =>
    have := p.room_le
    rw [room_ptr]
    omega
  | numOrPtr p =>
    have := p.room_le
    rw [room_numOrPtr]
    omega
  | _ => simp [room]

theorem le_room_of_kind {v : Value} {k : Kind} (h : v.kind? = some k) : 7 ≤ v.room := by
  cases v with
  | bottom | ptr | numOrPtr | top => cases h
  | _ => simp [room]

theorem eq_num_or_room_lt {v : Value} {k : Kind} (h : v.kind? = some k) : num k = v ∨ (num k).room < v.room := by
  cases v with
  | num j =>
    rw [kind?_num] at h
    exact .inl (congrArg num (Option.some_inj.1 h).symm)
  | bottom | ptr | numOrPtr | top => cases h
  | _ => exact .inr (Nat.lt_succ_self 7)

/-- Joined with something of another kind, a value leaves its kind or keeps its class. -/
theorem room_join_mixed {v : Value} (hv : v ≠ bottom) (q : Pointer) :
    mixed (v.provenance.join q) = v ∨ (mixed (v.provenance.join q)).room < v.room := by
  have hmixed := room_mixed_le (v.provenance.join q)
  cases hk : v.kind? with
  | some k =>
    have hclass := (v.provenance.join q).room_le
    have hnumber := le_room_of_kind hk
    right
    omega
  | none =>
    cases v with
    | top => exact .inl (by rw [provenance, Pointer.top_join, mixed_top])
    | ptr p =>
      have hclass := p.room_join_le q
      right
      rw [room_ptr]
      exact Nat.lt_of_le_of_lt hmixed (by rw [provenance]; omega)
    | numOrPtr p =>
      rw [provenance] at hmixed ⊢
      rcases p.room_join q with h | h
      · rw [h]
        -- `numOrPtr top` is not canonical, and a join turns it into `top`
        by_cases hp : p = .top
        · subst hp
          exact .inr (by decide)
        · exact .inl (mixed_of_ne_top hp)
      · right
        rw [room_numOrPtr]
        omega
    | bottom => exact absurd rfl hv
    | num k =>
      rw [kind?_num] at hk
      cases hk
    | _ => cases hk

theorem room_join (v w : Value) : v.join w = v ∨ (v.join w).room < v.room := by
  by_cases hv : v = bottom
  · subst hv
    by_cases hw : w = bottom
    · exact .inl hw
    · exact .inr (room_lt_of_ne_bottom hw)
  by_cases hw : w = bottom
  · subst hw
    exact .inl (join_bottom v)
  by_cases hpointers : ∃ p q, v = ptr p ∧ w = ptr q
  · obtain ⟨p, q, rfl, rfl⟩ := hpointers
    rw [ptr_join_ptr, room_ptr, room_ptr]
    exact (p.room_join q).imp (congrArg ptr) fun h => Nat.add_lt_add_right h 2
  by_cases hkinds : v.kind? = none ∨ w.kind? = none
  · rw [join_eq_mixed hv hw (fun p q hp hq => hpointers ⟨p, q, hp, hq⟩) hkinds]
    exact room_join_mixed hv w.provenance
  rw [not_or, ← ne_eq, ← ne_eq, Option.ne_none_iff_exists', Option.ne_none_iff_exists'] at hkinds
  obtain ⟨⟨j, hj⟩, k, hk⟩ := hkinds
  rw [join_of_kinds hj hk]
  split
  · exact .inl rfl
  · split
    · exact eq_num_or_room_lt hj
    · exact .inr (Nat.lt_of_lt_of_le (by decide) (le_room_of_kind hj))

end Value

/-! ## Blocks and memories -/

namespace Table
variable {κ α : Type} [Key κ] [DecidableEq κ]

/-- One for each entry that can be forgotten, besides what its value has. -/
def entriesRoom (w : α → Nat) : List (κ × α) → Nat
  | []     => 0
  | e :: l => w e.2 + 1 + entriesRoom w l

def room (w : α → Nat) (t : Table κ α) : Nat := entriesRoom w t.entries

omit [Key κ] [DecidableEq κ] in
theorem entriesRoom_filterMap {w : α → Nat} {f : κ → α → Option α}
    (h : ∀ k a b, f k a = some b → b = a ∨ w b < w a) : ∀ l : List (κ × α),
    l.filterMap (fun e => (f e.1 e.2).map (e.1, ·)) = l ∨
      entriesRoom w (l.filterMap (fun e => (f e.1 e.2).map (e.1, ·))) < entriesRoom w l
  | [] => .inl rfl
  | (k, a) :: l => by
    have ih := entriesRoom_filterMap h l
    have hle := room_le_of_changed ih
    cases hf : f k a with
    | none =>
      right
      simp only [List.filterMap_cons, hf, Option.map_none, entriesRoom]
      omega
    | some b =>
      simp only [List.filterMap_cons, hf, Option.map_some, entriesRoom]
      rcases changed_add (h k a b hf) ih with ⟨rfl, heq⟩ | hlt
      · exact .inl (by rw [heq])
      · right
        omega

omit [DecidableEq κ] in
/-- **Entries that are forgotten or raised leave the same table or less room.** -/
theorem room_filterMap {w : α → Nat} {f : κ → α → Option α} (h : ∀ k a b, f k a = some b → b = a ∨ w b < w a)
    (t : Table κ α) : t.filterMap f = t ∨ (t.filterMap f).room w < t.room w := by
  refine (entriesRoom_filterMap h t.entries).imp (fun heq => ?_) id
  cases t
  simpa [filterMap] using heq

end Table

namespace Block

def room (b : Block) : Nat := b.cells.room (·.value.room) + b.summary.room

theorem room_join (a b : Block) : a.join b = a ∨ (a.join b).room < a.room := by
  have hraised : ∀ ofs cell c, joinCell cell (b.cells.get? ofs) = some c → c = cell ∨ c.value.room < cell.value.room := by
    intro ofs cell c hc
    cases hb : b.cells.get? ofs with
    | none =>
      rw [hb] at hc
      cases hc
    | some d =>
      rw [hb] at hc
      obtain ⟨-, rfl⟩ := joinCell_eq_some.1 hc
      exact (cell.value.room_join d.value).imp (fun h => by rw [h]) id
  have hcells := Table.room_filterMap (w := fun c => c.value.room) hraised a.cells
  refine (changed_add hcells (a.summary.room_join b.summary)).imp (fun h => ?_) id
  exact ext_cell? (fun ofs => congrArg (·.get? ofs) h.1) h.2

end Block

namespace Memory

def room (m : Memory) : Nat := m.frame.room + m.globals.room Block.room + (m.outside.room + m.anywhere.room)

theorem room_join (a b : Memory) : a.join b = a ∨ (a.join b).room < a.room := by
  have hraised : ∀ s (block c : Block), (b.globals.get? s).map block.join = some c → c = block ∨ c.room < block.room := by
    intro s block c hc
    obtain ⟨d, -, rfl⟩ := Option.map_eq_some_iff.1 hc
    exact block.room_join d
  have hglobals : (a.join b).globals = a.globals ∨ (a.join b).globals.room Block.room < a.globals.room Block.room :=
    Table.room_filterMap hraised a.globals
  have hframe : (a.join b).frame = a.frame ∨ (a.join b).frame.room < a.frame.room := a.frame.room_join b.frame
  have houtside : (a.join b).outside = a.outside ∨ (a.join b).outside.room < a.outside.room :=
    a.outside.room_join b.outside
  have hanywhere : (a.join b).anywhere = a.anywhere ∨ (a.join b).anywhere.room < a.anywhere.room :=
    a.anywhere.room_join b.anywhere
  unfold room
  rcases changed_add hframe hglobals with ⟨hf, hg⟩ | hblocks <;>
    rcases changed_add houtside hanywhere with ⟨ho, ha⟩ | hsummaries
  · exact .inl (ext_globals hf (fun s => congrArg (·.get? s) hg) ho ha)
  · right
    rw [hf, hg]
    omega
  · right
    rw [ho, ha]
    omega
  · right
    omega

end Memory

/-! ## Registers and states -/

namespace Registers

/-- **Only registers of `F` were ever written.** -/
structure Within (F : List Reg) (rs : Registers) : Prop where
  tidy : rs.Tidy
  unmapped : rs.unmapped = .bottom
  outside : ∀ r, r ∉ F → rs.get r = .bottom

variable {F : List Reg}

theorem Within.set {rs : Registers} (h : rs.Within F) {r : Reg} (hr : r ∈ F) (v : Value) : (rs.set r v).Within F where
  tidy := h.tidy.set r v
  unmapped := h.unmapped
  outside i hi := by
    have hne : r ≠ i := fun heq => hi (heq ▸ hr)
    rw [get_set, if_neg hne]
    exact h.outside i hi

theorem Within.kill {rs : Registers} (h : rs.Within F) (dead : List Reg) : (rs.kill dead).Within F where
  tidy := Tidy.setAll (fun _ => .bottom) dead h.tidy
  unmapped := (unmapped_setAll (fun _ => .bottom) dead rs).trans h.unmapped
  outside i hi := by
    rw [get_kill]
    split
    · rfl
    · exact h.outside i hi

theorem Within.join {a b : Registers} (ha : a.Within F) (hb : b.Within F) : (a.join b).Within F where
  tidy := tidy_join a b
  unmapped := by rw [unmapped_join, ha.unmapped, hb.unmapped, Value.bottom_join]
  outside r hr := by rw [get_join, ha.outside r hr, hb.outside r hr, Value.bottom_join]

theorem within_entry {params : List Reg} (h : params ⊆ F) : (entry params).Within F where
  tidy := Tidy.setAll (fun _ => .numOrPtr .nonStack) params (tidy_empty .bottom)
  unmapped := unmapped_setAll (fun _ => .numOrPtr .nonStack) params unwritten
  outside r hr := by
    rw [entry, get_setAll (fun _ => .numOrPtr .nonStack), if_neg fun hmem => hr (h hmem)]
    rfl

def valuesRoom (l : List Value) : Nat := l.foldr (fun v total => v.room + total) 0

theorem valuesRoom_join (a b : Registers) : ∀ F : List Reg,
    (a.join b).getAll F = a.getAll F ∨ valuesRoom ((a.join b).getAll F) < valuesRoom (a.getAll F)
  | [] => .inl rfl
  | r :: F => by
    have hr : (a.join b).get r = a.get r ∨ ((a.join b).get r).room < (a.get r).room := by
      rw [get_join]
      exact (a.get r).room_join (b.get r)
    exact (changed_add hr (valuesRoom_join a b F)).imp (fun h => congrArg₂ List.cons h.1 h.2) id

def room (F : List Reg) (rs : Registers) : Nat := valuesRoom (rs.getAll F)

theorem Within.room_join {a b : Registers} (ha : a.Within F) (hb : b.Within F) :
    a.join b = a ∨ (a.join b).room F < a.room F := by
  refine (valuesRoom_join a b F).imp (fun h => ?_) id
  have hjoin := ha.join hb
  refine ext_get hjoin.tidy ha.tidy (hjoin.unmapped.trans ha.unmapped.symm) fun r => ?_
  by_cases hr : r ∈ F
  · exact List.map_eq_map_iff.1 h r hr
  · rw [hjoin.outside r hr, ha.outside r hr]

end Registers

namespace State
variable {F : List Reg}

def Within (F : List Reg) : State → Prop
  | unreachable => True
  | live regs _ => regs.Within F

/-- A node that is not reached yet has more room than any that is. -/
def room (F : List Reg) : State → WithTop Nat
  | unreachable   => ⊤
  | live regs mem => WithTop.some (regs.room F + mem.room)

theorem Within.join {a b : State} (ha : a.Within F) (hb : b.Within F) : (a.join b).Within F := by
  cases a <;> cases b
  case live.live => exact Registers.Within.join ha hb
  all_goals first | exact ha | exact hb

theorem Within.without {a : State} (ha : a.Within F) (dead : List Reg) : (a.without dead).Within F := by
  cases a with
  | unreachable => trivial
  | live regs mem => exact Registers.Within.kill ha dead

/-- **States have no infinite chain of joins**, as long as finitely many registers are written. -/
theorem roomOn (F : List Reg) : Domain.RoomOn (Within F) (room F) where
  bottom_mem := trivial
  join_mem := Within.join
  room_lt {a b} ha hb hne := by
    have hne : a.join b ≠ a := beq_eq_false_iff_ne.1 hne
    show (a.join b).room F < a.room F
    cases a with
    | unreachable =>
      cases b with
      | unreachable => exact absurd rfl hne
      | live regs mem => exact WithTop.coe_lt_top _
    | live r m =>
      cases b with
      | unreachable => exact absurd rfl hne
      | live r' m' =>
        refine WithTop.coe_lt_coe.2 ?_
        rcases changed_add (Registers.Within.room_join ha hb) (m.room_join m') with ⟨hr, hm⟩ | hlt
        · exact absurd (congrArg₂ live hr hm) hne
        · exact hlt

end State

/-! ## Functions -/

namespace Function
variable {f : Function} {live : Liveness} {ro : ReadOnly} {s : Settings}

/-- The registers that a function is given or writes. -/
def written (f : Function) : List Reg := f.params ++ f.nodes.toList.filterMap (·.bind Instruction.dest?)

theorem mem_written {n : Node} {i : Instruction} {r : Reg} (hi : f.instruction? n = some i) (hr : i.dest? = some r) :
    r ∈ f.written := by
  have hnode : f.nodes[n]? = some (some i) := Option.join_eq_some_iff.1 hi
  have hmem : some i ∈ f.nodes.toList := Array.mem_toList_iff.2 (Array.mem_of_getElem? hnode)
  exact List.mem_append_right _ (List.mem_filterMap.2 ⟨some i, hmem, hr⟩)

theorem within_outgoing {n : Node} {x : State} (hx : x.Within f.written) :
    ∀ fact ∈ Solver.outgoing f.graph n (f.transfer live ro s n x), fact.2.Within f.written := by
  refine transfer_outgoing (transfer_entries (Q := fun _ y => y.Within f.written) State.Within.join (·.without _) ?_)
  rintro i regs mem hi rfl k -
  obtain ⟨mem', h | ⟨r, v, hr, h⟩⟩ := i.after_cases ro s.volatileFloor regs mem
  · rw [h]
    exact hx
  · rw [h]
    exact Registers.Within.set hx (mem_written hi hr) v

/-- **The bound is never needed for an accepted function to converge**: from some bound on its runs settle, all with the
same states and statistics.  And no run that settles changes under a larger bound. -/
theorem solve_settles (f : Function) (live : Liveness) (ro : ReadOnly) (s : Settings) :
    let solve bound := Solver.solve f.graph bound (f.transfer live ro s) f.entry (.entry f.params)
    (f.fault? = none → ∃ N a, a.stats.gaveUp = false ∧ ∀ bound, N ≤ bound → solve bound = .ok a) ∧
      ∀ B a, solve B = .ok a → a.stats.gaveUp = false → ∀ bound, B ≤ bound → solve bound = .ok a := by
  intro solve
  refine ⟨fun hf => ?_, fun B a h hgave bound hle => solve_bound h hgave hle⟩
  have hentry : (State.entry f.params).Within f.written := Registers.within_entry (List.subset_append_left _ _)
  exact solve_converges (State.roomOn f.written) (entry_lt hf) hentry (fun _ _ hx => within_outgoing hx)
    fun _ x fact hmem => successor_lt hf (outgoing_successor x fact hmem)

/-- With bound 1 the second round of the loop of `sweep` is one too many; from 2 on the run settles. -/
theorem solve_settles_sweep :
    let solve bound := Solver.solve sweep.graph bound (sweep.transfer .unknown sampleReadOnly .standard) sweep.entry
      (.entry sweep.params)
    (∃ a, solve 1 = .ok a ∧ a.stats.gaveUp = true) ∧ sweep.fault? = none ∧
      (∃ N a, a.stats.gaveUp = false ∧ ∀ bound, N ≤ bound → solve bound = .ok a) ∧
      ∃ a, a.stats.gaveUp = false ∧ ∀ bound, 2 ≤ bound → solve bound = .ok a := by
  intro solve
  have hf : sweep.fault? = none := by decide
  obtain ⟨a, ha, hgave⟩ := exists_ok_of_any (e := solve 1) (p := (·.stats.gaveUp)) (by decide +kernel)
  obtain ⟨b, hb, hsettled⟩ := exists_ok_of_any (e := solve 2) (p := (!·.stats.gaveUp)) (by decide +kernel)
  obtain ⟨hlarge, hlarger⟩ := solve_settles sweep .unknown sampleReadOnly .standard
  have hsettled : b.stats.gaveUp = false := by simpa using hsettled
  exact ⟨⟨a, ha, hgave⟩, hf, hlarge hf, b, hsettled, hlarger 2 b hb hsettled⟩

end Function
end ValueFlow
