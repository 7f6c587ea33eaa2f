import ValueFlow.Proofs.Yaml.Lines
/-!
# Block mappings read back

A mapping of words, written one key to a line with the entries of an inner mapping further to the right, is read back as
it was written (`document?_lines`).  The tokens of its lines end a mapping where the next line stands left of it, so the
entries of one mapping are read without knowing what follows them.
-/
namespace ValueFlow
namespace Yaml

/-- **Entries written as lines** whose keys stand at a column.  An inner mapping stands further right, and is not empty:
a key with nothing after it has no value. -/
inductive Written : Nat → List (String × Tree) → List Line → Prop
  | nil (col : Nat) : Written col [] []
  | word {col : Nat} {key v : String} {es : List (String × Tree)} {lines : List Line}
      (hkey : IsKey key.toList) (hv : IsWord v.toList) (hes : Written col es lines) :
      Written col ((key, .plain v) :: es) (⟨col, key, some v⟩ :: lines)
  | mapping {col inner : Nat} {key : String} {es entries : List (String × Tree)} {lines innerLines : List Line}
      (hkey : IsKey key.toList) (hne : entries ≠ []) (hcol : col < inner)
      (hentries : Written inner entries innerLines) (hes : Written col es lines) :
      Written col ((key, .mapping entries) :: es) (⟨col, key, none⟩ :: (innerLines ++ lines))

namespace Written

variable {col : Nat} {es : List (String × Tree)} {lines : List Line}

theorem exists_cons (h : Written col es lines) (hne : es ≠ []) :
    ∃ (x : Line) (more : List Line), lines = x :: more ∧ x.col = col := by
  cases h with
  | nil => exact absurd rfl hne
  | word => exact ⟨_, _, rfl, rfl⟩
  | mapping => exact ⟨_, _, rfl, rfl⟩

theorem head_le (h : Written col es lines) {rest : List Line} (hrest : ∀ y ∈ rest.head?, y.col ≤ col) :
    ∀ y ∈ (lines ++ rest).head?, y.col ≤ col := by
  cases h with
  | nil => exact hrest
  | word =>
    rintro _ ⟨⟩
    exact Nat.le_refl _
  | mapping =>
    rintro _ ⟨⟩
    exact Nat.le_refl _

theorem wellLaid (h : Written col es lines) {rest : List Line} (hrest : WellLaid rest)
    (hleft : ∀ y ∈ rest.head?, y.col ≤ col) : WellLaid (lines ++ rest) := by
  induction h generalizing rest with
  | nil => exact hrest
  | word hkey hv hes ih =>
    refine ⟨⟨hkey, ?_⟩, fun _ => hes.head_le hleft, ih hrest hleft⟩
    rintro _ ⟨⟩
    exact hv
  | mapping hkey hne hcol hentries hes ihentries ih =>
    have hinner := ihentries (ih hrest hleft) fun y hy =>
      Nat.le_of_lt (Nat.lt_of_le_of_lt (hes.head_le hleft y hy) hcol)
    rw [← List.append_assoc] at hinner
    refine ⟨⟨hkey, ?_⟩, fun h => absurd h Bool.false_ne_true, hinner⟩
    rintro _ ⟨⟩

end Written

/-! ## The tokens of entries -/

theorem lineTokens_same (x : Line) (outer : List Nat) (more : List Line) :
    lineTokens (x.col :: outer) (x :: more) =
      .key :: .plain x.key :: .value :: (x.value.toList.map .plain ++ lineTokens (x.col :: outer) more) := by
  simp [lineTokens, Line.tokens, Line.ends, Line.opens, Line.left, Line.columns]

theorem lineTokens_inner {x : Line} {columns : List Nat} (h : ∀ col ∈ columns.head?, col < x.col) (more : List Line) :
    lineTokens columns (x :: more) = .blockStart :: lineTokens (x.col :: columns) (x :: more) := by
  obtain ⟨htake, hdrop⟩ := takeWhile_dropWhile_of_head?_le (fun col hcol => Nat.le_of_lt (h col hcol))
  have hopens : columns.head?.any (fun col => x.col ≤ col) = false := by
    cases hhead : columns.head? with
    | none => rfl
    | some col => simpa using h col hhead
  rw [lineTokens_same]
  simp [lineTokens, Line.tokens, Line.ends, Line.opens, Line.left, Line.columns, htake, hdrop, hopens]

theorem lineTokens_outer {col : Nat} {lines : List Line} (h : ∀ y ∈ lines.head?, y.col < col) (outer : List Nat) :
    lineTokens (col :: outer) lines = .blockEnd :: lineTokens outer lines := by
  cases lines with
  | nil => rfl
  | cons y more =>
    have hlt : y.col < col := h y rfl
    simp [lineTokens, Line.tokens, Line.ends, Line.opens, Line.left, Line.columns, hlt]

theorem length_lineTokens (columns : List Nat) (lines : List Line) :
    3 * lines.length ≤ (lineTokens columns lines).length := by
  induction lines generalizing columns with
  | nil => exact Nat.zero_le _
  | cons x more ih =>
    have := ih (x.columns columns)
    simp [lineTokens, Line.tokens]
    omega

/-! ## Reading -/

theorem blockEntries_cons {fuel : Nat} {l after rest : List Token} {t : Tree} {es : List (String × Tree)}
    (hvalue : nodeOrMissing (fuel + 2) true l = some (t, after))
    (hmore : blockEntries (fuel + 3) after = some (es, rest)) (key : String) :
    blockEntries (fuel + 4) (.key :: .plain key :: .value :: l) = some ((key, t) :: es, rest) := by
  have hkey : nodeOrMissing (fuel + 2) true (.plain key :: .value :: l) = some (.plain key, .value :: l) := rfl
  have hentry : entry (fuel + 3) true (.plain key :: .value :: l) = some ((key, t), after) := by
    simp [entry, hkey, Tree.scalar?, hvalue]
  rw [blockEntries, hentry, Option.bind_some]
  simp only [hmore, Option.map_some]

theorem node_blockStart {fuel : Nat} {l rest : List Token} {es : List (String × Tree)}
    (h : blockEntries fuel l = some (es, rest)) :
    node (fuel + 1) true (.blockStart :: l) = some (.mapping es, rest) := by
  rw [node, if_pos rfl, h, Option.map_some]

/-- **The entries of a mapping read back**, by induction on how they are written; the lines after them stand left of
them. -/
theorem blockEntries_lines {col : Nat} {es : List (String × Tree)} {lines : List Line} (h : Written col es lines)
    {rest : List Line} (hrest : ∀ y ∈ rest.head?, y.col < col) (outer : List Nat) {fuel : Nat}
    (hfuel : 4 * lines.length ≤ fuel) :
    blockEntries (fuel + 1) (lineTokens (col :: outer) (lines ++ rest)) = some (es, lineTokens outer rest) := by
  induction h generalizing rest outer fuel with
  | nil col => rw [List.nil_append, lineTokens_outer hrest, blockEntries]
  | @word col key v es lines hkey hv hes ih =>
    rw [List.length_cons] at hfuel
    obtain ⟨fuel, rfl⟩ : ∃ n, fuel = n + 3 := ⟨fuel - 3, by omega⟩
    have hmore : blockEntries (fuel + 3) (lineTokens (col :: outer) (lines ++ rest)) =
        some (es, lineTokens outer rest) := ih hrest outer (by omega)
    have hvalue : nodeOrMissing (fuel + 2) true (.plain v :: lineTokens (col :: outer) (lines ++ rest)) =
        some (.plain v, lineTokens (col :: outer) (lines ++ rest)) := rfl
    rw [List.cons_append, lineTokens_same ⟨col, key, some v⟩]
    exact blockEntries_cons hvalue hmore key
  | @mapping col inner key es entries lines innerLines hkey hne hcol hentries hes ihentries ih =>
    rw [List.length_cons, List.length_append] at hfuel
    obtain ⟨fuel, rfl⟩ : ∃ n, fuel = n + 3 := ⟨fuel - 3, by omega⟩
    have hmore : blockEntries (fuel + 3) (lineTokens (col :: outer) (lines ++ rest)) =
        some (es, lineTokens outer rest) := ih hrest outer (by omega)
    have hafter : ∀ y ∈ (lines ++ rest).head?, y.col < inner := fun y hy =>
      Nat.lt_of_le_of_lt (hes.head_le (fun y hy => Nat.le_of_lt (hrest y hy)) y hy) hcol
    obtain ⟨fuel, rfl⟩ : ∃ n, fuel = n + 1 := ⟨fuel - 1, by omega⟩
    have hinner : blockEntries (fuel + 1) (lineTokens (inner :: col :: outer) (innerLines ++ (lines ++ rest))) =
        some (entries, lineTokens (col :: outer) (lines ++ rest)) := ihentries hafter (col :: outer) (by omega)
    obtain ⟨x, more, rfl, rfl⟩ := hentries.exists_cons hne
    have hbegins : ∀ c ∈ (col :: outer).head?, c < x.col := by
      rintro _ ⟨⟩
      exact hcol
    have hvalue : nodeOrMissing (fuel + 3) true (lineTokens (col :: outer) (x :: more ++ (lines ++ rest))) =
        some (.mapping entries, lineTokens (col :: outer) (lines ++ rest)) := by
      rw [List.cons_append, lineTokens_inner hbegins]
      exact node_blockStart hinner
    rw [List.cons_append, List.append_assoc, lineTokens_same ⟨col, key, none⟩]
    exact blockEntries_cons hvalue hmore key

/-- **A mapping of words reads back as it was written.** -/
theorem document?_lines {col : Nat} {es : List (String × Tree)} {lines : List Line} (h : Written col es lines)
    (hne : es ≠ []) : document? (String.ofList (linesText lines)) = some (.mapping es) := by
  have hend : ∀ y ∈ ([] : List Line).head?, y.col < col := by simp
  have hlaid : WellLaid (lines ++ []) := h.wellLaid trivial (fun y hy => Nat.le_of_lt (hend y hy))
  have hfuel : 4 * lines.length ≤ 3 * (lineTokens [] lines).length + 1 := by
    have := length_lineTokens [] lines
    omega
  have hread := blockEntries_lines h hend [] hfuel
  rw [List.append_nil] at hlaid hread
  obtain ⟨x, more, rfl, rfl⟩ := h.exists_cons hne
  have htokens : lineTokens [] (x :: more) = .blockStart :: lineTokens [x.col] (x :: more) :=
    lineTokens_inner (by simp) more
  have hnode := node_blockStart hread
  rw [document?, tokens?_lines hlaid, Option.bind_some]
  simp only [htokens] at hnode ⊢
  rw [hnode]
  rfl

end Yaml
end ValueFlow
