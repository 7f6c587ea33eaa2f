import Mathlib.Data.List.TakeWhile
import ValueFlow.Proofs.Lists
import ValueFlow.Yaml.Document
/-!
# Scanning a text line by line

A text whose lines are each an indented key, a colon and perhaps one word scans to tokens that depend on the columns of
the keys alone: a line ends the mappings further to the right, begins one if it stands further right than all that are
left, and then adds its own words (`lineTokens`).  The scanner takes two or three lexemes for a line, and between lines
it remembers only the columns of the open mappings.
-/
namespace ValueFlow
namespace Yaml

/-! ## Words -/

/-- The characters of plain words: letters, digits and the underscore. -/
def isWordChar (c : Char) : Bool :=
  ('0' ≤ c && c ≤ '9') || ('A' ≤ c && c ≤ 'Z') || ('a' ≤ c && c ≤ 'z') || c = '_'

/-- A word that reads as itself wherever it stands. -/
def IsWord (w : List Char) : Prop := w ≠ [] ∧ ∀ c ∈ w, isWordChar c = true

instance (w : List Char) : Decidable (IsWord w) :=
  decidable_of_iff ((!w.isEmpty && w.all isWordChar) = true) (by simp [IsWord])

/-- A word short enough to be a key. -/
def IsKey (w : List Char) : Prop := IsWord w ∧ w.length ≤ maxKeyLength

instance (w : List Char) : Decidable (IsKey w) := inferInstanceAs (Decidable (_ ∧ _))

theorem ne_of_isWordChar {c d : Char} (h : isWordChar c = true) (hd : isWordChar d = false) : c ≠ d := by
  rintro rfl
  rw [h] at hd
  cases hd

theorem not_isBreak {c : Char} (h : isWordChar c = true) : isBreak c = false := by
  have h₁ : c ≠ '\n' := ne_of_isWordChar h (by decide)
  have h₂ : c ≠ '\u2028' := ne_of_isWordChar h (by decide)
  have h₃ : c ≠ '\u2029' := ne_of_isWordChar h (by decide)
  simp [isBreak, h₁, h₂, h₃]

theorem not_isGap {c : Char} (h : isWordChar c = true) : isGap c = false := by
  have h₁ : c ≠ ' ' := ne_of_isWordChar h (by decide)
  have h₂ : c ≠ '\t' := ne_of_isWordChar h (by decide)
  simp [isGap, isBlank, h₁, h₂, not_isBreak h]

theorem not_isReserved {c : Char} (h : isWordChar c = true) : isReserved c = false := by
  have hall : "[]&*!|>%@\x60\t".toList.all (fun d => !isWordChar d) = true := by decide
  rw [isReserved, Bool.eq_false_iff, Ne, List.contains_iff_mem]
  intro hmem
  have hno := List.all_eq_true.1 hall c hmem
  rw [h] at hno
  cases hno

/-! ## Where characters stand -/

theorem locate_append {w : List Char} (hw : ∀ c ∈ w, isBreak c = false) (rest : List Char) (k c : Nat) :
    locate k c (w ++ rest) = locate k c w ++ locate k (c + w.length) rest := by
  induction w generalizing c with
  | nil => rfl
  | cons x w ih =>
    obtain ⟨hx, hw⟩ := List.forall_mem_cons.1 hw
    simp only [List.cons_append, locate, hx, Bool.false_eq_true, if_false, ih hw, List.length_cons]
    rw [Nat.add_assoc, Nat.add_comm 1]

theorem mem_locate {w : List Char} {k c : Nat} {g : Glyph} (h : g ∈ locate k c w) : g.char ∈ w := by
  induction w generalizing k c with
  | nil => cases h
  | cons x w ih =>
    rcases List.mem_cons.1 h with rfl | h
    · exact List.mem_cons_self
    · split at h <;> exact List.mem_cons_of_mem x (ih h)

/-! ## One lexeme -/

theorem afterMark?_eq_none {c : Char} {g : Glyph} (h : g.char ≠ c) (rest : List Glyph) :
    afterMark? c (g :: rest) = none := by
  unfold afterMark?
  split
  · rename_i heq
    cases heq
    simp [h]
  · rfl

theorem plainWord?_word {w : List Char} (hw : ∀ c ∈ w, isWordChar c = true) {rest : List Glyph}
    (hrest : plainWord? false rest = some ([], rest)) (k c : Nat) :
    plainWord? false (locate k c w ++ rest) = some (w, rest) := by
  induction w generalizing c with
  | nil => exact hrest
  | cons x w ih =>
    obtain ⟨hx, hw⟩ := List.forall_mem_cons.1 hw
    have hcolon : x ≠ ':' := ne_of_isWordChar hx (by decide)
    simp [locate, plainWord?, not_isBreak hx, not_isGap hx, hcolon, ih hw]

theorem plainWord?_gap {g : Glyph} (h : isGap g.char = true) (rest : List Glyph) :
    plainWord? false (g :: rest) = some ([], g :: rest) := by
  simp [plainWord?, h]

theorem plainWord?_colon {g : Glyph} (h : g.char = ':') {rest : List Glyph} (hgap : atGap rest = true) :
    plainWord? false (g :: rest) = some ([], g :: rest) := by
  have hno : isGap ':' = false := by decide
  simp [plainWord?, h, hgap, hno]

/-- A plain scalar ends where it cannot go on, and where no word follows. -/
theorem plainTail?_ends {inFlow : Bool} {indent : Nat} {l : List Glyph} (htab : hasStrayTab indent (gap l) = false)
    (hends : endsPlain inFlow indent (afterGap l) = true ∨ plainWord? inFlow (afterGap l) = some ([], afterGap l))
    (text : List Char) :
    plainTail? inFlow indent text l = some ⟨text, !(breaks (gap l)).isEmpty, afterGap l⟩ := by
  rw [plainTail?, htab, if_neg Bool.false_ne_true]
  split
  · rfl
  · rename_i hgoes
    have hword := hends.resolve_left hgoes
    split <;> rename_i heq <;> rw [hword] at heq <;> cases heq
    rfl

theorem lexeme?_word {w : List Char} (hw : IsWord w) {indent k c : Nat} {rest : List Glyph} {p : PlainText}
    (hword : plainWord? false rest = some ([], rest)) (htail : plainTail? false indent w rest = some p) :
    lexeme? false indent (locate k c w ++ rest) = some (.plain p.text p.broken, p.rest) := by
  have hplain := plainWord?_word hw.2 hword k c
  obtain ⟨x, w, rfl⟩ := List.exists_cons_of_ne_nil hw.1
  have hx : isWordChar x = true := hw.2 x List.mem_cons_self
  have hne {d : Char} (hd : isWordChar d = false) : x ≠ d := ne_of_isWordChar hx hd
  have hplain? : plain? false indent (locate k c (x :: w) ++ rest) = some p := by
    rw [plain?, hplain]
    exact htail
  rw [locate, List.cons_append] at hplain? ⊢
  rw [lexeme?, afterMark?_eq_none (hne (by decide)), afterMark?_eq_none (hne (by decide))]
  -- the first character is none of those that begin another lexeme
  have hopen : x ≠ '\x7b' := hne (by decide)
  have hclose : x ≠ '\x7d' := hne (by decide)
  have hcomma : x ≠ ',' := hne (by decide)
  have hdouble : x ≠ '\x22' := hne (by decide)
  have hsingle : x ≠ '\x27' := hne (by decide)
  have hquestion : x ≠ '?' := hne (by decide)
  have hcolon : x ≠ ':' := hne (by decide)
  have hdash : x ≠ '-' := hne (by decide)
  simp [hquestion, hcolon, hdash, not_isReserved hx, hplain?]

theorem lexeme?_colon {g : Glyph} (hg : g.char = ':') {rest : List Glyph} (hgap : atGap rest = true) (indent : Nat) :
    lexeme? false indent (g :: rest) = some (.colon, rest) := by
  rw [lexeme?, afterMark?_eq_none (by rw [hg]; decide), afterMark?_eq_none (by rw [hg]; decide)]
  simp [hg, hgap]

/-! ## Lines -/

structure Line where
  col : Nat
  key : String
  /-- a word after the colon, if one stands there -/
  value : Option String
deriving DecidableEq, Repr

namespace Line

def valueText (x : Line) : List Char := x.value.elim [] (fun v => ' ' :: v.toList)

def text (x : Line) : List Char := List.replicate x.col ' ' ++ (x.key.toList ++ ':' :: (x.valueText ++ ['\n']))

structure IsPlain (x : Line) : Prop where
  key : IsKey x.key.toList
  value : ∀ v ∈ x.value, IsWord v.toList

end Line

def linesText (lines : List Line) : List Char := lines.flatMap Line.text

/-- Lines that can be read one by one: a line further to the right than one with a word would continue that word. -/
def WellLaid : List Line → Prop
  | []        => True
  | x :: more => x.IsPlain ∧ (x.value.isSome → ∀ y ∈ more.head?, y.col ≤ x.col) ∧ WellLaid more

/-- The text from the first key on, which stands in line `k`. -/
def fromKey (k : Nat) : List Line → List Glyph
  | []        => []
  | x :: more => locate k x.col (x.key.toList ++ ':' :: (x.valueText ++ '\n' :: linesText more))

theorem WellLaid.isPlain {lines : List Line} (h : WellLaid lines) {x : Line} (hx : x ∈ lines) : x.IsPlain := by
  induction lines with
  | nil => cases hx
  | cons y more ih =>
    rcases List.mem_cons.1 hx with rfl | hx
    · exact h.1
    · exact ih h.2.2 hx

theorem mem_linesText {lines : List Line} (h : WellLaid lines) {c : Char} (hc : c ∈ linesText lines) :
    isWordChar c = true ∨ c = ' ' ∨ c = ':' ∨ c = '\n' := by
  obtain ⟨x, hx, hc⟩ := List.mem_flatMap.1 hc
  have hplain := h.isPlain hx
  simp only [Line.text, Line.valueText, List.mem_append, List.mem_replicate, List.mem_cons, List.not_mem_nil,
    or_false] at hc
  rcases hc with ⟨-, rfl⟩ | hc | rfl | hc | rfl
  · simp
  · exact .inl (hplain.key.1.2 c hc)
  · simp
  · cases hv : x.value with
    | none => simp [hv] at hc
    | some v =>
      rw [hv, Option.elim_some, List.mem_cons] at hc
      rcases hc with rfl | hc
      · simp
      · exact .inl ((hplain.value v hv).2 c hc)
  · simp

/-! ## Gaps between lines -/

theorem locate_spaces (n k c : Nat) (rest : List Char) :
    locate k c (List.replicate n ' ' ++ rest) = locate k c (List.replicate n ' ') ++ locate k (c + n) rest := by
  have hspaces : ∀ d ∈ List.replicate n ' ', isBreak d = false := by
    intro d hd
    rw [List.eq_of_mem_replicate hd]
    decide
  rw [locate_append hspaces, List.length_replicate]

theorem locate_lines {x : Line} (k : Nat) (more : List Line) :
    locate k 0 (linesText (x :: more)) = locate k 0 (List.replicate x.col ' ') ++ fromKey k (x :: more) := by
  rw [linesText, List.flatMap_cons, Line.text, List.append_assoc, locate_spaces, Nat.zero_add]
  simp only [fromKey, linesText, List.append_assoc, List.cons_append, List.nil_append]

theorem exists_locate_word {w : List Char} (hw : IsWord w) (k col : Nat) (more : List Char) :
    ∃ (c : Char) (rest : List Glyph), isWordChar c = true ∧ locate k col (w ++ more) = ⟨c, k, col⟩ :: rest := by
  obtain ⟨c, w, rfl⟩ := List.exists_cons_of_ne_nil hw.1
  exact ⟨c, _, hw.2 c List.mem_cons_self, by rw [List.cons_append, locate]⟩

theorem fromKey_cons {x : Line} (hx : x.IsPlain) (k : Nat) (more : List Line) :
    ∃ (c : Char) (rest : List Glyph), isWordChar c = true ∧ fromKey k (x :: more) = ⟨c, k, x.col⟩ :: rest :=
  exists_locate_word hx.key.1 k x.col _

theorem skipGap_blanks {l : List Glyph} (hl : ∀ g ∈ l, g.char = ' ') (keyAllowed : Bool) (rest : List Glyph) :
    skipGap false keyAllowed false (l ++ rest) = skipGap false keyAllowed false rest := by
  induction l with
  | nil => rfl
  | cons g l ih =>
    obtain ⟨hg, hl⟩ := List.forall_mem_cons.1 hl
    have hno : isBreak ' ' = false := by decide
    simp [skipGap, hg, hno, ih hl]

theorem skipGap_here {g : Glyph} (hgap : isGap g.char = false) (hcomment : g.char ≠ '#') (hmark : g.char ≠ '\ufeff')
    (keyAllowed : Bool) (rest : List Glyph) :
    skipGap false keyAllowed false (g :: rest) = (keyAllowed, g :: rest) := by
  simp only [isGap, isBlank, Bool.or_eq_false_iff, decide_eq_false_iff_not] at hgap
  obtain ⟨⟨hblank, htab⟩, hbreak⟩ := hgap
  simp [skipGap, hblank, htab, hbreak, hcomment, hmark]

theorem skipGap_word {c : Char} (hc : isWordChar c = true) (keyAllowed : Bool) (k col : Nat) (rest : List Glyph) :
    skipGap false keyAllowed false (⟨c, k, col⟩ :: rest) = (keyAllowed, ⟨c, k, col⟩ :: rest) := by
  have hcomment : c ≠ '#' := ne_of_isWordChar hc (by decide)
  have hmark : c ≠ '\ufeff' := ne_of_isWordChar hc (by decide)
  exact skipGap_here (g := ⟨c, k, col⟩) (not_isGap hc) hcomment hmark keyAllowed rest

theorem skipGap_fromKey {lines : List Line} (h : WellLaid lines) (k : Nat) (keyAllowed : Bool) :
    skipGap false keyAllowed false (fromKey k lines) = (keyAllowed, fromKey k lines) := by
  cases lines with
  | nil => rfl
  | cons x more =>
    obtain ⟨c, rest, hc, heq⟩ := fromKey_cons h.1 k more
    rw [heq, skipGap_word hc]

theorem skipGap_lines {lines : List Line} (h : WellLaid lines) (k : Nat) (keyAllowed : Bool) :
    skipGap false keyAllowed false (locate k 0 (linesText lines)) = (keyAllowed, fromKey k lines) := by
  cases lines with
  | nil => rfl
  | cons x more =>
    have hblank : ∀ g ∈ locate k 0 (List.replicate x.col ' '), g.char = ' ' := fun g hg =>
      List.eq_of_mem_replicate (mem_locate hg)
    rw [locate_lines, skipGap_blanks hblank, skipGap_fromKey h]

theorem afterGap_lines {lines : List Line} (h : WellLaid lines) (k : Nat) :
    afterGap (locate k 0 (linesText lines)) = fromKey k lines := by
  cases lines with
  | nil => rfl
  | cons x more =>
    have hblank : ∀ g ∈ locate k 0 (List.replicate x.col ' '), isGap g.char = true := by
      intro g hg
      rw [List.eq_of_mem_replicate (mem_locate hg)]
      decide
    obtain ⟨c, rest, hc, heq⟩ := fromKey_cons h.1 k more
    rw [locate_lines, afterGap, List.dropWhile_append_of_pos hblank, heq, List.dropWhile_cons_of_neg]
    simp [not_isGap hc]

theorem hasStrayTab_lines {lines : List Line} (h : WellLaid lines) (g : Glyph) (hg : g.char = '\n') (k indent : Nat) :
    hasStrayTab indent (gap (g :: locate k 0 (linesText lines))) = false := by
  rw [hasStrayTab, List.any_eq_false]
  intro t ht
  have hmem : t ∈ g :: locate k 0 (linesText lines) :=
    (List.takeWhile_sublist _).mem ((List.dropWhile_sublist _).mem ht)
  have hne : t.char ≠ '\t' := by
    rcases List.mem_cons.1 hmem with rfl | hmem
    · rw [hg]
      decide
    · rcases mem_linesText h (mem_locate hmem) with hc | hc | hc | hc
      · exact ne_of_isWordChar hc (by decide)
      all_goals
        rw [hc]
        decide
  simp [hne]

/-! ## The lexemes of a line -/

theorem atGap_value (x : Line) (k c : Nat) (more : List Line) :
    atGap (locate k c (x.valueText ++ '\n' :: linesText more)) = true := by
  rw [Line.valueText]
  cases x.value <;> rfl

theorem lexeme?_key {x : Line} (hx : x.IsPlain) (k : Nat) (more : List Line) (indent : Nat) :
    lexeme? false indent (fromKey k (x :: more)) = some (.plain x.key.toList false,
      ⟨':', k, x.col + x.key.toList.length⟩ ::
        locate k (x.col + x.key.toList.length + 1) (x.valueText ++ '\n' :: linesText more)) := by
  have hbreak : isBreak ':' = false := by decide
  have hgap : isGap ':' = false := by decide
  rw [fromKey, locate_append (fun c hc => not_isBreak (hx.key.1.2 c hc)), locate, hbreak, if_neg Bool.false_ne_true]
  generalize hrest : locate k _ (x.valueText ++ '\n' :: linesText more) = rest
  have hword := plainWord?_colon (g := ⟨':', k, x.col + x.key.toList.length⟩) rfl (hrest ▸ atGap_value x k _ more)
  refine lexeme?_word hx.key.1 hword (p := ⟨_, false, _⟩) ?_
  have hstart : gap (⟨':', k, x.col + x.key.toList.length⟩ :: rest) = [] := by simp [gap, hgap]
  have hafter : afterGap (⟨':', k, x.col + x.key.toList.length⟩ :: rest) =
      ⟨':', k, x.col + x.key.toList.length⟩ :: rest := by simp [afterGap, hgap]
  rw [plainTail?_ends (by rw [hstart]; rfl) (.inr (by rw [hafter, hword])), hstart, hafter]
  rfl

/-- A word at the end of a line is a scalar, if the next line stands left of the column `indent`. -/
theorem lexeme?_value {v : List Char} (hv : IsWord v) {more : List Line} (hmore : WellLaid more) {indent : Nat}
    (hleft : ∀ y ∈ more.head?, y.col < indent) (k c : Nat) :
    lexeme? false indent (locate k c (v ++ '\n' :: linesText more)) = some (.plain v true, fromKey (k + 1) more) := by
  have hbreak : isBreak '\n' = true := by decide
  have hgap : isGap '\n' = true := by decide
  rw [locate_append (fun c hc => not_isBreak (hv.2 c hc)), locate, if_pos hbreak]
  refine lexeme?_word hv (plainWord?_gap hgap _) (p := ⟨v, true, fromKey (k + 1) more⟩) ?_
  have hafter (g : Glyph) (hg : g.char = '\n') :
      afterGap (g :: locate (k + 1) 0 (linesText more)) = fromKey (k + 1) more := by
    rw [← afterGap_lines hmore]
    simp [afterGap, hg, hgap]
  have hends : endsPlain false indent (fromKey (k + 1) more) = true ∨
      plainWord? false (fromKey (k + 1) more) = some ([], fromKey (k + 1) more) := by
    cases more with
    | nil => exact .inr rfl
    | cons y more =>
      obtain ⟨d, rest, hd, heq⟩ := fromKey_cons hmore.1 (k + 1) more
      have hcol : y.col < indent := hleft y rfl
      exact .inl (by simp [heq, endsPlain, hcol])
  rw [plainTail?_ends (hasStrayTab_lines hmore _ rfl _ _) (by rw [hafter _ rfl]; exact hends), hafter _ rfl]
  simp [gap, hgap, breaks, hbreak]

/-! ## The tokens of lines -/

namespace Line

/-- The open mappings that a line does not end. -/
def left (x : Line) (columns : List Nat) : List Nat := columns.dropWhile (fun col => x.col < col)

/-- A line further to the right than all of them begins a mapping. -/
def opens (x : Line) (columns : List Nat) : Bool := !(x.left columns).head?.any (fun col => x.col ≤ col)

/-- The open mappings after a line. -/
def columns (x : Line) (columns : List Nat) : List Nat :=
  if x.opens columns then x.col :: x.left columns else x.left columns

def ends (x : Line) (columns : List Nat) : List Token :=
  (columns.takeWhile (fun col => x.col < col)).map (fun _ => .blockEnd)

def tokens (x : Line) (columns : List Nat) : List Token :=
  x.ends columns ++ (if x.opens columns then [.blockStart] else []) ++
    .key :: .plain x.key :: .value :: x.value.toList.map .plain

theorem le_of_mem_left (x : Line) {columns : List Nat} {col : Nat} (h : col ∈ (x.left columns).head?) :
    col ≤ x.col := by
  have hhead := List.head?_dropWhile_not (fun col => decide (x.col < col)) columns
  rw [left, Option.mem_def] at h
  simpa [h] using hhead

theorem exists_columns_eq (x : Line) (columns : List Nat) : ∃ outer, x.columns columns = x.col :: outer := by
  cases h : x.left columns with
  | nil => exact ⟨[], by simp [Line.columns, opens, h]⟩
  | cons col outer =>
    have hle : col ≤ x.col := x.le_of_mem_left (by rw [h]; rfl)
    by_cases hcol : x.col ≤ col
    · exact ⟨outer, by simp [Line.columns, opens, h, Nat.le_antisymm hle hcol]⟩
    · exact ⟨col :: outer, by simp [Line.columns, opens, h, hcol]⟩

end Line

/-- **The tokens of lines** before which mappings at the given columns are open. -/
def lineTokens (columns : List Nat) : List Line → List Token
  | []        => columns.map (fun _ => .blockEnd)
  | x :: more => x.tokens columns ++ lineTokens (x.columns columns) more

namespace Scanner

theorem run_at {s here next : Scanner} {l : List Glyph} {keyAllowed : Bool} {g : Glyph} {rest further : List Glyph}
    {x : Lexeme} (hgap : skipGap s.inFlow s.keyAllowed false l = (keyAllowed, g :: rest))
    (hadvance : s.advance keyAllowed g = some here)
    (hlexeme : lexeme? here.inFlow here.innerColumn (g :: rest) = some (x, further))
    (haccept : here.accept g x = some next) : s.run l = next.run further := by
  rw [run]
  split
  · rename_i h
    rw [hgap] at h
    cases h
  · rename_i h
    rw [hgap] at h
    cases h
    rw [hadvance, Option.bind_some]
    split
    · rename_i h
      rw [hlexeme] at h
      cases h
    · rename_i h
      rw [hlexeme] at h
      cases h
      rw [haccept, Option.bind_some]

theorem run_end {s : Scanner} {l : List Glyph} {keyAllowed : Bool}
    (hgap : skipGap s.inFlow s.keyAllowed false l = (keyAllowed, [])) : s.run l = s.finish := by
  rw [run]
  split
  · rfl
  · rename_i h
    rw [hgap] at h
    cases h

theorem advance_inside {columns : List Nat} {candidate : Option Candidate} {g : Glyph}
    (hstale : ∀ c ∈ candidate, c.isStale g = false) (hinside : ∀ col ∈ columns.head?, col ≤ g.col)
    (tokens : List Token) (before keyAllowed : Bool) :
    advance ⟨tokens, columns, candidate, [], before⟩ keyAllowed g =
      some ⟨tokens, columns, candidate, [], keyAllowed⟩ := by
  obtain ⟨htake, hdrop⟩ := takeWhile_dropWhile_of_head?_le hinside
  cases candidate with
  | none => simp [advance, expire, dedent, inFlow, htake, hdrop]
  | some c => simp [advance, expire, dedent, inFlow, htake, hdrop, hstale c rfl]

/-- The key of a line is remembered, after the mappings further right are ended. -/
theorem run_key {x : Line} (hx : x.IsPlain) {l : List Glyph} {keyAllowed : Bool} {k : Nat} {more : List Line}
    (hgap : skipGap false keyAllowed false l = (true, fromKey k (x :: more))) (tokens : List Token)
    (columns : List Nat) :
    run ⟨tokens, columns, none, [], keyAllowed⟩ l =
      run ⟨tokens ++ x.ends columns ++ [.plain x.key], x.left columns,
          some ⟨(tokens ++ x.ends columns).length, k, x.col, (x.left columns).head? = some x.col⟩, [], false⟩
        (⟨':', k, x.col + x.key.toList.length⟩ ::
          locate k (x.col + x.key.toList.length + 1) (x.valueText ++ '\n' :: linesText more)) := by
  have hlexeme := lexeme?_key hx k more
  obtain ⟨c, rest, hc, heq⟩ := fromKey_cons hx k more
  rw [heq] at hgap
  simp only [heq] at hlexeme
  refine run_at hgap rfl (hlexeme _) ?_
  simp [accept, remember, forget, emit, inFlow, dedent, Line.ends, Line.left]
  rfl

theorem indent_line (x : Line) (columns : List Nat) (tokens more : List Token) (keyAllowed : Bool) :
    indent ⟨tokens ++ more, x.left columns, none, [], keyAllowed⟩ x.col tokens.length =
      ⟨tokens ++ (if x.opens columns then [.blockStart] else []) ++ more, x.columns columns, none, [], keyAllowed⟩ := by
  cases h : (x.left columns).head?.any (fun col => x.col ≤ col) <;>
    simp [indent, inFlow, Line.opens, Line.columns, h, insertIdx_append_length]

/-- The colon makes it a key, which may begin a mapping. -/
theorem run_colon {x : Line} (hx : x.IsPlain) (k : Nat) (more : List Line) (tokens : List Token) (columns : List Nat)
    (required : Bool) :
    run ⟨tokens ++ [.plain x.key], x.left columns, some ⟨tokens.length, k, x.col, required⟩, [], false⟩
        (⟨':', k, x.col + x.key.toList.length⟩ ::
          locate k (x.col + x.key.toList.length + 1) (x.valueText ++ '\n' :: linesText more)) =
      run ⟨tokens ++ (if x.opens columns then [.blockStart] else []) ++ [.key, .plain x.key, .value],
          x.columns columns, none, [], false⟩
        (locate k (x.col + x.key.toList.length + 1) (x.valueText ++ '\n' :: linesText more)) := by
  generalize hg : (⟨':', k, x.col + x.key.toList.length⟩ : Glyph) = g
  have hchar : g.char = ':' := by rw [← hg]
  have hgap : isGap g.char = false := by rw [hchar]; decide
  have hskip := skipGap_here hgap (by rw [hchar]; decide) (by rw [hchar]; decide) false
  have hstale : ∀ c ∈ some (Candidate.mk tokens.length k x.col required), c.isStale g = false := by
    rintro _ ⟨⟩
    have hshort := hx.key.2
    simp [Candidate.isStale, ← hg]
    omega
  have hinside : ∀ col ∈ (x.left columns).head?, col ≤ g.col := by
    intro col hcol
    have hle := x.le_of_mem_left hcol
    rw [← hg]
    exact Nat.le_trans hle (Nat.le_add_right _ _)
  refine run_at (hskip _) (advance_inside hstale hinside _ _ _) (lexeme?_colon hchar (atGap_value x k _ more) _) ?_
  simp only [accept, colon, insertIdx_append_length, indent_line, emit, List.append_assoc]
  rfl

/-- A word after the colon is a value, and the next line is read from its key on. -/
theorem run_value {v : String} (hv : IsWord v.toList) {more : List Line} (hmore : WellLaid more) {col c : Nat}
    (hleft : ∀ y ∈ more.head?, y.col ≤ col) (hcol : col ≤ c) (k : Nat) (tokens : List Token) (outer : List Nat) :
    run ⟨tokens, col :: outer, none, [], false⟩ (locate k c (' ' :: v.toList ++ '\n' :: linesText more)) =
      run ⟨tokens ++ [.plain v], col :: outer, none, [], true⟩ (fromKey (k + 1) more) := by
  have hlexeme := lexeme?_value hv hmore (fun y hy => Nat.lt_succ_of_le (hleft y hy)) k (c + 1)
  obtain ⟨d, rest, hd, heq⟩ := exists_locate_word hv k (c + 1) ('\n' :: linesText more)
  rw [heq] at hlexeme
  have hskip : skipGap false false false (locate k c (' ' :: v.toList ++ '\n' :: linesText more)) =
      (false, ⟨d, k, c + 1⟩ :: rest) := by
    rw [← skipGap_word hd false k (c + 1) rest, ← heq]
    exact skipGap_blanks (l := [⟨' ', k, c⟩]) (by simp) false _
  refine run_at hskip (advance_inside ?_ ?_ _ _ _) hlexeme ?_
  · rintro _ ⟨⟩
  · rintro _ ⟨⟩
    exact Nat.le_succ_of_le hcol
  · simp [accept, remember, emit]

/-- **One line**: the scanner adds its tokens and goes on at the next key. -/
theorem run_line {x : Line} {more : List Line} (h : WellLaid (x :: more)) {l : List Glyph} {keyAllowed : Bool} {k : Nat}
    (hgap : skipGap false keyAllowed false l = (true, fromKey k (x :: more))) (tokens : List Token)
    (columns : List Nat) :
    ∃ (l' : List Glyph) (keyAllowed' : Bool), skipGap false keyAllowed' false l' = (true, fromKey (k + 1) more) ∧
      run ⟨tokens, columns, none, [], keyAllowed⟩ l =
        run ⟨tokens ++ x.tokens columns, x.columns columns, none, [], keyAllowed'⟩ l' := by
  obtain ⟨hx, hnext, hmore⟩ := h
  rw [run_key hx hgap, run_colon hx]
  obtain ⟨outer, hcolumns⟩ := x.exists_columns_eq columns
  cases hv : x.value with
  | none =>
    -- the colon ends the line, and the break after it is skipped with the next line's blanks
    refine ⟨locate k (x.col + x.key.toList.length + 1) ('\n' :: linesText more), false, ?_, ?_⟩
    · exact skipGap_lines hmore (k + 1) true
    · simp [Line.valueText, Line.tokens, hv]
  | some v =>
    -- to see where the word ends, the scanner has read up to the next key
    refine ⟨fromKey (k + 1) more, true, skipGap_fromKey hmore _ _, ?_⟩
    rw [Line.valueText, hv, Option.elim_some, hcolumns,
      run_value (hx.value v hv) hmore (hnext (by rw [hv]; rfl)) (by omega)]
    simp [Line.tokens, hv]

/-- **All lines**, by induction on them: between two of them only the open columns are remembered. -/
theorem run_lines {lines : List Line} (h : WellLaid lines) {l : List Glyph} {keyAllowed : Bool} {k : Nat}
    (hgap : skipGap false keyAllowed false l = (true, fromKey k lines)) (tokens : List Token) (columns : List Nat) :
    run ⟨tokens, columns, none, [], keyAllowed⟩ l = some (tokens ++ lineTokens columns lines) := by
  induction lines generalizing l keyAllowed k tokens columns with
  | nil =>
    rw [run_end (s := ⟨tokens, columns, none, [], keyAllowed⟩) hgap]
    have hall : columns.takeWhile (fun _ => true) = columns :=
      List.takeWhile_eq_self_iff.2 (fun _ _ => rfl)
    simp [finish, forget, dedent, inFlow, lineTokens, hall]
  | cons x more ih =>
    obtain ⟨l', keyAllowed', hgap', hrun⟩ := run_line h hgap tokens columns
    rw [hrun, ih h.2.2 hgap', lineTokens, List.append_assoc]

end Scanner

theorem unifyBreaks_eq_self {l : List Char} (h : ∀ c ∈ l, c ≠ '\r' ∧ c ≠ '\u0085') : unifyBreaks l = l := by
  induction l with
  | nil => rfl
  | cons c l ih =>
    obtain ⟨⟨hr, hn⟩, hl⟩ := List.forall_mem_cons.1 h
    rw [unifyBreaks]
    · simp [hr, hn, ih hl]
    · rintro _ rfl
      exact absurd rfl hr

theorem isPrintable_of_isWordChar {c : Char} (h : isWordChar c = true) : isPrintable c = true := by
  have hrange : 0x30 ≤ c.toNat ∧ c.toNat ≤ 0x7a := by
    simp only [isWordChar, Bool.or_eq_true, Bool.and_eq_true, decide_eq_true_eq, Char.le_def, UInt32.le_iff_toNat_le,
      Char.toNat_val, Char.reduceToNat] at h
    rcases h with ((h | h) | h) | rfl
    · omega
    · omega
    · omega
    · decide
  simp [isPrintable]
  omega

/-- **The tokens of a text of lines.** -/
theorem tokens?_lines {lines : List Line} (h : WellLaid lines) :
    tokens? (String.ofList (linesText lines)) = some (lineTokens [] lines) := by
  have hprintable : ∀ c ∈ linesText lines, isPrintable c = true := by
    intro c hc
    rcases mem_linesText h hc with hc | rfl | rfl | rfl
    · exact isPrintable_of_isWordChar hc
    all_goals decide
  have hunify : unifyBreaks (linesText lines) = linesText lines := by
    refine unifyBreaks_eq_self fun c hc => ?_
    rcases mem_linesText h hc with hc | rfl | rfl | rfl
    · exact ⟨ne_of_isWordChar hc (by decide), ne_of_isWordChar hc (by decide)⟩
    all_goals decide
  have hrun := Scanner.run_lines h (skipGap_lines h 0 true) [] []
  simp only [tokens?, String.toList_ofList, hunify]
  rw [if_pos (List.all_eq_true.2 hprintable)]
  exact hrun

end Yaml
end ValueFlow
