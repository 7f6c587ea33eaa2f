/-!
# Scalars of a YAML text

A scalar is written plain, or between single or double quotes, and may go on over several lines.  What
stands between two of its words is a gap.  A gap on one line is kept as it is; a line break is folded
into a blank, and of several line breaks all but the first are kept.  Every character knows the line
and the column it stands at, because a plain scalar ends where the text moves back to the left, and
because a document mark counts on the left margin only.
-/
namespace ValueFlow
namespace Yaml

/-! ## Characters and where they stand -/

structure Glyph where
  char : Char
  line : Nat
  col : Nat
deriving DecidableEq, Repr, Inhabited

/-- Line breaks.  The last two are not folded. -/
def isBreak (c : Char) : Bool := c = '\n' || c = '\u2028' || c = '\u2029'

def isBlank (c : Char) : Bool := c = ' ' || c = '\t'

def isGap (c : Char) : Bool := isBlank c || isBreak c

/-- One line feed for every way to write one. -/
def unifyBreaks : List Char → List Char
  | []                   => []
  | '\r' :: '\n' :: rest => '\n' :: unifyBreaks rest
  | c :: rest            => (if c = '\r' || c = '\u0085' then '\n' else c) :: unifyBreaks rest

def locate (line col : Nat) : List Char → List Glyph
  | []        => []
  | c :: rest => ⟨c, line, col⟩ :: (if isBreak c then locate (line + 1) 0 rest else locate line (col + 1) rest)

def isPrintable (c : Char) : Bool :=
  let n := c.toNat
  n = 0x09 || n = 0x0a || n = 0x0d || n = 0x85 || (0x20 ≤ n && n ≤ 0x7e) || (0xa0 ≤ n && n ≤ 0xfffd) ||
    0x10000 ≤ n

def atGap (l : List Glyph) : Bool := l.head?.all (fun g => isGap g.char)

/-- Characters with a meaning inside braces and brackets. -/
def isFlowMark (c : Char) : Bool := c = ',' || c = '[' || c = ']' || c = '\x7b' || c = '\x7d'

/-- What follows a document mark: three of one character on the left margin before a gap. -/
def afterMark? (c : Char) : List Glyph → Option (List Glyph)
  | g :: h :: i :: rest =>
    if g.col = 0 && g.char = c && h.char = c && i.char = c && atGap rest then some rest else none
  | _ => none

def atMark (l : List Glyph) : Bool := (afterMark? '-' l).isSome || (afterMark? '.' l).isSome

/-! ## Gaps -/

def gap (l : List Glyph) : List Glyph := l.takeWhile (fun g => isGap g.char)

def afterGap (l : List Glyph) : List Glyph := l.dropWhile (fun g => isGap g.char)

def breaks (gap : List Glyph) : List Char := (gap.map Glyph.char).filter isBreak

def foldGap (gap : List Glyph) : List Char :=
  match breaks gap with
  | []           => gap.map Glyph.char
  | ['\n']       => [' ']
  | '\n' :: more => more
  | kept         => kept

/-- A tab stands left of the column `indent` on a line after the first. -/
def hasStrayTab (indent : Nat) (gap : List Glyph) : Bool :=
  (gap.dropWhile (fun g => isBlank g.char)).any (fun g => g.char = '\t' && g.col < indent)

theorem afterGap_length_le (l : List Glyph) : (afterGap l).length ≤ l.length :=
  (List.dropWhile_suffix _).length_le

theorem afterGap_length_lt {g : Glyph} (rest : List Glyph) (h : isGap g.char = true) :
    (afterGap (g :: rest)).length < (g :: rest).length := by
  have hdrop : afterGap (g :: rest) = afterGap rest := by simp [afterGap, h]
  have := afterGap_length_le rest
  rw [hdrop, List.length_cons]
  omega

/-! ## Quoted scalars -/

inductive Quote where
  | single
  | double
deriving DecidableEq, Repr, Inhabited

def Quote.char : Quote → Char
  | single => '\x27'
  | double => '\x22'

def hexDigit? (c : Char) : Option Nat :=
  if '0' ≤ c && c ≤ '9' then some (c.toNat - '0'.toNat)
  else if 'a' ≤ c && c ≤ 'f' then some (c.toNat - 'a'.toNat + 10)
  else if 'A' ≤ c && c ≤ 'F' then some (c.toNat - 'A'.toNat + 10)
  else none

def number? (radix : Nat) (l : List Char) : Option Nat :=
  if l = [] then none
  else l.foldlM (fun n c => (hexDigit? c).bind fun d => if d < radix then some (radix * n + d) else none) 0

def coded? (n : Nat) (l : List Glyph) : Option (Char × List Glyph) :=
  if l.length < n then none
  else (number? 16 ((l.take n).map Glyph.char)).bind fun code =>
    if code.isValidChar then some (Char.ofNat code, l.drop n) else none

def escape? : Char → Option Char
  | '0'    => some '\x00'
  | 'a'    => some '\x07'
  | 'b'    => some '\x08'
  | 't'    => some '\t'
  | '\t'   => some '\t'
  | 'n'    => some '\n'
  | 'v'    => some '\x0b'
  | 'f'    => some '\x0c'
  | 'r'    => some '\r'
  | 'e'    => some '\x1b'
  | ' '    => some ' '
  | '\x22' => some '\x22'
  | '/'    => some '/'
  | '\\'   => some '\\'
  | 'N'    => some '\u0085'
  | '_'    => some '\u00a0'
  | 'L'    => some '\u2028'
  | 'P'    => some '\u2029'
  | _      => none

/-- What stands after a backslash, as it is read.  An escaped line break is left out together with the
blanks after it; further line breaks are kept. -/
def escaped? : List Glyph → Option (List Char × List Glyph)
  | []        => none
  | g :: rest =>
    if isBreak g.char then some (breaks (gap rest), afterGap rest)
    else match g.char with
      | 'x' => (coded? 2 rest).map (fun (c, r) => ([c], r))
      | 'u' => (coded? 4 rest).map (fun (c, r) => ([c], r))
      | 'U' => (coded? 8 rest).map (fun (c, r) => ([c], r))
      | c   => (escape? c).map (fun c => ([c], rest))

/-- What follows the closing quote, if it stands here.  A doubled single quote closes nothing. -/
def closing? (q : Quote) : List Glyph → Option (List Glyph)
  | []        => none
  | g :: rest =>
    if g.char = q.char && !(q = .single && rest.head?.any (fun h => h.char = q.char)) then some rest else none

/-- One piece of a quoted scalar that does not end here, as it is read: a gap, an escape, a doubled
single quote, or a character. -/
def piece? (q : Quote) : List Glyph → Option (List Char × List Glyph)
  | []        => none
  | g :: rest =>
    if isGap g.char then some (foldGap (gap (g :: rest)), afterGap (g :: rest))
    else if q = .double && g.char = '\\' then escaped? rest
    else if g.char = q.char then some ([g.char], rest.tail)
    else some ([g.char], rest)

theorem coded?_length {n : Nat} {l : List Glyph} {c : Char} {rest : List Glyph} (h : coded? n l = some (c, rest)) :
    rest.length ≤ l.length := by
  unfold coded? at h
  split at h
  · cases h
  · simp only [Option.bind_eq_some_iff] at h
    obtain ⟨code, -, h⟩ := h
    split at h
    · cases h
      rw [List.length_drop]
      omega
    · cases h

theorem escaped?_length {l : List Glyph} {t : List Char} {rest : List Glyph} (h : escaped? l = some (t, rest)) :
    rest.length < l.length := by
  unfold escaped? at h
  split at h
  · cases h
  · rename_i g tail
    rw [List.length_cons]
    split at h
    · cases h
      have := afterGap_length_le tail
      omega
    · split at h
      all_goals
        simp only [Option.map_eq_some_iff, Prod.mk.injEq, Prod.exists] at h
      · obtain ⟨c, r, hc, -, rfl⟩ := h
        have := coded?_length hc
        omega
      · obtain ⟨c, r, hc, -, rfl⟩ := h
        have := coded?_length hc
        omega
      · obtain ⟨c, r, hc, -, rfl⟩ := h
        have := coded?_length hc
        omega
      · obtain ⟨c, -, -, rfl⟩ := h
        omega

theorem piece?_length {q : Quote} {l : List Glyph} {t : List Char} {rest : List Glyph}
    (h : piece? q l = some (t, rest)) : rest.length < l.length := by
  unfold piece? at h
  split at h
  · cases h
  · rename_i g tail
    split at h
    · rename_i hg
      cases h
      exact afterGap_length_lt tail hg
    · rw [List.length_cons]
      split at h
      · have := escaped?_length h
        omega
      · split at h
        · cases h
          rw [List.length_tail]
          omega
        · cases h
          omega

theorem closing?_length {q : Quote} {l rest : List Glyph} (h : closing? q l = some rest) :
    rest.length < l.length := by
  unfold closing? at h
  split at h
  · cases h
  · split at h
    · cases h
      simp
    · cases h

/-- The text up to the closing quote, and what follows it.  A document mark cannot stand in it. -/
def quoted? (q : Quote) (l : List Glyph) : Option (List Char × List Glyph) :=
  if atMark l then none
  else match closing? q l with
    | some rest => some ([], rest)
    | none      =>
      match _h : piece? q l with
      | some (t, rest) => (quoted? q rest).map (fun (more, rest) => (t ++ more, rest))
      | none           => none
termination_by l.length
decreasing_by exact piece?_length _h

theorem quoted?_length (q : Quote) (l : List Glyph) (t : List Char) (rest : List Glyph)
    (h : quoted? q l = some (t, rest)) : rest.length < l.length := by
  unfold quoted? at h
  split at h
  · cases h
  · split at h
    · rename_i hc
      cases h
      exact closing?_length hc
    · split at h
      · rename_i t' r' hp
        simp only [Option.map_eq_some_iff, Prod.mk.injEq, Prod.exists] at h
        obtain ⟨t'', r'', hq, -, rfl⟩ := h
        have := quoted?_length q r' t'' r'' hq
        have := piece?_length hp
        omega
      · cases h
termination_by l.length
decreasing_by exact piece?_length (by assumption)

/-! ## Plain scalars -/

/-- The word at the front: up to a gap, a colon before a gap, or a mark of the braces around it.  Inside
braces a colon cannot stand before such a mark. -/
def plainWord? (inFlow : Bool) : List Glyph → Option (List Char × List Glyph)
  | []        => some ([], [])
  | g :: rest =>
    if isGap g.char then some ([], g :: rest)
    else if inFlow && g.char = ':' && rest.head?.any (fun h => isFlowMark h.char || h.char = '?') then none
    else if (g.char = ':' && atGap rest) || (inFlow && isFlowMark g.char) then some ([], g :: rest)
    else (plainWord? inFlow rest).map (fun (t, r) => (g.char :: t, r))

theorem plainWord?_length (inFlow : Bool) : ∀ (l : List Glyph) (t : List Char) (rest : List Glyph),
    plainWord? inFlow l = some (t, rest) → rest.length + t.length = l.length
  | [], t, rest, h => by
    simp only [plainWord?, Option.some.injEq, Prod.mk.injEq] at h
    simp [← h.1, ← h.2]
  | g :: l, t, rest, h => by
    simp only [plainWord?] at h
    split at h
    · cases h
      rfl
    · split at h
      · cases h
      · split at h
        · cases h
          rfl
        · simp only [Option.map_eq_some_iff, Prod.mk.injEq, Prod.exists] at h
          obtain ⟨t', r', hw, rfl, rfl⟩ := h
          have := plainWord?_length inFlow l t' r' hw
          simp only [List.length_cons]
          omega

structure PlainText where
  text : List Char
  /-- a line break stands after it -/
  broken : Bool
  rest : List Glyph

/-- A plain scalar cannot go on here: outside braces not left of the column `indent`, and never with a
comment or a document mark. -/
def endsPlain (inFlow : Bool) (indent : Nat) (l : List Glyph) : Bool :=
  (!inFlow && l.head?.any (fun g => g.col < indent)) || atMark l || l.head?.any (fun g => g.char = '#')

/-- The plain scalar that begins with `text` and goes on after a word. -/
def plainTail? (inFlow : Bool) (indent : Nat) (text : List Char) (l : List Glyph) : Option PlainText :=
  let broken := !(breaks (gap l)).isEmpty
  if hasStrayTab indent (gap l) then none
  else if endsPlain inFlow indent (afterGap l) then some ⟨text, broken, afterGap l⟩
  else match _h : plainWord? inFlow (afterGap l) with
    | none                => none
    | some ([], rest)     => some ⟨text, broken, rest⟩
    | some (c :: w, rest) => plainTail? inFlow indent (text ++ foldGap (gap l) ++ c :: w) rest
termination_by l.length
decreasing_by
  have := plainWord?_length _ _ _ _ _h
  have := afterGap_length_le l
  simp only [List.length_cons] at *
  omega

theorem plainTail?_length (inFlow : Bool) (indent : Nat) (text : List Char) (l : List Glyph) (p : PlainText)
    (h : plainTail? inFlow indent text l = some p) : p.rest.length ≤ l.length := by
  have hgap := afterGap_length_le l
  unfold plainTail? at h
  dsimp only at h
  split at h
  · cases h
  · split at h
    · cases h
      exact hgap
    · split at h
      · cases h
      · rename_i rest hw
        cases h
        have := plainWord?_length _ _ _ _ hw
        simp only [List.length_nil] at this
        show rest.length ≤ l.length
        omega
      · rename_i c w rest hw
        have := plainWord?_length _ _ _ _ hw
        have := plainTail?_length inFlow indent _ rest p h
        simp only [List.length_cons] at *
        omega
termination_by l.length
decreasing_by
  simp only [List.length_cons] at *
  omega

def plain? (inFlow : Bool) (indent : Nat) (l : List Glyph) : Option PlainText :=
  match plainWord? inFlow l with
  | some (c :: w, rest) => plainTail? inFlow indent (c :: w) rest
  | _                   => none

theorem plain?_length {inFlow : Bool} {indent : Nat} {l : List Glyph} {p : PlainText}
    (h : plain? inFlow indent l = some p) : p.rest.length < l.length := by
  unfold plain? at h
  split at h
  · rename_i c w rest hw
    have := plainWord?_length _ _ _ _ hw
    have := plainTail?_length _ _ _ _ _ h
    simp only [List.length_cons] at *
    omega
  · cases h

end Yaml
end ValueFlow
