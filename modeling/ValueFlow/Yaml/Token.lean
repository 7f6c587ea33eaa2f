import ValueFlow.Yaml.Scalar
/-!
# Tokens of a YAML text

The part of YAML that settings are written in: mappings by indentation or in braces, plain and
quoted scalars, comments and document marks.  Sequences, anchors, tags, directives and block scalars
are not read.

A key is known only by the colon after it.  So each scalar or mapping at a place where a key may stand
is remembered as a candidate, and the tokens that make it a key are put in front of it when the colon
comes.  A candidate lasts to the end of its line, and for no more than `maxKeyLength` characters.  One
that stands at the column of the keys around it has to become a key.
-/
namespace ValueFlow
namespace Yaml

/-! ## Lexemes -/

inductive Lexeme where
  | documentStart
  | documentEnd
  | openBrace
  | closeBrace
  | comma
  | question
  | colon
  | quoted (text : List Char)
  /-- an unquoted scalar; `broken` says that a line break stands after it -/
  | plain (text : List Char) (broken : Bool)
deriving DecidableEq, Repr, Inhabited

/-- Characters that begin what is not read here. -/
def isReserved (c : Char) : Bool := "[]&*!|>%@\x60\t".toList.contains c

def lexeme? (inFlow : Bool) (indent : Nat) (l : List Glyph) : Option (Lexeme × List Glyph) :=
  match l with
  | []        => none
  | g :: rest =>
    match afterMark? '-' l, afterMark? '.' l with
    | some after, _    => some (.documentStart, after)
    | none, some after => some (.documentEnd, after)
    | none, none       =>
      match g.char with
      | '\x7b' => some (.openBrace, rest)
      | '\x7d' => some (.closeBrace, rest)
      | ','    => some (.comma, rest)
      | '\x22' => (quoted? .double rest).map (fun (t, r) => (.quoted t, r))
      | '\x27' => (quoted? .single rest).map (fun (t, r) => (.quoted t, r))
      | c      =>
        if c = '?' && (inFlow || atGap rest) then some (.question, rest)
        else if c = ':' && (inFlow || atGap rest) then some (.colon, rest)
        else if isReserved c || (c = '-' && atGap rest) then none
        else (plain? inFlow indent l).map (fun p => (.plain p.text p.broken, p.rest))

theorem afterMark?_length {c : Char} {l rest : List Glyph} (h : afterMark? c l = some rest) :
    rest.length < l.length := by
  unfold afterMark? at h
  split at h
  · split at h
    · cases h
      simp only [List.length_cons]
      omega
    · cases h
  · cases h

theorem lexeme?_length {inFlow : Bool} {indent : Nat} {l : List Glyph} {x : Lexeme} {rest : List Glyph}
    (h : lexeme? inFlow indent l = some (x, rest)) : rest.length < l.length := by
  unfold lexeme? at h
  split at h
  · cases h
  · rename_i g tail
    split at h
    · rename_i hm
      cases h
      exact afterMark?_length hm
    · rename_i hm
      cases h
      exact afterMark?_length hm
    · split at h
      · cases h
        simp
      · cases h
        simp
      · cases h
        simp
      · simp only [Option.map_eq_some_iff, Prod.mk.injEq, Prod.exists] at h
        obtain ⟨t, r, hq, -, rfl⟩ := h
        exact Nat.lt_succ_of_lt (quoted?_length _ _ _ _ hq)
      · simp only [Option.map_eq_some_iff, Prod.mk.injEq, Prod.exists] at h
        obtain ⟨t, r, hq, -, rfl⟩ := h
        exact Nat.lt_succ_of_lt (quoted?_length _ _ _ _ hq)
      · split at h
        · cases h
          simp
        · split at h
          · cases h
            simp
          · split at h
            · cases h
            · simp only [Option.map_eq_some_iff, Prod.mk.injEq] at h
              obtain ⟨p, hp, -, rfl⟩ := h
              exact plain?_length hp

/-- Skip blanks, line breaks and comments.  A key may stand on a new line outside braces, and where one
may stand no tab does.  A byte order mark may begin a line. -/
def skipGap (inFlow : Bool) : (keyAllowed comment : Bool) → List Glyph → Bool × List Glyph
  | keyAllowed, _, []              => (keyAllowed, [])
  | keyAllowed, comment, g :: rest =>
    if isBreak g.char then skipGap inFlow (keyAllowed || !inFlow) false rest
    else if comment || g.char = ' ' || (g.char = '\t' && (inFlow || !keyAllowed)) ||
        (g.char = '\ufeff' && g.col = 0) then skipGap inFlow keyAllowed comment rest
    else if g.char = '#' then skipGap inFlow keyAllowed true rest
    else (keyAllowed, g :: rest)

theorem skipGap_length (inFlow : Bool) : ∀ (keyAllowed comment : Bool) (l : List Glyph),
    (skipGap inFlow keyAllowed comment l).2.length ≤ l.length
  | _, _, [] => Nat.le_refl _
  | keyAllowed, comment, g :: rest => by
    simp only [skipGap]
    split
    · exact Nat.le_succ_of_le (skipGap_length inFlow _ _ rest)
    · split
      · exact Nat.le_succ_of_le (skipGap_length inFlow _ _ rest)
      · split
        · exact Nat.le_succ_of_le (skipGap_length inFlow _ _ rest)
        · exact Nat.le_refl _

/-! ## Tokens -/

inductive Token where
  | plain (text : String)
  | quoted (text : String)
  /-- a key follows -/
  | key
  /-- the value of the key before follows -/
  | value
  | comma
  | openBrace
  | closeBrace
  /-- keys at a new column follow -/
  | blockStart
  | blockEnd
  | documentStart
  | documentEnd
deriving DecidableEq, Repr, Inhabited

/-- Something that is a key if a colon follows. -/
structure Candidate where
  /-- how many tokens stand before it -/
  index : Nat
  line : Nat
  col : Nat
  /-- nothing but a key can stand there -/
  required : Bool
deriving DecidableEq, Repr, Inhabited

/-- The most characters from the start of a key to its colon. -/
def maxKeyLength : Nat := 1024

/-- No colon at `g` makes it a key. -/
def Candidate.isStale (c : Candidate) (g : Glyph) : Bool := c.line < g.line || c.col + maxKeyLength < g.col

structure Scanner where
  tokens : List Token
  /-- the columns of the block mappings around, the innermost first -/
  indents : List Nat
  candidate : Option Candidate
  /-- for every open brace, the candidate outside it, the innermost first -/
  outer : List (Option Candidate)
  /-- a key may stand here -/
  keyAllowed : Bool
deriving DecidableEq, Repr, Inhabited

namespace Scanner

def start : Scanner := ⟨[], [], none, [], true⟩

def inFlow (s : Scanner) : Bool := !s.outer.isEmpty

/-- The first column that is inside the innermost block mapping. -/
def innerColumn (s : Scanner) : Nat := (s.indents.head?.map (· + 1)).getD 0

def emit (s : Scanner) (t : Token) : Scanner := { s with tokens := s.tokens ++ [t] }

/-- Give up the candidates that no later colon can make a key. -/
def expire (s : Scanner) (g : Glyph) : Option Scanner :=
  if (s.candidate :: s.outer).any (·.any fun c => c.isStale g && c.required) then none
  else some { s with candidate := s.candidate.filter (!·.isStale g)
                     outer := s.outer.map (·.filter (!·.isStale g)) }

def dedent (s : Scanner) (left : Nat → Bool) : Scanner :=
  if s.inFlow then s
  else { s with tokens := s.tokens ++ (s.indents.takeWhile left).map (fun _ => .blockEnd)
                indents := s.indents.dropWhile left }

/-- A key at column `col` begins a block mapping, unless it continues one; `index` tokens stand before. -/
def indent (s : Scanner) (col index : Nat) : Scanner :=
  if s.inFlow || s.indents.head?.any (col ≤ ·) then s
  else { s with tokens := s.tokens.insertIdx index .blockStart, indents := col :: s.indents }

def forget (s : Scanner) : Option Scanner :=
  if s.candidate.any (·.required) then none else some { s with candidate := none }

/-- What comes next is a candidate, if a key may stand here. -/
def remember (s : Scanner) (g : Glyph) : Option Scanner :=
  if s.keyAllowed then
    s.forget.map fun s' =>
      { s' with candidate := some ⟨s.tokens.length, g.line, g.col, !s.inFlow && s.indents.head? = some g.col⟩ }
  else some s

/-- A colon makes the candidate a key.  Without one it is the value of a key that was announced, or of
none. -/
def colon (s : Scanner) (g : Glyph) : Option Scanner :=
  match s.candidate with
  | some c =>
    let s := { s with tokens := s.tokens.insertIdx c.index .key, candidate := none }
    some ({ s.indent c.col c.index with keyAllowed := false }.emit .value)
  | none   =>
    if s.inFlow then some ({ s with keyAllowed := false }.emit .value)
    else if s.keyAllowed then some ((s.indent g.col s.tokens.length).emit .value)
    else none

def question (s : Scanner) (g : Glyph) : Option Scanner :=
  if s.inFlow then s.forget.map fun s => { s with keyAllowed := false }.emit .key
  else if s.keyAllowed then (s.indent g.col s.tokens.length).forget.map (·.emit .key)
  else none

def documentMark (s : Scanner) (t : Token) : Option Scanner :=
  (s.dedent (fun _ => true)).forget.map fun s => { s with keyAllowed := false }.emit t

def accept (s : Scanner) (g : Glyph) : Lexeme → Option Scanner
  | .documentStart     => s.documentMark .documentStart
  | .documentEnd       => s.documentMark .documentEnd
  | .openBrace         =>
    (s.remember g).map fun s =>
      { s with candidate := none, outer := s.candidate :: s.outer, keyAllowed := true }.emit .openBrace
  | .closeBrace        =>
    s.forget.bind fun s =>
      match s.outer with
      | []         => none
      | c :: outer => some ({ s with candidate := c, outer := outer, keyAllowed := false }.emit .closeBrace)
  | .comma             => s.forget.map fun s => { s with keyAllowed := true }.emit .comma
  | .question          => s.question g
  | .colon             => s.colon g
  | .quoted text       =>
    (s.remember g).map fun s => { s with keyAllowed := false }.emit (.quoted (String.ofList text))
  | .plain text broken =>
    (s.remember g).map fun s => { s with keyAllowed := broken }.emit (.plain (String.ofList text))

def finish (s : Scanner) : Option (List Token) := s.forget.map fun s => (s.dedent (fun _ => true)).tokens

def advance (s : Scanner) (keyAllowed : Bool) (g : Glyph) : Option Scanner :=
  (expire { s with keyAllowed := keyAllowed } g).map fun here => here.dedent (fun col => g.col < col)

def run (s : Scanner) (l : List Glyph) : Option (List Token) :=
  match _hs : skipGap s.inFlow s.keyAllowed false l with
  | (_, [])                 => s.finish
  | (keyAllowed, g :: rest) =>
    (s.advance keyAllowed g).bind fun here =>
      match _hl : lexeme? here.inFlow here.innerColumn (g :: rest) with
      | none              => none
      | some (x, further) => (here.accept g x).bind fun next => next.run further
termination_by l.length
decreasing_by
  have hle := skipGap_length s.inFlow s.keyAllowed false l
  have hlt := lexeme?_length _hl
  rw [_hs] at hle
  dsimp only at hle
  omega

end Scanner

def tokens? (text : String) : Option (List Token) :=
  let chars := text.toList
  if chars.all isPrintable then Scanner.start.run (locate 0 0 (unifyBreaks chars)) else none

end Yaml
end ValueFlow
