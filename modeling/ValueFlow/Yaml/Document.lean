import ValueFlow.Yaml.Token
/-!
# The structure of a YAML text

The tokens already say where keys, values and mappings begin and end, so the tree is read off them from
left to right.  A key or a value that is not written is an empty scalar.
-/
namespace ValueFlow
namespace Yaml

inductive Tree where
  /-- an unquoted scalar, whose text may be a number, a truth value or nothing -/
  | plain (text : String)
  | quoted (text : String)
  | mapping (entries : List (String × Tree))
deriving Repr, Inhabited

def Tree.missing : Tree := .plain ""

/-- The words for nothing. -/
def Tree.isNull : Tree → Bool
  | plain text => ["", "~", "null", "Null", "NULL"].contains text
  | _          => false

def Tree.scalar? : Tree → Option String
  | plain text | quoted text => some text
  | mapping _                => none

/-- Tokens before which a key or a value is missing, in a block mapping or in braces. -/
def Token.endsEntry : (block : Bool) → Token → Bool
  | true, .key | true, .blockEnd | false, .comma | false, .closeBrace | _, .value => true
  | _, _                                                                          => false

mutual

def node (fuel : Nat) (block : Bool) (l : List Token) : Option (Tree × List Token) :=
  match fuel with
  | 0        => none
  | fuel + 1 =>
    match l with
    | .plain text :: rest  => some (.plain text, rest)
    | .quoted text :: rest => some (.quoted text, rest)
    | .openBrace :: rest   => (flowEntries fuel rest).map (fun (es, rest) => (.mapping es, rest))
    | .blockStart :: rest  =>
      if block then (blockEntries fuel rest).map (fun (es, rest) => (.mapping es, rest)) else none
    | _                    => none

def nodeOrMissing (fuel : Nat) (block : Bool) (l : List Token) : Option (Tree × List Token) :=
  match fuel with
  | 0        => none
  | fuel + 1 => if l.head?.any (·.endsEntry block) then some (.missing, l) else node fuel block l

/-- A key and its value, after the token that announces them.  Only a scalar is a key. -/
def entry (fuel : Nat) (block : Bool) (l : List Token) : Option ((String × Tree) × List Token) :=
  match fuel with
  | 0        => none
  | fuel + 1 =>
    (nodeOrMissing fuel block l).bind fun (k, rest) =>
      k.scalar?.bind fun key =>
        match rest with
        | .value :: rest => (nodeOrMissing fuel block rest).map (fun (v, rest) => ((key, v), rest))
        | rest           => some ((key, .missing), rest)

def blockEntries (fuel : Nat) (l : List Token) : Option (List (String × Tree) × List Token) :=
  match fuel with
  | 0        => none
  | fuel + 1 =>
    match l with
    | .blockEnd :: rest => some ([], rest)
    | .key :: rest      =>
      (entry fuel true rest).bind fun (e, rest) =>
        (blockEntries fuel rest).map (fun (es, rest) => (e :: es, rest))
    | _                 => none

/-- The entries up to the closing brace.  A scalar without a colon is a key without a value. -/
def flowEntries (fuel : Nat) (l : List Token) : Option (List (String × Tree) × List Token) :=
  match fuel with
  | 0        => none
  | fuel + 1 =>
    match l with
    | .closeBrace :: rest => some ([], rest)
    | l                   =>
      let first : Option ((String × Tree) × List Token) :=
        match l with
        | .key :: rest => entry fuel false rest
        | l            => (node fuel false l).bind fun (k, rest) => k.scalar?.map (fun key => ((key, .missing), rest))
      first.bind fun (e, rest) =>
        match rest with
        | .closeBrace :: rest => some ([e], rest)
        | .comma :: rest      => (flowEntries fuel rest).map (fun (es, rest) => (e :: es, rest))
        | _                   => none

end

def isDocumentMark (t : Token) : Bool := t = .documentStart || t = .documentEnd

/-- The one document of a text, which may be empty. -/
def document? (text : String) : Option Tree :=
  (tokens? text).bind fun l =>
    let fuel := 3 * l.length + 3
    let read : Option (Tree × List Token) :=
      match l with
      | []                    => some (.missing, [])
      | .documentStart :: rest =>
        if rest.head?.all isDocumentMark then some (.missing, rest) else node fuel true rest
      | l                     => node fuel true l
    read.bind fun (tree, rest) => if rest.all (· = .documentEnd) then some tree else none

end Yaml
end ValueFlow
