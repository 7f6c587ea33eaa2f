import ValueFlow.Block
/-!
# The abstract memory of one function activation

The current stack frame is one block, known separately.  Globals that were written are blocks of
their own; the rest is known only through two summaries, of everything outside the frame and of
everything.
-/
namespace ValueFlow

structure Memory where
  /-- the current stack frame -/
  frame : Block
  /-- globals written since entry -/
  globals : Table Symbol Block
  /-- what any byte outside the frame may point to -/
  outside : Pointer
  /-- what any byte may point to -/
  anywhere : Pointer
deriving DecidableEq, Inhabited

/-- Whether a callee can reach the caller's frame. -/
inductive CallKind where
  /-- it cannot -/
  | confined
  /-- it may -/
  | exposed
deriving DecidableEq, Repr, Inhabited

namespace Memory

/-- On entry to a function: a fresh frame that nothing points into. -/
def entry : Memory := ⟨.ofSummary .bottom, .empty, .nonStack, .nonStack⟩

def top : Memory := ⟨.ofSummary .top, .empty, .top, .top⟩

/-! ## Reading -/

def global? (m : Memory) (ro : ReadOnly) (s : Symbol) : Option Block := (m.globals.get? s).or (ro.get? s)

def loadOutside (m : Memory) (c : Chunk) : Value := (Value.mixed m.outside).normalize c

def load (m : Memory) (ro : ReadOnly) (c : Chunk) : Pointer → Value
  | .bottom               => .bottom
  | .stackAt ofs          => m.frame.load c ofs
  | .anyStack             => m.frame.loadAnywhere c
  | .globalAt s ofs       =>
    match m.global? ro s with
    | some b => b.load c ofs
    | none   => m.loadOutside c
  | .anyOffsetOf s        =>
    match m.global? ro s with
    | some b => b.loadAnywhere c
    | none   => m.loadOutside c
  | .anyGlobal | .nonStack => m.loadOutside c
  | .top                  => (Value.mixed m.anywhere).normalize c

def loadBytes (m : Memory) (ro : ReadOnly) : Pointer → Pointer
  | .bottom                          => .bottom
  | .stackAt _ | .anyStack           => m.frame.summary
  | .globalAt s _ | .anyOffsetOf s   =>
    match m.global? ro s with
    | some b => b.summary
    | none   => m.outside
  | .anyGlobal | .nonStack           => m.outside
  | .top                             => m.anywhere

/-! ## Writing -/

/-- The block of a written global; one not written yet holds what is outside the frame. -/
def writtenGlobal (m : Memory) (s : Symbol) : Block := (m.globals.get? s).getD (.ofSummary m.outside)

/-- Write bytes of `prov` through an address.  `update` changes the block when the address is exact;
otherwise every block the address may lie in forgets its cells. -/
def write (m : Memory) (addr prov : Pointer) (update : Block → Int64 → Block) : Memory :=
  match addr with
  | .bottom                => m
  | .stackAt ofs           => { m with frame := update m.frame ofs, anywhere := m.anywhere.join prov }
  | .anyStack              => { m with frame := m.frame.storeAnywhere prov, anywhere := m.anywhere.join prov }
  | .globalAt s ofs        =>
    { m with globals := m.globals.insert s (update (m.writtenGlobal s) ofs)
             outside := m.outside.join prov
             anywhere := m.anywhere.join prov }
  | .anyOffsetOf s         =>
    { m with globals := m.globals.insert s ((m.writtenGlobal s).storeAnywhere prov)
             outside := m.outside.join prov
             anywhere := m.anywhere.join prov }
  | .anyGlobal | .nonStack =>
    { m with globals := .empty
             outside := m.outside.join prov
             anywhere := m.anywhere.join prov }
  | .top                   => ⟨m.frame.storeAnywhere prov, .empty, .top, .top⟩

def store (m : Memory) (c : Chunk) (addr : Pointer) (v : Value) : Memory :=
  m.write addr v.provenance (fun b ofs => b.store c ofs v)

def storeBytes (m : Memory) (addr : Pointer) (size : Int) (prov : Pointer) : Memory :=
  m.write addr prov (fun b ofs => b.invalidate ofs size prov)

def cellsAt (m : Memory) (ro : ReadOnly) (src : Pointer) (size : Int) : List (Int64 × Cell) :=
  match src with
  | .stackAt ofs    => m.frame.cellsWithin ofs size
  | .globalAt s ofs => ((m.global? ro s).map (·.cellsWithin ofs size)).getD []
  | _               => []

/-- Copy `size` bytes; between exact addresses the known cells come along. -/
def copy (m : Memory) (ro : ReadOnly) (dst src : Pointer) (size : Int) : Memory :=
  let prov := m.loadBytes ro src
  m.write dst prov (fun b ofs => (b.invalidate ofs size prov).storeCells ofs (m.cellsAt ro src size))

/-! ## Order -/

/-- A global stays known where both sides know it. -/
def join (a b : Memory) : Memory where
  frame := a.frame.join b.frame
  globals := a.globals.filterMap (fun s block => (b.globals.get? s).map block.join)
  outside := a.outside.join b.outside
  anywhere := a.anywhere.join b.anywhere

def le (a b : Memory) : Bool := a.join b == b

/-! ## Calls -/

/-- A callee is confined when neither its arguments nor anything outside the frame points into it. -/
def classifyCall (m : Memory) (args : List Value) : CallKind :=
  if args.all (·.provenance.excludesStack) && m.outside.excludesStack then .confined else .exposed

def afterCall (m : Memory) : CallKind → Memory
  | .confined =>
    let escaped := m.frame.summary.join .nonStack
    ⟨m.frame, .empty, escaped, escaped⟩
  | .exposed  => top

end Memory

def CallKind.result : CallKind → Value
  | .confined => .numOrPtr .nonStack
  | .exposed  => .top

end ValueFlow
