import RtlFlow.Design.Frames
import RtlFlow.Design.Modules
import RtlFlow.Flow.Simplify

/-!
# Elaboration passes

A design is elaborated in two passes over its modules. The first makes the frames and evaluates
the constants, the second makes the terms and the bindings. Both work on a `Stage`.
-/

namespace RtlFlow.Design

/-- The terms and bindings of a design, with its functions and tasks. -/
structure Wiring where
  terms : Terms := {}
  slots : Slots := #[]
  binds : Table Path (List Nat) := {}
  functions : Table Path Ast := {}
  functionPorts : Table Path (List Ast) := {}
  tasks : Table Path Ast := {}
  taskPorts : Table Path (List Ast) := {}
deriving Inhabited

def Wiring.bindings (d : Wiring) (name : Path) : List Binding :=
  inSlots d.slots ((d.binds.get? name).getD [])

def Wiring.allBindings (d : Wiring) : Bindings := d.binds.mapValues (inSlots d.slots)

/-- A value that decides which scopes a design has. -/
inductive Finding where
  | arm (first : Bool)
  | round (loop : Scalar)
  | done
  | instances (numbers : List Int)
deriving DecidableEq, Repr

/-- What a pass works on. -/
structure Stage where
  modules : Modules := {}
  frames : Frames := {}
  labels : Table String Nat := {}
  optimizer : Optimizer := {}
  wiring : Wiring := {}
  blackBoxes : List String := []
  tracing : Bool := false
  ordered : Bool := true
  netKind : Ast := .text "wire"
  renames : Nat := 0
  nesting : Nat := 0
  stamp : Nat := 1
  lines : List String := []
  /-- The scopes that were opened outside functions, tasks and while loops, with their nodes, last
  one first. -/
  opened : List (Path × Ast) := []
  findings : List Finding := []
deriving Inhabited

/-- A step of a pass. After a fault the stage stays as it was then. -/
abbrev Pass := EStateM Fault Stage

namespace Stage

def say (line : String) : Pass Unit := modify fun s => { s with lines := line :: s.lines }

def current : Pass Path := do return (← get).frames.current

def here : Pass Frame := do lift (← get).frames.here

def changeFrames (step : Frames → Result Frames) : Pass Unit := do
  let s ← get
  set { s with frames := ← lift (step s.frames) }

def noteScope (p : Path) (node : Ast) : Pass Unit := modify fun s =>
  if s.frames.inFunction || s.frames.inTask || isAside p then s
  else { s with opened := (p, node) :: s.opened }

def noteFinding (f : Finding) : Pass Unit := modify fun s =>
  if s.frames.inFunction || s.frames.inTask || isAside s.frames.current then s
  else { s with findings := f :: s.findings }

def goTo (p : Path) : Pass Unit := modify fun s => { s with frames := s.frames.goTo p }

/-- A label that is new under its key. -/
def newLabel (key : String) : Pass String := do
  let s ← get
  let n := (s.labels.get? key).getD 0
  set { s with labels := s.labels.put key (n + 1) }
  return key ++ Text.ofInt n

def blockLabel (word : String) : Pass String := do
  newLabel (← lift ((← get).frames.labelKey word))

def optimize (t : Tree) : Pass Tree := do lift ((← get).optimizer.optimize t)

def hasConstant (name : Path) : Pass Bool := do
  return (← get).optimizer.consts.contains name

def setConstant (name : Path) (t : Tree) : Pass Unit := modify fun s =>
  { s with optimizer.consts := s.optimizer.consts.put name t }

def resetConstant (name : Path) : Pass Unit := modify fun s =>
  { s with optimizer.consts := s.optimizer.consts.erase name }

def setTerm (name : Path) (t : Term) : Pass Unit := modify fun s =>
  { s with optimizer.terms := s.optimizer.terms.put name t }

def constantIn (o : Optimizer) (name : Path) : Result Tree :=
  orThrow (.definition ("constant value not found: " ++ name.dotted)) (o.consts.get? name)

def signalAt (p : Path) (name : String) : Path := p.push ⟨name, .signal, .none⟩

end Stage

/-- The visits of the parts of a node, as a recursion finds them. -/
abbrev Visits := List (Ast.Found (Pass Unit))

/-- Visits the children of a node in order. -/
def visitBelow (k : Ast.Kind) (found : Visits) : Pass Unit :=
  match Ast.gather found k.shape.slots with
  | .ok below => below.forM id
  | .error f => throw f

/-- What a pass does at a node. -/
abbrev Visitor := Ast.Kind → Ast.Place → List Ast → Visits → Pass Unit

/-- The pass over a tree. It fails at a leaf. -/
def visitTree (node : Visitor) (t : Ast) : Pass Unit := t.fold (fun _ => throw .noMember) node

def visitPart (found : Visits) (i : Nat) : Pass Unit :=
  match found[i]? with
  | some f => f.whole
  | none => pure ()

/-- The visits of the members of a part. -/
def visitsIn (found : Visits) (i : Nat) : Pass (List (Pass Unit)) :=
  match found[i]? with
  | some f => lift f.each
  | none => pure []

/-- The cases of the names of gates that are operators on all inputs, with the operators; a buffer
has none. -/
def gates : List (String × Option Ast.Kind) :=
  [("and", some .uand), ("nand", some .unand), ("or", some .uor), ("nor", some .unor),
   ("xor", some .uxor), ("xnor", some .uxnor), ("not", some .unot), ("buf", none)]

def nestingBound : Nat := 256

def iterationBound : Nat := 1000000

end RtlFlow.Design
