import RtlFlow.Ast.Names
import RtlFlow.Design.Watch

/-!
# Modules

What is known of the modules of a text before they are put together: ports, parameters, instances,
and for every always block the names that it reads, decides on and assigns.
-/

namespace RtlFlow.Design

abbrev Counts := Table String Nat

def Counts.add (c : Counts) (name : String) : Counts := c.put name ((c.get? name).getD 0 + 1)

def Counts.toText (c : Counts) : String :=
  String.join (c.entries.map fun (name, n) => name ++ "[" ++ Text.ofInt n ++ "] ")

/-- An always block with the names that it reads, decides on and assigns. -/
structure AlwaysBlock where
  node : Ast
  combinational : Bool
  data : Counts := {}
  control : Counts := {}
  state : Counts := {}
  number : Nat := 0
deriving Inhabited

namespace AlwaysBlock

def ofNode (node : Ast) (number : Nat) : Result AlwaysBlock := do
  return { node, combinational := !(← hasClock (← watchList node)), number }

/-- The clock, the reset and the other signals that the block waits for. A block with a clock or
a reset waits for nothing else. -/
def watch (b : AlwaysBlock) : Result Watch := do
  let w ← watchedEdges (fun name => pure (.text name)) (← watchList b.node)
  if !(w.clock.edge.isAbsent && w.reset.edge.isAbsent) && !w.others.isEmpty then
    throw (.format "Illegal sensitivity list")
  return w

def reads (b : AlwaysBlock) (names : List String) : Bool :=
  (b.control.keys ++ b.data.keys).any names.contains

def report (b : AlwaysBlock) : String :=
  let group (head : String) (c : Counts) := if c.entries.isEmpty then "" else
    head ++ ":\n" ++ c.toText ++ "\n"
  "AlwaysData:\n" ++ group "Data" b.data ++ group "Control" b.control ++ group "State" b.state

end AlwaysBlock

structure Module extends Definition where
  blocks : Table Ast AlwaysBlock := {}
  made : Nat := 0
  states : Table String Nat := {}
  interesting : List String := []
  last : Option Ast := none
  instances : List Ast := []
  instanceLists : List Ast := []
  /-- The ends of the ranges of arrays of instances, the low end first. -/
  limits : Table Ast (Scalar × Scalar) := {}
deriving Inhabited

namespace Module

def addBlock (m : Module) (node : Ast) (b : AlwaysBlock) : Module :=
  { m with blocks := m.blocks.put node b, made := m.made + 1, last := some node }

def lastBlock (m : Module) : Result (Ast × AlwaysBlock) :=
  match m.last with
  | none => throw (.definition "Already not defined")
  | some node =>
    match m.blocks.get? node with
    | some b => pure (node, b)
    | none => throw .noEntry

def identifierTexts (t : Ast) : Result (List String) := do
  return (← t.identifiers).map Ast.toText

def note (add : AlwaysBlock → String → AlwaysBlock) (m : Module) (t : Ast) :
    Result Module := do
  let (node, b) ← m.lastBlock
  let names ← identifierTexts t
  return { m with blocks := m.blocks.put node (names.foldl add b) }

def addData : Module → Ast → Result Module :=
  note fun b name => { b with data := b.data.add name }

def addControl : Module → Ast → Result Module :=
  note fun b name => { b with control := b.control.add name }

def addState (m : Module) (t : Ast) : Result Module := do
  let (_, b) ← m.lastBlock
  let names ← identifierTexts t
  let m ← note (fun b name => { b with state := b.state.add name }) m t
  return { m with states := names.foldl (fun s name => s.put name b.number) m.states }

/-! ## Interesting signals -/

/-- The names that are assigned where the state of a block is used: by blocks with a clock and by
the block itself, and through other blocks without a clock by those that use theirs. The first
argument bounds the length of a chain of blocks. -/
def fedStates (m : Module) : Nat → AlwaysBlock → Result (List String)
  | 0, _ => throw .tooDeep
  | n + 1, b => do
    let lists ← m.blocks.values.mapM fun c =>
      if !c.reads b.state.keys then pure []
      else if c.combinational && c.number != b.number then m.fedStates n c
      else pure c.state.keys
    return lists.flatten

/-- The names that a block decides on and that belong to a state which depends on it. The names
found before a fault are given with it. -/
def interestingIn (m : Module) (b : AlwaysBlock) : List String × Option Fault :=
  let rec go : List String → List String × Option Fault
    | [] => ([], none)
    | name :: names =>
      match if b.combinational then m.fedStates (m.blocks.size + 1) b else pure b.state.keys with
      | .error f => ([], some f)
      | .ok states =>
        let (rest, f) := go names
        (if states.contains name then name :: rest else rest, f)
  go b.control.keys

/-- The module with its interesting signals. A module in which blocks without clocks feed each
other in a circle has a fault, and keeps what was found before it. -/
def findInteresting (m : Module) : Module × Option Fault :=
  let rec go : List AlwaysBlock → List String → List String × Option Fault
    | [], found => (found.eraseDups, none)
    | b :: bs, found =>
      match m.interestingIn b with
      | (names, none) => go bs (found ++ names)
      | (names, some f) => (found ++ names, some f)
  let (found, f) := go m.blocks.values m.interesting
  ({ m with interesting := found }, f)

/-! ## Written form -/

/-- An instance as it is shown. The ends of the range of an array must be known. -/
def instanceReport (m : Module) (t : Ast) : String × Option Fault :=
  match (do return ((← t.part "module").toText, (← t.part "name").toText, ← t.part "array") :
      Result (String × String × Ast)) with
  | .error f => ("", some f)
  | .ok (module, name, array) =>
    let head := "Instance: " ++ module ++ " - " ++ name
    if !array.isPresent then (head ++ "\n", none)
    else match m.limits.get? t with
      | none => (head, some .noEntry)
      | some (lo, hi) => (head ++ "[" ++ lo.toText ++ ":" ++ hi.toText ++ "]\n", none)

def joinReports : List (String × Option Fault) → String × Option Fault
  | [] => ("", none)
  | (s, some f) :: _ => (s, some f)
  | (s, none) :: rest =>
    let (t, f) := joinReports rest
    (s ++ t, f)

def allInstances (m : Module) : Result (List Ast) := do
  let lists ← m.instanceLists.mapM fun l => do (← l.part "instances").members
  return m.instances ++ lists.flatten

def report (m : Module) : String × Option Fault :=
  let blocks := String.join (m.blocks.values.map AlwaysBlock.report)
  let interesting := if m.interesting.isEmpty then "" else
    "\nInteresting:\n" ++ String.join (m.interesting.map (· ++ " ")) ++ "\n"
  match m.allInstances with
  | .error f => (blocks ++ interesting, some f)
  | .ok instances =>
    let (s, f) := joinReports (instances.map m.instanceReport)
    (blocks ++ interesting ++ s, f)

end Module

structure Modules where
  table : Table String Module := {}
  current : Option String := none
deriving Inhabited

namespace Modules

def define (ms : Modules) (name : String) (body : Ast) : Result Modules :=
  if ms.table.contains name then throw (.definition ("Already defined: " ++ name))
  else pure ⟨ms.table.put name { name := name, body := body }, some name⟩

def find (ms : Modules) (name : String) : Result Module :=
  orThrow (.definition ("No such module: " ++ name)) (ms.table.get? name)

def put (ms : Modules) (m : Module) : Modules := { ms with table := ms.table.put m.name m }

def update (ms : Modules) (f : Module → Result Module) : Result Modules := do
  match ms.current with
  | none => throw .noEntry
  | some name =>
    match ms.table.get? name with
    | some m => return { ms with table := ms.table.put name (← f m) }
    | none => throw .noEntry

def findInteresting (ms : Modules) : Modules × Option Fault :=
  ms.table.entries.foldl (fun (ms, f) (name, m) =>
    match f with
    | some f => (ms, some f)
    | none =>
      let (m, f) := m.findInteresting
      ({ ms with table := ms.table.put name m }, f)) (ms, none)

/-! ## Collecting -/

abbrev Collect := EStateM Fault Modules

def change (f : Modules → Result Modules) : Collect Unit := do
  match f (← get) with
  | .ok ms => set ms
  | .error e => throw e

def changeHere (f : Module → Result Module) : Collect Unit := change (·.update f)

def addPorts (m : Module) (ports : List Ast) : Result Module :=
  ports.foldlM (fun m p => do
    return { m with toDefinition := m.toDefinition.addPort (← Definition.portName p) }) m

/-- What a node adds to the modules. Its own part comes first, then `children` or what else
stands below it. -/
def collectNode (k : Ast.Kind) (place : Ast.Place) (parts : List Ast)
    (found : List (Ast.Found (Collect Unit))) : Collect Unit := do
  let node := Ast.node k place parts
  let whole (i : Nat) : Collect Unit := match parts[i]?, found[i]? with
    | some p, some f => if p.isAbsent then pure () else f.whole
    | _, _ => pure ()
  let children : Collect Unit := match Ast.gather found k.shape.slots with
    | .ok below => below.forM id
    | .error f => throw f
  let part (i : Nat) : Ast := parts.getD i .absent
  match k with
  | .moduleDef => do
    change fun ms => do ms.define (← nameOf node) node
    children
  | .portlist => changeHere fun m => do addPorts m (← (part 0).members)
  | .input | .output | .inout => changeHere fun m => do
    let name ← nameOf node
    return { m with toDefinition := m.toDefinition.addSignal name node }
  | .parameter => changeHere fun m => do
    let name ← nameOf node
    return { m with toDefinition := (m.toDefinition.addConst name node).addParam (.text name) }
  | .function | .generateStatement | .forStatement | .task | .assign | .initial | .pragma =>
    pure ()
  | .always => do
    changeHere fun m => do return m.addBlock node (← AlwaysBlock.ofNode node m.made)
    children
  | .ifStatement => do
    changeHere (·.addControl (part 0))
    whole 1
    whole 2
  | .caseStatement | .casexStatement | .casezStatement => do
    changeHere (·.addControl (part 0))
    match found[1]? with
    | some f =>
      match f.each with
      | .ok cases => cases.forM id
      | .error e => throw e
    | none => pure ()
  | .caseItem => whole 1
  | .blockingSubstitution | .nonblockingSubstitution => do
    changeHere (·.addData (part 1))
    changeHere (·.addState (part 0))
  | .instanceList => changeHere fun m => do
    return { m with instanceLists := m.instanceLists ++ [node] }
  | .inst => changeHere fun m => do return { m with instances := m.instances ++ [node] }
  | _ => children

def collect (t : Ast) : Collect Unit := t.fold (fun _ => throw .noMember) collectNode

def ofTree (t : Ast) : Modules × Option Fault :=
  match EStateM.run (collect t) {} with
  | .ok _ ms => (ms, none)
  | .error f ms => (ms, some f)

end Modules

end RtlFlow.Design
