import RtlFlow.Workbench.Forms.Wired

/-!
# Calls into an elaborated design

The parts of an elaborated design can be called directly: the tables of the elaboration, its two
passes, and the tools that work on the netlist.
-/

namespace RtlFlow.Workbench

open Design
/-! ## Found tables -/

def objectOf (word : String) : Command Inquiry := nullary (return Value.object word)

/-- What the passes have found. -/
def foundCommands : Commands Inquiry := [
  ("frame table", objectOf "FrameTable"),
  ("instances", nullary do (← Inquiry.frames).allInstances),
  ("signals", nullary do return (← Inquiry.frames).allSignals),
  ("consts", nullary do return (← Inquiry.frames).allConsts),
  ("terms", nullary do return (← get).bench.netlist.terms),
  ("binddict", nullary do return (← get).bench.netlist.binds)]

/-! ## Passes -/

section

variable {φ β : Type} [Takes Pass φ β]

instance : Takes Pass (Stage → φ) β := ⟨fun f vs => do Takes.take (f (← get)) vs⟩

instance : Takes Pass (Frames → φ) β := ⟨fun f vs => do Takes.take (f (← get).frames) vs⟩

instance : Takes Pass (Wiring → φ) β := ⟨fun f vs => do Takes.take (f (← get).wiring) vs⟩

instance : Takes Pass (Optimizer → φ) β := ⟨fun f vs => do Takes.take (f (← get).optimizer) vs⟩

/-- A command that is a step of a pass. -/
def passes [Showable β] (run : {α : Type} → Pass α → Inquiry α) (ps : List Parameter) (f : φ) :
    Command Inquiry :=
  ⟨ps, fun vs => run ((does ps f).run vs)⟩

end

def constantCommands (run : {α : Type} → Pass α → Inquiry α) : Commands Inquiry := [
  ("optimize", passes run ["node"] Stage.optimize),
  ("set constant", passes run ["name", "value"] Stage.setConstant),
  ("reset constant", passes run ["name"] Stage.resetConstant),
  ("constant", passes run ["name"] Stage.constantIn),
  ("has constant", passes run ["name"] Stage.hasConstant),
  ("set constant term", passes run ["name", "term"] Stage.setTerm),
  ("has constant term", does ["name"] fun (_ : Value) => ()),
  ("to else", does ["label"] fun s => s ++ "_ELSE"),
  ("frame table", objectOf "FrameTable")]

/-! ## The first pass -/

/-- The constant of a name, else the signal. -/
def located (fs : Frames) (scope : Path) (name : String) : Result (Path × List Ast) := do
  match ← fs.nearestConst name scope with
  | some (p, ts) => return (Stage.signalAt p name, ts)
  | none =>
    match ← fs.nearestSignal name scope with
    | some (p, ts) => return (Stage.signalAt p name, ts)
    | none => throw (.definition ("constant value not found: " ++ name))

def constantTree (s : Stage) (v : Value) (scope : Path) : Result Tree := do
  Declare.tree s.frames s.optimizer scope (← v.toAst)

/-- Steps of the first pass. -/
def declareCommands : Commands Inquiry := [
  ("make df tree", passes Inquiry.firstPass ["node", "scope"] constantTree),
  ("tree", passes Inquiry.firstPass ["node", "scope"] Declare.treeAt),
  ("search constant definition", passes Inquiry.firstPass ["key", "name"] located),
  ("search constant value", passes Inquiry.firstPass ["key", "name"] Declare.valueOf),
  ("make constant term", passes Inquiry.firstPass ["name", "node", "scope"] Declare.constantTerm),
  ("blackboxed", passes Inquiry.firstPass [] fun (s : Stage) =>
    Value.list (s.blackBoxes.map .text))] ++ constantCommands Inquiry.firstPass

/-! ## The second pass -/

def passEngine : Engine := Connect.engine nestingBound

section

variable {φ α β : Type} [Showable β]

def connects [Takes Pass φ β] (ps : List Parameter) (f : φ) : Command Inquiry :=
  passes Inquiry.pass ps f

def onTerm (f : Term → β) : Command Inquiry :=
  connects ["name"] fun (w : Wiring) p => f <$> w.termAt p

def inScope [Readable α] (first : String) (f : Path → α → Pass β) : Command Inquiry :=
  connects [first, "scope"] fun (v : Value) p => liftM (Readable.read v) >>= f p

end

def destinationValues (d : Destination) : List Value :=
  [Showable.form d.name, .ofTree d.msb, .ofTree d.lsb, .ofTree d.ptr]

def slicedValue (d : Destination) : Value :=
  .tuple (destinationValues d ++ [.ofTree d.partMsb, .ofTree d.partLsb])

instance : Showable Destination := ⟨fun d => .tuple (destinationValues d)⟩

def nameIn : Value → Option String
  | .ast t => signalName t
  | _ => none

def newName (p : Path) : Pass Path := do
  let s ← get
  let p ← temporaryName s.renames p
  set { s with renames := s.renames + 1 }
  return p

def searchCommands : Commands Inquiry := [
  ("search terminal", connects ["name", "scope"] Wiring.searchTerm),
  ("search function", connects ["name", "scope"] Wiring.searchFunction),
  ("search task", connects ["name", "scope"] Wiring.searchTask),
  ("search function ports", connects ["name", "scope"] Wiring.searchFunctionPorts),
  ("search task ports", connects ["name", "scope"] Wiring.searchTaskPorts),
  ("search constant definition", connects ["key", "name"] (nearest Frames.nearestConst)),
  ("term", connects ["name"] fun (w : Wiring) => w.terms.get?),
  ("term width", onTerm fun t => (t.msb, t.lsb)),
  ("term length", onTerm fun t => (t.lenMsb, t.lenLsb)),
  ("termtype", onTerm fun t => Value.set (t.kinds.map .text)),
  ("bindlist", connects ["name"] Wiring.bindings),
  ("module scope chain", does ["target"] moduleOf),
  ("reduce if scope", does ["scope"] Path.beforeIf),
  ("signal name", does ["n"] nameIn),
  ("rename var", connects ["name"] newName)]

def framesOver (fs : Frames) (p : Path) : Result (List Frame) :=
  conditionFrames fs (fs.table.size + 1) p

def conditionsOver (fs : Frames) (p : Path) : Pass (List Tree) := do
  let conds ← (← framesOver fs p).mapM fun f => passEngine.tree f.name.beforeIf f.condition
  return conds.reverse

def flowsOver (fs : Frames) (p : Path) : Result (List Bool) := do
  return ((← framesOver fs p).map fun f => !f.isElse).reverse

def resolvedConditions (conds : List Tree) (p : Path) : Pass (List Tree) := do
  return (← resolveConditions passEngine p.beforeIf conds.reverse).reverse

def lastAssigned (t : Tree) (bs p : Value) : Pass Tree := do
  match t with
  | .term name => do
    let p ← p.toPath
    assignedTree passEngine p name (← bs.bindings)
  | _ => throw .noMember

def sensitivityParts (t : Ast) (p : Path) : Pass (List Ast) := do
  let s ← Connect.sensitivityOf t p
  return [s.clock.name, s.clock.edge, s.clock.bit, s.reset.name, s.reset.edge, s.reset.bit,
    s.others]

def readingCommands : Commands Inquiry := [
  ("make df tree", inScope "node" passEngine.tree),
  ("tree", inScope "node" fun p t => passEngine.read t p),
  ("resolve blocking assign", inScope "tree" passEngine.resolve),
  ("condflow", connects ["scope"] fun p => List.unzip <$> condFlow passEngine p),
  ("condlist", connects ["scope"] conditionsOver),
  ("flowlist", connects ["scope"] flowsOver),
  ("resolve condlist", connects ["condlist", "scope"] resolvedConditions),
  ("remove overwrapped condition", connects ["tree", "current_bindlist", "scope"] lastAssigned),
  ("fit tree", connects ["bindlist", "msb", "lsb"] fittingTree),
  ("merged tree", connects ["bindlist"] fun o (w : Wiring) => Binding.joined o w.termAt),
  ("make constant term", connects ["name", "node", "scope"] (constantTerm passEngine)),
  ("create alwaysinfo", connects ["node", "scope"] sensitivityParts)]

def addTermIn (t : Ast) : Value → Pass Unit
  | .none => addTerm passEngine t
  | p => do addTerm passEngine t (some (← p.toPath))

def followed (t : Tree) (conds : List Tree) (flows : List Bool) (matched : Value) :
    Result Value := do
  let place ← t.follow (conds.zip flows)
  let (conds, flows) := place.rest.unzip
  return .tuple [.ofTree place.tree, Showable.form conds, Showable.form flows,
    Showable.form ((← Readable.read matched) ++ place.arms)]

def guarded (conds flows : Value) (t : Tree) : Result Tree := do
  return t.underGuard ((← conds.trees).zip (← Readable.read flows))

def plugged (base arms : Value) (t : Tree) : Result Tree := do
  t.plug (← base.toTree) (← Readable.read arms)

def assignmentCommands : Commands Inquiry := [
  ("dst", inScope "left" (destination passEngine)),
  ("dsts", inScope "left" (leftDestinations passEngine)),
  ("destinations", inScope "left" fun p t =>
    List.map slicedValue <$> destinations passEngine t p),
  ("add term", connects ["node", may "rscope" .none] addTermIn),
  ("diff branch tree", does ["tree", "condlist", "flowlist", may "matchflowlist" (.tuple [])]
    followed),
  ("make branch tree", does ["condlist", "flowlist", "node"] guarded),
  ("append branch tree", does ["base", "pos", "tree"] plugged)]

/-- Steps of the second pass. -/
def connectCommands : Commands Inquiry :=
  ("dataflows", objectOf "DataFlow") :: searchCommands ++ readingCommands ++ assignmentCommands ++
    constantCommands Inquiry.pass

/-! ## The netlist -/

/-- Commands on the resolved netlist. -/
def atNetlist (cs : Commands Work) : Commands Inquiry :=
  cs.map fun (word, c) => (word, ⟨c.parameters, fun vs => do
    let _ ← Inquiry.netlist
    Inquiry.work (c.run vs)⟩)

def bindMore (n : Netlist) (p : Path) (b : Binding) : Netlist :=
  let more (t : Bindings) : Bindings := t.put p ((t.get? p).getD [] ++ [b])
  { n with binds := more n.binds, resolvedBinds := more n.resolvedBinds }

def changeNetlist (f : Netlist → Netlist) : Inquiry Unit := do
  let _ ← Inquiry.netlist
  modify fun d => { d with bench.netlist := f d.bench.netlist }

def addBinding (p : Path) (b : Binding) : Inquiry Unit := changeNetlist fun n => bindMore n p b

def addTermAt (p : Path) (t : Term) : Inquiry Unit := changeNetlist fun n => { n with
  terms := n.terms.put p t, resolvedTerms := n.resolvedTerms.put p t }

def codeOfTargets (targets : List Value) : Inquiry String := do
  let n ← Inquiry.netlist
  let d := (← get).drivers
  let s ← partOf n d (.list targets)
  s.code n d {}

def wordBefore (word : String) : Command Inquiry :=
  does ["name"] fun s => word ++ " " ++ s ++ ";\n"

def bitsCode (msb lsb : Tree) : Result String := do
  match msb.isHole, lsb.isHole with
  | false, false => do
    let msb ← msb.toCode none
    return "[" ++ msb ++ ":" ++ (← lsb.toCode none) ++ "]"
  | false, true => do return "[" ++ (← msb.toCode none) ++ "]"
  | true, false => do return "[" ++ (← lsb.toCode none) ++ "]"
  | true, true => return ""

def assignCode (left right : Value) (msb lsb : Tree) : Result String := do
  let bits ← bitsCode msb lsb
  return "assign " ++ (← left.toText) ++ bits ++ " = " ++ (← right.toText) ++ ";\n"

def setClock (name edge : String) : Inquiry Unit :=
  modify fun d => { d with drivers.clock := name, drivers.clockEdge := edge }

def setReset (name edge : String) : Inquiry Unit :=
  modify fun d => { d with drivers.reset := name, drivers.resetEdge := edge }

def subsetOf (n : Netlist) (targets : Value) : Inquiry Subset := do
  n.subset (← get).drivers (← (← targets.items).mapM fun v => do
    match v with
    | .path p => pure p
    | v => return Path.ofDotted (← v.toText))

/-- Code of a netlist. -/
def codeCommands : Commands Inquiry := [
  ("add bind", does ["name", "bind"] addBinding),
  ("add term", does ["name", "term"] addTermAt),
  ("input", wordBefore "input"),
  ("output", wordBefore "output"),
  ("inout", wordBefore "inout"),
  ("wire", wordBefore "wire"),
  ("assign", does ["left", "right", may "msb" .none, may "lsb" .none] assignCode),
  ("system io", does ["clock_name", "reset_name", "enable_name"] fun n c r e =>
    Subset.systemPorts n { clock := c, reset := r } { enable := e }),
  ("set clock info", does ["clock_name", "clock_edge"] setClock),
  ("set reset info", does ["reset_name", "reset_edge"] setReset),
  ("generate code", does [may "targets" (.tuple [])] codeOfTargets),
  ("generate subset code", does ["targets"] codeOfTargets),
  ("generate entire code", does [] (codeOfTargets [])),
  ("subset", does ["targets"] subsetOf),
  ("entire", does [] Netlist.entire)] ++ atNetlist mergeCommands

/-! ## Drawings -/

/-- A command that changes the drawing. -/
def draws {φ β : Type} [Takes Inquiry φ (β × Graph.Drawing)] [Showable β] (ps : List Parameter)
    (f : Graph.Drawing → φ) : Command Inquiry :=
  ⟨ps, fun vs => do
    let _ ← Inquiry.netlist
    let (b, drawing) ← Takes.take (f (← get).drawing) vs
    modify fun d => { d with drawing }
    return Showable.form b⟩

instance : Readable (Option String) where
  read
    | .none => pure none
    | v => do return some (← v.toText)

def drawsTree {β : Type} [Showable β]
    (f : Graph.Drawing → Graph.Link → Tree → Result (β × Graph.Drawing)) : Command Inquiry :=
  draws ["node", "parent", may "color" (.text "black"), may "edge_label" .none]
    fun d (t : Value) parent color label => f d ⟨parent, color, label⟩ =<< t.toTree

def drawSignal (d : Graph.Drawing) (n : Netlist) (shown : String) (identical walk : Bool)
    (step : Int) (reorder : Bool) (_ : Value) : Result (Unit × Graph.Drawing) := do
  let o : Graph.Options := { identical := identical, walk := walk, step := step, reorder := reorder }
  return ((), ← Graph.ofSignal n d (Path.ofDotted shown) shown o)

def drawNode (d : Graph.Drawing) (node label color : Value) :
    Result (Unit × Graph.Drawing) := do
  return ((), d.node (← plainText node) (← Readable.read label) (← color.toText))

/-- Steps of a drawing. -/
def drawingCommands : Commands Inquiry := [
  ("visit", drawsTree fun d l t => do return ((), ← d.visit l t)),
  ("generic visit", drawsTree fun d l t => do return ((), ← d.visitAll l t.children)),
  ("generate", draws ["signalname", may "identical" (.bool false), may "walk" (.bool true),
    may "step" (.int 1), may "reorder" (.bool false), may "delay" (.bool false)] drawSignal),
  ("draw", draws [may "filename" .none] fun d (file : Option String) =>
    ((), d.draw (file.getD drawingFile))),
  ("add df", drawsTree fun d l t => do return (← t.label, ← d.sharedNode l t)),
  ("add renamed df", drawsTree Graph.Drawing.renamedNode),
  ("rename", draws ["name"] Graph.Drawing.rename),
  ("add node", draws ["node", may "label" .none, may "color" (.text "black")] drawNode),
  ("add edge", draws ["start", "end", may "color" (.text "black"), may "label" .none]
    fun d start stop color label => ((), d.edge ⟨start, color, label⟩ stop))]

/-! ## Parts -/

/-- The parts of an elaborated design. -/
inductive Part where
  | modules | declare | connect | found | code | merge | drawing
deriving DecidableEq, Repr, Inhabited

/-- The commands of modules, on those of the design. -/
def moduleTableCommands : Commands Inquiry :=
  moduleForm.all.map fun (word, c) => (word, ⟨c.parameters, fun vs => do
    let d ← get
    let ms := d.elaboration.modules
    let book : Book Module := {
      table := ms.table, current := Value.ofOption (ms.current.map .text) }
    let (r, h) := Work.run (c.run vs) ⟨book, d.bench⟩
    set { d with bench := h.bench }
    Inquiry.firstPass (modify fun s => { s with
      modules.table := h.thing.table
      modules.current := match h.thing.current with
        | .text name => some name
        | _ => none })
    r⟩)

def Part.commands : Part → Commands Inquiry
  | .modules => moduleTableCommands
  | .declare => declareCommands
  | .connect => connectCommands
  | .found => foundCommands
  | .code => codeCommands
  | .merge => atNetlist mergeCommands
  | .drawing => drawingCommands

/-- Whether a part is at hand: the passes where they were asked for, else what they have found. -/
def Part.isOpen (p : Part) (r : Request) : Bool :=
  match p with
  | .modules | .declare | .connect => r.inspected
  | .found => !r.inspected
  | .code | .merge | .drawing => true

def frameNamed (name : String) : Inquiry Value := do
  match (← Inquiry.frames).table.keys.find? fun p => p.dotted == name with
  | some p => return .path p
  | none => throw .noEntry

def Part.call (p : Part) (word : String) (args : Inquiry Arguments) : Inquiry Value := do
  if !p.isOpen (← get).elaboration.request then throw .noEntry
  p.commands.call word (← args)

end RtlFlow.Workbench
