import RtlFlow.Design.Declare
import RtlFlow.Design.Reading

/-!
# The second pass: terms and bindings

The second pass goes through the modules again, scope by scope along the frames of the first pass.
It declares the terms and binds every assigned signal to a tree.
-/

namespace RtlFlow.Design.Connect

open Stage

open Declare (declaredOnce evaluateConstants loopValue marked)

/-! ## Frames -/

section Frames

variable (e : Engine)

def addDeclared (name : Path) (ts : List Ast) : Pass Unit :=
  ts.forM fun t => modify fun s => { s with
    wiring := s.wiring.addTerm name { name, kinds := [t.kindWord] } }

/-- Declares the constants of a scope and evaluates them. -/
def copyConstants (scope : Path) : Pass Unit := do
  let entries ← declaredOnce (← lift ((← get).frames.constsAt scope))
  entries.forM fun (name, t) => addDeclared name [t]
  entries.forM fun (name, t) => do setTerm name (← constantTerm e name t scope)
  evaluateConstants e.evaluate entries scope (entries.length + 2)

/-- Declares all that the first pass has found. -/
def copyAll : Pass Unit := do
  let fs := (← get).frames
  (← declaredOnce fs.allConsts).forM fun (name, t) => addDeclared name [t]
  fs.allSignals.entries.forM fun (name, ts) => addDeclared name ts
  fs.allFunctions.entries.forM fun (name, d) => modify fun s => { s with
    wiring.functions := s.wiring.functions.put name d.body
    wiring.functionPorts := s.wiring.functionPorts.put name d.ports }
  fs.allTasks.entries.forM fun (name, d) => modify fun s => { s with
    wiring.tasks := s.wiring.tasks.put name d.body
    wiring.taskPorts := s.wiring.taskPorts.put name d.ports }

def enterInstance (node : Ast) (name : String) : Pass Path := do
  let outer ← current
  let scope := outer.push ⟨name, .module, .none⟩
  noteScope scope node
  goTo scope
  copyConstants e scope
  return outer

/-- Goes into the frame of a statement, which is made if the first pass has not made it. Gives the
path of the frame around it. -/
def enterFrame (node : Ast) (label : Label) (form : Frame → Frame) : Pass Path := do
  let outer ← current
  let scope := outer.push label
  let f ← here
  noteScope scope node
  if !(← get).frames.table.contains scope then changeFrames (·.add [label] (form (f.inside label.kind)))
  goTo scope
  copyConstants e scope
  return outer

/-- Brings the blocking assignments of a frame into another. -/
def copyBlocking (source target : Path) : Pass Unit := do
  let table := (← lift ((← get).frames.at? source)).blocking
  table.entries.forM fun (name, slots) => slots.forM fun i => do
    let s ← get
    let (f, slots) ← lift (do (← s.frames.at? target).setBlocking s.wiring.slots name i)
    set { s with
      frames.table := s.frames.table.put target f
      wiring.slots := slots }

/-- Brings the nonblocking assignments of the frame around the current one into it: under its
condition the signals keep what they were assigned before. -/
def copyNonblocking (scope : Path) : Pass Unit := do
  let table ← lift (← get).frames.previousNonblocking
  table.entries.forM fun (name, bs) => bs.forM fun b => do
    changeFrames (·.update (·.addNonblocking name b))
    let guard ← condFlow e scope
    let d : Destination := { name := some name, msb := b.msb, lsb := b.lsb, ptr := b.ptr }
    let new ← lift (makeBinding (← get).wiring d b.tree guard false b.always none)
    let _ ← storeBinding new

end Frames

/-! ## Assignments -/

section Assignments

variable (e : Engine)

/-- Binds the left side of an assignment to the right side. -/
def addBind (left right : Ast) (always : Option Sensitivity) (kind : String) : Pass Unit := do
  if ← inDeclaration then return
  let scope ← current
  let ds ← destinations e left scope
  if kind == "blocking" then connectBlocking e ds right scope always
  else connect e ds right scope scope always (some kind)

def addConstant (node value : Ast) : Pass Path := do
  addTerm e node
  let scope ← current
  let name := signalAt scope (← lift (nameOf node))
  if !(← hasConstant name) then setConstant name (← e.evaluate value scope)
  return name

end Assignments

/-! ## Instances -/

section Instances

variable (e : Engine)

def selected (t : Ast) (index : Option Int) : Ast :=
  match index with
  | none => t
  | some i => .mk .pointer 0 [t, .mk .intConst 0 [.text (Text.ofInt i)]]

/-- Binds the output of a gate to its operator on the inputs. -/
def visitGate (op : Option Ast.Kind) (node : Ast) (index : Option Int) : Pass Unit := do
  let ports ← lift (do (← node.part "portlist").members)
  let argument (i : Nat) : Result Ast := match ports[i]? with
    | some p => p.part "argname"
    | none => throw .badPosition
  let left ← lift (argument 0)
  let bit (t : Ast) : Ast := selected t (some (index.getD 0))
  let right ← match op with
    | none => do pure (bit (← lift (argument 1)))
    | some .unot => do pure (.mk .ulnot 0 [bit (← lift (argument 1))])
    | some k => do
      let inputs ← lift ((ports.drop 1).mapM (·.part "argname"))
      pure (.mk k 0 [.mk .concat 0 [.seq (inputs.map bit)]])
  addBind e (selected left index) right none "assign"

def bindParameter (name : String) (params : List Ast) (outer : Path) (i : Nat) (arg : Ast) :
    Pass Unit := do
  let scope ← current
  match params[i]? with
  | none => throw .badPosition
  | some positional => do
    let given ← lift (arg.part "paramname")
    let param := if given.isAbsent then positional else given
    let value ← lift (arg.part "argname")
    connect e (← destinations e param scope) value scope scope.parent none (some "parameter")
    let v ← e.evaluate value outer
    if !params.contains param then
      throw (Fault.format ("No such parameter: " ++ param.toText ++ " in " ++ name))
    let path := signalAt scope (← lift (textOf param))
    setConstant path v
    let text := (← lift v.valueOf).toText
    let declared : Ast := .mk .parameter 0 [param, .text text, .absent, .atom (.bool false)]
    setTerm path (← constantTerm e path declared outer)

/-- Binds a port of an instance to what it is connected with: an input takes it, an output drives
it. -/
def bindPort (name : String) (ports : List Ast) (index : Option Int) (i : Nat) (port : Ast) :
    Pass Unit := do
  let given ← lift (port.part "portname")
  let arg ← lift (port.part "argname")
  if !given.isAbsent && !ports.contains given then
    let shown ← lift (arg.part "name")
    throw (Fault.format ("No such port: " ++ shown.toText ++ " in " ++ name))
  match ports[i]? with
  | none => throw .badPosition
  | some positional => do
    let portName := if given.isAbsent then positional else given
    let scope ← current
    let ds ← destinations e portName scope
    let port? := (ds.head?).bind Destination.name
    if port?.isNone then throw (Fault.definition ("No such port: " ++ portName.toText))
    let kinds := (← termAt port?).kinds
    let outside := selected arg index
    let inward : Pass Unit := connect e ds outside scope scope.parent none none
    let outward : Pass Unit := do
      let targets ← destinations e outside scope.parent
      connect e targets portName scope.parent scope none none
    if !arg.isAbsent then
      kinds.forM fun kind => do
        if kind == "Input" || kind == "Inout" then inward
        if kind == "Output" || kind == "Inout" then outward

def visitModule (enter : Ast → Pass Unit) (node : Ast) (name module : String)
    (index : Option Int) : Pass Unit := do
  let outer ← enterInstance e node name
  let m ← lift ((← get).modules.find module)
  let args ← lift (do (← node.part "parameterlist").members)
  args.zipIdx.forM fun (arg, i) => bindParameter e name m.params outer i arg
  let ports ← lift (do (← node.part "portlist").members)
  ports.zipIdx.forM fun (port, i) => bindPort e name m.ports index i port
  copyConstants e (← current)
  enter m.body
  goTo outer

def visitInstance (enter : Ast → Pass Unit) (node : Ast) (name : String) (index : Option Int) :
    Pass Unit := do
  let module ← lift (do textOf (← node.part "module"))
  match gates.lookup module with
  | some op => visitGate e op node index
  | none => do
    if (← get).blackBoxes.contains module then return
    if (← get).tracing then say ("Analyzing instance " ++ name ++ " of type " ++ module)
    if name == "" then throw (Fault.format ("Module " ++ module ++ " requires an instance name"))
    visitModule e enter node name module index

end Instances

/-! ## Statements -/

section Statements

variable (e : Engine)

def visitArm (node : Ast) (label : String) (kind : String) (cond : Ast) (visit : Pass Unit) :
    Pass Unit := do
  let outer ← enterFrame e node ⟨label, .if, .none⟩ fun f =>
    { f with kind, condition := cond }
  copyNonblocking e (outer.push ⟨label, .if, .none⟩)
  visit
  goTo outer

def armPath (scope : Path) (label : String) : Path := scope.push ⟨label, .if, .none⟩

def mergeArm (scope : Path) (label : String) : Pass Unit := copyBlocking (armPath scope label) scope

def visitCases (selector : Ast) : List (Ast × Pass Unit) → Pass (List Path)
  | [] => pure []
  | (item, visit) :: rest => do
    let cond ← lift (Declare.caseCondition selector item)
    let label ← blockLabel "if"
    let scope ← current
    visitArm e item label "ifthen" cond visit
    if rest.isEmpty then return [armPath scope label]
    let other := label ++ "_ELSE"
    let outer ← enterFrame e item ⟨other, .if, .none⟩ fun f =>
      { f with kind := "ifelse", condition := cond }
    copyNonblocking e (armPath scope other)
    let inner ← visitCases selector rest
    goTo outer
    return armPath scope label :: armPath scope other :: inner

/-- A round of a loop; what it assigns is seen around the loop. -/
def iteration (node : Ast) (label : Label) (form : Frame → Frame) (body : Pass Unit)
    (start : Path) : Pass Unit := do
  let outer ← enterFrame e node label form
  body
  copyBlocking (← current) start
  goTo outer

def iterateWhile (node : Ast) (label : String) (cond : Ast) (body : Pass Unit) (start : Path) :
    Nat → Nat → Pass Unit
  | 0, _ => throw .tooDeep
  | n + 1, count => do
    if ← lift (Declare.goesOn "while" (← e.evaluate cond (← current))) then
      let loop : Scalar := .int count
      iteration e node ⟨label, .while, loop⟩ (fun f => { f with kind := "while", loop })
        body start
      iterateWhile node label cond body start n (count + 1)

def sensitivityOf (node : Ast) (scope : Path) : Pass Sensitivity := do
  let s ← get
  let entries ← lift (watchList node)
  let w ← lift (watchedEdges (fun name => do
    match ← s.wiring.searchTerm s.frames name scope with
    | some p => return .path p
    | none => return .absent) entries)
  set { s with stamp := s.stamp + 1 }
  return ⟨w.clock, w.reset, .seq w.others, s.stamp⟩

end Statements

/-- The step of the visit at a node. -/
def visitNode (e : Engine) (enter : Ast → Pass Unit) (k : Ast.Kind) (place : Ast.Place)
    (parts : List Ast) (found : Visits) : Pass Unit := do
  let node := Ast.node k place parts
  let part (i : Nat) : Ast := parts.getD i .absent
  let whole := visitPart found
  let children := visitBelow k found
  match k with
  | .moduleDef => do
    modify fun s => { s with netKind := part 4 }
    let name := (part 0).toText
    if (← get).tracing then
      say ("Visiting Module : " ++ name ++ " Position: " ++ Text.ofInt (← get).nesting)
      modify fun s => { s with nesting := s.nesting + 1 }
    children
    if (← get).tracing then
      modify fun s => { s with nesting := s.nesting - 1 }
      say ("Exiting Module : " ++ name)
  | .input | .output | .inout | .reg | .wire | .regArray | .wireArray | .tri | .integer =>
    addTerm e node
  | .parameter => do
    let name ← addConstant e node (part 1)
    if ((← get).wiring.bindings name).isEmpty then
      addBind e (part 0) (part 1) none "parameter"
  | .supply => do
    addTerm e node
    addBind e (part 0) (part 1) none "parameter"
  | .localparam => do
    let _ ← addConstant e node (part 1)
    addBind e (part 0) (part 1) none "localparam"
  | .genvar => do
    addTerm e node
    setConstant (signalAt (← current) (← lift (nameOf node))) (.ofInt 0)
  | .function => marked (fun b fs => { fs with inFunction := b }) children
  | .task => marked (fun b fs => { fs with inTask := b }) children
  | .initial => pure ()
  | .instanceList => do (← visitsIn found 2).forM id
  | .inst =>
    Declare.visitInstances e.evaluate (fun _ _ => pure ()) (visitInstance e enter node) node
  | .always => do
    let label ← blockLabel "always"
    let outer ← enterFrame e node ⟨label, .always, .none⟩ id
    let watch ← sensitivityOf node outer
    changeFrames (·.update fun f => pure { f with sensitivity := some watch })
    children
    goTo outer
  | .ifStatement => do
    if ← inDeclaration then return
    Declare.visitIf e.evaluate (part 0) (part 1) (part 2)
      (visitArm e node · "ifthen" (part 0) (whole 1))
      (fun label => visitArm e node (label ++ "_ELSE") "ifelse" (part 0) (whole 2)) mergeArm
  | .caseStatement | .casexStatement | .casezStatement => do
    if ← inDeclaration then return
    let start ← current
    let items ← lift (part 1).members
    let arms ← visitCases e (part 0) (items.zip (← visitsIn found 1))
    arms.forM fun arm => copyBlocking arm start
  | .caseItem => if (part 1).isAbsent then pure () else whole 1
  | .forStatement => do
    if ← inDeclaration then return
    let first ← loopValue e.evaluate (part 0)
    marked (fun b fs => { fs with inForPre := b }) (whole 0)
    let label ← blockLabel "for"
    let start ← current
    Declare.iterate e.evaluate (iteration e node · · (whole 3) start) label (part 1) (part 2)
      (marked (fun b fs => { fs with inForPost := b }) (whole 2)) iterationBound first
  | .whileStatement => do
    if ← inDeclaration then return
    let label ← blockLabel "while"
    iterateWhile e node label (part 0) (whole 1) (← current) iterationBound 0
  | .generateStatement => do
    let label ← blockLabel "generate"
    let outer ← enterFrame e node ⟨label, .generate, .none⟩ id
    children
    goTo outer
  | .block => do
    let label ← if (part 1).isAbsent then blockLabel "block" else lift (textOf (part 1))
    let outer ← enterFrame e node ⟨label, .block, .none⟩ fun f => { f with kind := "block" }
    children
    goTo outer
    if (← here).isAlways then copyBlocking (outer.push ⟨label, .block, .none⟩) outer
  | .assign => addBind e (part 0) (part 1) none "assign"
  | .blockingSubstitution => do
    let always ← lift (← get).frames.alwaysStatus
    addBind e (part 0) (part 1) always "blocking"
  | .nonblockingSubstitution => do
    let fs := (← get).frames
    if fs.inForPre || fs.inForPost then
      throw (Fault.format "Non Blocking Substitution is not allowedin for-statement")
    if (← here).isFunctionCall then
      throw (Fault.format "Non Blocking Substitution is not allowed in function")
    let always ← lift fs.alwaysStatus
    addBind e (part 0) (part 1) always "nonblocking"
  | .systemCall =>
    say ("Warning: Isolated system call is not supported: " ++ (part 0).toText)
  | _ => children

/-- The readings and the visit, with a bound on the nesting of instances and calls. -/
def engine : Nat → Engine
  | 0 => Engine.stopped
  | n + 1 =>
    let inner := engine n
    let e := reading inner
    { e with visit := visitTree (visitNode e inner.visit) }

/-- What comes before the visit: the scope of the top module. -/
def prepare (top : String) : Pass Unit := do
  let e := engine nestingBound
  goTo {}
  let _ ← enterInstance e .absent top
  copyAll
  copyConstants e (← current)

def start (top : String) : Pass Unit := do
  (engine nestingBound).visit (← lift ((← get).modules.find top)).body

def run (declared : Stage) (top : String) (blackBoxes : List String) (ordered : Bool) :
    Result Unit × Stage :=
  let pass : Pass Unit := do
    prepare top
    modify fun s => { s with blackBoxes, tracing := declared.tracing }
    start top
  RtlFlow.run pass {
    modules := declared.modules, frames := declared.frames, ordered
    lines := declared.lines }

end RtlFlow.Design.Connect
