import RtlFlow.Design.Expression
import RtlFlow.Design.Stage

/-!
# The first pass: scopes and constants

The first pass goes through the module at the top and through all instances below it. It makes the
frames of all scopes, notes what is declared in them, and evaluates the constants. Conditions and
loops of generate regions are decided here.
-/

namespace RtlFlow.Design.Declare

open Stage

/-! ## Expressions -/

/-- The constant or signal that a name stands for in a scope. -/
def locate (fs : Frames) (scope : Path) (name : String) : Result Path := do
  match ← fs.nearestConst name scope with
  | some (p, _) => return signalAt p name
  | none =>
    match ← fs.nearestSignal name scope with
    | some (p, _) => return signalAt p name
    | none => throw (.definition ("constant value not found: " ++ name))

def valueOf (fs : Frames) (o : Optimizer) (scope : Path) (name : String) : Result Tree := do
  constantIn o (← locate fs scope name)

/-- The tree of an expression of constants. Names stand for their values; the value of a name with
a scope is not known here. -/
def tree (fs : Frames) (o : Optimizer) (scope : Path) (t : Ast) : Result Tree :=
  t.fold
    (fun t => match t with
      | .atom (.text name) => valueOf fs o scope name
      | t => throw (notExpression t))
    (fun k place parts found =>
      let isArray : Tree → Result Bool := fun var =>
        if var.isTerm then throw .noMember else pure false
      match literalTree k parts, expressionTree isArray k found with
      | some t, _ => pure t
      | none, some t => t
      | none, none =>
        match k, parts with
        | .identifier, [name, scopes] =>
          if scopes.isAbsent then do valueOf fs o scope (← textOf name) else throw .noMember
        | .replicate, _ => do
          let times ← (← o.optimize (← operandAt found 1)).valueOf
          let value ← operandAt found 0
          return .concat (List.replicate (← repeatCount times) value)
        | .systemCall, [name, args] =>
          match name.toText, args with
          | "unsigned", .seq [] | "signed", .seq [] => throw .badPosition
          | "unsigned", _ | "signed", _ => throw .wrongKind
          | _, _ => pure (.const .int "0")
        | k, parts => throw (notExpression (.node k place parts)))

def treeAt (t : Ast) (scope : Path) : Pass Tree := do
  let s ← get
  lift (tree s.frames s.optimizer scope (expressionOf t))

/-- The value of an expression as far as it is known. -/
def evaluate (t : Ast) (scope : Path) : Pass Tree := do optimize (← treeAt t scope)

/-! ## Instances -/

def constantTerm (name : Path) (t : Ast) (scope : Path) : Pass Term := do
  let width ← lift (t.part "width")
  let bound (part : String) (usual : String) : Pass Tree := do
    if width.isAbsent then return .const .int usual
    let s ← get
    lift (tree s.frames s.optimizer scope (← lift (width.part part)))
  let msb ← bound "msb" "31"
  return { name, kinds := [t.kindWord], msb, lsb := ← bound "lsb" "0" }

/-- A declaration with the ends of its range left open. -/
def openRange (t : Ast) : Ast :=
  match t with
  | .node k p parts =>
    match k.shape.parts.idxOf? "width" with
    | some i =>
      let width := match parts.getD i .absent with
        | .node w q _ => .node w q [.absent, .absent]
        | other => other
      .node k p (parts.set i width)
    | none => t
  | t => t

def declaredOnce (table : Table Path (List Ast)) : Pass (List (Path × Ast)) := do
  let entries ← table.entries.mapM fun (name, ts) =>
    if ts.length > 1 then throw (Fault.format "Multiple definitions for Constant")
    else pure (ts.map fun t => (name, t))
  return entries.flatten

def constants : Pass (List (Path × Ast)) := do
  let s ← get
  declaredOnce (← lift (s.frames.constsAt s.frames.current))

/-- Notes the constants of the current scope as terms. -/
def noteConstants (form : Ast → Ast) : Pass Unit := do
  let scope ← current
  (← constants).forM fun (name, t) => do setTerm name (← constantTerm name (form t) scope)

/-- Evaluates the constants of a scope, as often as it takes until all have a value. -/
def evaluateConstants (eval : Ast → Path → Pass Tree) (entries : List (Path × Ast))
    (scope : Path) : Nat → Pass Unit
  | 0 => throw .tooDeep
  | n + 1 => do
    let open? ← entries.mapM fun (name, t) => do
      if (← hasConstant name) || t.is .genvar then return false
      let v ← eval (← lift (t.part "value")) scope
      if v.isValue then do
        setConstant name v
        return false
      else return true
    if open?.any id then evaluateConstants eval entries scope n

/-- Goes into the new frame of an instance. Gives the frame around it. -/
def enterInstance (node : Ast) (name : String) (module : String) : Pass Path := do
  let outer ← current
  noteScope (outer.push ⟨name, .module, .none⟩) node
  changeFrames (·.add [⟨name, .module, .none⟩] { isModule := true, moduleName := .text module })
  let m ← lift ((← get).modules.find module)
  changeFrames (·.update fun f => pure { f with
    vars.signals := f.vars.signals.putAll m.vars.signals
    vars.consts := f.vars.consts.putAll m.vars.consts })
  return outer

def parameterName (params : List Ast) (i : Nat) (arg : Ast) : Result Ast := do
  let name ← arg.part "paramname"
  if name.isAbsent then element params i else pure name

/-- Gives the parameters of an instance the values from outside. -/
def setParameters (node : Ast) (name : String) (params : List Ast) (outer : Path) :
    Pass Unit := do
  let scope ← current
  let args ← lift (do (← node.part "parameterlist").members)
  args.zipIdx.forM fun (arg, i) => do
    let param ← lift (parameterName params i arg)
    if !params.contains param then
      throw (Fault.format ("No such parameter: " ++ param.toText ++ " in " ++ name))
    let value ← evaluate (← lift (arg.part "argname")) outer
    let param ← lift (textOf param)
    setConstant (← lift (locate (← get).frames scope param)) value

def visitModule (enter : Ast → Pass Unit) (node : Ast) (name module : String) (m : Module) :
    Pass Unit := do
  let outer ← enterInstance node name module
  noteConstants openRange
  setParameters node name m.params outer
  let entries ← constants
  evaluateConstants evaluate entries (← current) (entries.length + 2)
  noteConstants id
  let around := (← get).modules.current
  modify fun s => { s with modules.current := some module }
  enter m.body
  goTo outer
  modify fun s => { s with modules.current := around }

def visitInstance (enter : Ast → Pass Unit) (node : Ast) (name : String) : Pass Unit := do
  let module ← lift (do textOf (← node.part "module"))
  if (gates.lookup module).isSome then return
  if name == "" then throw (Fault.format ("Module " ++ module ++ " requires an instance name"))
  let s ← get
  if s.blackBoxes.contains module then return
  match s.modules.table.get? module with
  | none => do
    say ("Module definition of " ++ module ++ " unavailable. Black boxing the module.")
    modify fun s => { s with blackBoxes := s.blackBoxes ++ [module] }
  | some m => visitModule enter node name module m

def rangeNumbers (lo hi : Scalar) : Result (List Int) := do
  let some lo := lo.int? | throw .wrongKind
  let some hi := hi.int? | throw .wrongKind
  return (List.range (hi + 1 - lo).toNat).map fun (i : Nat) => lo + i

def noteLimits (node : Ast) (lsb msb : Scalar) : Pass Unit := do
  let ms ← lift ((← get).modules.update fun m =>
    pure { m with limits := m.limits.put node (lsb, msb) })
  modify fun s => { s with modules := ms }

/-- Visits an instance, or all instances of an array. The ends of the range of an array are noted. -/
def visitInstances (evaluate : Ast → Path → Pass Tree) (noteEnds : Scalar → Scalar → Pass Unit)
    (visit : String → Option Int → Pass Unit) (node : Ast) : Pass Unit := do
  let array ← lift (node.part "array")
  let name ← lift (nameOf node)
  if !array.isPresent then visit name none
  else do
    if name == "" then
      let module ← lift (node.part "module")
      throw (Fault.format ("Module " ++ module.toText ++ " requires an instance name"))
    let scope ← current
    let msb ← lift (← evaluate (← lift (array.part "msb")) scope).valueOf
    let lsb ← lift (← evaluate (← lift (array.part "lsb")) scope).valueOf
    noteEnds lsb msb
    let numbers ← lift (rangeNumbers lsb msb)
    noteFinding (.instances numbers)
    numbers.forM fun i => visit (name ++ "_" ++ Text.ofInt i) (some i)

/-! ## Statements -/

/-- Goes into a new frame below the current one, which is inside the same regions. Gives the path
of the frame around it. -/
def enterFrame (node : Ast) (label : Label) (form : Frame → Frame) : Pass Path := do
  let outer ← current
  let f ← here
  noteScope (outer.push label) node
  changeFrames (·.add [label] (form (f.inside label.kind)))
  return outer

def inFrame (node : Ast) (label : Label) (form : Frame → Frame) (visit : Pass Unit) :
    Pass Unit := do
  let outer ← enterFrame node label form
  visit
  goTo outer

/-- Whether conditions are decided here. -/
def inGenerateRegion (fs : Frames) (f : Frame) : Bool :=
  f.isGenerate && !f.isAlways && !f.isInitial && !f.isFunctionCall && !f.isTaskCall &&
    !fs.inFunction && !fs.inTask

def thenArm (node : Ast) (label : String) (cond : Ast) (visit : Pass Unit) : Pass Unit :=
  inFrame node ⟨label, .if, .none⟩ (fun f => { f with kind := "ifthen", condition := cond }) visit

def elseArm (node : Ast) (label : String) (cond : Ast) (visit : Pass Unit) : Pass Unit :=
  inFrame node ⟨label ++ "_ELSE", .if, .none⟩
    (fun f => { f with kind := "ifelse", condition := cond }) visit

def decided (cond : Tree) : Result Bool :=
  match cond with
  | .value v _ _ _ => v.gt (.int 0)
  | _ => throw (.format "Can not resolve generate-if condition")

/-- Visits the arms of a condition: of one that decides on a generate region one arm, of any other
both. An arm that is absent has no frame. At the end the arms are merged into the scope around. -/
def visitIf (evaluate : Ast → Path → Pass Tree) (cond yes no : Ast) (first second : String → Pass Unit)
    (merge : Path → String → Pass Unit) : Pass Unit := do
  let s ← get
  let f ← here
  let scope := s.frames.current
  let labelled : Pass String := do
    let label ← blockLabel "if"
    first label
    return label
  if inGenerateRegion s.frames f then
    let holds ← lift (decided (← evaluate cond scope))
    noteFinding (.arm holds)
    if holds then
      if !yes.isAbsent then merge scope (← labelled)
    else do
      let label ← blockLabel "if"
      if !no.isAbsent then
        second label
        merge scope (label ++ "_ELSE")
  else do
    let label ← if yes.isAbsent then pure none else some <$> labelled
    match label with
    | some label => do
      if !no.isAbsent then second label
      merge scope label
      if !no.isAbsent then merge scope (label ++ "_ELSE")
    | none => if !no.isAbsent then throw .wrongKind

/-- The condition of an item of a case statement: the selector equals one of its expressions. The
item for all other cases has a condition that always holds. -/
def caseCondition (selector : Ast) (item : Ast) : Result Ast := do
  let conds ← item.part "cond"
  if conds.isAbsent then return .mk .intConst 0 [.text "1"]
  match ← conds.members with
  | [] => throw .badPosition
  | c :: cs =>
    return cs.foldl (fun acc c => .mk .lor 0 [acc, .mk .eq 0 [selector, c]])
      (.mk .eq 0 [selector, c])

/-- Visits the items of a case statement. Each item but the first lies in the frames of the second
arms of those before it. -/
def visitCases (selector : Ast) : List (Ast × Pass Unit) → Pass Unit
  | [] => pure ()
  | (item, visit) :: rest => do
    let cond ← lift (caseCondition selector item)
    let label ← blockLabel "if"
    thenArm item label cond visit
    if !rest.isEmpty then elseArm item label cond (visitCases selector rest)

/-- The value that the start or the step of a loop gives its variable. -/
def loopValue (eval : Ast → Path → Pass Tree) (statement : Ast) : Pass Scalar := do
  let right ← lift (statement.part "right")
  lift (← eval right (← current)).valueOf

/-- A visit that is marked in the frames while it lasts. -/
def marked (mark : Bool → Frames → Frames) (visit : Pass Unit) : Pass Unit := do
  modify fun s => { s with frames := mark true s.frames }
  visit
  modify fun s => { s with frames := mark false s.frames }

/-- Whether a loop goes on; its condition must have a value. -/
def goesOn (word : String) (cond : Tree) : Result Bool :=
  match cond with
  | .value v _ _ _ => do return !(← v.le (.int 0))
  | _ => throw (.format ("Can not process the " ++ word ++ "-statement. " ++ word ++
      "-condition should be evaluated statically."))

/-- The rounds of a loop, each in a frame of its own. After a round the step gives the loop variable
its next value. -/
def iterate (evaluate : Ast → Path → Pass Tree) (inside : Label → (Frame → Frame) → Pass Unit)
    (label : String) (cond post : Ast) (step : Pass Unit) : Nat → Scalar → Pass Unit
  | 0, _ => throw .tooDeep
  | n + 1, loop => do
    if ← lift (goesOn "for" (← evaluate cond (← current))) then
      noteFinding (.round loop)
      let name := (← get).frames.loopName
      inside ⟨label, .for, loop⟩ fun f =>
        { f with kind := "for", loop, loopName := name }
      let next ← loopValue evaluate post
      step
      iterate evaluate inside label cond post step n next
    else noteFinding .done

/-- An assignment counts here only if it is one of a loop variable. -/
def assignLoopVariable (left right : Ast) : Pass Unit := do
  let fs := (← get).frames
  if fs.inForPre || fs.inForPost then
    let scope ← current
    let name ← lift (do textOf (← (← left.part "var").part "name"))
    let path ← lift (locate fs scope name)
    let right ← lift (right.part "var")
    setConstant path (← evaluate right scope)
    modify fun s => { s with frames.loopName := .path path }

def declareConstant (node : Ast) (value : Path → Pass Tree) : Pass Unit := do
  changeFrames (·.update (·.addConst node))
  let scope ← current
  let name := signalAt scope (← lift (nameOf node))
  if !(← hasConstant name) then setConstant name (← value scope)

def visitNode (enter : Ast → Pass Unit) (k : Ast.Kind) (place : Ast.Place) (parts : List Ast)
    (found : Visits) : Pass Unit := do
  let node := Ast.node k place parts
  let part (i : Nat) : Ast := parts.getD i .absent
  let whole := visitPart found
  let children := visitBelow k found
  match k with
  | .moduleDef => do
    let name := (part 0).toText
    if (← get).tracing then say ("Visiting Module : " ++ name)
    children
    if (← get).tracing then say ("Exiting Module : " ++ name)
  | .input | .output | .inout | .reg | .wire | .supply | .regArray | .wireArray | .tri
  | .integer => changeFrames (·.addSignal node)
  | .parameter | .localparam => declareConstant node fun scope => evaluate (part 1) scope
  | .genvar => declareConstant node fun _ => pure (.ofInt 0)
  | .function => do
    changeFrames (·.update (·.addFunction node))
    marked (fun b fs => { fs with inFunction := b }) children
  | .task => do
    changeFrames (·.update (·.addTask node))
    marked (fun b fs => { fs with inTask := b }) children
  | .initial | .whileStatement | .assign | .nonblockingSubstitution => pure ()
  | .instanceList => do (← visitsIn found 2).forM id
  | .inst =>
    visitInstances evaluate (noteLimits node) (fun name _ => visitInstance enter node name) node
  | .always => do
    let label ← blockLabel "always"
    inFrame node ⟨label, .always, .none⟩
      (fun f => { f with kind := "Always" }) children
  | .ifStatement =>
    visitIf evaluate (part 0) (part 1) (part 2) (thenArm node · (part 0) (whole 1))
      (elseArm node · (part 0) (whole 2)) fun _ _ => pure ()
  | .caseStatement | .casexStatement | .casezStatement => do
    let items ← lift (part 1).members
    visitCases (part 0) (items.zip (← visitsIn found 1))
  | .caseItem => if (part 1).isAbsent then pure () else whole 1
  | .forStatement => do
    let start ← loopValue evaluate (part 0)
    marked (fun b fs => { fs with inForPre := b }) (whole 0)
    let label ← blockLabel "for"
    iterate evaluate (inFrame node · · (whole 3)) label (part 1) (part 2)
      (marked (fun b fs => { fs with inForPost := b }) (whole 2)) iterationBound start
  | .generateStatement => do
    let label ← blockLabel "generate"
    inFrame node ⟨label, .generate, .none⟩ id children
  | .block => do
    let label ← if (part 1).isAbsent then blockLabel "block" else lift (textOf (part 1))
    inFrame node ⟨label, .block, .none⟩ (fun f => { f with kind := "block" }) children
  | .blockingSubstitution => assignLoopVariable (part 0) (part 1)
  | _ => children

/-- The visit of a tree. The number bounds the nesting of instances. -/
def visit : Nat → Ast → Pass Unit
  | 0 => fun _ => throw .tooDeep
  | n + 1 => visitTree (visitNode (visit n))

def prepare (top : String) (ignored : List String) (tracing : Bool) : Pass Unit := do
  let _ ← enterInstance .absent top top
  modify fun s => { s with
    modules.current := some top, blackBoxes := ignored }
  ignored.forM fun name => say ("Module definition of " ++ name ++ " ignored/black boxed")
  modify fun s => { s with tracing }

def start (top : String) : Pass Unit := do
  visit nestingBound (← lift ((← get).modules.find top)).body

def run (modules : Modules) (top : String) (ignored : List String) (tracing : Bool) :
    Result Unit × Stage :=
  let pass : Pass Unit := do
    prepare top ignored tracing
    start top
  RtlFlow.run pass { modules := modules }

end RtlFlow.Design.Declare
