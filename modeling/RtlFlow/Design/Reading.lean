import RtlFlow.Design.Assignment

/-!
# Reading expressions

In the second pass an expression becomes a tree of the signals it names. A signal that blocking
assignments before it have set stands for what they have assigned. A call of a function gets a
scope of its own, in which the arguments are bound to the ports and the body is visited.
-/

namespace RtlFlow.Design

open Stage

/-! ## Blocking assignments before an expression -/

/-- The tree of those bindings that cover the declared range of a signal, or all of them side by
side. -/
def fittingTree (o : Optimizer) (w : Wiring) (bs : List Binding) (msb lsb : Tree) :
    Result Tree := do
  let msb ← o.optimize msb
  let lsb ← o.optimize lsb
  let rec find : List Binding → Result (Option Tree)
    | [] => pure none
    | b :: bs => do
      if b.msb.isHole && b.lsb.isHole then return some b.tree
      if ← (← o.optimize b.msb).equal msb then
        if ← (← o.optimize b.lsb).equal lsb then return some b.tree
      find bs
  match ← find bs with
  | some t => return t
  | none => Binding.joined o w.termAt bs

/-- What blocking assignments have given a signal, as far as the guard of the scope leads. -/
def assignedTree (e : Engine) (scope : Path) (name : Path) (bs : List Binding) : Pass Tree := do
  let s ← get
  let (msb, lsb) ← lift (termRange s.wiring (some name))
  let t ← lift (fittingTree s.optimizer s.wiring bs msb lsb)
  let guard ← condFlow e scope
  lift do Tree.fill (.term name) (← t.follow guard).tree

def blockingBefore (name : Path) (scope : Path) : Pass (List Binding) := do
  let s ← get
  return (← lift (s.frames.blockingTo name scope)).filterMap fun i => s.wiring.slots[i]?

def strangeTree (t : Tree) : Fault :=
  match t.name with
  | .ok s => .format ("unsupported DFNode type: <class 'pyverilog.dataflow.dataflow." ++
      t.className ++ "'> " ++ s)
  | .error f => f

/-- An element of an array of registers after blocking assignments: the last one for the same
element decides. -/
def assignedItem (name : Path) (ptr : Tree) (bs : List Binding) : Pass Tree := do
  let t ← lift (bs.foldlM (fun t b => do
    return .branch (← Tree.mkOp "Eq" [b.ptr, ptr]) b.tree t) (Tree.item (.term name) ptr))
  if !bs.isEmpty then
    say "Warning: Overwrting Blocking Assignment with Reg Array is not supported"
  return t

mutual

/-- A tree with the values of the blocking assignments before it in a scope; `below` reads the
conditions around the scope. -/
def resolveWith (below : Engine) (scope : Path) : Tree → Pass Tree
  | .term name => do
    if (← termAt (some name)).is "Genvar" then lift (constantIn (← get).optimizer name)
    else
      match ← blockingBefore name scope with
      | [] => return .term name
      | bs => assignedTree below scope name bs
  | .branch cond yes no => do
    let yes ← resolveWith below scope yes
    let no ← resolveWith below scope no
    let cond ← resolveWith below scope cond
    if cond.isBranch then lift (cond.insertBranch yes no) else return .branch cond yes no
  | .op name args => do
    let args ← resolveAll below scope args
    if args.any Tree.isBranch then lift (Tree.insertOp args name) else lift (Tree.mkOp name args)
  | .concat items => do
    let items ← resolveAll below scope items
    if items.any Tree.isBranch then lift (Tree.insertConcat items) else return .concat items
  | .part var msb lsb => do
    let msb ← resolveWith below scope msb
    let lsb ← resolveWith below scope lsb
    let var ← resolveWith below scope var
    if var.isBranch then lift (var.insertPart msb lsb) else return .part var msb lsb
  | .item var ptr => do
    let ptr ← resolveWith below scope ptr
    let array ← match var with
      | .term name => do pure (if (← termAt (some name)).is "RegArray" then some name else none)
      | .unbound => throw .noMember
      | _ => pure none
    match array with
    | some name => do assignedItem name ptr (← blockingBefore name scope)
    | none => do
      let var ← resolveWith below scope var
      if var.isBranch then lift (var.insertItem ptr) else return .item var ptr
  | .unbound => throw .noMember
  | .hole => return .hole
  | .const k s => return .const k s
  | .value v w r t => return .value v w r t
  | t => throw (strangeTree t)

@[inherit_doc resolveWith]
def resolveAll (below : Engine) (scope : Path) : List Tree → Pass (List Tree)
  | [] => pure []
  | t :: ts => do
    let t ← resolveWith below scope t
    return t :: (← resolveAll below scope ts)

end

/-! ## Hierarchical names -/

def moduleOf (scope : Path) : Result Path :=
  match scope.labels.reverse.dropWhile fun l => decide (l.kind ≠ .module) with
  | [] => throw (.definition "module not found")
  | labels => pure ⟨labels.reverse⟩

/-- The term that a hierarchical name stands for: its scopes lie below the module around the scope
in which it is used. -/
def searchScoped (w : Wiring) (fs : Frames) (labels : List Label) (name : String) (scope : Path) :
    Result Path := do
  let module ← moduleOf scope
  match ← fs.matched module (module.labels.drop (module.length - 1) ++ labels) with
  | none => throw .unboundName
  | some found =>
    let path := signalAt (module.parent.append found) name
    if w.terms.contains path then return path
    throw (.definition ("No such signal: " ++ path.dotted))

/-! ## Calls -/

def wireNode (name width : Ast) : Ast := .mk .wire 0 [name, width, .atom (.bool false)]

def bindArguments (inner : Engine) (ports args : List Ast) (scope : Path) : Pass Unit := do
  ports.forM fun p => do
    addTerm inner (wireNode (← lift (p.part "name")) (← lift (p.part "width")))
  let callScope ← current
  (ports.zip args).forM fun (p, arg) => do
    let ds ← destinations inner (← lift (p.part "name")) callScope
    connect inner ds arg callScope scope none none

def checkArguments (definition : Ast) (ports args : List Ast) : Result Unit := do
  if ports.length ≠ args.length then
    let name ← (← definition.part "name").part "name"
    throw (.format (name.toText ++ " takes exactly " ++ Text.ofInt ports.length ++
      " arguments. (" ++ Text.ofInt args.length ++ " given)"))

def calledName (call : Ast) : Result String := do nameOf (← call.part "name")

def callTree (inner : Engine) (scope : Path) (call : Ast) : Pass Tree := do
  let name ← lift (calledName call)
  let s ← get
  match ← lift (s.wiring.searchFunction s.frames name scope) with
  | none => throw (Fault.definition ("No such function: " ++ name))
  | some f => do
    let label ← blockLabel "functioncall"
    let outer ← current
    goTo scope
    let region ← here
    changeFrames (·.add [⟨label, .functioncall, .none⟩] (region.inside .functioncall))
    let result := signalAt (← current) (← lift (nameOf f))
    addTerm inner (wireNode (← lift (f.part "name")) (← lift (f.part "retwidth")))
    let s ← get
    let ports ← lift (s.wiring.searchFunctionPorts s.frames name scope)
    let args ← lift (do (← call.part "args").members)
    lift (checkArguments f ports args)
    bindArguments inner ports args scope
    inner.visit f
    goTo outer
    return .term result

/-- A call of a task in an expression: its arguments are bound, but there is nothing to visit. -/
def taskTree (inner : Engine) (scope : Path) (call : Ast) : Pass Tree := do
  let name ← lift (calledName call)
  let s ← get
  let task ← lift (s.wiring.searchTask s.frames name scope)
  let label ← blockLabel "taskcall"
  let region ← here
  changeFrames (·.add [⟨label, .taskcall, .none⟩] (region.inside .taskcall))
  match task with
  | none => throw .noMember
  | some t => do
    let s ← get
    let ports ← lift (s.wiring.searchTaskPorts s.frames name scope)
    let args ← lift (do (← call.part "args").members)
    lift (checkArguments t ports args)
    bindArguments inner ports args scope
    throw .noMember

/-! ## Expressions -/

structure Reading where
  tree : Pass Tree
  labels : Pass (List Label) := throw .noMember

def loopLabel (value : Tree) : Result Label :=
  match value with
  | .value v _ _ _ => pure ⟨"for", .for, v⟩
  | _ => throw (.format "Loop iterator should be constant")

/-- What is read from a node, by what is read from its parts. `inner` serves the calls, `resolve`
gives the values of blocking assignments. -/
def readNode (inner : Engine) (resolve : Path → Tree → Pass Tree) (scope : Path)
    (k : Ast.Kind) (place : Ast.Place) (parts : List Ast) (found : List (Ast.Found Reading)) :
    Reading :=
  let trees : List (Ast.Found (Pass Tree)) := found.map fun f =>
    ⟨f.present, f.whole.tree, f.each.map (·.map Reading.tree)⟩
  let evaluated (i : Nat) : Pass Tree := do
    let t ← resolve scope (← operandAt trees i)
    optimize (← if (← get).ordered then lift t.reorder else pure t)
  let isArray : Tree → Pass Bool
    | .term name => do return (← termAt (some name)).isArray
    | .unbound => throw .noMember
    | _ => pure false
  match literalTree k parts, expressionTree isArray k trees with
  | some t, _ => { tree := pure t }
  | none, some t => { tree := t }
  | none, none =>
    match k, parts with
    | .identifier, [name, scopes] =>
      { tree := do
          let name ← lift (textOf name)
          if scopes.isAbsent then
            match ← searchTerm name scope with
            | some p => return .term p
            | none => throw (Fault.definition ("No such signal: " ++ name))
          else
            let labels ← match found[1]? with
              | some f => f.whole.labels
              | none => throw .noMember
            let s ← get
            return .term (← lift (searchScoped s.wiring s.frames labels name scope)) }
    | .identifierScope, _ =>
      { tree := throw (notExpression (.node k place parts))
        labels := do
          match found[0]? with
          | some f => return (← (← lift f.each).mapM Reading.labels).flatten
          | none => throw .noMember }
    | .identifierScopeLabel, [name, loop] =>
      { tree := throw (notExpression (.node k place parts))
        labels := do
          let here : Label := ⟨← lift (textOf name), .any, .none⟩
          if loop.isAbsent then return [here]
          return [← lift (loopLabel (← evaluated 1)), here] }
    | .replicate, _ =>
      { tree := do
          let times ← lift (← evaluated 1).valueOf
          let value ← operandAt trees 0
          return .concat (List.replicate (← lift (repeatCount times)) value) }
    | .functionCall, _ => { tree := callTree inner scope (.node k place parts) }
    | .taskCall, _ => { tree := taskTree inner scope (.node k place parts) }
    | .systemCall, name :: _ =>
      { tree := do
          if name.toText == "unsigned" || name.toText == "signed" then
            match trees[1]? with
            | some f =>
              match ← lift f.each with
              | t :: _ => t
              | [] => throw .badPosition
            | none => throw .badPosition
          else return .const .int "0" }
    | k, parts => { tree := throw (notExpression (.node k place parts)) }

def treeWith (inner : Engine) (resolve : Path → Tree → Pass Tree) (scope : Path) (t : Ast) :
    Pass Tree :=
  (t.fold (β := Reading)
    (fun t => match t with
      | .atom (.text name) =>
        { tree := do
            match ← searchTerm name scope with
            | some p => return .term p
            | none => return .unbound }
      | t => { tree := throw (notExpression t) })
    (readNode inner resolve scope)).tree

/-- The readings for scopes whose depth is below a bound; the conditions around a scope are read
in scopes of smaller depth. -/
def readers (inner : Engine) : Nat → Engine
  | 0 => Engine.stopped
  | n + 1 =>
    let resolve := resolveWith (readers inner n)
    ⟨treeWith inner resolve, resolve, inner.visit⟩

def reading (inner : Engine) : Engine :=
  ⟨fun scope t => (readers inner (scope.length + 2)).tree scope t,
    fun scope t => (readers inner (scope.length + 2)).resolve scope t, inner.visit⟩

end RtlFlow.Design
