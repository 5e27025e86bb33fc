import RtlFlow.Design.Expression
import RtlFlow.Design.Wiring
import RtlFlow.Flow.Merge

/-!
# Assignments

How an assignment becomes a binding: its destinations with their slices of the right side, the
guard of the scope it stands in, and the temporary names of blocking assignments.
-/

namespace RtlFlow

/-- The scope around the innermost condition that a path lies in. -/
def Path.beforeIf (p : Path) : Path :=
  ⟨((p.labels.reverse.dropWhile fun l => decide (l.kind ≠ .if)).drop 1).reverse⟩

namespace Design

open Stage

/-- What the second pass reads expressions and visits statements with. -/
structure Engine where
  tree : Path → Ast → Pass Tree
  /-- A tree with the values that blocking assignments before it in a scope gave its signals. -/
  resolve : Path → Tree → Pass Tree
  visit : Ast → Pass Unit

def Engine.stopped : Engine :=
  ⟨fun _ _ => throw .tooDeep, fun _ _ => throw .tooDeep, fun _ => throw .tooDeep⟩

variable (e : Engine)

/-- The tree of the right side of an assignment. -/
def Engine.read (t : Ast) (scope : Path) : Pass Tree := do
  let tree ← e.tree scope (expressionOf t)
  let tree ← e.resolve scope tree
  if (← get).ordered then lift tree.reorder else return tree

def Engine.evaluate (t : Ast) (scope : Path) : Pass Tree := do optimize (← e.read t scope)

/-! ## Guards of scopes -/

/-- The frames with conditions from a scope out to its module. -/
def conditionFrames (fs : Frames) : Nat → Path → Result (List Frame)
  | 0, _ => throw .tooDeep
  | n + 1, p => do
    let f ← fs.at? p
    let here := if f.condition.isAbsent then [] else [f]
    if f.isModule then return here
    return here ++ (← conditionFrames fs n f.previous)

/-- Resolves the conditions of a scope, innermost first, each before the condition around which it
stands. -/
def resolveConditions : Path → List Tree → Pass (List Tree)
  | _, [] => pure []
  | scope, c :: cs => do
    let c ← e.resolve scope c
    return c :: (← resolveConditions scope.beforeIf cs)

/-- The guard of an assignment in a scope. -/
def condFlow (scope : Path) : Pass Guard := do
  let fs := (← get).frames
  let frames ← lift (conditionFrames fs (fs.table.size + 1) scope)
  let conds ← frames.mapM fun f => e.tree f.name.beforeIf f.condition
  let conds ← resolveConditions e scope.beforeIf conds
  return (conds.zip (frames.map fun f => !f.isElse)).reverse

/-! ## Terms -/

def declaredRange (width : Ast) (scope : Path) (usual : String) : Pass (Tree × Tree) := do
  if width.isAbsent then return (.const .int usual, .const .int "0")
  let msb ← e.tree scope (← lift (width.part "msb"))
  return (msb, ← e.tree scope (← lift (width.part "lsb")))

def constantTerm (name : Path) (t : Ast) (scope : Path) : Pass Term := do
  let (msb, lsb) ← declaredRange e (← lift (t.part "width")) scope "31"
  return { name, kinds := [t.kindWord], msb, lsb }

/-- Whether a function or a task is declared here, and not called. -/
def inDeclaration : Pass Bool := do
  let fs := (← get).frames
  let f ← here
  return fs.inFunction && !f.isFunctionCall || fs.inTask && !f.isTaskCall

/-- Adds a declaration to the terms. In a call the declared names are those of the call. -/
def addTerm (node : Ast) (scope? : Option Path := none) : Pass Unit := do
  if ← inDeclaration then return
  let f ← here
  let scope := scope?.getD (← current)
  let name := signalAt scope (← lift (nameOf node))
  let kind := if f.isTaskCall then "Task" else if f.isFunctionCall then "Function"
    else node.kindWord
  let isConstant := node.is .parameter || node.is .localparam || node.is .supply
  let (msb, lsb) ← declaredRange e (← lift (node.part "width")) scope
    (if isConstant then "31" else "0")
  let (lenMsb, lenLsb) ← if node.is .regArray || node.is .wireArray then do
      let length ← lift (node.part "length")
      let msb ← e.tree scope (← lift (length.part "msb"))
      pure (msb, ← e.tree scope (← lift (length.part "lsb")))
    else pure (Tree.hole, Tree.hole)
  let t : Term := ⟨name, [kind], msb, lsb, lenMsb, lenLsb⟩
  modify fun s => { s with wiring := s.wiring.addTerm name t }
  setTerm name t

def searchTerm (name : String) (scope : Path) : Pass (Option Path) := do
  let s ← get
  lift (s.wiring.searchTerm s.frames name scope)

def termAt (name : Option Path) : Pass Term := do
  match name with
  | some name => lift ((← get).wiring.termAt name)
  | none => throw .noMember

/-! ## Destinations -/

/-- A destination of an assignment: a signal or a slice of it, and the slice of the right side that
it takes if there are several destinations. -/
structure Destination where
  name : Option Path
  msb : Tree := .hole
  lsb : Tree := .hole
  ptr : Tree := .hole
  partMsb : Tree := .hole
  partLsb : Tree := .hole
deriving Inhabited

/-- The term that a name on a left side stands for. An undeclared name is declared as a net, unless
that is switched off. -/
def destinationName (name : String) (scope : Path) : Pass (Option Path) := do
  match ← searchTerm name scope with
  | some p => return some p
  | none => do
    let kind ← lift (textOf (← get).netKind)
    if Text.hasInfix "none" kind then throw (Fault.format ("No such signal: " ++ name))
    let net (k : Ast.Kind) : Ast := .mk k 0 [.text name, .absent, .atom (.bool false)]
    if Text.hasInfix "wire" kind then addTerm e (net .wire) (some scope)
    if Text.hasInfix "reg" kind then addTerm e (net .reg) (some scope)
    searchTerm name scope

/-- The signal in the scope that stands before a name, if there is one; of all forms of a scope only
a path can stand before a name on a left side. -/
def scopedName (scopes : Ast) (name : String) (otherwise : Option Path) :
    Result (Option Path) :=
  match scopes with
  | .path p => pure (some (signalAt p name))
  | scopes => if scopes.isAbsent then pure otherwise else throw .wrongKind

def selectedName (var : Ast) (scope : Path) : Pass (Option Path) := do
  let name ← lift (nameOf var)
  let found ← searchTerm name scope
  lift (scopedName (← lift (var.part "scope")) name found)

def indexTree (t : Ast) (scope : Path) : Pass Tree := do optimize (← e.tree scope t)

/-- The destination that a name or a selection on a left side is. -/
def destination (scope : Path) : Ast → Pass Destination
  | .atom (.text name) => do return { name := ← searchTerm name scope }
  | .node .identifier _ [name, scopes] => do
    let name ← lift (textOf name)
    let found ← destinationName e name scope
    return { name := ← lift (scopedName scopes name found) }
  | .node .partselect _ [var, msb, lsb] => do
    if var.is .pointer then
      let d ← destination scope var
      if !(d.msb.isHole && d.lsb.isHole) then throw (notArray d)
      let msb ← indexTree e msb scope
      return { d with msb, lsb := ← indexTree e lsb scope }
    let name ← selectedName var scope
    let msb ← indexTree e msb scope
    return { name, msb, lsb := ← indexTree e lsb scope }
  | .node .pointer _ [var, ptr] => do
    if var.is .pointer then
      let d ← destination scope var
      if !(d.msb.isHole && d.lsb.isHole) then throw (notArray d)
      let ptr ← indexTree e ptr scope
      return { d with msb := ptr, lsb := ptr }
    let name ← selectedName var scope
    let ptr ← indexTree e ptr scope
    if (← termAt name).isArray then return { name := name, ptr := ptr }
    return { name, msb := ptr, lsb := ptr }
  | t => throw (notExpression t)
where
  notArray (d : Destination) : Fault :=
    .format ((d.name.map Path.dotted).getD "None" ++ " is not array")

mutual

def leftDestinations (scope : Path) : Ast → Pass (List Destination)
  | .node .lvalue _ [var] => leftDestinations scope var
  | .node .leftConcat _ [.seq items] => allDestinations scope items
  | .node .concat _ [.seq items] => allDestinations scope items
  | t => do return [← destination e scope t]

def allDestinations (scope : Path) : List Ast → Pass (List Destination)
  | [] => pure []
  | t :: ts => do
    let here ← leftDestinations scope t
    return here ++ (← allDestinations scope ts)

end

/-- Gives each of several destinations, the lowest first, its slice of the right side. Without a
slice of its own a destination takes as many bits as `width` says. -/
def tile (width : Option Path → Result (Tree × Tree)) :
    (offset : Tree) → List Destination → Result (List Destination)
  | _, [] => pure []
  | offset, d :: ds => do
    let (msb, lsb) ← if d.msb.isHole && d.lsb.isHole then width d.name else pure (d.msb, d.lsb)
    let diff ← (← Tree.mkOp "Minus" [msb, lsb]).reorder
    let partMsb ← (← Tree.mkOp "Plus" [offset, diff]).reorder
    let next ← (← Tree.mkOp "Plus" [partMsb, .const .int "1"]).reorder
    return { d with msb, lsb, partMsb, partLsb := offset } ::
      (← tile width next ds)

def termRange (w : Wiring) (name : Option Path) : Result (Tree × Tree) :=
  match name with
  | some name => do
    let t ← w.termAt name
    return (t.msb, t.lsb)
  | none => throw .noMember

def destinations (left : Ast) (scope : Path) : Pass (List Destination) := do
  match ← leftDestinations e scope left with
  | [d] => return [d]
  | ds => do lift (tile (termRange (← get).wiring) (.const .int "0") ds.reverse)

/-! ## Bindings -/

/-- The slice of the right side that a destination takes. -/
def slicedTree (d : Destination) (several : Bool) (t : Tree) : Result Tree :=
  if several then (Tree.part t d.partMsb d.partLsb).reorder else pure t

/-- The tree of the first binding for the slice of a binding. -/
def treeFor (b : Binding) : List Binding → Result Tree
  | [] => pure .hole
  | c :: rest => do if ← c.sameSlice b then return c.tree else treeFor b rest

def boundTree (w : Wiring) (name : Path) (d : Destination) : Result Tree :=
  treeFor { tree := .hole, dest := name, msb := d.msb, lsb := d.lsb, ptr := d.ptr } (w.bindings name)

/-- The binding of a destination after one more assignment. -/
def makeBinding (w : Wiring) (d : Destination) (new : Tree) (guard : Guard) (several : Bool)
    (always : Option Sensitivity) (kind : Option String) : Result Binding := do
  let old ← match d.name with
    | some name => boundTree w name d
    | none => pure .hole
  let tree ← slicedTree d several (← old.assign new guard)
  match d.name with
  | some name => return ⟨tree, name, d.msb, d.lsb, d.ptr, always, kind⟩
  | none => throw (.definition "Bind dest is empty")

def storeBinding (b : Binding) : Pass Nat := do
  let s ← get
  let (w, i) := s.wiring.addSlot b
  set { s with wiring := ← lift (w.store b.dest i) }
  return i

def noteNonblocking (b : Binding) : Pass Unit :=
  changeFrames (·.update (·.addNonblocking b.dest b))

def bindAll (ds : List Destination) (tree : Tree) (guard : Guard) (always : Option Sensitivity)
    (kind : Option String) : Pass Unit := do
  let several := ds.length > 1
  ds.forM fun d => do
    let b ← lift (makeBinding (← get).wiring d tree guard several always kind)
    let _ ← storeBinding b
    if always.isSome then
      noteNonblocking ⟨← lift (slicedTree d several tree), b.dest, d.msb, d.lsb, d.ptr, always,
        some ""⟩

/-- Binds destinations to a right side, unless the assignment is blocking. -/
def connect (ds : List Destination) (right : Ast) (leftScope rightScope : Path)
    (always : Option Sensitivity) (kind : Option String) : Pass Unit := do
  let guard ← condFlow e leftScope
  let tree ← e.read right rightScope
  bindAll ds tree guard always kind

/-! ## Blocking assignments -/

def temporaryName (n : Nat) (name : Path) : Result Path :=
  match name.labels.getLast? with
  | some l => pure (name.parent.push ⟨"_rn" ++ Text.ofInt n ++ "_" ++ l.name, .signal, .none⟩)
  | none => throw .badPosition

/-- A temporary name that no term has, and the number of temporary names after it. The second
number bounds the attempts. -/
def freshName (terms : Terms) (name : Path) : (n : Nat) → (tries : Nat) →
    Result (Path × Nat)
  | _, 0 => throw .tooDeep
  | n, tries + 1 => do
    let p ← temporaryName n name
    if terms.contains p then freshName terms name (n + 1) tries else return (p, n + 1)

/-- A destination under a temporary name. -/
def renamed (d : Destination) : Pass Destination := do
  match d.name with
  | none => throw .wrongKind
  | some name => do
    let s ← get
    let (p, n) ← lift (freshName s.wiring.terms name s.renames (s.wiring.terms.size + 1))
    set { s with renames := n }
    let t ← lift (s.wiring.termAt name)
    modify fun s => { s with
      wiring := s.wiring.addTerm p { t with name := p, kinds := ["Rename"] } }
    return { d with name := some p }

/-- Binds the temporary names to the right side. -/
def bindTemporary (ds : List Destination) (tree : Tree) : Pass Unit := do
  let several := ds.length > 1
  ds.forM fun d => do
    match d.name with
    | none => throw .wrongKind
    | some name => do
      let t ← lift (slicedTree d several tree)
      let _ ← storeBinding { tree := t, dest := name, msb := d.msb, lsb := d.lsb, ptr := d.ptr }
      let v ← optimize t
      if v.isValue then setConstant name v
      let (msb, lsb) ← lift (termRange (← get).wiring (some name))
      setTerm name { name, kinds := ["Rename"], msb, lsb }

/-- Binds destinations to their temporary names, under the guard. -/
def bindRenamed (pairs : List (Destination × Destination)) (guard : Guard) (scope : Path)
    (always : Option Sensitivity) : Pass Unit := do
  let several := pairs.length > 1
  pairs.forM fun (d, temporary) => do
    let tree : Tree := match temporary.name with
      | some p => .term p
      | none => .unbound
    let b ← lift (makeBinding (← get).wiring d tree guard several always none)
    let i ← storeBinding b
    let s ← get
    let (f, slots) ← lift (do (← s.frames.at? scope).setBlocking s.wiring.slots b.dest i)
    set { s with
      frames.table := s.frames.table.put scope f
      wiring.slots := slots }

/-- Keeps the value of a signal where it is constant. -/
def trackValue (name : Option Path) (tree : Tree) : Pass Unit := do
  let t ← termAt name
  let v ← optimize tree
  match name with
  | some name => if t.is "Genvar" || v.isValue then setConstant name v else resetConstant name
  | none => pure ()

def connectBlocking (ds : List Destination) (right : Ast) (scope : Path)
    (always : Option Sensitivity) : Pass Unit := do
  let guard ← condFlow e scope
  let tree ← e.read right scope
  let temporaries ← ds.mapM renamed
  bindTemporary temporaries tree
  bindRenamed (ds.zip temporaries) guard scope always
  match ds with
  | [d] => trackValue d.name tree
  | _ => pure ()

end Design

end RtlFlow
