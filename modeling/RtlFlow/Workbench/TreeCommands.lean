import RtlFlow.Workbench.Command

/-!
# Commands on trees and netlists
-/

namespace RtlFlow.Workbench

/-! ## One object -/

/-- The text of an object with all its parts. -/
def longText : Value → Result String
  | .tree t => t.toText
  | .term t => t.toText
  | .binding b => b.toText
  | _ => throw .noMember

/-- The code of an object; only a branch takes the kind of an always block. -/
def codeOf (always : Option Value) (dest : Value) : Value → Result String
  | .tree t => do
    let dest ← match dest with
      | .none => pure none
      | v => do pure (some (← v.toText))
    match always, t with
    | none, t => t.toCode dest
    | some (.text "clockedge"), .branch .. => t.toStatements .nonblocking dest
    | some (.text "combination"), .branch .. => t.toStatements .blocking dest
    | some _, .branch .. => t.toCode dest
    | some _, _ => throw .wrongKind
  | .term t => t.toCode
  | .binding b => b.toCode
  | .path p => pure p.code
  | .label l => pure l.code
  | _ => throw .noMember

def codeAs (v dest : Value) : Value → Result String
  | .fault _ => codeOf none dest v
  | always => codeOf (some always) dest v

mutual

/-- The text of an object within a line. -/
def shortText : Value → Result String
  | .text s => pure (Text.quoted s)
  | .scalar a => pure a.toText
  | .tree t => t.name
  | .path p => pure p.dotted
  | .label l => pure l.toText
  | .term t => pure t.name.dotted
  | .state s => s.toText
  | .states ss => do
    let texts ← ss.mapM fun s => match s with
      | some s => s.toText
      | none => pure "None"
    return Text.dropEnd 1 ("(" ++ String.join (texts.map (· ++ " "))) ++ ")"
  | .inferred i => pure i.toText
  | .list vs => do return "[" ++ Text.joinWith ", " (← shortTexts vs) ++ "]"
  | .tuple vs => do
    return match ← shortTexts vs with
      | [s] => "(" ++ s ++ ",)"
      | ss => "(" ++ Text.joinWith ", " ss ++ ")"
  | _ => throw .wrongKind

def shortTexts : List Value → Result (List String)
  | [] => pure []
  | v :: vs => do return (← shortText v) :: (← shortTexts vs)

end

/-- The text of an object; that of a text has no quotes. -/
def plainText : Value → Result String
  | .text s => pure s
  | v => shortText v

/-- The width that an object has as an operation; where the width is a part of the object it cannot
be called. -/
def ownWidth : Value → Result Value
  | .tree (.const .int s) => do return .int (← Literal.width s)
  | .tree (.value ..) | .tree (.unknown _) | .tree (.floating _) => throw .wrongKind
  | _ => throw .noMember

def ownName : Value → Result String
  | .tree (.term p) => p.signalName
  | _ => throw .noMember

def parts : Tree → Result (List Tree)
  | .hole => throw .noMember
  | t => pure t.children

/-- Equality of objects; terms of ranges are compared in the store. -/
def equalIn (s : Active.Store) : Value → Value → Result Bool
  | .active (.term i), .active (.term j) =>
    pure ((s.terms.getD i default).same (s.terms.getD j default))
  | .active (.term _), _ => throw .noMember
  | _, .active (.term _) => throw .noMember
  | .active (.cond i), .active (.cond j) => pure (i == j)
  | v, w => v.equal w

def differIn (s : Active.Store) (v w : Value) : Result Bool := do return !(← equalIn s v w)

/-- Written forms, parts, values and equality of one object. -/
def treeCommands : Commands Work := [
  ("id", does ["value"] fun (v : Value) => v),
  ("tostr", does ["node"] longText),
  ("tocode", does ["node", may "dest" (.text "dest"), may "always" (.fault .wrongKind)]
    codeAs),
  ("repr", does ["node"] shortText),
  ("tolabel", does ["node"] Tree.label),
  ("children", does ["node"] parts),
  ("eval", does ["node"] Tree.eval),
  ("width", does ["node"] ownWidth),
  ("termname", does ["node"] ownName),
  ("eq", does ["a", "b"] equalIn),
  ("ne", does ["a", "b"] differIn),
  ("samehash", does ["a", "b"] Value.sameHash),
  ("replace undefined", does ["tree", "termname"] fun t (p : Path) => Tree.fill (.term p) t)]

/-! ## Optimizer -/

def setConstant (name : Path) (t : Tree) : Work Unit :=
  modify fun b => { b with netlist.consts := b.netlist.consts.put name t }

def resetConstant (name : Path) : Work Unit :=
  modify fun b => { b with netlist.consts := b.netlist.consts.erase name }

def setTerm (name : Path) (t : Term) : Work Unit :=
  modify fun b => { b with
    netlist.terms := b.netlist.terms.put name t
    netlist.resolvedTerms := b.netlist.resolvedTerms.put name t }

def setTermValue (name : Value) : Value → Work Unit
  | .term t => do setTerm (← name.toPath) t
  | _ => throw .wrongKind

def constant (n : Netlist) (p : Path) : Result Tree :=
  orThrow (.definition ("constant value not found: " ++ p.dotted)) (n.consts.get? p)

def foldNodes (o : Optimizer) (ts : List Tree) : Result (List Tree × Bool) := do
  let ts ← ts.mapM o.fold
  return (ts, ts.all Tree.isValue)

def operate (name : Value) (ts : List Tree) : Result Tree :=
  match Optimizer.evaluated? ts with
  | some vs => do Optimizer.evalOperator (← name.toText) vs
  | none => pure .hole

def joinNodes (o : Optimizer) (ts : List Tree) : Result Tree :=
  match Optimizer.evaluated? ts with
  | some vs => o.evalConcat vs
  | none => throw .noMember

def holds : Tree → Result Bool
  | .value a _ _ _ => pure (Optimizer.isTrue a)
  | _ => throw .unboundName

/-- The value of a tree that stands for one. -/
structure Known where
  value : Scalar

instance : Readable Known := ⟨fun v => do return ⟨← (← v.toTree).valueOf⟩⟩

def takePart (o : Optimizer) (ts : Value) (m : Known) (l : Value) : Result Tree := do
  o.takePart (← ts.trees) m.value (← (← l.toTree).valueOf)

def takePoint (o : Optimizer) (ts : Value) (p : Known) : Result Tree := do
  o.takePart (← ts.trees) p.value p.value

/-- Folding and simplification. -/
def optimizerCommands : Commands Work := [
  ("set constant", does ["name", "value"] setConstant),
  ("reset constant", does ["name"] resetConstant),
  ("constant", does ["termname"] constant),
  ("has constant", does ["termname"] fun (n : Netlist) p => n.consts.contains p),
  ("constlist", does [] Netlist.consts),
  ("set term", does ["name", "term"] setTermValue),
  ("term", does ["termname"] fun (n : Netlist) => n.optimizer.term),
  ("has term", does ["termname"] fun (n : Netlist) p => n.terms.contains p),
  ("optimize", does ["tree"] Optimizer.optimize),
  ("optimize constant", does ["tree"] Optimizer.fold),
  ("optimize hierarchy", does ["tree"] Optimizer.simplify),
  ("eval nextnodes", does ["nextnodes"] foldNodes),
  ("eval operator", does ["operator", "nextnodes"] operate),
  ("eval values", does ["operator", "valuelist", may "width" (.int 32)] Evaluate.operator),
  ("width", does ["node"] Optimizer.width),
  ("eval concat", does ["nextnodes"] joinNodes),
  ("is cond true", does ["cond"] holds),
  ("eval partselect", does ["var", "msb", "lsb"] fun (v m l : Known) =>
    Optimizer.evalPart v.value m.value l.value),
  ("take part", does ["nextnodes", "msb", "lsb"] takePart),
  ("take point", does ["nextnodes", "ptr"] takePoint),
  ("replace operator", does ["tree"] Optimizer.replaceOperator),
  ("merge concat", does ["tree"] Optimizer.mergeConcat),
  ("merge identical nodes", does ["tree"] Optimizer.mergeIdentical),
  ("merge static nodes", does ["tree"] Optimizer.mergeStatic),
  ("merge land lor", does ["tree"] Optimizer.mergeLor),
  ("merge land", does ["tree"] Optimizer.mergeLand),
  ("merge lor", does ["tree"] Optimizer.mergeLor)]

/-! ## Netlist -/

def findTerm (n : Netlist) : Value → Option Term
  | .text s => n.termNamed? s
  | .path p => n.terms.get? p
  | _ => none

instance : Readable BitRange where
  read v := do
    match ← v.items with
    | [m, l, p] => return ⟨← Readable.read m, ← Readable.read l, ← p.toScalar⟩
    | _ => throw .badValue

instance : Showable BitRange := ⟨fun r => .tuple [.int r.msb, .int r.lsb, .scalar r.ptr]⟩

def onRanges (first : String) (f : List BitRange → BitRange → List BitRange) : Command Work :=
  does [first, "search_msb", "search_lsb", "search_ptr"] fun rs m l p => f rs ⟨m, l, p⟩

def kindsOf (n : Netlist) (v : Value) : Result Value := do
  match findTerm n v, v with
  | some t, _ => return .set (t.kinds.map .text)
  | none, .text s => throw (.definition ("No such Term: " ++ s))
  | none, v => throw (.definition ("No such Term: " ++ (← shortText v)))

def positionsIn (rs : List BitRange) (p : Scalar) : Result Value := do
  return .set ((← BitRange.positions rs p).eraseDups.map .int)

/-- Bindings of the netlist of the workbench. -/
def mergeCommands : Commands Work := [
  ("term", does ["termname"] findTerm),
  ("bindlist", does ["termname"] Netlist.bindings),
  ("resolved term", does ["termname"] fun (n : Netlist) p => n.resolvedTerms.get? p),
  ("resolved bindlist", does ["termname"] Netlist.resolvedBindings),
  ("termtype", does ["termname"] kindsOf),
  ("assign type", does ["termname", "bind"] Netlist.assignType),
  ("is combination", does ["termname"] Netlist.isCombination),
  ("tree", does ["termname", may "ptr" .none] fun (n : Netlist) p t => n.tree p t),
  ("resolved tree", does ["termname", may "ptr" .none] fun (_ _ : Value) =>
    (throw (.unsupported "") : Work Unit)),
  ("is clock edge", does ["termname", may "msb" .none, may "lsb" .none, may "ptr" .none]
    fun (n : Netlist) p (_ _ _ : Value) => n.isClocked p),
  ("sources", does ["tree"] Netlist.sources),
  ("bind sources", does ["termname"] Netlist.bindSources),
  ("term sources", does ["termname"] Netlist.termSources),
  ("bindinfo sources", does ["termname"] Netlist.bindingSources),
  ("tree sources", does ["tree"] Netlist.treeSources),
  ("merged tree", does ["bindlist"] Netlist.mergedTree),
  ("optimized bindlist", does ["bindlist"] Netlist.optimizedBindings),
  ("merge bindlist", does ["bindlist"] Netlist.mergeBindings),
  ("merge tree", does ["first", "second"] Netlist.mergeTree),
  ("append tail", does ["appended", "target"] Netlist.appendTail),
  ("split bindlist", does ["bindlist", "split_positions"] fun (n : Netlist) bs ps =>
    n.splitBindings ps bs),
  ("split bind positions", does ["bind", "split_positions"] Netlist.splitAtPlaces),
  ("split bind", does ["bind", "splitpos"] Netlist.splitBinding),
  ("split positions", does ["bindlist"] Netlist.splitPositions),
  ("positions from range", does ["matched_range", "search_ptr"] positionsIn),
  ("matched range", onRanges "assigned_range" BitRange.matched),
  ("unmatched range", onRanges "matched_range" BitRange.unmatched)]

/-- The scope around a name. -/
def scopeOf : Value → Result Value
  | .path p => pure (.path p.parent)
  | .tuple vs => pure (.tuple vs.dropLast)
  | .list vs => pure (.list vs.dropLast)
  | _ => throw .wrongKind

/-- The path of a name and the text that it is reported by. -/
def namePath : Value → Result (Path × String)
  | .text s => pure (Path.ofDotted s, s)
  | .list vs => do
    let names ← vs.mapM Value.toText
    return (Path.ofNames names, ← shortText (.list vs))
  | .tuple vs => do
    let names ← vs.mapM Value.toText
    return (Path.ofNames names, ← shortText (.tuple vs))
  | _ => throw .wrongKind

/-- The ends of a selection, if they are given. -/
def bitsOf (msb lsb : Value) : Result (Option (Tree × Tree)) := do
  match msb, lsb with
  | .none, .none => return none
  | _, _ => return some (← msb.toTree, ← lsb.toTree)

def walk (n : Netlist) (t : Value) (visited : List Path) (step : Int) (_ msb lsb : Value)
    (ptr : Value) : Result Tree := do
  let w : Netlist.Walk := ⟨visited, step, ← bitsOf msb lsb, ← ptr.toTree⟩
  n.walkTree w (← t.toTree)

def walkName (n : Netlist) (name step : Value) : Result Tree := do
  let (p, shown) ← namePath name
  n.walkName p shown (← Readable.read step)

/-- Walks through that netlist. -/
def walkCommands : Commands Work := mergeCommands ++ [
  ("walk bind", does ["name", may "step" (.int 0)] walkName),
  ("walk tree", does ["tree", may "visited" (.set []), may "step" (.int 0),
    may "delay" (.bool false), may "msb" .none, may "lsb" .none, may "ptr" .none] walk)]

/-! ## Reordering -/

/-- Moving branches outwards. -/
def reorderCommands : Commands Work := [
  ("reorder", does ["tree"] Tree.reorder),
  ("insert branch", does ["base", "truenode", "falsenode"] Tree.insertBranch),
  ("insert unary op", does ["base", "op"] Tree.insertUnary),
  ("insert op", does ["left", "right", "op"] Tree.insertBinary),
  ("insert op list", does ["nextnodes", "op"] Tree.insertOp),
  ("insert concat", does ["nextnodes"] Tree.insertConcat),
  ("insert partselect", does ["var", "msb", "lsb"] Tree.insertPart),
  ("insert pointer", does ["var", "ptr"] Tree.insertItem)]

end RtlFlow.Workbench
