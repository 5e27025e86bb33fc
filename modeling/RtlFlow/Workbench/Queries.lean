import RtlFlow.Workbench.Desk

/-!
# Questions about a design

Each question has a word and arguments, and its answer is a value. A part of an answer that cannot
be given is a fault in its place.
-/

namespace RtlFlow.Workbench

open Inquiry (netlist named attempt)

/-! ## Lists -/

def dottedValue (p : Path) : Result Value := do return .text (← p.written)

def sortedEntries {α : Type} (t : Table Path α) : Result (List (Path × α)) := do
  for p in t.keys do
    let _ ← p.written
  return (Subset.byName t).entries

/-- What is asked about each entry of a table, by name. -/
def listing {α : Type} (t : Table Path α) (item : Path → α → Inquiry (List Value)) :
    Inquiry Value := do
  let found ← (← sortedEntries t).mapM fun (p, a) => do
    return .list (.text p.dotted :: (← item p a))
  return .list found

/-- A value, or the fault in its place. -/
def outcome {α : Type} (form : α → Value) : Result α → Value
  | .ok a => form a
  | .error f => .fault f

def textOutcome : Result String → Value := outcome .text

def declarations (t : Table Path (List Ast)) : Inquiry Value := do
  let found ← t.entries.mapM fun (p, ts) => do
    return .list [← dottedValue p, .list (ts.map fun d => .text d.kindWord)]
  return .list found

/-- The clock, the reset and the further signals of the always block of a binding. Those of a block
cannot be counted. -/
def clockFacts (b : Binding) : Result Value :=
  match b.always with
  | none => pure (.list ([.bool true, .bool false] ++ List.replicate 6 (.text "") ++ [.int 0]))
  | some _ => throw .noMember

/-! ## What elaboration has found -/

/-- Frames, terms and bindings as they were found. -/
def designQueries : Commands Inquiry := [
  ("instances", nullary do
    let found ← (← Inquiry.frames).allInstances
    return Value.list (← found.mapM fun (p, m) => do return .list [← dottedValue p, .ofAst m])),
  ("signals", nullary do declarations (← Inquiry.frames).allSignals),
  ("consts", nullary do declarations (← Inquiry.frames).allConsts),
  ("functions", nullary do
    let fs ← Inquiry.frames
    let found := fs.allFunctions.entries ++ fs.allTasks.entries
    return Value.list (← found.mapM fun (p, d) => do
      return .list [← dottedValue p, .text d.name])),
  ("frames", nullary do
    return Value.list ((← sortedEntries (← Inquiry.frames).table).map fun e => .frame e.2)),
  ("terms", nullary do
    let terms ← sortedEntries (← get).bench.netlist.terms
    return Value.list (← terms.mapM fun (_, t) => do
      return .list [.text (← t.toText), textOutcome t.toCode])),
  ("binds", nullary do
    listing (← get).bench.netlist.binds fun _ bs => do
      return [.list (bs.map fun b => .list [textOutcome b.toText, textOutcome b.toCode,
        .ofOption (b.parameter.map .text)])]),
  ("clocks", nullary do
    listing (← get).bench.netlist.binds fun _ bs => do
      return [.list (← bs.mapM (clockFacts ·))])]

/-! ## The netlist -/

/-- The walked definition of a signal by its dotted name: its long form, its code, and the code of
its ordered and optimized form. -/
def walkedForms (n : Netlist) (shown : String) (step : Int) : Result Value := do
  let p := Path.ofDotted shown
  let t ← n.walkName p shown step
  if t.isHole then throw .noMember
  let reduced : Result String := do
    let u ← Tree.fill (.term p) (← (← n.optimizer.optimize t).reorder)
    if u.isHole then throw .noMember
    u.toCode (some "dest")
  return .list [textOutcome t.toText, textOutcome (t.toCode (some "dest")), textOutcome reduced]

def sortedPaths (ps : List Path) : Result Value := do
  return .list ((sortWords (← ps.mapM Path.written)).map .text)

def treeSources (bs : List Binding) : Result Value := do
  sortedPaths (distinctPaths (← bs.mapM fun b => Netlist.sources b.tree).flatten)

instance : Readable (String × String) where
  read v := do
    match ← v.items with
    | [a, b] => return (← a.toText, ← b.toText)
    | _ => throw .wrongKind

def driversOf (clock reset : Value) : Result Drivers := do
  let d : Drivers := {}
  let d ← match clock with
    | .none => pure d
    | v => do
      let (name, edge) ← Readable.read v
      pure { d with clock := name, clockEdge := edge }
  match reset with
  | .none => return d
  | v => do
    let (name, edge) ← Readable.read v
    return { d with reset := name, resetEdge := edge }

/-- The part of a netlist behind some signals, or all of it. -/
def partOf (n : Netlist) (d : Drivers) (targets : Value) : Result Subset := do
  match ← targets.items with
  | [] => n.entire
  | vs => do n.subset d (← vs.mapM fun v => do return Path.ofDotted (← v.toText))

def option (options : Value) (name : String) : Option Value :=
  match options with
  | .map ks vs => ((ks.zip vs).find? fun e => match e.1 with
    | .text s => s == name
    | _ => false).map Prod.snd
  | _ => none

def readOption {α : Type} [Readable α] (options : Value) (name : String) (d : α) :
    Result α :=
  match option options name with
  | some v => Readable.read v
  | none => pure d

def checkOptions (options : Value) (names : List String) : Result Unit := do
  match options with
  | .map ks _ => do
    for k in ks do
      if !names.contains (← k.toText) then throw .wrongKind
  | _ => pure ()

def styleOf (options : Value) : Result CodeStyle := do
  checkOptions options ["modulename", "enable_name", "num_indent", "flat"]
  let style : CodeStyle := {}
  let indent : Int ← readOption options "num_indent" style.indent
  return {
    moduleName := ← readOption options "modulename" style.moduleName
    enable := ← readOption options "enable_name" style.enable
    indent := indent.toNat
    flat := ← readOption options "flat" style.flat }

def resolved (n : Netlist) : Inquiry Value := do
  let terms ← (← sortedEntries n.resolvedTerms).mapM fun (_, t) => t.toText
  let binds ← listing n.resolvedBinds fun _ bs => do
    return [.list (bs.map fun b => textOutcome b.toText)]
  let consts ← listing n.consts fun _ t => do return [.ofTree t]
  return .list [.list (terms.map .text), binds, consts]

def optimized (n : Netlist) : Inquiry Value :=
  listing n.resolvedBinds fun _ bs => do
    return [.list (bs.map fun b => outcome .ofTree (n.optimizer.optimize b.tree))]

def treesOf (n : Netlist) : Value → Inquiry Value
  | .text s => do
    let p ← named s
    return .ofTree (← n.tree p)
  | _ => listing n.terms fun p _ => do return [outcome .ofTree (n.tree p)]

def sourcesOf (n : Netlist) : Inquiry Value :=
  listing n.terms fun p _ => do
    let bs := n.bindings p
    return [outcome id (n.bindSources p >>= sortedPaths), outcome id (treeSources bs),
      .bool (n.isCombination p),
      outcome (fun ws => .list (ws.map .text)) (bs.mapM (n.assignType p))]

def walked (n : Netlist) (name : Value) (step : Int) : Inquiry Value :=
  match name with
  | .text s => walkedForms n s step
  | _ => listing n.terms fun p _ => do return [outcome id (walkedForms n p.dotted step)]

def subsetFacts (n : Netlist) (targets clock reset : Value) : Inquiry Value := do
  let s ← partOf n (← driversOf clock reset) targets
  let names {α : Type} (t : Table Path α) : Result Value := do
    return .list ((← sortedEntries t).map fun e => .text e.1.dotted)
  let counts (t : Bindings) : Inquiry Value := listing t fun _ bs => return [.int bs.length]
  return .list [← names s.terms, ← names s.parameters, ← counts s.assigns,
    ← counts s.clocked, ← counts s.combinational]

def codeFor (n : Netlist) (targets clock reset options : Value) : Result String := do
  let style ← styleOf options
  let d ← driversOf clock reset
  let s ← partOf n d targets
  let _ ← s.code n d style
  for p in s.terms.keys do
    let _ ← p.written
  (← s.inOrder).code n d style

/-- The resolved netlist. -/
def flowQueries : Commands Inquiry := [
  ("resolved", does [] resolved),
  ("optimized", does [] optimized),
  ("tree", does [may "name" .none] treesOf),
  ("sources", does [] sourcesOf),
  ("walk", does [may "name" .none, may "step" (.int 0)] walked),
  ("subset", does ["targets", may "clock" .none, may "reset" .none] subsetFacts),
  ("code", does ["targets", may "clock" .none, may "reset" .none, may "options" .none] codeFor)]

/-! ## State machines and conditions -/

def transitionValue (e : Tree × Scalar) : Value :=
  .list [match e.1 with
    | .hole => .none
    | t => textOutcome (t.toCode (some "dest")), .scalar e.2]

def machineValue (m : Machine) : Value := .list [
  .list (m.any.entries.map transitionValue),
  .list (m.fsm.entries.map fun (src, dsts) =>
    .list [.scalar src, .list (dsts.entries.map transitionValue)])]

def rangeValue : Option (Scalar × Scalar) → Value
  | some (lo, hi) => .list [.scalar lo, .scalar hi]
  | none => .list [.none, .none]

def pathLe : List Scalar → List Scalar → Bool
  | [], _ => true
  | _ :: _, [] => false
  | a :: as, b :: bs =>
    if a == b then pathLe as bs
    else match a.lt b with
      | .ok less => less
      | .error _ => true

def machinesOf (words : List String) :
    Inquiry (Table Path Machine × Table Path (List (List Scalar))) := do
  let ms ← (← netlist).machines words
  return (ms, ← Netlist.machineLoops ms)

/-- The facts of a state machine; its transitions are written. -/
def machineFacts (loops : Table Path (List (List Scalar))) (p : Path) (m : Machine) :
    Inquiry (List Value) := do
  let cycles := ((loops.get? p).getD []).mergeSort pathLe
  let range ← m.stateRange
  m.view
  return [machineValue m, .list (cycles.map fun c => .list (c.map .scalar)), rangeValue range,
    .scalar m.delay]

def testOf (word : String) : Result Cases.Test :=
  match word with
  | "active_constant" => pure .constant
  | "active_modify" => pure .modify
  | "active_unmodify" => pure .unmodify
  | _ => throw .noMember

def conditionForms (s : Active.Store) : Active.Item → Value
  | .cond i =>
    let c := s.conds.getD i {}
    .list [.text (s.condText c), .text (s.condCode c), outcome .ofTree (s.condTree c)]
  | _ => .none

def machineListing (v : Value) : Inquiry Value := do
  let words ← match v with
    | .none => pure Netlist.stateWords
    | v => Readable.read v
  let (ms, loops) ← machinesOf words
  listing ms (machineFacts loops)

def statesWhere (name test : Value) : Inquiry Value := do
  let (ms, _) ← machinesOf Netlist.stateWords
  let n ← netlist
  let p ← named (← name.toText)
  let test ← testOf (← test.toText)
  listing (← n.activeConditions ms p test) fun _ states => do
    return [.list (states.map fun (v, cond) => .list [.scalar v, .ofTree cond])]

def rangesOf (n : Netlist) (name : String) (mark bound : Value) : Inquiry Value := do
  let p ← named name
  let conditions (m : Active.M (List Active.Item)) : Inquiry Value :=
    attempt do return Showable.form (← m)
  let active ← attempt do
    let mark ← mark.toText
    conditions (Active.activeConditions n p mark (← bound.toScalar))
  let changed ← conditions (Active.changedConditions n p)
  let unchanged ← conditions (Active.unchangedConditions n p)
  let assigned ← attempt do return Showable.form (← Active.changedAssignments n p)
  return .list [active, changed, unchanged, assigned]

def rangeCode (n : Netlist) (name : String) : Inquiry Value := do
  let found ← Active.changedConditions n (← named name)
  return .list (found.map (conditionForms (← get).bench.store))

/-- State machines and conditions. -/
def controlQueries : Commands Inquiry := [
  ("fsm", does [may "vars" .none] machineListing),
  ("active", does ["name", may "cond" (.text "active_constant")] statesWhere),
  ("range", does ["name", may "op" (.text ">"), may "value" (.int 0)] rangesOf),
  ("rangecode", does ["name"] rangeCode)]

/-! ## Drawings -/

def orderValue (o : Graph.Order) : Value :=
  let options := o.options.mergeSort fun a b => compare a.1.toList b.1.toList != .gt
  .list [.text o.name, .list (o.texts.map .text), .list (options.map fun (name, s) =>
    .list [.text name, match s with
      | .text t => .text t
      | .flag b => .bool b])]

def drawingValue (d : Graph.Drawing) : Value := .list (d.orders.reverse.map orderValue)

def drawingOptions (options : Value) : Result Graph.Options := do
  checkOptions options ["identical", "walk", "step", "reorder", "delay"]
  let o : Graph.Options := {}
  return {
    step := ← readOption options "step" o.step
    identical := ← readOption options "identical" o.identical
    walk := ← readOption options "walk" o.walk
    reorder := ← readOption options "reorder" o.reorder }

def drawingFile : String := "out.png"

def drawnSignal (n : Netlist) (shown : String) (options style : Value) : Result Value := do
  checkOptions style ["withcolor"]
  let start : Graph.Drawing := { colored := ← readOption style "withcolor" false }
  let d ← Graph.ofSignal n start (Path.ofDotted shown) shown (← drawingOptions options)
  return drawingValue (d.draw drawingFile)

def drawnTree (_ : Netlist) (t : Tree) : Result Value := do
  let d : Graph.Drawing := {}
  return drawingValue (← d.visit ⟨"root", "black", none⟩ t)

def drawnMachine (name nolabel : Value) : Inquiry Value := do
  let (ms, _) ← machinesOf Netlist.stateWords
  match ms.get? (← named (← name.toText)) with
  | none => throw .noEntry
  | some m => return drawingValue (← Graph.ofMachine m (← Readable.read nolabel) "fsm.png")

def drawingQueries : Commands Inquiry := [
  ("graph", does ["name", may "options" .none, may "init" .none] drawnSignal),
  ("graphtree", does ["tree"] drawnTree),
  ("fsmgraph", does ["name", may "nolabel" (.bool false)] drawnMachine)]

def queries : Commands Inquiry := designQueries ++ flowQueries ++ controlQueries ++ drawingQueries

end RtlFlow.Workbench
