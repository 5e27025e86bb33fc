import RtlFlow.Flow.Reorder
import RtlFlow.Flow.Simplify

/-!
# Netlists
-/

namespace RtlFlow

/-- All that is known of a design: its terms and bindings as they were found, the same with
constants resolved, and the values of the constants. -/
structure Netlist where
  top : String := "TOP"
  terms : Terms := {}
  binds : Bindings := {}
  resolvedTerms : Terms := {}
  resolvedBinds : Bindings := {}
  consts : Table Path Tree := {}
deriving Inhabited

def distinctPaths (ps : List Path) : List Path :=
  ps.foldl (fun acc p => if acc.contains p then acc else acc ++ [p]) []

namespace Netlist

variable (n : Netlist)

def optimizer : Optimizer := { terms := n.terms, consts := n.consts }

def bindings (name : Path) : List Binding := (n.binds.get? name).getD []

def resolvedBindings (name : Path) : List Binding := (n.resolvedBinds.get? name).getD []

def termNamed? (s : String) : Option Term :=
  (n.terms.entries.find? fun e => e.1.dotted == s).map Prod.snd

def kinds (name : Path) : Result (List String) :=
  match n.terms.get? name with
  | some t => pure t.kinds
  | none => throw (.definition ("No such Term: " ++ name.dotted))

def termAt (name : Path) : Result Term := orThrow .noMember (n.terms.get? name)

def isCombination (name : Path) : Bool := (n.bindings name).any Binding.isCombination

def statementKinds (clocked : Bool) : List (String × String) :=
  let timed := if clocked then "clockedge" else "combination"
  [("Wire", "assign"), ("WireArray", "assign"), ("Reg", timed), ("RegArray", timed),
   ("Integer", timed), ("Parameter", "parameter"), ("Localparam", "localparam"),
   ("Output", "assign"), ("Input", "assign"), ("Function", "assign"), ("Rename", "assign"),
   ("Genvar", "genvar")]

/-- The kind of statement that a binding is written as. -/
def assignType (name : Path) (b : Binding) : Result String := do
  let kinds ← n.kinds name
  match (statementKinds b.isClockEdge).find? fun e => kinds.contains e.1 with
  | some (_, word) => return word
  | none => throw (.definition
      ("Unexpected Assignment Type: " ++ name.dotted ++ " : " ++ wordSet kinds))

/-! ## Sources -/

def strange (t : Tree) : Fault :=
  match t.name with
  | .ok s => .definition ("Undefined Node Type: <class 'pyverilog.dataflow.dataflow." ++
      t.className ++ "'> : " ++ s)
  | .error f => f

mutual

/-- The signals in a tree, in order and with repetitions. Delays are looked into if `delays` is
set. -/
def signalsIn (delays : Bool) : Tree → Result (List Path)
  | .hole | .const .. | .unknown _ | .value .. | .unbound => pure []
  | .term p => pure [p]
  | .branch cond yes no => do
    let cond ← signalsIn delays cond
    let yes ← signalsIn delays yes
    return cond ++ yes ++ (← signalsIn delays no)
  | .op _ args => signalsInAll delays args
  | .part var msb lsb => do
    let var ← signalsIn delays var
    let msb ← signalsIn delays msb
    return var ++ msb ++ (← signalsIn delays lsb)
  | .item var ptr => do
    let var ← signalsIn delays var
    return var ++ (← signalsIn delays ptr)
  | .concat items => signalsInAll delays items
  | .delay next => if delays then signalsIn delays next else throw (strange (.delay next))
  | .floating w => throw (strange (.floating w))
  | .call name args => throw (strange (.call name args))

@[inherit_doc signalsIn]
def signalsInAll (delays : Bool) : List Tree → Result (List Path)
  | [] => pure []
  | t :: ts => do
    let here ← signalsIn delays t
    return here ++ (← signalsInAll delays ts)

end

/-- The signals of a tree. -/
def sources (t : Tree) : Result (List Path) := do
  return distinctPaths (← signalsIn true t)

def treeSources (t : Tree) : Result (List Path) := do
  return distinctPaths (← signalsIn false t)

def termSources (name : Path) : Result (List Path) :=
  match n.terms.get? name with
  | some t => do
    return distinctPaths (← [t.msb, t.lsb, t.lenMsb, t.lenLsb].mapM (signalsIn false)).flatten
  | none => pure []

def bindingSources (name : Path) : Result (List Path) := do
  let trees := (n.bindings name).flatMap fun b => [b.msb, b.lsb, b.ptr, b.tree]
  return distinctPaths (← trees.mapM (signalsIn false)).flatten

def bindSources (name : Path) : Result (List Path) := do
  let ranges ← n.termSources name
  return distinctPaths (ranges ++ (← n.bindingSources name))

/-! ## Resolving constants -/

def byLength {α : Type} (es : List (Path × α)) : List (Path × α) :=
  es.mergeSort fun a b => a.1.length ≤ b.1.length

def foldParameters (terms : Terms) (binds : Bindings) (consts : Table Path Tree) :
    Result (Table Path Tree) :=
  (byLength binds.entries).foldlM (fun consts (name, bs) => do
    let o : Optimizer := { terms := terms, consts := consts }
    let t ← o.term name
    if !SignalKind.isParameter t.kinds then return consts
    match bs with
    | [] => throw .badPosition
    | b :: _ =>
      let v ← o.fold b.tree
      return if v.isValue then consts.put name v else consts) consts

/-- The bindings of a name with its value, if it is a constant. Each has its own always block. -/
def resolveBindings (consts : Table Path Tree) (stamp : Nat) (name : Path) (bs : List Binding) :
    List Binding :=
  bs.mapIdx fun i b =>
    { b with
      tree := (consts.get? name).getD b.tree
      always := b.always.map fun s => { s with stamp := stamp + i } }

def resolveTerm (o : Optimizer) (t : Term) : Result Term := do
  let msb ← o.fold t.msb
  let lsb ← o.fold t.lsb
  let lenMsb ← o.fold t.lenMsb
  return { t with msb, lsb, lenMsb, lenLsb := ← o.fold t.lenLsb }

def maxStamp (binds : Bindings) : Nat :=
  (binds.values.flatten.filterMap fun b => b.always.map Sensitivity.stamp).foldl max 0

/-- The netlist of terms and bindings. The parameters are folded twice, so that one may depend on
a later one. -/
def resolve (top : String) (terms : Terms) (binds : Bindings) : Result Netlist := do
  let consts ← foldParameters terms binds {}
  let consts ← foldParameters terms binds consts
  let start := maxStamp binds + 1
  let size := (binds.values.map List.length).foldl max 0 + 1
  let resolved := binds.entries.mapIdx fun i (name, bs) =>
    (name, resolveBindings consts (start + size * i) name bs)
  let o : Optimizer := { terms := terms, consts := consts }
  let folded ← (byLength terms.entries).mapM fun (name, t) => do return (name, ← resolveTerm o t)
  let resolvedTerms := terms.entries.map fun (name, t) =>
    (name, ((⟨folded⟩ : Terms).get? name).getD t)
  return ⟨top, terms, binds, ⟨resolvedTerms⟩, ⟨resolved⟩, consts⟩

end Netlist

end RtlFlow
