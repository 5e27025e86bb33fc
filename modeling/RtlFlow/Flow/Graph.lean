import RtlFlow.Control.Machine
import RtlFlow.Flow.Walk

/-!
# Graphs

The drawing of a tree or of a state machine as a list of orders to a graph library: nodes and edges
with colors and labels.
-/

namespace RtlFlow.Graph

inductive Setting where
  | text (s : String)
  | flag (b : Bool)
deriving DecidableEq, Repr, Inhabited

/-- An order to the graph library. -/
structure Order where
  name : String
  texts : List String := []
  options : List (String × Setting) := []
deriving Repr, Inhabited

structure Drawing where
  orders : List Order := [⟨"AGraph", [], [("directed", .flag true)]⟩]
  counter : Nat := 0
  identical : Bool := false
  colored : Bool := false
deriving Repr, Inhabited

def labelled : Option String → List (String × Setting)
  | some s => [("label", .text s)]
  | none => []

/-- The edge from a parent to the next node. -/
structure Link where
  parent : String
  color : String := "black"
  label : Option String := none
deriving Repr, Inhabited

namespace Drawing

def shade (d : Drawing) (color : String) : Setting := .text (if d.colored then color else "black")

def add (d : Drawing) (o : Order) : Drawing := { d with orders := o :: d.orders }

def rename (d : Drawing) (name : String) : String × Drawing :=
  (name ++ "_graphrename_" ++ Text.ofInt d.counter, { d with counter := d.counter + 1 })

def node (d : Drawing) (name : String) (label : Option String) (color : String) : Drawing :=
  d.add ⟨"add_node", [name], ("color", d.shade color) :: labelled label⟩

def edge (d : Drawing) (l : Link) (name : String) : Drawing :=
  d.add ⟨"add_edge", [l.parent, name], ("color", d.shade l.color) :: labelled l.label⟩

def renamedNode (d : Drawing) (l : Link) (t : Tree) : Result (String × Drawing) := do
  let label ← t.label
  let (name, d) := d.rename label
  return (name, (d.node name (some label) l.color).edge l name)

def sharedNode (d : Drawing) (l : Link) (t : Tree) : Result Drawing := do
  let name ← t.label
  return (d.node name none l.color).edge l name

mutual

def visit (l : Link) (t : Tree) (d : Drawing) : Result Drawing := do
  match t with
  | .hole | .const .plain _ => return d
  | .op _ args => do
    let (name, d) ← d.renamedNode l t
    visitAll ⟨name, l.color, none⟩ args d
  | .concat items => do
    let (name, d) ← d.renamedNode l t
    visitAll ⟨name, l.color, none⟩ items d
  | .call _ args => visitAll l args d
  | .part var msb lsb => do
    let (name, d) ← d.renamedNode l t
    let d ← visit ⟨name, l.color, some "VAR"⟩ var d
    let d ← visit ⟨name, "orange", some "MSB"⟩ msb d
    visit ⟨name, "orange", some "LSB"⟩ lsb d
  | .item var ptr => do
    let (name, d) ← d.renamedNode l t
    let d ← visit ⟨name, l.color, some "VAR"⟩ var d
    visit ⟨name, "orange", some "PTR"⟩ ptr d
  | .branch cond yes no => do
    let (name, d) ← d.renamedNode l t
    let d ← visit ⟨name, "blue", some "COND"⟩ cond d
    let d ← visit ⟨name, "green", some "TRUE"⟩ yes d
    visit ⟨name, "red", some "FALSE"⟩ no d
  | .delay next => do
    let (name, d) ← d.renamedNode l t
    visit ⟨name, l.color, none⟩ next d
  | .term _ | .unbound =>
    if d.identical then do return (← d.renamedNode l t).2 else d.sharedNode l t
  | .const .. | .value .. | .unknown _ | .floating _ => do return (← d.renamedNode l t).2
termination_by structural t

def visitAll (l : Link) (ts : List Tree) (d : Drawing) : Result Drawing := do
  match ts with
  | [] => return d
  | t :: ts => do visitAll l ts (← visit l t d)
termination_by structural ts

end

def draw (d : Drawing) (file : String) : Drawing :=
  ((d.add ⟨"write", ["file.dot"], []⟩).add ⟨"layout", [], [("prog", .text "dot")]⟩).add
    ⟨"draw", [file], []⟩

end Drawing

structure Options where
  identical : Bool := false
  walk : Bool := true
  step : Int := 1
  reorder : Bool := false
deriving Repr, Inhabited

/-- The definition of a signal as it is drawn. Branches cannot be moved in a drawing. -/
def definition (n : Netlist) (name : Path) (shown : String) (o : Options) : Result Tree := do
  let t ← n.tree name
  if t.isHole then throw (.definition ("No such signals: " ++ shown))
  let t ← if o.walk then n.walkTree { step := o.step } t else pure t
  if o.walk && o.reorder then throw .noMember
  let t ← n.optimizer.optimize t
  if o.reorder then throw .noMember
  Tree.fill (.term name) t

def ofSignal (n : Netlist) (d : Drawing) (name : Path) (shown : String) (o : Options) :
    Result Drawing := do
  let t ← definition n name shown o
  let (root, d) := d.rename shown
  ({ d with identical := o.identical }.node root (some shown) "black").visit ⟨root, "black", none⟩ t

def transition (nolabel : Bool) (src : Scalar) (cond : Tree) (dst : Scalar) :
    Result (List Order) := do
  let label ← if nolabel then pure "" else cond.name
  return [⟨"add_node", [dst.toText], [("label", .text dst.toText)]⟩,
    ⟨"add_edge", [src.toText, dst.toText], [("label", .text label)]⟩]

def ofMachine (m : Machine) (nolabel : Bool) (file : String) : Result Drawing := do
  let own ← m.fsm.entries.mapM fun (src, dsts) => do
    let orders ← dsts.entries.mapM fun (cond, dst) => transition nolabel src cond dst
    return ⟨"add_node", [src.toText], [("label", .text src.toText)]⟩ :: orders.flatten
  let any ← m.fsm.keys.mapM fun src => do
    return (← m.any.entries.mapM fun (cond, dst) => transition nolabel src cond dst).flatten
  let d : Drawing := (own.flatten ++ any.flatten).foldl Drawing.add {}
  return d.draw file

end RtlFlow.Graph
