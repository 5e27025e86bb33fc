import RtlFlow.Design.Elaboration
import RtlFlow.Flow.Code
import RtlFlow.Flow.Graph
import RtlFlow.Workbench.ControlCommands

/-!
# The desk of a design

An elaborated design lies on a desk together with the workbench for its netlist. Questions about the
design are asked at the desk, one after the other.
-/

namespace RtlFlow.Workbench

/-- An elaborated design with the workbench for its netlist. -/
structure Desk where
  elaboration : Design.Elaboration
  bench : Bench
  resolved : Bool := false
  drivers : Drivers := {}
  drawing : Graph.Drawing := {}
deriving Inhabited

def Desk.ofElaboration (e : Design.Elaboration) : Desk :=
  { elaboration := e
    bench := {
      netlist := {
        top := e.request.top
        terms := e.last.wiring.terms
        binds := e.last.wiring.allBindings }
      stamp := e.last.stamp
      lines := e.last.lines } }

abbrev Inquiry := EStateM Fault Desk

namespace Inquiry

def work {α : Type} : Work α → Inquiry α := Work.within Desk.bench fun d b => { d with bench := b }

instance : MonadLift Work Inquiry := ⟨work⟩

/-- A step of the second pass; what it wires is seen in the netlist. -/
def pass {α : Type} (p : Design.Pass α) : Inquiry α := do
  let d ← get
  match d.elaboration.connected with
  | none => throw .noEntry
  | some s => do
    let (r, s) := run p { s with lines := d.bench.lines }
    set { d with
      elaboration.connected := some s
      bench.lines := s.lines
      bench.netlist.terms := s.wiring.terms
      bench.netlist.binds := s.wiring.allBindings }
    lift r

def firstPass {α : Type} (p : Design.Pass α) : Inquiry α := do
  let d ← get
  let (r, s) := run p { d.elaboration.declaredNow with lines := d.bench.lines }
  let share (c : Design.Stage) : Design.Stage :=
    { c with frames := s.frames, modules := s.modules }
  set { d with
    elaboration.declared := s
    elaboration.connected := d.elaboration.connected.map share
    bench.lines := s.lines }
  lift r

/-- The netlist. The first question for it resolves it. -/
def netlist : Inquiry Netlist := do
  let d ← get
  if d.resolved then return d.bench.netlist
  let n := d.bench.netlist
  let n ← Netlist.resolve n.top n.terms n.binds
  set { d with bench.netlist := n, resolved := true }
  return n

def frames : Inquiry Design.Frames := do return (← get).elaboration.frames

def named (name : String) : Inquiry Path := do
  let terms := (← get).bench.netlist.terms
  return (terms.keys.find? fun p => p.dotted == name).getD (Path.ofDotted name)

def attempt (i : Inquiry Value) : Inquiry Value := do
  try i catch f => return .fault f

instance {φ β : Type} [Takes Inquiry φ β] : Takes Inquiry (Netlist → φ) β :=
  ⟨fun f vs => do Takes.take (f (← netlist)) vs⟩

end Inquiry

end RtlFlow.Workbench
