import RtlFlow.Workbench.Forms.Framed

/-!
# Forms of terms and bindings
-/

namespace RtlFlow.Workbench

open Design

/-! ## Terms -/

/-- One term. -/
def termForm : Form Term where
  parameters := ["term"]
  make vs := match vs with
    | [.term t] => pure t
    | _ => throw .wrongKind
  commands := textCommands (fun _ t => pure t.name.dotted) ++ [
    ("tostr", asks [] Term.toText),
    ("tocode", asks [] Term.toCode),
    ("scope", asks ["termname"] fun _ => scopeOf),
    ("is topmodule", asks ["scope"] fun _ (vs : List Value) => vs.length == 1)] ++
    comparisons .term
  shown t _ := do return .text (← t.toText)

/-! ## Always blocks -/

/-- What is read off the clock, the reset and the edges that an always block waits for. -/
def sensitivityFacts : List (String × (Sensitivity → Ast)) := [
  ("clock name", fun s => s.clock.name),
  ("clock edge", fun s => s.clock.edge),
  ("clock bit", fun s => s.clock.bit),
  ("reset name", fun s => s.reset.name),
  ("reset edge", fun s => s.reset.edge),
  ("reset bit", fun s => s.reset.bit)]

/-- What an always block waits for. -/
def sensitivityForm : Form Sensitivity where
  parameters := sensitivityParameters
  make vs := do
    Value.toSensitivity (← Work.newStamp) vs
  commands :=
    (sensitivityFacts.map fun (word, f) => (word, asks [] f)) ++ [
    ("is clock edge", asks [] Sensitivity.isClockEdge),
    ("is combination", asks [] Sensitivity.isCombination),
    ("is reset edge", asks [] Sensitivity.isResetEdge)]
  shown s _ := pure (.always s)

/-! ## Bindings -/

/-- What is read off the always block of a binding; without one it is an empty text. -/
def ofAlways (f : Sensitivity → Ast) (b : Binding) : Value :=
  match b.always with
  | some s => .ofAst (f s)
  | none => .text ""

def clockedCode (b : Binding) : Result String :=
  match b.always with
  | some s => b.clockedCode s
  | none => throw .noMember

def watched (b : Binding) : Result String :=
  match b.always with
  | none => pure ""
  | some _ => throw .noMember

def combinationalCode (b : Binding) : Result String := do
  b.blockCode .blocking "always @*" (← b.destCode)

/-- One binding. -/
def bindingForm : Form Binding where
  parameters := ["bind"]
  make vs := match vs with
    | [.binding b] => pure b
    | _ => throw .wrongKind
  commands :=
    (sensitivityFacts.map fun (word, f) => (word, asks [] (ofAlways f))) ++ [
    ("tostr", asks [] Binding.toText),
    ("tocode", asks [] Binding.toCode),
    ("getdest", asks [] Binding.destCode),
    ("value", asks [] Binding.tree),
    ("is combination", asks [] Binding.isCombination),
    ("is clock edge", asks [] Binding.isClockEdge),
    ("senslist", asks [] watched),
    ("parameter", asks [] fun b => b.plainCode "parameter"),
    ("localparam", asks [] fun b => b.plainCode "localparam"),
    ("assign", asks [] fun b => b.plainCode "assign"),
    ("always clockedge", asks [] clockedCode),
    ("always combination", asks [] combinationalCode)] ++ comparisons .binding
  shown b _ := do return .text (← b.toText)

/-! ## The terms and bindings of a design -/

/-- The wiring of a design with the values that names hold for a time. -/
structure Wired where
  wiring : Wiring := {}
  values : Table Path Value := {}

/-- The name of a binding. -/
structure Bound where
  name : Path

instance : Readable Bound where
  read
    | .none => throw (.definition "Bind name is empty")
    | v => do return ⟨← v.toPath⟩

instance : Readable Term where
  read
    | .term t => pure t
    | _ => throw .noMember

section

variable {φ β : Type}

def changesWiring [Takes (At Wired) φ Wiring] (ps : List Parameter) (f : Wiring → φ) :
    Command (At Wired) :=
  changesIn Wired.wiring (fun s w => { s with wiring := w }) ps f

def asksWiring [Takes (At Wired) φ β] [Showable β] (ps : List Parameter) (f : Wiring → φ) :
    Command (At Wired) :=
  asks ps fun s => f s.wiring

end

def setTermAt (w : Wiring) (p : Path) (v : Value) : Result Wiring := do
  if w.terms.contains p then return w.addTerm p (← Readable.read v) else throw .noEntry

def setBinding (w : Wiring) (p : Bound) (v : Value) : Result Wiring := do
  if !w.binds.contains p.name then throw .noEntry
  w.addBinding p.name (← v.toBinding)

/-- The terms and bindings of a design. -/
def wiringForm : Form Wired where
  make _ := pure {}
  commands := [
    ("add term", changesWiring ["name", "term"] Wiring.addTerm),
    ("set term", changesWiring ["name", "term"] setTermAt),
    ("has term", asksWiring ["name"] fun w => w.terms.contains),
    ("term", asksWiring ["name"] fun w => w.terms.get?),
    ("terms", asksWiring [] Wiring.terms),
    ("add bind", changesWiring ["name", "bind"] fun w (p : Bound) => w.addBinding p.name),
    ("set bind", changesWiring ["name", "bind"] setBinding),
    ("bindlist", asksWiring ["name"] Wiring.bindings),
    ("binddict", asksWiring [] Wiring.allBindings),
    ("add function", changesWiring ["name", "definition"] fun w p t =>
      { w with functions := w.functions.put p t }),
    ("has function", asksWiring ["name"] fun w => w.functions.contains),
    ("function", asksWiring ["name"] fun w => w.functions.get?),
    ("add function ports", changesWiring ["name", "ports"] fun w p ts =>
      { w with functionPorts := w.functionPorts.put p ts }),
    ("function ports", asksWiring ["name"] fun w p => (w.functionPorts.get? p).getD []),
    ("add task", changesWiring ["name", "definition"] fun w p t =>
      { w with tasks := w.tasks.put p t }),
    ("has task", asksWiring ["name"] fun w => w.tasks.contains),
    ("task", asksWiring ["name"] fun w => w.tasks.get?),
    ("add task ports", changesWiring ["name", "ports"] fun w p ts =>
      { w with taskPorts := w.taskPorts.put p ts }),
    ("task ports", asksWiring ["name"] fun w p => (w.taskPorts.get? p).getD []),
    ("set temporal value", changesIn Wired.values (fun s t => { s with values := t })
      ["name", "value"] Table.put),
    ("temporal value", asks ["name"] fun s => entryOf s.values)]
  shown s _ := do
    let terms ← (Subset.byName s.wiring.terms).values.mapM Term.toText
    let binds := (Subset.byName s.wiring.allBindings).entries.map fun (p, bs) =>
      Value.list [.text p.dotted, .list (bs.map fun b => textOutcome b.toText)]
    return .list [.list (terms.map .text), .list binds]

end RtlFlow.Workbench
