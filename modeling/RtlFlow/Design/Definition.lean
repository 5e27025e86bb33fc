import RtlFlow.Ast.Basic
import RtlFlow.Table

/-!
# Definitions

What a module, a function or a task declares: its signals and constants by name, its ports and its
parameters. A name that is declared as a constant takes no further declaration.
-/

namespace RtlFlow.Design

/-- The declarations of names, oldest first; a name can be declared several times. -/
abbrev Declarations := Table String (List Ast)

def Declarations.add (t : Declarations) (name : String) (d : Ast) : Declarations :=
  t.put name ((t.get? name).getD [] ++ [d])

structure Variables where
  signals : Declarations := {}
  consts : Declarations := {}
  genvars : Declarations := {}
deriving Inhabited

namespace Variables

def addSignal (v : Variables) (name : String) (d : Ast) : Variables :=
  if v.consts.contains name then v else { v with signals := v.signals.add name d }

def addConst (v : Variables) (name : String) (d : Ast) : Variables :=
  if v.consts.contains name then v else { v with consts := v.consts.add name d }

def addGenvar (v : Variables) (name : String) (d : Ast) : Variables :=
  if v.consts.contains name then v else { v with genvars := v.genvars.add name d }

end Variables

def textOf : Ast → Result String
  | .atom (.text s) => pure s
  | _ => throw .wrongKind

/-- The name of a node. A declaration with a delay in the place of its name is known by that. -/
def nameOf (t : Ast) : Result String := do
  match ← t.part "name" with
  | .node k p parts => return Label.nameless (← (Ast.node k p parts).listing ⟨false, false⟩)
  | name => textOf name

structure Definition where
  name : String
  body : Ast
  vars : Variables := {}
  /-- The ports: the names of those of a module, the declarations of those of a function or task. -/
  ports : List Ast := []
  params : List Ast := []
deriving Inhabited

namespace Definition

def portName (p : Ast) : Result Ast :=
  if p.is .ioport then do (← p.part "first").part "name" else p.part "name"

def addPort (d : Definition) (p : Ast) : Definition := { d with ports := d.ports ++ [p] }

def addParam (d : Definition) (name : Ast) : Definition := { d with params := d.params ++ [name] }

def addSignal (d : Definition) (name : String) (t : Ast) : Definition :=
  { d with vars := d.vars.addSignal name t }

def addConst (d : Definition) (name : String) (t : Ast) : Definition :=
  { d with vars := d.vars.addConst name t }

def rename (d : Definition) (name : String) : Result Definition :=
  let d := { d with name }
  match d.body with
  | .node k p parts =>
    match k.shape.parts.idxOf? "name" with
    | some i => pure { d with body := .node k p (parts.set i (.text name)) }
    | none => pure d
  | _ => throw .noMember

end Definition

structure Definitions where
  table : Table String Definition := {}
  current : Option String := none
deriving Inhabited

namespace Definitions

def define (ds : Definitions) (name : String) (body : Ast) : Result Definitions :=
  if ds.table.contains name then throw (.definition ("Already defined: " ++ name))
  else pure ⟨ds.table.put name { name := name, body := body }, some name⟩

def here (ds : Definitions) : Result (String × Definition) :=
  match ds.current with
  | none => throw .noEntry
  | some name =>
    match ds.table.get? name with
    | some d => pure (name, d)
    | none => throw .noEntry

def update (ds : Definitions) (f : Definition → Definition) : Result Definitions := do
  let (name, d) ← ds.here
  return { ds with table := ds.table.put name (f d) }

end Definitions

end RtlFlow.Design
