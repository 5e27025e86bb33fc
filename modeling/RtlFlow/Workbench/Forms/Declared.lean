import RtlFlow.Workbench.Session

/-!
# Forms of declarations
-/

namespace RtlFlow.Workbench

open Design

/-! ## Declarations -/

instance : Readable Declarations where
  read
    | .map ks vs => do
      let names ← ks.mapM Value.toText
      return ⟨names.zip (← vs.mapM Readable.read)⟩
    | _ => throw .wrongKind

def entryOf {κ α : Type} [BEq κ] (t : Table κ α) (k : κ) : Result α := orThrow .noEntry (t.get? k)

/-- Declared names. -/
def declarationForm : Form Declarations where
  make _ := pure {}
  commands := [
    ("add", changes ["name", "var"] Declarations.add),
    ("get", asks ["name"] entryOf),
    ("has", asks ["name"] Table.contains),
    ("update", changes ["table"] Table.putAll),
    ("dict", asks [] id)]
  shown t _ := pure (Showable.form t)

/-- Signals, constants and loop variables. -/
def variableForm : Form Variables where
  make _ := pure {}
  commands := [
    ("add signal", changes ["name", "var"] Variables.addSignal),
    ("add const", changes ["name", "var"] Variables.addConst),
    ("add genvar", changes ["name", "var"] Variables.addGenvar),
    ("signal", asks ["name"] fun s => entryOf s.signals),
    ("const", asks ["name"] fun s => entryOf s.consts),
    ("genvar", asks ["name"] fun s => entryOf s.genvars),
    ("has signal", asks ["name"] fun s => s.signals.contains),
    ("has const", asks ["name"] fun s => s.consts.contains),
    ("update signal", changes ["var"] fun s ds => { s with signals := s.signals.putAll ds }),
    ("update const", changes ["var"] fun s ds => { s with consts := s.consts.putAll ds }),
    ("signals", asks [] Variables.signals),
    ("consts", asks [] Variables.consts)]
  shown s _ := pure (.list ([s.signals, s.consts, s.genvars].map Showable.form))

/-! ## Definitions -/

/-- A table of definitions in which a name can also stand for something else. -/
structure Book (α : Type) where
  table : Table String α := {}
  current : Value := .none
  others : Table String Value := {}

namespace Book

variable {α : Type}

def names (b : Book α) : List String := b.table.keys

def entry (b : Book α) (name : String) : Result (α ⊕ Value) :=
  match b.others.get? name, b.table.get? name with
  | some v, _ => pure (.inr v)
  | none, some d => pure (.inl d)
  | none, none => throw .noEntry

def at? (b : Book α) (name : Value) : Result α := do
  match name with
  | .text s =>
    match ← b.entry s with
    | .inl d => pure d
    | .inr _ => throw .noMember
  | _ => throw .noEntry

def find (b : Book α) (name : Value) : Result α := do
  let shown ← plainText name
  if b.names.contains shown then b.at? name
  else throw (.definition ("No such module: " ++ shown))

/-- The definition of a name is changed. -/
def change (name : Value) (f : α → At (Book α) α) : At (Book α) Value := do
  let b ← At.thing
  let d ← f (← b.at? name)
  At.put { b with table := b.table.put (← name.toText) d }
  return .none

def define (b : Book α) (name : String) (d : α) : Result (Book α) :=
  if b.names.contains name then throw (.definition ("Already defined: " ++ name))
  else pure { b with table := b.table.put name d, current := .text name }

def overwrite [Inhabited α] (b : Book α) (name : String) (v : Value) : Book α :=
  { b with
    table := if b.names.contains name then b.table else b.table.put name default
    others := b.others.put name v }

/-- A definition copied under another name. It stands there before it is renamed, also where that
fails. -/
def copy [Inhabited α] (b : Book α) (rename : α → String → Result α) (name name' : String) :
    Result Unit × Book α :=
  match b.entry name with
  | .error f => (.error f, b)
  | .ok (.inr v) => (.error .noMember, b.overwrite name' v)
  | .ok (.inl d) =>
    let put (d : α) : Book α :=
      { b with table := b.table.put name' d, others := b.others.erase name' }
    match rename d name' with
    | .ok d => (.ok (), put d)
    | .error f => (.error f, put d)

def copyAs [Inhabited α] (rename : α → String → Result α) (b : Book α)
    (name name' : String) : At (Book α) Unit := do
  let (r, b) := b.copy rename name name'
  At.put b
  r

end Book

def addPorts (d : Definition) (ports : List Value) : Result Definition :=
  ports.foldlM (fun d p => do return d.addPort (← Definition.portName (← p.toAst))) d

/-- The commands that tables of functions, tasks and modules share. -/
def bookCommands {α : Type} [Inhabited α] (word : String) (make : String → Ast → α)
    (view : α → Definition) (put : α → Definition → α) : Commands (At (Book α)) :=
  let fact {β : Type} [Showable β] (f : Definition → β) : Command (At (Book α)) :=
    asks ["name"] fun b v => (f ∘ view) <$> b.find v
  let change {φ : Type} [Takes (At (Book α)) φ Definition] (ps : List Parameter)
      (f : Definition → φ) : Command (At (Book α)) :=
    ⟨ps, fun vs => do
      Book.change (← At.thing).current fun d => put d <$> Takes.take (f (view d)) vs⟩
  [("add definition", changes ["name", "definition"] fun b name t => b.define name (make name t)),
    ("set current", changes ["name"] fun b v => { b with current := v }),
    ("add ports", change ["ports"] addPorts),
    ("add port", change ["port"] Definition.addPort),
    ("add signal", change ["name", "var"] Definition.addSignal),
    ("add const", change ["name", "var"] Definition.addConst),
    ("add param name", change ["name"] Definition.addParam),
    ("signals", fact fun d => d.vars.signals),
    ("consts", fact fun d => d.vars.consts),
    ("definition", fact Definition.body),
    ("definitions", asks [] fun b => Value.map (b.names.map .text)
      (b.names.map fun name => (b.others.get? name).getD (.object word))),
    ("io ports", fact Definition.ports),
    ("param names", fact Definition.params),
    ("names", asks [] fun b => Value.list (b.names.map .text)),
    ("overwrite definition", changes ["name", "definition"] Book.overwrite),
    ("copy definition", asks ["f", "t"] (Book.copyAs fun d name => put d <$> (view d).rename name))]

def bookShown {α : Type} (b : Book α) (_ : Active.Store) : Result Value :=
  pure (.list [b.current, .list (b.names.map .text)])

/-- Functions and tasks. -/
def definitionForm : Form (Book Definition) where
  make _ := pure {}
  commands := bookCommands "DefinitionInfo" (fun name t => { name, body := t }) id
    (fun _ d => d)
  shown := bookShown

/-! ## Modules -/

def moduleName : List Parameter := [may "name" (.text "")]

/-- The name that a command means; an empty one is that of the current module. -/
def meant (b : Book Module) : Value → Value
  | .text "" => b.current
  | v => v

section

variable {φ β : Type}

/-- What is read off a named module. -/
def ofModule [Takes (At (Book Module)) φ β] [Showable β] (ps : List Parameter) (f : Module → φ) :
    Command (At (Book Module)) :=
  ⟨ps ++ moduleName, fun vs => do
    let b ← At.thing
    let m ← b.at? (meant b (vs.getLastD .none))
    (does ps (f m)).run vs.dropLast⟩

/-- A change of a named module. -/
def changeModule [Takes (At (Book Module)) φ Module] (ps : List Parameter) (f : Module → φ) :
    Command (At (Book Module)) :=
  ⟨ps ++ moduleName, fun vs => do
    Book.change (meant (← At.thing) (vs.getLastD .none)) fun m => Takes.take (f m) vs.dropLast⟩

end

instance : Showable AlwaysBlock := ⟨fun _ => .object "AlwaysData"⟩

/-- An always block out of a node; what is given as its data is not looked at. -/
def addBlockOf (known : Bool) (m : Module) (node : Ast) (_ : Value) : Result Module := do
  if known && !m.blocks.contains node then
    throw (.definition "Already defined Always:")
  return m.addBlock node { node, combinational := true, number := m.made }

def findInteresting (b : Book Module) : At (Book Module) Unit := do
  let (ms, f) := ({ table := b.table } : Modules).findInteresting
  At.put { b with table := ms.table }
  match f with
  | some f => throw f
  | none => return

def blocksOf (b : Book Module) (name : Value) : Result (Table Ast AlwaysBlock) := do
  let known := match name with
    | .text s => b.names.contains s
    | _ => false
  return (← b.at? (if known then name else b.current)).blocks

def moduleObject (b : Book Module) (name : Value) : Result Value := do
  match meant b name with
  | .text s =>
    match ← b.entry s with
    | .inl _ => return .object "ModuleInfo"
    | .inr v => return v
  | _ => throw .noEntry

/-- Modules with their always blocks and instances. -/
def moduleForm : Form (Book Module) where
  make _ := pure {}
  commands :=
    bookCommands "ModuleInfo" (fun name t => { name, body := t }) Module.toDefinition
      (fun m d => { m with toDefinition := d }) ++ [
    ("current", asks [] Book.current),
    ("addlimiters", changeModule ["node", "lsb", "msb"] fun m t lsb msb =>
      { m with limits := m.limits.put t (lsb, msb) }),
    ("getlimiters", ofModule ["node"] fun m => entryOf m.limits),
    ("add instance", changeModule ["node"] fun m t => { m with instances := m.instances ++ [t] }),
    ("add instance list", changeModule ["node"] fun m t =>
      { m with instanceLists := m.instanceLists ++ [t] }),
    ("instance", ofModule [] fun m => Value.list (m.instances.map .ofAst)),
    ("instance list", ofModule [] fun m => Value.list (m.instanceLists.map .ofAst)),
    ("interesting", ofModule [] fun m => Value.list (m.interesting.map .text)),
    ("find interesting", asks [] findInteresting),
    ("add always", changeModule ["node", "alwaysdata"] (addBlockOf false)),
    ("add always data", changeModule ["node", "alwaysdata"] (addBlockOf true)),
    ("always", asks moduleName blocksOf),
    ("always data", ofModule ["node"] fun m => entryOf m.blocks),
    ("current always data", ofModule [] fun m => Prod.snd <$> m.lastBlock),
    ("add data", changeModule ["var"] Module.addData),
    ("add control", changeModule ["var"] Module.addControl),
    ("add state", changeModule ["var"] Module.addState),
    ("data", ofModule [] fun m => (fun b => b.2.data) <$> m.lastBlock),
    ("control", ofModule [] fun m => (fun b => b.2.control) <$> m.lastBlock),
    ("state", ofModule [] fun m => (fun b => b.2.state) <$> m.lastBlock),
    ("alwaysfrom state", ofModule ["varname"] fun m name =>
      if m.states.contains name then Value.object "AlwaysData" else .none),
    ("module", asks moduleName moduleObject),
    ("is module", asks ["name"] fun b (name : String) => b.names.contains name)]
  shown := bookShown

end RtlFlow.Workbench
