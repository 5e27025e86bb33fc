import RtlFlow.Workbench.Session

/-!
# Forms of scopes
-/

namespace RtlFlow.Workbench

/-! ## Labels -/

instance : Readable ScopeKind where
  read
    | .text s =>
      orThrow .unboundName (ScopeKind.ofWord? s)
    | _ => throw .unboundName

instance : Readable Label where
  read
    | .label l => pure l
    | _ => throw .wrongKind

instance : Showable Label := ⟨.label⟩

def labelOf (name : Value) (kind : ScopeKind) (loop : Value) : Result Label := do
  return ⟨← name.toText, kind, ← loop.toScalar⟩

/-- Labels of scopes. -/
def labelForm : Form Label where
  parameters := ["scopename", may "scopetype" (.text "any"), may "scopeloop" .none]
  make := Takes.take labelOf
  commands := textCommands (fun _ l => pure l.toText) ++ [
    ("tocode", asks [] Label.code),
    ("is printable", asks [] fun l => l.kind.isPrintable)] ++
    comparisons .label
  shown l _ := pure (.list [.text l.name, .text l.kind.word, .scalar l.loop])

/-! ## Paths -/

def labelAt (p : Path) : Option Int → Result Label
  | some i => do
    element p.labels (← position p.length i)
  | none => throw .wrongKind

def slicePath (p : Path) (i j : Value) (k : Option Int) : Result Path := do
  return ⟨← slice p.labels (← Readable.read i) (← Readable.read j) (k.getD 1)⟩

/-- A path followed by a label or another path. -/
def plus (p : Path) : Value → Result Path
  | .label l => pure (p.push l)
  | .path q => pure (p.append q)
  | _ => throw .unboundName

def pop (p : Path) : Result Path :=
  if p.labels.isEmpty then throw .badPosition else pure p.parent

def pathOf : Value → Result Path
  | .none => pure {}
  | v => do return ⟨← Readable.read v⟩

/-- Paths of labels. -/
def pathForm : Form Path where
  parameters := [may "scopechain" .none]
  make := Takes.take pathOf
  commands := textCommands (fun _ p => pure p.dotted) ++ [
    ("tocode", asks [] Path.code),
    ("len", asks [] Path.length),
    ("list", asks [] fun p => Value.list (p.labels.map .label)),
    ("getitem", asks ["key"] labelAt),
    ("slice", asks ["start", "stop", may "step" .none] slicePath),
    ("plus", asks ["other"] plus),
    ("append", changes ["r"] Path.push),
    ("extend", changes ["r"] fun p ls => p.append ⟨ls⟩),
    ("pop", changes [] pop),
    ("module list", asks [] fun p => Value.list (p.modules.map .label)),
    ("signal name", asks [] Path.signalName)] ++ comparisons .path
  shown p _ := pure (.list [.text p.dotted, .text p.code, .int p.length])

/-! ## Counters -/

abbrev Counters := Table String Nat

def Counters.at (c : Counters) (name : String) : Nat := (c.get? name).getD 0

def Counters.next (c : Counters) (name : String) : Counters := c.put name (c.at name + 1)

/-- A new name out of a word and its counter. -/
def counted (c : Counters) (name : String) : At Counters String := do
  At.put (c.next name)
  return name ++ Text.ofInt (c.at name)

/-- Counters for new labels. -/
def counterForm : Form Counters where
  make _ := pure {}
  commands := [
    ("get", asks ["name"] counted),
    ("inc", changes ["name"] Counters.next)]
  shown c _ := pure (.list (c.entries.map fun (name, n) => .list [.text name, .int n]))

end RtlFlow.Workbench
