import RtlFlow.Workbench.Session

/-!
# Forms of control flow
-/

namespace RtlFlow.Workbench

/-! ## State machines -/

def ofStatePaths (ps : List (List Scalar)) : Value :=
  .set (ps.map fun p => .tuple (p.map .scalar))

def construct (m : Machine) (dst : Value) : Value → Result Machine
  | .none => pure m
  | .state s => do m.construct (← dst.toScalar) s
  | _ => throw .noMember

def resolveBy (m : Machine) : Value → Result Machine
  | .optimizer => m.resolve (Optimizer.optimize {})
  | _ => throw .noMember

def draw (m : Machine) (file : Value) (nolabel : Bool) : Result Unit := do
  let _ ← Graph.ofMachine m nolabel (← file.toText)

def loopsOf (m : Machine) : Result Value := ofStatePaths <$> m.loops

/-- The paths back to a state; without a node they begin at the state itself. -/
def pathsTo (m : Machine) (src : Value) : Value → Value → Value → Result Value
  | .fault _, _, _ => do return ofStatePaths (m.loopsFrom (← src.toScalar))
  | node, visited, count => do
    let count : Int ← Readable.read count
    let visited ← Readable.read visited
    return ofStatePaths (m.pathsTo (← src.toScalar) ((Machine.pathBound : Int) - count).toNat
      visited (← node.toScalar))

/-- State machines. -/
def machineForm : Form Machine where
  parameters := ["name"]
  make vs := match vs with
    | [.text s] => pure { name := s }
    | _ => pure {}
  commands := [
    ("set delaycnt", changes ["delaycnt"] fun m a => { m with delay := a }),
    ("size", asks [] Machine.size),
    ("label range", asks [] fun m => rangeValue <$> m.stateRange),
    ("construct", changes ["dst", "node"] construct),
    ("add any", changes ["dst", "cond"] Machine.addAny),
    ("add", changes ["srcs", "dst", "cond"] fun m (srcs : Scalar × Scalar) => m.add srcs.1 srcs.2),
    ("resolve", changes ["evaluate"] resolveBy),
    ("view", asks [] fun m => (liftM m.view : Work Unit)),
    ("tograph", asks [may "filename" (.text "fsm.png"), may "nolabel" (.bool false)] draw),
    ("loop", asks [] loopsOf),
    ("rotate", asks ["path"] fun _ => Machine.rotate),
    ("looppath", asks ["src", may "node" (.fault .wrongKind), may "visited" (.fault .wrongKind),
      may "cnt" (.int 0)] pathsTo)]
  shown m _ := pure (machineValue m)

/-! ## Conditions by ranges -/

def isNameOf (t : Active.Term) : Value → Bool
  | .path p => p == t.name
  | _ => false

def sameTerm (t : Active.Term) (store : Active.Store) : Value → Result Bool
  | .active (.term i) => pure (t.same (store.terms.getD i default))
  | _ => throw .noMember

def otherTerm (t : Active.Term) (store : Active.Store) (v : Value) : Result Bool :=
  not <$> sameTerm t store v

def termWithin (name ranges low high : Value) : Result Active.Term := do
  let name ← match name with
    | .path p => pure p
    | v => do pure (Path.ofDotted (← v.toText))
  return ⟨name, ← Readable.read ranges, ← low.toScalar, ← high.toScalar⟩

/-- Ranges of one signal. -/
def activeTermForm : Form Active.Term where
  parameters := ["name", may "range_pairs" (.tuple []), may "minval" (.int 0),
    may "maxval" (.int 0)]
  make := Takes.take termWithin
  commands := textCommands (fun _ t => pure t.toText) ++ [
    ("set", changes ["range_pairs"] fun t rs => { t with ranges := rs }),
    ("eq", asks ["o"] sameTerm),
    ("ne", asks ["o"] otherTerm),
    ("samehash", fails ["o"]),
    ("op not", changes [] Active.Term.invert),
    ("tocode", asks [] Active.Term.toCode),
    ("to tree", asks [] Active.Term.toTree),
    ("include", asks ["termname"] isNameOf),
    ("satisfy", asks ["value"] Active.Term.satisfies)]
  shown t _ := pure (.ranged t)

def toTermNumber : Value → Result Nat
  | .active (.term i) => pure i
  | _ => throw .noMember

/-- The numbers of the terms of a condition. -/
def termsAt (s : Active.Store) (i : Nat) : Table Path Nat := s.conds.getD i {}

def hasTerm (i : Nat) (s : Active.Store) : Value → Bool
  | .path p => (termsAt s i).contains p
  | _ => false

/-- Whether a term has a name. -/
def includes (s : Active.Store) (v : Value) (i : Nat) : Bool :=
  isNameOf (s.terms.getD i default) v

/-- Whether values of signals satisfy the terms of a condition. Signals without a term are free. -/
def admits (s : Active.Store) (c : Table Path Nat) : List (Value × Value) → Result Bool
  | [] => pure true
  | (name, v) :: rest => do
    match name with
    | .path p =>
      match c.get? p with
      | some i => do
        if ← (s.terms.getD i default).satisfies (← v.toScalar) then admits s c rest
        else return false
      | none => admits s c rest
    | _ => admits s c rest

def admitsAll (i : Nat) (s : Active.Store) : Value → Result Bool
  | .map ks vs => admits s (termsAt s i) (ks.zip vs)
  | _ => throw .noMember

def setTermIn (i : Nat) (name : Path) (v : Value) : Work Unit := do
  Active.setIn i name (← toTermNumber v)

def meetRanges (_ : Nat) (s : Active.Store) (v w : Value) :
    Result Limits := do
  let a := s.terms.getD (← toTermNumber v) default
  a.meet (s.terms.getD (← toTermNumber w) default)

def splitTerms (i : Nat) (s : Active.Store) (v : Value) : Work (Active.Item × Active.Item) := do
  let make (es : List (Path × Nat)) : Active.M Active.Item := .cond <$> Active.newCond ⟨es⟩
  let entries := (termsAt s i).entries
  let including ← make (entries.filter fun e => includes s v e.2)
  return (including, ← make (entries.filter fun e => !includes s v e.2))

/-- Conditions on several signals, by their numbers in the store. -/
def conditionForm : Form Nat where
  make _ := Work.active Active.newCond
  commands :=
    textCommands (fun s i => pure (s.condText (termsAt s i))) ++ [
    ("has", asks ["name"] hasTerm),
    ("set", asks ["name", "term"] setTermIn),
    ("and term", asks ["name", "term"] setTermIn),
    ("and range pairs", asks ["sna", "snb"] meetRanges),
    ("empty", asks [] fun i s => (termsAt s i).size == 0),
    ("resolve", asks [] fun i => (liftM (Active.resolve i) : Work Unit)),
    ("tocode", asks [] fun i (s : Active.Store) => s.condCode (termsAt s i)),
    ("to tree", asks [] fun i (s : Active.Store) => s.condTree (termsAt s i)),
    ("len", asks [] fun i s => (termsAt s i).size),
    ("include", asks ["termname"] fun i s v => (termsAt s i).values.any (includes s v)),
    ("split", asks ["termname"] splitTerms),
    ("satisfy", asks ["valuedict"] admitsAll)]
  shown i _ := pure (.active (.cond i))

def itemText (s : Active.Store) : Active.Item → Result String
  | .term i => pure (s.terms.getD i default).toText
  | .cond i => pure (s.condText (termsAt s i))
  | .list _ => throw .wrongKind

def itemIncludes (s : Active.Store) (v : Value) : Active.Item → Bool
  | .term i => includes s v i
  | .cond i => (termsAt s i).values.any (includes s v)
  | .list _ => false

/-- Puts a term into every condition of a list; alone it makes a new list. -/
def andTerm (is : List Active.Item) (name v : Value) : At (List Active.Item) Unit := do
  let t ← toTermNumber v
  if is.isEmpty then At.put [.term t]
  else
    let name ← name.toPath
    for i in is do
      match i with
      | .cond c => Active.setIn c name t
      | _ => throw .wrongKind

instance : Readable Active.Item where
  read
    | .active i => pure i
    | _ => throw .wrongKind

/-- Alternatives of such conditions. -/
def conditionsForm : Form (List Active.Item) where
  parameters := [may "conditions" (.tuple [])]
  make := Takes.take fun (is : List Active.Item) => is
  commands :=
    textCommands (fun s is => do return Text.joinWith " || " (← is.mapM (itemText s))) ++ [
    ("len", asks [] List.length),
    ("andterm", asks ["name", "term"] andTerm),
    ("include", asks ["termname"] fun is s v => is.any (itemIncludes s v))]
  shown is _ := pure (.active (.list is))

/-! ## Inferred values -/

/-- Inferred values. -/
def inferredForm : Form Inferred where
  parameters := ["minval", "maxval", may "inv" (.bool false)]
  make := Takes.take Inferred.mk
  commands := textCommands (fun _ i => pure i.toText) ++ [
    ("invert", changes [] Inferred.invert)]
  shown i _ := pure (.text i.toText)

end RtlFlow.Workbench
