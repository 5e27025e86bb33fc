import RtlFlow.Flow.Subset
import RtlFlow.Workbench.TreeCommands

/-!
# Commands of control flow
-/

namespace RtlFlow.Workbench

/-! ## Cases -/

def activeConstant (_ node mark bound : Value) : Result Bool := do
  Cases.isActive (← mark.toText) (← bound.toScalar) (← node.toTree)

def filterCases (cs name : Value) : Value → Result Cases
  | .test (some t) => do
    let cs ← cs.toCases
    cs.filter (← name.toPath) t
  | _ => throw .wrongKind

/-- Cases of a tree and tests of their leaves. -/
def caseCommands : Commands Work := [
  ("split", does ["tree"] Cases.split),
  ("remove reset", does ["funcdict"] Cases.withoutReset),
  ("active constant", does ["termname", "node", may "op" (.text ">"), may "value" (.int 0)]
    activeConstant),
  ("filter", does ["funcdict", "termname", may "condition" (.test (some .constant))] filterCases),
  ("infer", does ["op", "node"] Inferred.infer)]

/-! ## States -/

instance : Showable StateSets where
  form
    | .one s => .state s
    | .many ss => .states (ss.map some)

instance : Showable StateSet := ⟨.state⟩

/-- The members of one set of states or of several; none if the value is no set of states. -/
def stateMembers? : Value → Option (List (Option StateSet))
  | .state s => some [some s]
  | .states ss => some ss
  | _ => none

def andStates : Option StateSet → Option StateSet → Result (Option StateSet)
  | none, b => pure b
  | a, none => pure a
  | some a, some b => a.and b

/-- What two sets of states or lists of sets have in common. -/
def andStateLists (v w : Value) : Result Value := do
  match v, w with
  | .none, w => return w
  | v, .none => return v
  | .state a, .state b => return Showable.form (← a.and b)
  | v, w =>
    match stateMembers? v, stateMembers? w with
    | some as, some bs => do
      let found ← as.mapM fun a => do return (← bs.mapM (andStates a)).filterMap id
      return if found.flatten.isEmpty then .none else .states (found.flatten.map some)
    | _, _ => return .none

def notState : Value → Result Value
  | .state s => do return Showable.form (← s.not)
  | _ => throw .noMember

def notStates : Value → Result Value
  | .state s => notState (.state s)
  | .states ss => do
    let complements ← ss.mapM fun s => match s with
      | some s => notState (.state s)
      | none => throw .noMember
    complements.foldlM (fun acc c => match acc with
      | .none => pure c
      | acc => andStateLists acc c) .none
  | _ => pure .none

instance : Readable StateSet where
  read
    | .state s => pure s
    | _ => throw .noMember

def orStates (v w : Value) : Value :=
  match stateMembers? v, stateMembers? w with
  | some as, some bs => .states (as ++ bs)
  | _, _ => .none

def andState : Value → Value → Result Value
  | .none, w => pure w
  | v, .none => pure v
  | v, w => do
    let a : StateSet ← Readable.read v
    return Showable.form (← a.and (← Readable.read w))

def andPairs (a b : StateSet) : Result Value := do
  if a.ranges.isEmpty || b.ranges.isEmpty then throw .badPosition
  return .list (Value.ofPairs (← StateSet.andRanges a b))

def notPairs (s : StateSet) : Result Value := do
  let low ← s.min.toInt
  let rs ← Ranges.ofScalars s.ranges
  return .list (Value.ofPairs (Ranges.toScalars (Ranges.compl low (← s.max.toInt) rs)))

def ofInferred (v width : Value) : Result (Option StateSets) := do
  match v with
  | .inferred i => StateSets.ofInferred i (← width.toScalar)
  | _ => throw .noMember

def isState : Value → Bool
  | .state _ => true
  | _ => false

def areStates : Value → Bool
  | .states _ => true
  | _ => false

def walking {α : Type} [Readable α] (first : String)
    (f : Path → Scalar → α → Result (Option StateSets)) : Command Work :=
  does [first, "termname", may "termwidth" (.int 32)] fun (v : Value) name width =>
    f name width =<< Readable.read v

/-- Sets of states. -/
def stateCommands : Commands Work := [
  ("walk condlist", walking "condlist" StateSets.walkConds),
  ("walk cond", walking "cond" StateSets.walkCond),
  ("not state node list", does ["node"] notStates),
  ("or state node list", does ["lnode", "rnode"] orStates),
  ("and state node list", does ["lnode", "rnode"] andStateLists),
  ("not state node", does ["node"] notState),
  ("and state node", does ["sna", "snb"] andState),
  ("and range pairs", does ["sna", "snb"] andPairs),
  ("not range pairs", does ["node"] notPairs),
  ("not transcond", does ["transcond"] StateSet.notCond),
  ("create state node", does ["infval", "width"] ofInferred),
  ("is state node", does ["node"] isState),
  ("is state node list", does ["node"] areStates)]

/-! ## State machines -/

def machineObject : Value := .object "FiniteStateMachine"

instance : Showable Machine := ⟨fun _ => machineObject⟩

def ofLoops (loops : Table Path (List (List Scalar))) : Value :=
  .map (loops.keys.map .path)
    (loops.values.map fun ls => .set (ls.map fun l => .tuple (l.map .scalar)))

def ofBindingSets (t : Bindings) : Value :=
  .map (t.keys.map .path) (t.values.map fun bs => .set (bs.map .binding))

instance : Showable Subset where
  form s := .tuple [Showable.form s.terms, Showable.form s.parameters, ofBindingSets s.assigns,
    ofBindingSets s.clocked, ofBindingSets s.combinational]

def clockedCases (n : Netlist) (p : Path) (delay : Value) : Result (Cases × Value) := do
  let cs ← n.clockedCases p
  return (cs, if ← n.canHoldState p then delay else .int 0)

def machines (n : Netlist) : Report (Table Path Machine) := n.machines Netlist.stateWords

def loops (n : Netlist) : Work (Value × Table Path Machine) := do
  let ms ← machines n
  return (ofLoops (← Netlist.machineLoops ms), ms)

def subset (n : Netlist) (targets : List Value) : Result Subset := do
  n.subset {} (← targets.mapM fun t => do return (← namePath t).1)

/-- State machines of the netlist of the workbench. -/
def controlCommands : Commands Work := mergeCommands ++ [
  ("width", does ["termname"] Netlist.signalWidth),
  ("make tree", does ["termname"] Netlist.controlTree),
  ("is fsm var", does ["termname"] (Netlist.isStateName Netlist.stateWords)),
  ("funcdict", does ["termname", may "delaycnt" (.int 0)] clockedCases),
  ("finite state machines", does [] machines),
  ("loops", does [] loops),
  ("subset", does ["targets"] subset),
  ("entire", does [] Netlist.entire)]

/-! ## Conditions by ranges -/

instance : Readable (Option Active.Item) where
  read
    | .active i => pure (some i)
    | _ => pure none

instance : Showable Active.Item := ⟨.active⟩

instance : Showable (List (Active.Item × Tree)) where
  form found := .map (found.map fun e => .active e.1) (found.map fun e => .ofTree e.2)

/-- Conditions by ranges. -/
def activeCommands : Commands Work := [
  ("active conditions", does ["termname", may "op" (.text ">"), may "conditionvalue" (.int 0)]
    Active.activeConditions),
  ("changed conditions", does ["termname"] Active.changedConditions),
  ("unchanged conditions", does ["termname"] Active.unchangedConditions),
  ("changed conditions with assignments", does ["termname"] Active.changedAssignments),
  ("make conditional tree", does ["termname", may "step" (.int 0)]
    fun (n : Netlist) p (_ : Value) => n.controlTree p),
  ("infer active conditions", does ["condlists"] Active.inferAll),
  ("infer active condition dict", does ["condfuncs"] Active.inferCases),
  ("infer active condition", does ["condlist"] Active.infer),
  ("walk active cond", does ["cond"] Active.walk),
  ("activecond op not", does ["node"] Active.not),
  ("activecond op and", does ["left", "right"] Active.and),
  ("activecond op or", does ["left", "right"] Active.or)] ++ controlCommands

/-! ## The objects of a workbench -/

inductive Subject where
  | tree | optimizer | walker | control | active | reorder | states
deriving DecidableEq, Repr

def Subject.commands : Subject → Commands Work
  | .tree => treeCommands ++ caseCommands
  | .optimizer => optimizerCommands
  | .walker => walkCommands
  | .control => controlCommands
  | .active => activeCommands
  | .reorder => reorderCommands
  | .states => stateCommands

def call (b : Bench) (s : Subject) (word : String) (args : Arguments) : Result Value × Bench :=
  Work.run (s.commands.call word args) b

end RtlFlow.Workbench
