import RtlFlow.Control.Machine
import RtlFlow.Control.Split
import RtlFlow.Flow.Walk

/-!
# Control flow

State machines are looked for among the clocked signals whose names say that they hold a state.
-/

namespace RtlFlow.Netlist

variable (n : Netlist)

def stateWords : List String := ["fsm", "state", "count", "cnt", "step", "mode"]

def isStateName (words : List String) (name : Path) : Bool := SignalKind.mentions
  (words.map Text.lower) name.dotted

/-- The definition of a signal down to inputs and registers, ordered and simplified; what is
missing in it stands for the signal itself. -/
def controlTree (name : Path) : Result Tree := do
  let t ← n.tree name
  let t ← n.walkTree {} t
  let t ← t.reorder
  let t ← n.optimizer.optimize t
  Tree.fill (.term name) t

def signalWidth (name : Path) : Result Scalar := do
  let (msb, lsb) ← n.declaredRange name
  if msb.isHole || lsb.isHole then return .int 32
  let size ← (← n.optimizer.fold (← Tree.mkOp "Minus" [msb, lsb])).valueOf
  (← size.abs).add (.int 1)

def isClocked (name : Path) : Result Bool :=
  match n.binds.get? name with
  | none => throw .noEntry
  | some [] => throw .badPosition
  | some (b :: _) => pure b.isClockEdge

def canHoldState (name : Path) : Result Bool := do
  let kinds ← n.kinds name
  if !(← n.isClocked name) then return false
  return !(kinds.contains "Rename" || kinds.contains "RegArray")

/-- The cases of a signal that can hold a state. A definition with a single case cannot be looked
through. -/
def clockedCases (name : Path) : Result Cases := do
  if !(← n.canHoldState name) then return {}
  let cs ← (← Cases.split (← n.controlTree name)).withoutReset
  if cs.size = 1 then throw .wrongKind
  return cs

def shorterFirst (cs : Cases) : List (List Tree × Tree) :=
  cs.entries.mergeSort fun a b => a.1.length ≤ b.1.length

def condsText (conds : List Tree) : Result String := do
  let names ← conds.mapM Tree.name
  return match names with
    | [s] => "(" ++ s ++ ",)"
    | ss => "(" ++ Text.joinWith ", " ss ++ ")"

def machineOf (name : Path) (cs : Cases) : Report Machine := do
  let m : Machine := { name := name.code }
  if cs.size = 0 then return m
  let width ← lift (n.signalWidth name)
  (shorterFirst cs).foldlM (fun m (conds, leaf) => do
    match leaf with
    | .value v _ _ _ => do
      Report.say ("Condition: " ++ (← lift (condsText conds)) ++
        ", Inferring transition condition")
      match ← lift (StateSets.walkConds name width conds) with
      | none => return m
      | some s => lift (s.members.foldlM (fun m s => m.construct v s) m)
    | _ => return m) m

def machines (words : List String) : Report (Table Path Machine) :=
  n.resolvedBinds.entries.foldlM (fun (acc : Table Path Machine) (name, _) => do
    if !isStateName words name then return acc
    let cs ← lift (n.clockedCases name)
    if cs.size > 0 then
      Report.say ("FSM signal: " ++ name.dotted ++ ", Condition list length: " ++
        Text.ofInt cs.size)
    let m ← n.machineOf name cs
    if m.size = 0 then return acc
    return acc.put name (← lift (m.resolve n.optimizer.optimize))) {}

def machineLoops (ms : Table Path Machine) :
    Result (Table Path (List (List Scalar))) := do
  let found ← ms.entries.mapM fun (name, m) => do return (name, ← m.loops)
  return ⟨found.filter fun e => !e.2.isEmpty⟩

/-! ## Active conditions -/

def casesIn (name : Path) (cs : Cases) : Result (List (Scalar × Tree)) := do
  let width ← n.signalWidth name
  let found ← (shorterFirst cs).mapM fun (conds, _) => do
    let sets := match ← StateSets.walkConds name width conds with
      | none => []
      | some s => s.members
    let states ← sets.mapM fun s => do
      let ranges ← Ranges.ofScalars s.ranges
      let states := ranges.flatMap fun (lo, hi) =>
        (List.range (hi - lo + 1).toNat).map fun (i : Nat) => Scalar.int (lo + i)
      if states.isEmpty then return []
      let cond ← n.optimizer.optimize s.cond
      if ← Optimizer.isZero cond then return []
      return states.map fun v => (v, cond)
    return states.flatten
  return found.flatten

/-- The states of the machines of a design in which a signal is active; if there is none, those
of the signal itself. -/
def activeConditions (ms : Table Path Machine) (name : Path) (test : Cases.Test) :
    Result (Table Path (List (Scalar × Tree))) := do
  if !n.resolvedBinds.contains name then return {}
  let cs ← Cases.split (← n.controlTree name)
  let cs ← (← cs.filter name test).withoutReset
  if cs.size = 1 && cs.contains [] then throw .wrongKind
  let found ← ms.keys.mapM fun sig => do return (sig, ← n.casesIn sig cs)
  let found := found.filter fun e => !e.2.isEmpty
  if !found.isEmpty then return Table.ofList found
  let own ← n.casesIn name cs
  return if own.isEmpty then {} else Table.ofList [(name, own)]

end RtlFlow.Netlist
