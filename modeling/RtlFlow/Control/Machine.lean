import RtlFlow.Control.StateSet
import RtlFlow.Flow.Simplify
import RtlFlow.Report

/-!
# State machines

The transitions of a signal: from a state, under a condition, to a state; some of them from any
state.
-/

namespace RtlFlow

attribute [local instance (2000)] Zero.ofOfNat0

structure Machine where
  name : String := ""
  fsm : Table Scalar (Table Tree Scalar) := {}
  any : Table Tree Scalar := {}
  /-- How many registers the signal is behind the one that changes. -/
  delay : Scalar := .int 0
deriving Inhabited

namespace Machine

def size (m : Machine) : Nat :=
  (m.fsm.values.map Table.size).sum + m.fsm.size * m.any.size

/-- The least and the greatest state so far, and one more state. -/
def widen (r : Option (Scalar × Scalar)) (v : Scalar) : Result (Option (Scalar × Scalar)) :=
  match r with
  | none => pure (some (v, v))
  | some (lo, hi) => do
    let lo' := if ← v.lt lo then v else lo
    return some (lo', if ← v.gt hi then v else hi)

def stateRange (m : Machine) : Result (Option (Scalar × Scalar)) :=
  (m.fsm.entries.flatMap fun (src, dsts) => src :: dsts.values).foldlM widen none

def addAny (m : Machine) (dst : Scalar) (cond : Tree) : Result Machine := do
  let _ ← cond.hashKey
  return { m with any := m.any.put cond dst }

def add (m : Machine) (low high : Scalar) (dst : Scalar) (cond : Tree) : Result Machine := do
  let low ← low.toInt
  let high ← high.toInt
  let srcs := (List.range (high - low + 1).toNat).map fun (i : Nat) => Scalar.int (low + i)
  if !srcs.isEmpty then
    let _ ← cond.hashKey
  return { m with fsm := srcs.foldl (fun fsm src =>
    fsm.put src (((fsm.get? src).getD {}).put cond dst)) m.fsm }

def construct (m : Machine) (dst : Scalar) (s : StateSet) : Result Machine := do
  let m ← if s.any then m.addAny dst s.cond else pure m
  s.ranges.foldlM (fun m r => m.add r.1 r.2 dst s.cond) m

def sortByKey {α : Type} (key : α → Scalar) (es : List α) : Result (List α) := do
  match es with
  | e :: rest@(_ :: _) =>
    for e' in rest do
      let _ ← (key e').lt (key e)
  | _ => pure ()
  return es.mergeSort fun a b => match (key b).lt (key a) with
    | .ok less => !less
    | .error _ => true

def eitherCond (optimize : Tree → Result Tree) (a b : Tree) : Result Tree :=
  if a.isHole then pure a
  else if b.isHole then pure b
  else do optimize (← Tree.mkOp "Lor" [a, b])

def byTarget (optimize : Tree → Result Tree) (dsts : Table Tree Scalar) :
    Result (Table Scalar Tree) := do
  (← sortByKey Prod.snd dsts.entries).foldlM (fun (acc : Table Scalar Tree) (cond, dst) => do
    match acc.get? dst with
    | none => return acc.put dst cond
    | some c => return acc.put dst (← eitherCond optimize c cond)) {}

/-- The transitions from one state with a condition each; a condition that always holds is no
condition. -/
def byCondition (conds : Table Scalar Tree) : Result (Table Tree Scalar) :=
  conds.entries.foldlM (fun (acc : Table Tree Scalar) (dst, cond) => do
    if ← Optimizer.isPositive cond then return acc.put .hole dst
    let _ ← cond.hashKey
    return acc.put cond dst) {}

/-- One transition for each pair of states. The conditions of transitions that come together are
simplified by `optimize`. -/
def resolve (m : Machine) (optimize : Tree → Result Tree) : Result Machine := do
  let fsm ← (← sortByKey Prod.fst m.fsm.entries).mapM fun (src, dsts) => do
    return (src, ← byCondition (← byTarget optimize dsts))
  return { m with fsm := ⟨fsm⟩ }

def condText : Tree → Result String
  | .hole => pure "None"
  | t => t.toCode (some "dest")

def stateText (v : Scalar) : Result String :=
  match v with
  | .real x => match x.trunc? with
    | some n => pure (Text.ofInt n)
    | none => throw .badValue
  | v => match v.int? with
    | some n => pure (Text.ofInt n)
    | none => throw .wrongKind

def view (m : Machine) : Report Unit := do
  for (cond, dst) in m.any.entries do
    let cond ← lift (condText cond)
    Report.say ("any -- " ++ cond ++ "--> " ++ (← lift (stateText dst)))
  for (src, dsts) in m.fsm.entries do
    for (cond, dst) in dsts.entries do
      let src ← lift (stateText src)
      let cond ← lift (condText cond)
      Report.say (src ++ " --" ++ cond ++ "--> " ++ (← lift (stateText dst)))

/-! ## Cycles -/

def targets (m : Machine) (src : Scalar) : List Scalar :=
  ((m.fsm.get? src).map Table.values).getD [] |>.foldl
    (fun acc d => if acc.contains d then acc else acc ++ [d]) []

def distinctPaths (ps : List (List Scalar)) : List (List Scalar) :=
  ps.foldl (fun acc p => if acc.contains p then acc else acc ++ [p]) []

/-- The paths from a state to `src` that avoid the visited states, of bounded length. -/
def pathsTo (m : Machine) (src : Scalar) : Nat → List Scalar → Scalar → List (List Scalar)
  | 0, _, _ => []
  | n + 1, visited, node =>
    if src == node then [[src]]
    else
      let next := (m.targets node).filter fun d => !visited.contains d
      distinctPaths (next.flatMap fun d => (pathsTo m src n (node :: visited) d).map (node :: ·))

def pathBound : Nat := 51

def loopsFrom (m : Machine) (src : Scalar) : List (List Scalar) :=
  distinctPaths ((m.targets src).flatMap fun d => m.pathsTo src pathBound [d] d)

def smallest : List Scalar → Result Scalar
  | [] => throw .badValue
  | v :: vs => vs.foldlM (fun least w => do return if ← w.lt least then w else least) v

def rotate (path : List Scalar) : Result (List Scalar) := do
  let least ← smallest path
  let at' := path.findIdx (· == least)
  return path.drop at' ++ path.take at'

structure Found where
  loops : List (List Scalar) := []
  counts : Table Scalar Nat := {}

def Found.add (f : Found) (path : List Scalar) : Result Found := do
  let loop ← rotate path
  if f.loops.contains loop then return f
  return ⟨f.loops ++ [loop],
    loop.foldl (fun c v => c.put v ((c.get? v).getD 0 + 1)) f.counts⟩

/-- The cycles of the transitions, each from its smallest state on. A state that is in as many
cycles as it has transitions is not looked at again. -/
def loops (m : Machine) : Result (List (List Scalar)) := do
  let found ← (← sortByKey id m.fsm.keys).foldlM (fun (f : Found) k => do
    let degree := ((m.fsm.get? k).map Table.size).getD 0
    if (f.counts.get? k).getD 0 ≥ degree then return f
    (m.loopsFrom k).foldlM Found.add f) {}
  return found.loops

end Machine

end RtlFlow
