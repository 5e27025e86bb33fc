import RtlFlow.Control.Inferred
import RtlFlow.Control.Ranges
import RtlFlow.Flow.SignalKind

/-!
# Sets of states

From a list of conditions, the states of a signal in which all of them can hold, and the rest of
the conditions, which the signal does not decide.
-/

namespace RtlFlow

/-- States of a signal in some ranges, or any state, under a condition. -/
structure StateSet where
  ranges : Limits := []
  min : Scalar := .int 0
  max : Scalar := .int 0
  cond : Tree := .hole
  any : Bool := false
deriving Repr, Inhabited

/-- One set of states, or the union of several. -/
inductive StateSets where
  | one (s : StateSet)
  | many (ss : List StateSet)
deriving Repr, Inhabited

namespace StateSet

def rangeText (r : Scalar × Scalar) : String := "(" ++ r.1.toText ++ ", " ++ r.2.toText ++ ")"

def toText (s : StateSet) : Result String := do
  let head := "state:" ++ String.join (s.ranges.map fun r => rangeText r ++ " ") ++
    (if s.any then "any " else "")
  let cond ← match s.cond with
    | .hole => pure "None"
    | t => t.toCode (some "dest")
  return Text.dropEnd 1 head ++ ", cond:" ++ cond

/-- The negation of a condition; a negation is taken away. -/
def notCond : Tree → Result Tree
  | .hole => pure .hole
  | .op name args =>
    if name == "Ulnot" || name == "Unot" then
      match args with
      | a :: _ => pure a
      | [] => throw .badPosition
    else Tree.mkOp "Ulnot" [.op name args]
  | t => Tree.mkOp "Ulnot" [t]

def not (s : StateSet) : Result StateSets := do
  if s.any then return .one { max := s.max, cond := ← notCond s.cond, any := true }
  let low ← s.min.toInt
  let rs ← Ranges.ofScalars s.ranges
  let outside : StateSet :=
    { ranges := Ranges.toScalars (Ranges.compl low (← s.max.toInt) rs), max := s.max }
  if s.cond.isHole then return .one outside
  return .many [outside, { ranges := s.ranges, cond := ← notCond s.cond, max := s.max }]

def andCond (a b : Tree) : Result Tree :=
  if a.isHole then pure b else if b.isHole then pure a else Tree.mkOp "Land" [a, b]

def andRanges (a b : StateSet) : Result Limits := do
  if a.any then return b.ranges
  if b.any then return a.ranges
  if a.ranges.isEmpty || b.ranges.isEmpty then return []
  let as ← Ranges.ofScalars a.ranges
  return Ranges.toScalars (Ranges.inter as (← Ranges.ofScalars b.ranges))

def and (a b : StateSet) : Result (Option StateSet) := do
  let any := a.any && b.any
  let ranges ← if any then pure [] else andRanges a b
  if !any && ranges.isEmpty then return none
  let cond ← andCond a.cond b.cond
  let max := if ← b.max.gt a.max then b.max else a.max
  return some { ranges := ranges, max := max, cond := cond, any := any }

end StateSet

namespace StateSets

def members : StateSets → List StateSet
  | .one s => [s]
  | .many ss => ss

def toText : StateSets → Result String
  | .one s => s.toText
  | .many ss => do
    let texts ← ss.mapM fun s => do return (← s.toText) ++ " "
    return Text.dropEnd 1 ("(" ++ String.join texts) ++ ")"

def or (a b : Option StateSets) : Option StateSets :=
  match a, b with
  | some a, some b => some (.many (a.members ++ b.members))
  | _, _ => none

def andMembers (as bs : List StateSet) : Result (Option StateSets) := do
  let found ← as.mapM fun a => do return (← bs.mapM a.and).filterMap id
  return if found.flatten.isEmpty then none else some (.many found.flatten)

def and (a b : Option StateSets) : Result (Option StateSets) :=
  match a, b with
  | none, b => pure b
  | a, none => pure a
  | some (.one a), some (.one b) => do return (← a.and b).map .one
  | some a, some b => andMembers a.members b.members

def not : Option StateSets → Result (Option StateSets)
  | none => pure none
  | some (.one s) => do return some (← s.not)
  | some (.many ss) => do
    let complements ← ss.mapM StateSet.not
    complements.foldlM (fun acc c => match acc with
      | none => pure (some c)
      | some a => and (some a) (some c)) none

def anyState (width : Scalar) (cond : Tree) : Result (Option StateSets) := do
  return some (.one { max := ← maxValue width, cond, any := true })

def ofInferred (i : Inferred) (width : Scalar) : Result (Option StateSets) := do
  let low := if i.min == .none then .int 0 else i.min
  let high ← if i.max == .none then maxValue width else pure i.max
  let s : StateSet := { ranges := [(low, high)], max := ← maxValue width }
  if i.inverted then return some (← s.not) else return some (.one s)

def compareStates (name : Path) (width : Scalar) (op : String) (l r : Tree) :
    Result (Option StateSets) := do
  if l.isSignal name then ofInferred (← Inferred.infer op r) width
  else if r.isSignal name then ofInferred (← Inferred.infer (exchanged op) l) width
  else anyState width (← Tree.mkOp op [l, r])

/-- The states in which a condition on two sides holds, from those for the sides. -/
def dualStates (name : Path) (width : Scalar) (op : String) (l r : Tree)
    (left right : Result (Option StateSets)) : Result (Option StateSets) := do
  if SignalKind.isNonCondition op then anyState width (← Tree.mkOp op [l, r])
  else if SignalKind.isOr op then
    match or (← left) (← right) with
    | some s => return some s
    | none => compareStates name width op l r
  else if SignalKind.isAnd op then
    match ← and (← left) (← right) with
    | some s => return some s
    | none => compareStates name width op l r
  else compareStates name width op l r

def walkCond (name : Path) (width : Scalar) : Tree → Result (Option StateSets)
  | .op op [a] => do
    let s ← walkCond name width a
    if SignalKind.isNot op then not s else return s
  | .op op [l, r] =>
    dualStates name width op l r (walkCond name width l) (walkCond name width r)
  | .term p => do
    let _ ← maxValue width
    compareStates name width "GreaterThan" (.term p) (.ofInt 0)
  | t => anyState width t

/-- The states in which all conditions hold. A condition that no state fulfils does not count. -/
def walkConds (name : Path) (width : Scalar) (conds : List Tree) :
    Result (Option StateSets) :=
  if conds.isEmpty then anyState width .hole
  else conds.foldlM (fun acc c => do
    match acc, ← walkCond name width c with
    | some a, some b => and (some a) (some b)
    | none, some b => return some b
    | acc, none => return acc) none

end StateSets

end RtlFlow
