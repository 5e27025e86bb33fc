import RtlFlow.Flow.Tree

/-!
# Branches outwards

A tree is put into an order in which branches stand outside: no operation, concatenation or
selection has a branch below it, and no condition of a branch is a branch. All steps are one:
`Tree.spread` applies a function to the leaves of the branches of a tree.
-/

namespace RtlFlow.Tree

/-- Applies a function to every leaf of the branches of a tree; the conditions stay. A missing
arm is a leaf. -/
def spread (k : Tree → Result Tree) : Tree → Result Tree
  | .branch cond yes no => do
    let yes ← spread k yes
    let no ← spread k no
    return .branch cond yes no
  | t => k t

def insertBranch (base yes no : Tree) : Result Tree :=
  spread (fun c => pure (.branch c yes no)) base

def insertUnary (base : Tree) (name : String) : Result Tree :=
  spread (fun t => mkOp name [t]) base

def insertBinary (left right : Tree) (name : String) : Result Tree :=
  spread (fun l => spread (fun r => mkOp name [l, r]) right) left

/-- What is built from a list of trees, on the leaves of all of them; `done` holds the leaves of
those in front, last one first. -/
def spreadList (build : List Tree → Result Tree) :
    (done : List Tree) → List Tree → Result Tree
  | done, [] => build done.reverse
  | done, t :: ts => spread (fun leaf => spreadList build (leaf :: done) ts) t

def insertOp (args : List Tree) (name : String) : Result Tree :=
  spreadList (mkOp name) [] args

def insertConcat (items : List Tree) : Result Tree :=
  spreadList (fun ts => pure (.concat ts)) [] items

/-- A selection of bits on the leaves of a tree; nothing is selected from a missing leaf. -/
def insertPart (var msb lsb : Tree) : Result Tree :=
  spread (fun v => pure (if v.isHole then .hole else .part v msb lsb)) var

/-- A selection of an element on the leaves of a tree; nothing is selected from a missing leaf. -/
def insertItem (var ptr : Tree) : Result Tree :=
  spread (fun v => pure (if v.isHole then .hole else .item v ptr)) var

mutual

/-- The ordered form of a tree. The ends of a selection of bits cannot branch, and system
functions have no place in the order. -/
def reorder : Tree → Result Tree
  | .branch cond yes no => do
    let yes ← reorder yes
    let no ← reorder no
    insertBranch (← reorder cond) yes no
  | .op name args => do insertOp (← reorderAll args) name
  | .concat items => do insertConcat (← reorderAll items)
  | .part var msb lsb => do
    let msb ← reorder msb
    let lsb ← reorder lsb
    let var ← reorder var
    if msb.isBranch || lsb.isBranch then throw .unboundName
    if var.isBranch then insertPart var msb lsb else return .part var msb lsb
  | .item var ptr => do
    let ptr ← reorder ptr
    let var ← reorder var
    spread (fun p => if var.isBranch then insertItem var p else pure (.item var p)) ptr
  | .delay next => do return .delay (← reorder next)
  | .call .. => throw .unboundName
  | t => pure t

def reorderAll : List Tree → Result (List Tree)
  | [] => pure []
  | t :: ts => do return (← reorder t) :: (← reorderAll ts)

end

mutual

/-- A leaf for everything that is missing or unknown. -/
def fill (leaf : Tree) : Tree → Result Tree
  | .hole => pure leaf
  | .unknown _ => pure leaf
  | .branch cond yes no => do
    let cond ← fill leaf cond
    let yes ← fill leaf yes
    return .branch cond yes (← fill leaf no)
  | .op name args => do mkOp name (← fillAll leaf args)
  | .part var msb lsb => do
    let msb ← fill leaf msb
    let lsb ← fill leaf lsb
    return .part (← fill leaf var) msb lsb
  | .item var ptr => do
    let ptr ← fill leaf ptr
    return .item (← fill leaf var) ptr
  | .concat items => do return .concat (← fillAll leaf items)
  | .floating _ | .delay _ | .call .. => throw .unboundName
  | t => pure t

def fillAll (leaf : Tree) : List Tree → Result (List Tree)
  | [] => pure []
  | t :: ts => do return (← fill leaf t) :: (← fillAll leaf ts)

end

end RtlFlow.Tree
