import RtlFlow.Control.Active
import RtlFlow.Design.Frames

/-!
# Values of a workbench

Operations that are called by name take and give values of one type. A missing tree and nothing at
all are the same value.
-/

namespace RtlFlow

/-- The arguments and results of commands. -/
inductive Value where
  | scalar (a : Scalar)
  | list (items : List Value)
  | tuple (items : List Value)
  | set (items : List Value)
  | map (keys values : List Value)
  | path (p : Path)
  | label (l : Label)
  | tree (t : Tree)
  | term (t : Term)
  | binding (b : Binding)
  | ast (t : Ast)
  | state (s : StateSet)
  | states (ss : List (Option StateSet))
  | inferred (i : Inferred)
  | active (i : Active.Item)
  | ranged (t : Active.Term)
  | always (s : Sensitivity)
  | frame (f : Design.Frame)
  | optimizer
  | test (t : Option Cases.Test)
  | fault (f : Fault)
  | object (word : String)
deriving Inhabited

namespace Value

@[match_pattern]
def none : Value := .scalar .none

@[match_pattern]
def text (s : String) : Value := .scalar (.text s)

def int (n : Int) : Value := .scalar (.int n)

def bool (b : Bool) : Value := .scalar (.bool b)

def ofTree : Tree → Value
  | .hole => .none
  | t => .tree t

def ofOption : Option Value → Value
  | some v => v
  | Option.none => .none

def toTree : Value → Result Tree
  | .none => pure .hole
  | .tree t => pure t
  | _ => throw .noMember

def items : Value → Result (List Value)
  | .list vs | .tuple vs | .set vs => pure vs
  | .map ks _ => pure ks
  | .text s => pure (s.toList.map fun c => .text (String.singleton c))
  | .path p => pure (p.labels.map .label)
  | _ => throw .wrongKind

def trees (v : Value) : Result (List Tree) := do (← v.items).mapM toTree

def toPath : Value → Result Path
  | .path p => pure p
  | _ => throw .noMember

def toScalar : Value → Result Scalar
  | .scalar a => pure a
  | _ => throw .wrongKind

def toText : Value → Result String
  | .text s => pure s
  | _ => throw .wrongKind

def toBinding : Value → Result Binding
  | .binding b => pure b
  | _ => throw .noMember

def bindings (v : Value) : Result (List Binding) := do (← v.items).mapM toBinding

def toAst : Value → Result Ast
  | .scalar a => pure (.atom a)
  | .ast t => pure t
  | .path p => pure (.path p)
  | .list vs | .tuple vs => do return .seq (← toAsts vs)
  | _ => throw .wrongKind
where
  toAsts : List Value → Result (List Ast)
    | [] => pure []
    | v :: vs => do return (← toAst v) :: (← toAsts vs)

def ofAst : Ast → Value
  | .atom a => .scalar a
  | .path p => .path p
  | .seq ts => .list (ofAsts ts)
  | t => .ast t
where
  ofAsts : List Ast → List Value
    | [] => []
    | t :: ts => ofAst t :: ofAsts ts

/-- What an always block waits for: names, edges and bits of clock and reset, and the rest. -/
def toSensitivity (stamp : Nat) (parts : List Value) : Result Sensitivity := do
  if parts.length > 7 then throw .wrongKind
  let d : Sensitivity := {}
  let part (i : Nat) (t : Ast) : Result Ast := match parts[i]? with
    | some v => v.toAst
    | Option.none => pure t
  return {
    clock := ⟨← part 0 d.clock.name, ← part 1 d.clock.edge, ← part 2 d.clock.bit⟩
    reset := ⟨← part 3 d.reset.name, ← part 4 d.reset.edge, ← part 5 d.reset.bit⟩
    others := ← part 6 d.others
    stamp := stamp }

def ofPaths (ps : List Path) : Value := .set (ps.map .path)

def toCases : Value → Result Cases
  | .map ks vs => do
    let keys ← ks.mapM trees
    return ⟨keys.zip (← vs.mapM toTree)⟩
  | _ => throw .noMember

def toPair (v : Value) : Result (Scalar × Scalar) := do
  match ← v.items with
  | [a, b] => return (← a.toScalar, ← b.toScalar)
  | _ => throw .badValue

def ofPairs (rs : Limits) : List Value :=
  rs.map fun r => .tuple [.scalar r.1, .scalar r.2]

/-! ## Equality -/

mutual

def equal : Value → Value → Result Bool
  | .scalar a, .scalar b => pure (a == b)
  | .tree t, .tree u => t.equal u
  | .path p, .path q => pure (p == q)
  | .label l, .label m => pure (l == m)
  | .term t, .term u => t.equal u
  | .binding a, .binding b => a.equal b
  | .ast t, .ast u => t.equal u
  | .list vs, .list ws => equalAll vs ws
  | .tuple vs, .tuple ws => equalAll vs ws
  | .always s, .always t => pure (s.stamp == t.stamp)
  | _, _ => pure false

def equalAll : List Value → List Value → Result Bool
  | [], [] => pure true
  | v :: vs, w :: ws => do
    if ← equal v w then equalAll vs ws else return false
  | _, _ => pure false

end

/-- Whether two hashes are made of equal parts; hashes of objects without parts are not. -/
def sameHash : Value → Value → Result Bool
  | .list _, _ | _, .list _ | .set _, _ | _, .set _ | .map .., _ | _, .map .. => throw .wrongKind
  | .term _, _ | _, .term _ => throw .wrongKind
  | .ast t, .ast u => pure (t.sameHash u)
  | v, w => do
    let k ← key v
    let l ← key w
    match k, l with
    | some k, some l => return k.same l
    | _, _ => return false
where
  key : Value → Result (Option Tree.HashKey)
    | .scalar a => pure (some (.atom a))
    | .tree t => do return some (← t.hashKey)
    | .path p => pure (some (Tree.pathKey p))
    | .label l => pure (some (.tuple [.atom (.text l.name), .atom l.loop]))
    | .active (.term _) => throw .wrongKind
    | _ => pure Option.none

end Value

end RtlFlow
