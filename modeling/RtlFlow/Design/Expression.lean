import RtlFlow.Ast.Basic
import RtlFlow.Flow.Reorder

/-!
# Trees of expressions

Operations, selections and concatenations become dataflow trees in the same way in every pass; what
a name stands for is for the pass to say.
-/

namespace RtlFlow.Design

def classText : Ast → String
  | .node k _ _ => "<class 'pyverilog.vparser.ast." ++ k.word ++ "'>"
  | .seq _ => "<class 'tuple'>"
  | .path _ => "<class 'pyverilog.utils.scope.ScopeChain'>"
  | .atom a => "<class '" ++ (match a with
    | .none => "NoneType"
    | .bool _ => "bool"
    | .int _ => "int"
    | .real _ => "float"
    | .text _ => "str") ++ "'>"

def notExpression (t : Ast) : Fault :=
  .format ("unsupported AST node type: " ++ classText t ++ " " ++ t.toText)

def expressionOf : Ast → Ast
  | .node .rvalue _ (t :: _) => t
  | t => t

variable {m : Type → Type} [Monad m] [MonadExceptOf Fault m]

def raise {α : Type} (r : Result α) : m α :=
  match r with
  | .ok a => pure a
  | .error f => throw f

def operandAt (found : List (Ast.Found (m Tree))) (i : Nat) : m Tree :=
  match found[i]? with
  | some f => f.whole
  | none => throw Fault.noMember

def operandsAt (found : List (Ast.Found (m Tree))) (i : Nat) : m (List Tree) :=
  match found[i]? with
  | some f =>
    match f.each with
    | .ok ts => ts.mapM id
    | .error e => throw e
  | none => throw Fault.noMember

/-- The tree of an operation, a selection or a concatenation; the branches of the operands go
outwards. `isArray` tells whether an element is selected, and not a bit. -/
def expressionTree (isArray : Tree → m Bool) (k : Ast.Kind) (found : List (Ast.Found (m Tree))) :
    Option (m Tree) :=
  let operand := operandAt found
  if k = .cond then some do
    let yes ← operand 1
    let no ← operand 2
    let cond ← operand 0
    if cond.isBranch then throw Fault.noMember
    return .branch cond yes no
  else if k.isUnary then some do
    let t ← operand 0
    if t.isBranch then raise (t.insertUnary k.word) else raise (Tree.mkOp k.word [t])
  else if k.isOperator then some do
    let l ← operand 0
    let r ← operand 1
    if l.isBranch || r.isBranch then raise (l.insertBinary r k.word)
    else raise (Tree.mkOp k.word [l, r])
  else if k = .partselect then some do
    let var ← operand 0
    let msb ← operand 1
    let lsb ← operand 2
    if var.isBranch then raise (var.insertPart msb lsb) else return .part var msb lsb
  else if k = .pointer then some do
    let var ← operand 0
    let ptr ← operand 1
    if ← isArray var then return .item var ptr else return .part var ptr ptr
  else if k = .concat || k = .leftConcat then some do
    let items ← operandsAt found 0
    if items.any Tree.isBranch then raise (Tree.insertConcat items) else return .concat items
  else none

def literalTree (k : Ast.Kind) (parts : List Ast) : Option Tree :=
  let text := (parts.getD 0 .absent).toText
  if k = .intConst then some (.const .int text)
  else if k = .floatConst then some (.const .real text)
  else if k = .stringConst then some (.const .text text)
  else none

def repeatCount : Scalar → Result Nat
  | .int n => pure n.toNat
  | .bool b => pure b.toNat
  | .real x =>
    match x.trunc? with
    | some n => pure n.toNat
    | none => throw .badValue
  | .text s =>
    match Text.readInt? 10 s with
    | some n => pure n.toNat
    | none => throw .badValue
  | .none => throw .wrongKind

end RtlFlow.Design
