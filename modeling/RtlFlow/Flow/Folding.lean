import RtlFlow.Flow.Term

/-!
# Constant folding

An `Optimizer` knows the terms of a design and the values of its constants. Folding evaluates all
that depends on constants only; the declared range of a constant gives its width, and is folded
for that in turn.
-/

namespace RtlFlow

/-! ## Operations on values -/

namespace Evaluate

def flag (b : Bool) : Scalar := .int (if b then 1 else 0)

def bitCount (width : Scalar) : Result Nat := do return (← width.toInt).toNat

def bits (v width : Scalar) : Result (List Bool) := do
  let n ← bitCount width
  if n = 0 then return []
  match v.int? with
  | some k => return (List.range n).map fun i => Scalar.testBit k i
  | none => throw .wrongKind

def ofBits : List Bool → Nat
  | [] => 0
  | b :: bs => (if b then 1 else 0) + 2 * ofBits bs

def reduction? : String → Option (List Bool → Scalar)
  | "Unot" => some fun bs => .int (ofBits (bs.map not))
  | "Uand" => some fun bs => flag (bs.all id)
  | "Unand" => some fun bs => flag !(bs.all id)
  | "Uor" => some fun bs => flag (bs.any id)
  | "Unor" => some fun bs => flag !(bs.any id)
  | "Uxor" => some fun bs => flag (bs.foldl xor false)
  | "Uxnor" => some fun bs => flag !(bs.foldl xor false)
  | _ => none

def binary? : String → Option (Scalar → Scalar → Result Scalar)
  | "Power" => some Scalar.pow
  | "Times" => some Scalar.mul
  | "Divide" => some Scalar.div
  | "Mod" => some Scalar.mod
  | "Plus" => some Scalar.add
  | "Minus" => some Scalar.sub
  | "Sll" => some Scalar.shiftLeft
  | "Srl" => some Scalar.shiftRight
  | "Sra" => some Scalar.shiftRight
  | "LessThan" => some fun a b => flag <$> a.lt b
  | "GreaterThan" => some fun a b => flag <$> a.gt b
  | "LessEq" => some fun a b => flag <$> a.le b
  | "GreaterEq" => some fun a b => flag <$> a.ge b
  | "Eq" => some fun a b => pure (flag (a == b))
  | "NotEq" => some fun a b => pure (flag (a != b))
  | "Eql" => some fun a b => pure (flag (a == b))
  | "NotEql" => some fun a b => pure (flag (a != b))
  | "And" => some Scalar.bitAnd
  | "Xor" => some Scalar.bitXor
  | "Xnor" => some fun a b => do (← a.bitXor b).bitNot
  | "Or" => some Scalar.bitOr
  | _ => none

/-- The value of an operation on values of at most the given width; nothing for an operator
without a rule. -/
def operator (name : String) (vs : List Scalar) (width : Scalar) : Result Scalar := do
  if name == "Uminus" then (Scalar.int (-1)).mul (← element vs 0)
  else if name == "Ulnot" then return flag ((← element vs 0) == .int 0)
  else if name == "Land" then
    if (← element vs 0).truth then return flag (← element vs 1).truth else return .int 0
  else if name == "Lor" then
    if (← element vs 0).truth then return .int 1 else return flag (← element vs 1).truth
  else
    match reduction? name, binary? name with
    | some f, _ => do
      let n ← bitCount width
      if n = 0 then return f []
      return f (← bits (← element vs 0) width)
    | none, some f => do
      let a ← element vs 0
      f a (← element vs 1)
    | none, none => return .none

end Evaluate

/-- What is known when trees are folded: the terms, the constants, and the width of a value without
one. -/
structure Optimizer where
  terms : Terms := {}
  consts : Table Path Tree := {}
  defaultWidth : Scalar := .int 32
  level : Nat := 2
deriving Inhabited

namespace Optimizer

variable (o : Optimizer)

def term (name : Path) : Result Term := orThrow .noEntry (o.terms.get? name)

def valueWidth (width : Scalar) : Scalar := if width == .none then o.defaultWidth else width

def evalOperator (name : String) (vs : List (Scalar × Scalar)) : Result Tree := do
  let width ← vs.foldlM (fun w v => do return if ← v.2.gt w then v.2 else w) (Scalar.int 0)
  return .num (← Evaluate.operator name (vs.map Prod.fst) width) width

def evalConcat (vs : List (Scalar × Scalar)) : Result Tree := do
  let (v, w) ← vs.foldlM (fun (acc : Scalar × Scalar) v => do
    let width := o.valueWidth v.2
    let total ← acc.2.add width
    return (← (← acc.1.shiftLeft width).bitOr v.1, total)) (Scalar.int 0, Scalar.int 0)
  return .num v w

def evalPart (v msb lsb : Scalar) : Result Tree := do
  let width ← (← msb.sub lsb).add (.int 1)
  let low ← v.shiftRight lsb
  let limit ← (Scalar.int 2).pow width
  if ← low.ge limit then return .num (← low.mod limit) width
  return .num low width

/-- The values and widths of trees, if all of them are values. -/
def evaluated? : List Tree → Option (List (Scalar × Scalar))
  | [] => some []
  | .value v w _ _ :: ts => (evaluated? ts).map ((v, w) :: ·)
  | _ :: _ => none

def hasUnknownDigit (s : String) : Bool := s.toList.any fun c => "xzXZ".toList.contains c

def foldConst (kind : ConstKind) (s : String) : Result Tree :=
  match kind with
  | .int => do
    if hasUnknownDigit s then return .unknown (.int (← Literal.width s))
    let v ← Literal.value s
    return .num v (.int (← Literal.width s))
  | .real => do return .value (← (Tree.const kind s).eval) o.defaultWidth true false
  | .text => pure (.value (.text s) .none false true)
  | .plain => if hasUnknownDigit s then throw .wrongKind else pure (.num .none o.defaultWidth)

def constParts : Tree → Result (Scalar × Scalar)
  | .value v w _ _ => pure (v, w)
  | .const .int s => pure (.text s, .none)
  | _ => throw .noMember

/-- The folded form of a signal: its value if it is a constant. `next` folds the ends of its
range. -/
def foldTerm (next : Tree → Result Tree) (name : Path) : Result Tree :=
  match o.consts.get? name with
  | none => pure (.term name)
  | some c => do
    let t ← o.term name
    let (v, w) ← constParts c
    if t.msb.isHole || t.lsb.isHole then return .num v w
    match ← next t.msb, ← next t.lsb with
    | .value m _ _ _, .value l _ _ _ => return .num v (← (← m.sub l).add (.int 1))
    | _, _ => return .num v w

def isTrue (v : Scalar) : Bool := !(v == .int 0)

mutual

def foldWith (next : Tree → Result Tree) : Tree → Result Tree
  | .branch cond yes no => do
    let cond ← foldWith next cond
    let yes ← foldWith next yes
    let no ← foldWith next no
    match cond with
    | .value v _ _ _ => return if isTrue v then yes else no
    | _ => return .branch cond yes no
  | .delay _ => throw .unboundName
  | .const k s => o.foldConst k s
  | .op name args => do
    let args ← foldAll next args
    match evaluated? args with
    | some vs => evalOperator name vs
    | none => Tree.mkOp name args
  | .term name => o.foldTerm next name
  | .concat items => do
    let items ← foldAll next items
    match evaluated? items with
    | some vs => o.evalConcat vs
    | none => return .concat items
  | .part var msb lsb => do
    let var ← foldWith next var
    let msb ← foldWith next msb
    let lsb ← foldWith next lsb
    match var, msb with
    | .value v _ _ _, .value m _ _ _ => evalPart v m (← lsb.valueOf)
    | _, _ => return .part var msb lsb
  | .item (.term name) ptr => do
    let t ← o.term name
    let var ← o.foldTerm next name
    let ptr ← foldWith next ptr
    if !t.isArray && var.isValue && ptr.isValue then throw .wrongKind
    return .item var ptr
  | .item .unbound _ => throw .noEntry
  | .call name args => do return .call name (← foldAll next args)
  | t => pure t

def foldAll (next : Tree → Result Tree) : List Tree → Result (List Tree)
  | [] => pure []
  | t :: ts => do return (← foldWith next t) :: (← foldAll next ts)

end

/-- Folding with a bound on how often the range of a constant leads to another constant. -/
def foldBounded : Nat → Tree → Result Tree
  | 0, _ => throw .tooDeep
  | n + 1, t => o.foldWith (foldBounded n) t

/-- The folded form of a tree. A constant whose range leads back to it cannot be folded. -/
def fold (t : Tree) : Result Tree := o.foldBounded (o.terms.size + 2) t

/-! ## Widths -/

def span (msb lsb : Scalar) : Result Scalar := do
  (← (← msb.sub lsb).abs).add (.int 1)

def rangeWidth (msb lsb : Tree) : Result Scalar := do
  let msb ← (← o.fold msb).valueOf
  span msb (← (← o.fold lsb).valueOf)

def isOneBit (name : String) : Bool := SignalKind.isCompare name || name == "Land" || name == "Lor"

mutual

/-- The number of bits of a tree. -/
def width : Tree → Result Scalar
  | .hole => pure o.defaultWidth
  | .unknown w | .floating w | .value _ w _ _ => pure (o.valueWidth w)
  | .const .int s => do return .int (← Literal.width s)
  | .const _ _ => pure o.defaultWidth
  | .term name => do
    let t ← o.term name
    o.rangeWidth t.msb t.lsb
  | .unbound => throw .noEntry
  | .branch _ yes no => do
    let a ← width yes
    let b ← width no
    return if ← b.gt a then b else a
  | .part _ msb lsb => o.rangeWidth msb lsb
  | .op name args => if isOneBit name then pure (.int 1) else maxWidth (.int 0) args
  | .concat items => sumWidth (.int 0) items
  | .item (.term name) _ => do
    let t ← o.term name
    if t.isArray then o.rangeWidth t.msb t.lsb else return .int 1
  | .item .unbound _ => throw .noEntry
  | .item _ _ => pure (.int 1)
  | .delay _ | .call .. => throw .unboundName

def maxWidth (w : Scalar) : List Tree → Result Scalar
  | [] => pure w
  | t :: ts => do
    let v ← width t
    maxWidth (if ← w.lt v then v else w) ts

def sumWidth (w : Scalar) : List Tree → Result Scalar
  | [] => pure w
  | t :: ts => do
    let v ← width t
    sumWidth (← w.add v) ts

end

end Optimizer

end RtlFlow
