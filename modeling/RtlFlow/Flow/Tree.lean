import RtlFlow.Flow.Literal
import RtlFlow.Operator
import RtlFlow.Scope

/-!
# Dataflow trees
-/

namespace RtlFlow

inductive ConstKind where
  | int | real | text
  | plain
deriving DecidableEq, Repr, Inhabited

def ConstKind.word : ConstKind → String
  | .int => "IntConst"
  | .real => "FloatConst"
  | .text => "StringConst"
  | .plain => "Constant"

/-- How the value of a signal comes about: from other signals and constants by operations,
selections and concatenations, and by branches on conditions. A branch that is not there, or any
other part that is missing, is a `hole`. -/
inductive Tree where
  | hole
  | term (name : Path)
  | unbound
  | const (kind : ConstKind) (text : String)
  /-- An evaluated constant with its width; the flags tell a real number and a text. -/
  | value (v : Scalar) (width : Scalar) (isReal : Bool) (isText : Bool)
  | unknown (width : Scalar)
  | floating (width : Scalar)
  | op (name : String) (args : List Tree)
  | part (var msb lsb : Tree)
  | item (var ptr : Tree)
  | concat (items : List Tree)
  | branch (cond yes no : Tree)
  | delay (next : Tree)
  | call (name : String) (args : List Tree)
deriving Repr, Inhabited

namespace Tree

def num (v : Scalar) (width : Scalar := .int 32) : Tree := .value v width false false

def ofInt (n : Int) : Tree := num (.int n)

def isHole : Tree → Bool
  | .hole => true
  | _ => false

def isBranch : Tree → Bool
  | .branch .. => true
  | _ => false

def isValue : Tree → Bool
  | .value .. => true
  | _ => false

def isTerm : Tree → Bool
  | .term _ => true
  | .unbound => true
  | _ => false

/-- Whether a tree is the value of one signal. -/
def isSignal (name : Path) : Tree → Bool
  | .term p => p == name
  | _ => false

def className : Tree → String
  | .hole => "NoneType"
  | .term _ | .unbound => "DFTerminal"
  | .const k _ => "DF" ++ k.word
  | .value .. => "DFEvalValue"
  | .unknown _ => "DFUndefined"
  | .floating _ => "DFHighImpedance"
  | .op .. => "DFOperator"
  | .part .. => "DFPartselect"
  | .item .. => "DFPointer"
  | .concat _ => "DFConcat"
  | .branch .. => "DFBranch"
  | .delay _ => "DFDelay"
  | .call .. => "DFSyscall"

/-- An operation; every operand must be there. -/
def mkOp (name : String) (args : List Tree) : Result Tree :=
  if args.any isHole then throw (.definition "") else pure (.op name args)

/-- The parts of a tree that are there. -/
def children : Tree → List Tree
  | .op _ args | .concat args | .call _ args => args
  | .part var msb lsb => [var, msb, lsb].filter fun t => !t.isHole
  | .item var ptr => [var, ptr].filter fun t => !t.isHole
  | .branch cond yes no => [yes, cond, no].filter fun t => !t.isHole
  | .delay next => [next].filter fun t => !t.isHole
  | _ => []

/-! ## Written forms -/

def widthText (width : Scalar) : String := if width == .int 32 then "" else width.toText

def valueText (v width : Scalar) (isText : Bool) : Result String :=
  if isText then
    match v with
    | .text s => pure s
    | _ => throw .wrongKind
  else do
    let negative ← v.lt (.int 0)
    let size ← v.abs
    return (if negative then "(-" else "") ++ widthText width ++ "'d" ++ size.toText ++
      (if negative then ")" else "")

def name : Tree → Result String
  | .hole => pure "None"
  | .term p => pure p.dotted
  | .unbound => throw .wrongKind
  | .const _ s => pure s
  | .value v w _ t => valueText v w t
  | .unknown w => pure (widthText w ++ "'dx")
  | .floating w => pure (widthText w ++ "'dz")
  | .op n _ => pure n
  | .part .. => pure "PartSelect"
  | .item .. => pure "Pointer"
  | .concat _ => pure "Concat"
  | .branch .. => pure "Branch"
  | .delay _ => pure "Delay"
  | .call .. => pure "Syscall"

/-- Texts after a head, with commas between them and a closing bracket. Without a text the head
loses its last character. -/
def listed (head : String) (texts : List String) (close : String) : String :=
  if texts.isEmpty then Text.dropEnd 1 head ++ close
  else head ++ Text.joinWith "," texts ++ close

mutual

def toText : Tree → Result String
  | .hole => throw .noMember
  | .term p => pure (if p.labels.isEmpty then "(Terminal)" else "(Terminal " ++ p.dotted ++ ")")
  | .unbound => throw .wrongKind
  | .const k s => pure ("(" ++ k.word ++ " " ++ s ++ ")")
  | .value v w _ t => valueText v w t
  | .unknown w => pure (widthText w ++ "'dx")
  | .floating w => pure (widthText w ++ "'dz")
  | .op n args => do return listed ("(Operator " ++ n ++ " Next:") (← toTexts args) ")"
  | .part var msb lsb => do
    return "(Partselect Var:" ++ (← toText var) ++ " MSB:" ++ (← toText msb) ++ " LSB:" ++
      (← toText lsb) ++ ")"
  | .item var ptr => do
    return "(Pointer Var:" ++ (← toText var) ++ " PTR:" ++ (← toText ptr) ++ ")"
  | .concat args => do return listed "(Concat Next:" (← toTexts args) ")"
  | .branch cond yes no => do
    return "(Branch" ++ (← marked " Cond:" cond) ++ (← marked " True:" yes) ++
      (← marked " False:" no) ++ ")"
  | .delay next => do return "(Delay " ++ (← marked "" next) ++ ")"
  | .call n args => do return listed ("(Syscall " ++ n ++ " Next:") (← toTexts args) ")"

def marked (mark : String) : Tree → Result String
  | .hole => pure ""
  | t => do return mark ++ (← toText t)

def toTexts : List Tree → Result (List String)
  | [] => pure []
  | t :: ts => do return (← toText t) :: (← toTexts ts)

end

def held : Option String → Result String
  | some dest => pure dest
  | none => throw .wrongKind

def markOf (name : String) : Result String := orThrow .wrongKind (Operator.mark? name)

mutual

/-- The Verilog text. A missing arm of a branch stands for the destination. -/
def toCode (dest : Option String) : Tree → Result String
  | .hole => throw .noMember
  | .term p => pure p.code
  | .unbound => throw .noMember
  | .const _ s => pure s
  | .value v w _ t => valueText v w t
  | .unknown w => pure (widthText w ++ "'dx")
  | .floating w => pure (widthText w ++ "'dz")
  | .op n (a :: b :: _) => do
    let left ← toCode dest a
    let mark ← markOf n
    return "(" ++ left ++ mark ++ (← toCode dest b) ++ ")"
  | .op n [a] => do
    let mark ← markOf n
    return "(" ++ mark ++ (← toCode dest a) ++ ")"
  | .op n [] => do
    let _ ← markOf n
    throw .badPosition
  | .part var msb lsb => do
    let var ← toCode dest var
    let msb ← toCode dest msb
    let lsb ← toCode dest lsb
    return var ++ "[" ++ msb ++ (if msb == lsb then "" else ":" ++ lsb) ++ "]"
  | .item var ptr => do return (← toCode dest var) ++ "[" ++ (← toCode dest ptr) ++ "]"
  | .concat args => do return listed "\x7b" (← toCodes dest args) "\x7d"
  | .branch cond yes no => do
    let cond ← condCode dest cond
    let yes ← armCode dest yes
    let no ← armCode dest no
    return "(" ++ cond ++ "? " ++ yes ++ " : " ++ no ++ ")"
  | .delay _ => throw (.definition "DFDelay does not support tocode()")
  | .call n args => do return listed ("$" ++ n ++ "(") (← toCodes dest args) ")"

def condCode (dest : Option String) : Tree → Result String
  | .hole => pure ""
  | t => do return "(" ++ (← toCode dest t) ++ ")"

def armCode (dest : Option String) : Tree → Result String
  | .hole => held dest
  | t => toCode dest t

def toCodes (dest : Option String) : List Tree → Result (List String)
  | [] => pure []
  | t :: ts => do return (← toCode dest t) :: (← toCodes dest ts)

end

inductive AssignMark where
  | nonblocking | blocking
deriving DecidableEq, Repr

def AssignMark.text : AssignMark → String
  | .nonblocking => " <= "
  | .blocking => " = "

mutual

def toStatements (mark : AssignMark) (dest : Option String) : Tree → Result String
  | .branch cond yes no => do
    let cond ← match cond with
      | .hole => pure ""
      | t => toCode dest t
    let yes ← arm mark dest yes
    let no ← elseArm mark dest no
    return "if(" ++ cond ++ ") begin\n" ++ yes ++ "end\n" ++ no
  | t => do
    let d ← held dest
    return d ++ mark.text ++ (← toCode dest t) ++ ";\n"

def arm (mark : AssignMark) (dest : Option String) : Tree → Result String
  | .hole => pure ""
  | t => toStatements mark dest t

def elseArm (mark : AssignMark) (dest : Option String) : Tree → Result String
  | .hole => pure ""
  | t => do return "else begin\n" ++ (← toStatements mark dest t) ++ "end\n"

end

def label : Tree → Result String
  | .term p => pure p.code
  | .unbound => throw .noMember
  | .hole => throw .noMember
  | t => t.name

/-! ## Equality -/

mutual

/-- Equality of trees. Two delays cannot be compared. -/
def equal : Tree → Tree → Result Bool
  | .hole, .hole => pure true
  | .term p, .term q => pure (p == q)
  | .unbound, .unbound => pure true
  | .const k s, .const l t => pure (k == l && s == t)
  | .value v w r t, .value v' w' r' t' => pure (v == v' && w == w' && r == r' && t == t')
  | .unknown w, .unknown w' => pure (w == w')
  | .floating w, .floating w' => pure (w == w')
  | .op n args, .op n' args' => if n == n' then equalAll args args' else pure false
  | .part v m l, .part v' m' l' => do
    if ← equal v v' then
      if ← equal m m' then equal l l' else pure false
    else pure false
  | .item v p, .item v' p' => do
    if ← equal v v' then equal p p' else pure false
  | .concat args, .concat args' => equalAll args args'
  | .branch c y n, .branch c' y' n' => do
    if ← equal c c' then
      if ← equal y y' then equal n n' else pure false
    else pure false
  | .delay _, .delay _ => throw .noMember
  | .call n args, .call n' args' => if n == n' then equalAll args args' else pure false
  | _, _ => pure false

def equalAll : List Tree → List Tree → Result Bool
  | [], [] => pure true
  | t :: ts, u :: us => do
    if ← equal t u then equalAll ts us else pure false
  | _, _ => pure false

end

def elemOf (t : Tree) : List Tree → Result Bool
  | [] => pure false
  | u :: us => do
    if ← equal u t then pure true else elemOf t us

def same (t u : Tree) : Bool :=
  match equal t u with
  | .ok b => b
  | .error _ => false

instance : BEq Tree := ⟨same⟩

inductive HashKey where
  | atom (a : Scalar)
  | tuple (keys : List HashKey)

mutual

def HashKey.same : HashKey → HashKey → Bool
  | .atom a, .atom b => a == b
  | .tuple ks, .tuple ls => HashKey.sameAll ks ls
  | _, _ => false

def HashKey.sameAll : List HashKey → List HashKey → Bool
  | [], [] => true
  | k :: ks, l :: ls => HashKey.same k l && HashKey.sameAll ks ls
  | _, _ => false

end

def pathKey (p : Path) : HashKey :=
  .tuple (p.labels.map fun l => .tuple [.atom (.text l.name), .atom l.loop])

mutual

def hashKey : Tree → Result HashKey
  | .hole | .unbound => pure (.atom .none)
  | .term p => pure (pathKey p)
  | .const _ s => pure (.atom (.text s))
  | .value v w r t => pure (.tuple [.atom v, .atom w, .atom (.bool r), .atom (.bool t)])
  | .unknown w | .floating w => pure (.atom w)
  | .op n args => do return .tuple [.atom (.text n), .tuple (← hashKeys args)]
  | .part v m l => do return .tuple [← hashKey v, ← hashKey m, ← hashKey l]
  | .item v p => do return .tuple [← hashKey v, ← hashKey p]
  | .concat args | .call _ args => do return .tuple (← hashKeys args)
  | .branch c y n => do return .tuple [← hashKey c, ← hashKey y, ← hashKey n]
  | .delay _ => throw .noMember

def hashKeys : List Tree → Result (List HashKey)
  | [] => pure []
  | t :: ts => do return (← hashKey t) :: (← hashKeys ts)

end

/-! ## Values -/

/-- The value that a constant stands for. -/
def eval : Tree → Result Scalar
  | .const .int s => Literal.value s
  | .const .real s =>
    match Real.read? s with
    | some x => pure (.real x)
    | none => throw .badValue
  | .const .text s => pure (.text s)
  | .const .plain _ => pure .none
  | .value v _ _ _ => pure v
  | _ => throw .noMember

def valueOf : Tree → Result Scalar
  | .value v _ _ _ => pure v
  | .const _ s => pure (.text s)
  | _ => throw .noMember

end Tree

end RtlFlow
