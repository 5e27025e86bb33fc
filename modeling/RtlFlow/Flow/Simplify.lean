import RtlFlow.Flow.Folding

/-!
# Simplification

Simplification of a tree from the leaves up. Branches with a known condition or equal arms lose
their condition, selections from concatenations reach into these, neighbours in a concatenation are
joined, and conjunctions and disjunctions are flattened, sorted and freed of repeated members.
-/

namespace RtlFlow.Optimizer

/-! ## Parts of trees -/

def argsOf? (name : String) : Tree → Option (List Tree)
  | .op n args => if n == name then some args else none
  | _ => none

def isNegation (name : String) (t u : Tree) : Result Bool :=
  match argsOf? name t with
  | some args => do (← element args 0).equal u
  | none => pure false

def isValueWith (test : Scalar → Result Bool) : Tree → Result Bool
  | .value v _ _ _ => test v
  | _ => pure false

def isZero (t : Tree) : Result Bool := isValueWith (fun v => pure (v == .int 0)) t

def isPositive (t : Tree) : Result Bool := isValueWith (fun v => v.gt (.int 0)) t

def bit (b : Bool) : Tree := .num (Evaluate.flag b) (.int 1)

variable (o : Optimizer)

/-! ## Bits of a concatenation -/

/-- Where a cut through a concatenation meets its items, found from the lowest item up. -/
structure Cut where
  used : List Tree := []
  total : Int := 0
  /-- The lowest bit of the item with the low end, and the distance of the low end from it. -/
  low : Option (Int × Int) := none
  /-- The highest bit of the item with the high end, and the distance of the high end from it. -/
  high : Option (Int × Int) := none

def cut (lo hi : Int) : (offset : Int) → Cut → List (Tree × Int) → Result Cut
  | _, c, [] => pure c
  | offset, c, (t, w) :: rest => do
    let c := if offset ≤ lo && lo < offset + w then { c with low := some (offset, lo - offset) }
      else c
    let c ← if c.low.isSome then do
        pure { c with total := c.total + w, used := (← o.fold t) :: c.used }
      else pure c
    if offset ≤ hi && hi < offset + w then
      return { c with high := some (offset + w - 1, offset + w - 1 - hi) }
    cut lo hi (offset + w) c rest

/-- The items of a cut through several of them, lowest first, each with the bits that the ends
of the cut leave of it. -/
def trim (widths : List Int) (lowOffset highOffset : Int) (last : Nat) :
    Nat → List Tree → Result (List Tree)
  | _, [] => pure []
  | i, t :: ts => do
    let w ← element widths i
    let t ← if i = 0 && lowOffset > 0 then
        o.fold (.part t (.ofInt (w - 1)) (.ofInt lowOffset))
      else if i = last && highOffset > 0 then
        o.fold (.part t (.ofInt (w - highOffset - 1)) (.ofInt 0))
      else o.fold t
    return t :: (← trim widths lowOffset highOffset last (i + 1) ts)

def concatOrOne : List Tree → Tree
  | [t] => t
  | ts => .concat ts

def takeBits (items : List Tree) (widths : List Int) (lo hi : Int) : Result Tree := do
  let c ← o.cut lo hi 0 {} (items.reverse.zip widths)
  let size := hi - lo + 1
  let unknown (n : Int) : Tree := .unknown (.int n)
  match c.low, c.high with
  | none, _ => return unknown size
  | some (lsb, lowOffset), none =>
    if lowOffset = 0 then return .concat (unknown (size - c.total) :: c.used)
    else return .concat [unknown (size - c.total + lowOffset),
      .part (concatOrOne c.used) (.ofInt (c.total - 1)) (.ofInt (lsb + lowOffset))]
  | some (lsb, lowOffset), some (msb, highOffset) =>
    if lowOffset = 0 && highOffset = 0 then return concatOrOne c.used
    match c.used with
    | [t] => return .part t (.ofInt (msb - highOffset)) (.ofInt (lsb + lowOffset))
    | used =>
      let kept ← o.trim widths lowOffset highOffset (used.length - 1) 0 used.reverse
      return .part (.concat kept.reverse) (.ofInt (msb - highOffset)) (.ofInt (lsb + lowOffset))

def takePart (items : List Tree) (msb lsb : Scalar) : Result Tree := do
  let widths ← items.reverse.mapM o.width
  let msb ← msb.toInt
  let lsb ← lsb.toInt
  o.takeBits items (← widths.mapM Scalar.toInt) (min msb lsb) (max msb lsb)

/-! ## Neighbours in a concatenation -/

/-- Joins neighbours that are values; `run` holds the last values, `done` the nodes, both last
one first. -/
def joinValues : (run : List (Scalar × Scalar)) → (done : List Tree) → List Tree →
    Result (List Tree)
  | _, done, [] => pure done.reverse
  | run, done, .value v w _ _ :: ts => do
    let run' := (v, w) :: run
    let joined ← o.evalConcat run'.reverse
    joinValues run' (joined :: if run.isEmpty then done else done.tail) ts
  | _, done, t :: ts => joinValues [] (t :: done) ts

/-- Joins neighbours that are unknown; `sum` is the width of the last unknown node. -/
def joinUnknowns : (sum : Scalar) → (done : List Tree) → List Tree → Result (List Tree)
  | _, done, [] => pure done.reverse
  | sum, done, .unknown w :: ts => do
    let done := if ← sum.gt (.int 0) then done.tail else done
    let sum ← sum.add (o.valueWidth w)
    joinUnknowns sum (.unknown sum :: done) ts
  | _, done, t :: ts => joinUnknowns (.int 0) (t :: done) ts

/-- Two selections from one signal that touch, as one selection or the signal itself. -/
def joinParts (t u : Tree) : Result (Option Tree) :=
  match t, u with
  | .part (.term name) m l, .part (.term name') m' l' => do
    if !(name == name') then return none
    let low ← l.valueOf
    if !(low == (← (← m'.valueOf).add (.int 1))) then return none
    let width ← o.width (.term name)
    let size ← (← (← m.valueOf).sub (← l'.valueOf)).add (.int 1)
    return some (if width == size then .term name else .part (.term name) m l')
  | _, _ => pure none

def armOr (t other : Tree) : Result Tree :=
  if t.isHole then do return .unknown (← o.width other) else pure t

def joinBranches (t u : Tree) : Result (Option Tree) :=
  match t, u with
  | .branch c y n, .branch c' y' n' => do
    if !(← c.equal c') then return none
    let first ← o.armOr y n
    let yes := [first, ← o.armOr y' n']
    let second ← o.armOr n y
    let no := [second, ← o.armOr n' y']
    return some (.branch c (.concat yes) (.concat no))
  | _, _ => pure none

/-- Joins neighbours where the rule for two of them says so; `done` holds the nodes, last one
first. -/
def joinWith (rule : Tree → Tree → Result (Option Tree)) :
    (done : List Tree) → List Tree → Result (List Tree)
  | done, [] => pure done.reverse
  | [], t :: ts => joinWith rule [t] ts
  | last :: done, t :: ts => do
    match ← rule last t with
    | some joined => joinWith rule (joined :: done) ts
    | none => joinWith rule (t :: last :: done) ts

/-- Applies a step to the items of a concatenation; what is no concatenation stays. -/
def onItems (step : List Tree → Result Tree) : Tree → Result Tree
  | .concat items => step items
  | t => pure t

def mergeConcat (t : Tree) : Result Tree := do
  let t ← onItems (fun ts => do return .concat (← o.joinValues [] [] ts)) t
  let t ← onItems (fun ts => do return .concat (← o.joinUnknowns (.int 0) [] ts)) t
  let t ← onItems (fun ts => do return concatOrOne (← joinWith o.joinParts [] ts)) t
  onItems (fun ts => do return concatOrOne (← joinWith o.joinBranches [] ts)) t

/-! ## Operations -/

def wholeLog? (v : Scalar) : Option Int :=
  match v.int? with
  | some n =>
    if n ≤ 0 then none
    else
      let p := Real.logTwo n.toNat
      if (p.floorMod ⟨0x3ff0000000000000⟩).isZero then p.trunc? else none
  | none => none

def shiftOf? : Tree → Option Tree
  | .value v _ _ _ => (wholeLog? v).map .ofInt
  | _ => none

/-- Products and quotients by powers of two as shifts. -/
def replaceOperator (t : Tree) : Result Tree :=
  match t with
  | .op name args => do
    if name == "Times" then
      match shiftOf? (← element args 1) with
      | some n => Tree.mkOp "Sll" [← element args 0, n]
      | none =>
        match shiftOf? (← element args 0) with
        | some n => Tree.mkOp "Sll" [← element args 1, n]
        | none => return t
    else if name == "Divide" then
      match shiftOf? (← element args 1) with
      | some n => Tree.mkOp "Sra" [← element args 0, n]
      | none => return t
    else return t
  | _ => pure t

def onEqual? (name : String) (t : Tree) : Option Tree :=
  if ["And", "Or", "Land", "Lor"].contains name then some t
  else if ["LessThan", "GreaterThan", "NotEq", "NotEql"].contains name then some (bit false)
  else if ["LessEq", "GreaterEq", "Eq", "Eql"].contains name then some (bit true)
  else none

/-- An operation on two equal operands. -/
def mergeIdentical (t : Tree) : Result Tree :=
  match t with
  | .op name args => do
    if args.length = 1 then return t
    let left ← element args 0
    if ← left.equal (← element args 1) then return (onEqual? name left).getD t
    return t
  | _ => pure t

def firstOf : List (Result (Option Tree)) → Result (Option Tree)
  | [] => pure none
  | r :: rs => do
    match ← r with
    | some t => return some t
    | none => firstOf rs

def onlyIf (cond : Result Bool) (result : Result Tree) :
    Result (Option Tree) := do
  if ← cond then return some (← result) else return none

def opposed (name : String) (l r : Tree) : Result Bool := do
  if ← isNegation name l r then return true else isNegation name r l

def bitOrSelf (t : Tree) (b : Bool) : Result Tree := do
  if (← o.width t) == .int 1 then return bit b else return t

def staticAnd (t l r : Tree) : Result (Option Tree) :=
  let zero : Result Tree := do return .num (.int 0) (← o.width t)
  firstOf [
    onlyIf (isZero l) zero,
    onlyIf (isZero r) zero,
    onlyIf (opposed "Unot" l r) zero,
    onlyIf (opposed "Ulnot" l r) (o.bitOrSelf t false)]

def staticOr (t l r : Tree) : Result (Option Tree) :=
  let ones : Result Tree := do
    let width ← o.width t
    return .num (← Evaluate.operator "Unot" [.int 0] width) width
  firstOf [
    onlyIf (isZero l) (pure r),
    onlyIf (isZero r) (pure l),
    onlyIf (opposed "Unot" l r) ones,
    onlyIf (opposed "Ulnot" l r) (o.bitOrSelf t true)]

/-- Whether two comparisons agree in one operand and have different values for the other;
`i` and `j` are the places of the operand in which they agree. -/
def compareApart (ls rs : List Tree) (i j : Nat) : Result Bool := do
  if !(← (← element ls i).equal (← element rs j)) then return false
  match ← element ls (1 - i), ← element rs (1 - j) with
  | .value v _ _ _, .value w _ _ _ => return v != w
  | _, _ => return false

/-- Two comparisons for equality that cannot both hold. -/
def exclusive (l r : Tree) (i j : Nat) : Result Bool :=
  match argsOf? "Eq" l, argsOf? "Eq" r with
  | some ls, some rs => compareApart ls rs i j
  | _, _ => pure false

/-- A negated comparison for equality that follows from another comparison. -/
def implied (l r : Tree) (i : Nat) : Result Bool :=
  match argsOf? "Ulnot" l with
  | some args => do exclusive (← element args 0) r i 0
  | none => pure false

def staticLand (t l r : Tree) : Result (Option Tree) :=
  firstOf [
    onlyIf (isZero l) (pure (bit false)),
    onlyIf (isZero r) (pure (bit false)),
    onlyIf (isPositive l) (pure r),
    onlyIf (isPositive r) (pure l),
    onlyIf (opposed "Unot" l r) (o.bitOrSelf t false),
    onlyIf (opposed "Ulnot" l r) (pure (bit false)),
    onlyIf (exclusive l r 0 0) (pure (bit false)),
    onlyIf (exclusive l r 1 1) (pure (bit false)),
    onlyIf (exclusive l r 0 1) (pure (bit false)),
    onlyIf (exclusive l r 1 0) (pure (bit false)),
    onlyIf (implied l r 0) (pure r),
    onlyIf (implied l r 1) (pure r),
    onlyIf (implied r l 0) (pure l),
    onlyIf (implied r l 1) (pure l)]

/-- The common part of two conjunctions, if the part of the first at place `i` is the negation of
the first part of the second. -/
def common (l r : Tree) (i : Nat) : Result (Option Tree) :=
  match argsOf? "Land" l, argsOf? "Land" r with
  | some ls, some rs => do
    if !(← isNegation "Ulnot" (← element ls i) (← element rs 0)) then return none
    let rest ← element ls (1 - i)
    if ← rest.equal (← element rs 1) then return some rest else return none
  | _, _ => pure none

def staticLor (l r : Tree) : Result (Option Tree) :=
  firstOf [
    onlyIf (isZero l) (pure r),
    onlyIf (isZero r) (pure l),
    onlyIf (isPositive l) (pure (bit true)),
    onlyIf (isPositive r) (pure (bit true)),
    onlyIf (opposed "Unot" l r) (pure (bit true)),
    onlyIf (opposed "Ulnot" l r) (pure (bit true)),
    common l r 0,
    common l r 1,
    common r l 0,
    common r l 1]

/-- A conjunction or disjunction that one operand decides, or both together. -/
def mergeStatic (t : Tree) : Result Tree :=
  match t with
  | .op name args => do
    if args.length = 1 then return t
    let l ← element args 0
    let r ← element args 1
    let found ←
      if name == "And" then o.staticAnd t l r
      else if name == "Or" then o.staticOr t l r
      else if name == "Land" then o.staticLand t l r
      else if name == "Lor" then staticLor l r
      else pure none
    return found.getD t
  | _ => pure t

/-! ## Conjunctions and disjunctions -/

/-- The members of a conjunction or disjunction. -/
inductive Flat where
  | one (t : Tree)
  | many (ts : List Tree)

def Flat.members : Flat → List Tree
  | .one t => [t]
  | .many ts => ts

/-- The negation of a tree; a negation loses its operator. -/
def negated (t : Tree) : Result Tree :=
  match argsOf? "Ulnot" t with
  | some args => element args 0
  | none => Tree.mkOp "Ulnot" [t]

/-- The members without repetitions, in order; none if two of them are opposed. `kept` holds
those found so far, last one first. -/
def distinct : (kept : List Tree) → List Tree → Result (Option (List Tree))
  | kept, [] => pure (some kept.reverse)
  | kept, t :: ts => do
    let n ← negated t
    if ← n.elemOf kept.reverse then return none
    if ← t.elemOf kept.reverse then distinct kept ts else distinct (t :: kept) ts

def sortByCode (ts : List Tree) : Result (List Tree) := do
  let keyed ← ts.mapM fun t => do return (t, (← t.toCode (some "dest")).toList)
  return (keyed.mergeSort fun a b => compare a.2 b.2 != .lt).map Prod.fst

/-- The members of two sides put together; `opposite` stands for opposed members. -/
def flatten (opposite : Tree) (left right : Flat) : Result Flat := do
  match ← distinct [] (left.members ++ right.members) with
  | some ts => return .many (← sortByCode ts)
  | none => return .many [opposite]

def chain (name : String) : Flat → Result Tree
  | .one t => pure t
  | .many [] => pure .hole
  | .many (t :: ts) => ts.foldlM (fun acc u => Tree.mkOp name [acc, u]) t

def landMembers : Tree → Result Flat
  | .op name args =>
    if name == "Land" then
      match args with
      | a :: b :: _ => do
        let left ← landMembers a
        flatten (bit false) left (← landMembers b)
      | [a] => do
        let _ ← landMembers a
        throw .badPosition
      | [] => throw .badPosition
    else pure (.one (.op name args))
  | t => pure (.one t)

def mergeLand (t : Tree) : Result Tree := do chain "Land" (← landMembers t)

def lorMembers : Tree → Result Flat
  | .op name args =>
    if name == "Land" then do return .one (← mergeLand (.op name args))
    else if name == "Lor" then
      match args with
      | a :: b :: _ => do
        let left ← lorMembers a
        flatten (bit true) left (← lorMembers b)
      | [a] => do
        let _ ← lorMembers a
        throw .badPosition
      | [] => throw .badPosition
    else pure (.one (.op name args))
  | t => pure (.one t)

def mergeLor (t : Tree) : Result Tree := do chain "Lor" (← lorMembers t)

/-! ## The whole -/

def simplifyPart (var msb lsb : Tree) : Result Tree :=
  match msb, lsb with
  | .value m _ _ _, .value l _ _ _ =>
    match var with
    | .concat items => o.takePart items m l
    | _ => do
      if l == .int 0 then
        if (← o.width var) == (← m.add (.int 1)) then return var
      return .part var msb lsb
  | _, _ => pure (.part var msb lsb)

def simplifyItem (var ptr : Tree) : Result Tree :=
  match var, ptr with
  | .concat items, .value p _ _ _ => o.takePart items p p
  | _, _ => pure (.item var ptr)

def simplifyOp (name : String) (args : List Tree) : Result Tree := do
  let t ← replaceOperator (← Tree.mkOp name args)
  let t ← mergeIdentical t
  let t ← o.mergeStatic t
  mergeLor t

def simplifyBranch (cond yes no : Tree) : Result Tree :=
  match cond with
  | .value v _ _ _ => pure (if isTrue v then yes else no)
  | _ => do
    if ← yes.equal no then return yes
    return .branch cond yes no

mutual

def simplify : Tree → Result Tree
  | .branch cond yes no => do
    let cond ← simplify cond
    let yes ← simplify yes
    simplifyBranch cond yes (← simplify no)
  | .op name args => do o.simplifyOp name (← simplifyAll args)
  | .part var msb lsb => do
    let msb ← simplify msb
    let lsb ← simplify lsb
    o.simplifyPart (← simplify var) msb lsb
  | .item var ptr => do
    let ptr ← simplify ptr
    o.simplifyItem (← simplify var) ptr
  | .concat items => do o.mergeConcat (.concat (← simplifyItems items))
  | .call name args => do return .call name (← simplifyAll args)
  | .const .plain _ => throw .unboundName
  | .delay _ => throw .unboundName
  | t => pure t

def simplifyAll : List Tree → Result (List Tree)
  | [] => pure []
  | t :: ts => do return (← simplify t) :: (← simplifyAll ts)

/-- The simplified items of a concatenation. The items of an inner concatenation take its place
as they are. -/
def simplifyItems : List Tree → Result (List Tree)
  | [] => pure []
  | .concat inner :: ts => do return inner ++ (← simplifyItems ts)
  | t :: ts => do return (← simplify t) :: (← simplifyItems ts)

end

def optimizeTimes : Nat → Tree → Result Tree
  | 0, t => pure t
  | n + 1, t => do optimizeTimes n (← o.simplify (← o.fold t))

/-- Folds and simplifies a tree as often as the level says. -/
def optimize (t : Tree) : Result Tree := o.optimizeTimes o.level t

end RtlFlow.Optimizer
