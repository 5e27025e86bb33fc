import RtlFlow.Flow.Netlist

/-!
# Merging bindings

A signal can have several bindings, for slices of it that may overlap. They are split at all ends
of slices that lie inside another one, the trees of equal slices are merged, and the slices are put
side by side.
-/

namespace RtlFlow

/-- The bits of a signal, or of one of its elements. -/
structure BitRange where
  msb : Int
  lsb : Int
  ptr : Scalar := .none
deriving DecidableEq, Repr, Inhabited

namespace BitRange

def has (r : BitRange) (p : Int) : Bool := r.lsb ≤ p && p ≤ r.msb

/-- The part of each range of a list that a new range meets with one of its ends. An end of the
new range that lies outside is replaced by the end of the old one. -/
def matched (old : List BitRange) (new : BitRange) : List BitRange :=
  old.filterMap fun r =>
    if new.ptr != .none && r.ptr != new.ptr then none
    else if r.has new.lsb || r.has new.msb then
      some ⟨if r.has new.msb then new.msb else r.msb, if r.has new.lsb then new.lsb else r.lsb,
        new.ptr⟩
    else none

structure Rest where
  ends : Option (Int × Int) := none
  last : Option Int := none
  between : List BitRange := []

def unmatched (found : List BitRange) (new : BitRange) : List BitRange :=
  let sorted := found.mergeSort fun a b => a.msb ≤ b.msb
  let rest := sorted.foldl (fun (rest : Rest) r =>
    if new.ptr != .none && r.ptr != new.ptr then rest
    else
      { ends := match rest.ends with
          | none => some (r.lsb, r.msb)
          | some (lo, hi) => some (min r.lsb lo, max r.msb hi)
        last := some r.msb
        between := match rest.last with
          | some m => if m + 1 > r.lsb then rest.between ++ [⟨m + 1, r.lsb - 1, r.ptr⟩]
            else rest.between
          | none => rest.between }) {}
  match rest.ends with
  | none => [new]
  | some (lo, hi) =>
    rest.between ++ (if new.lsb < lo then [⟨new.lsb, lo - 1, new.ptr⟩] else []) ++
      (if hi < new.msb then [⟨hi + 1, new.msb, new.ptr⟩] else [])

/-- The places at which matched ranges are split. The element of an array cannot be looked up
here. -/
def positions (found : List BitRange) (ptr : Scalar) : Result (List Int) :=
  if ptr != .none && !found.isEmpty then throw .unboundName
  else pure (found.flatMap fun r => [r.lsb, r.msb + 1])

end BitRange

def sortedSet (ns : List Int) : List Int :=
  (ns.foldl (fun acc n => if acc.contains n then acc else n :: acc) []).mergeSort (· ≤ ·)

namespace Binding

/-! ## Slices side by side -/

/-- The place of a binding among the bits of its signal; `declared` gives the declaration of the
signal. -/
def position (o : Optimizer) (declared : Path → Result Term) (b : Binding) :
    Result Scalar := do
  let lsb ← if b.lsb.isHole then pure (.int 0) else b.lsb.valueOf
  let ptr : Scalar := match b.ptr with
    | .value v _ _ _ => v
    | _ => .int 0
  let t ← declared b.dest
  let msb ← (← o.optimize t.msb).valueOf
  let length ← Optimizer.span msb (← (← o.optimize t.lsb).valueOf)
  (← ptr.mul length).add lsb

def sorted (o : Optimizer) (declared : Path → Result Term) (bs : List Binding) :
    Result (List Binding) := do
  let keyed ← bs.mapM fun b => do return (b, ← b.position o declared)
  if keyed.length > 1 then
    for (_, k) in keyed do
      let _ ← k.lt (.int 0)
  return (keyed.mergeSort fun a b => match b.2.lt a.2 with
    | .ok less => !less
    | .error _ => true).map Prod.fst

def item (b : Binding) : Scalar :=
  match b.ptr with
  | .value v _ _ _ => v
  | _ => .int (-1)

/-- The trees of bindings side by side, lowest first. A gap is filled with unknown bits; `last`
and `ptr` are the highest bit and the element of the last binding. -/
def sideBySide (last ptr : Scalar) : List Binding → Result (List Tree)
  | [] => pure []
  | b :: bs => do
    let lsb ← if b.lsb.isHole then pure (.int 0) else b.lsb.valueOf
    if ptr != b.item then sideBySide last ptr bs
    else
      let gap ← if ← (← last.add (.int 1)).lt lsb then do
          pure [Tree.unknown (← (← last.sub lsb).sub (.int 1))]
        else pure []
      let msb ← if b.msb.isHole then pure (.int (-1)) else b.msb.valueOf
      return gap ++ b.tree :: (← sideBySide msb b.item bs)

def joined (o : Optimizer) (declared : Path → Result Term) (bs : List Binding) :
    Result Tree := do
  let trees ← sideBySide (.int (-1)) (.int (-1)) (← sorted o declared bs)
  return .concat trees.reverse

end Binding

namespace Netlist

variable (n : Netlist)

def intOf (t : Tree) : Result Int := do (← t.valueOf).toInt

def declaredRange (name : Path) : Result (Tree × Tree) := do
  let t ← n.termAt name
  let msb ← n.optimizer.fold t.msb
  return (msb, ← n.optimizer.fold t.lsb)

/-! ## Splitting -/

def splitStep (acc : List BitRange × List Int) (b : Binding) :
    Result (List BitRange × List Int) := do
  let ptr ← n.optimizer.fold b.ptr
  let msb ← n.optimizer.fold b.msb
  let lsb ← n.optimizer.fold b.lsb
  let (msb, lsb) ← if msb.isHole && lsb.isHole then n.declaredRange b.dest
    else if msb.isValue && lsb.isValue then pure (msb, lsb)
    else throw .unboundName
  let ptr? ← match ptr with
    | .hole => pure (some Scalar.none)
    | .value v _ _ _ => pure (some v)
    | _ => pure none
  match ptr? with
  | none => return acc
  | some ptr =>
    let msb ← intOf msb
    let new : BitRange := ⟨msb, ← intOf lsb, ptr⟩
    let found := BitRange.matched acc.1 new
    let rest := BitRange.unmatched found new
    let positions ← BitRange.positions found ptr
    return (acc.1 ++ found ++ rest, acc.2 ++ positions)

/-- The places at which the bindings of a signal are split. -/
def splitPositions (bs : List Binding) : Result (List Int) := do
  let (_, positions) ← bs.foldlM n.splitStep ([], [])
  return sortedSet positions

def sliceOf (b : Binding) : Result (Tree × Tree) := do
  let msb ← n.optimizer.fold b.msb
  let lsb ← n.optimizer.fold b.lsb
  let ptr ← n.optimizer.fold b.ptr
  let (msb, lsb) ← if (!ptr.isHole && msb.isHole) || lsb.isHole then do
      let kinds ← n.kinds b.dest
      if SignalKind.isArray kinds then throw .unsetLocal
      pure (ptr, ptr)
    else pure (msb, lsb)
  if (ptr.isHole && msb.isHole) || lsb.isHole then n.declaredRange b.dest
  else return (msb, lsb)

def selectBits (t : Tree) (msb lsb : Int) : Result Tree :=
  (Tree.part t (.ofInt msb) (.ofInt lsb)).reorder

/-- The two parts of a binding on either side of a place, the higher one first; no second part if
the place does not lie inside its slice. -/
def splitBinding (b : Binding) (place : Int) : Result (Binding × Option Binding) := do
  let (msb, lsb) ← n.sliceOf b
  let low ← intOf lsb
  if !(place > low) then return (b, none)
  let high ← intOf msb
  if !(place ≤ high) then return (b, none)
  let right ← selectBits b.tree (place - low - 1) 0
  let left ← selectBits b.tree high place
  let right ← n.optimizer.optimize right
  let left ← n.optimizer.optimize left
  return ({ b with tree := left, msb := .ofInt high, lsb := .ofInt place },
    some { b with tree := right, msb := .ofInt (place - 1), lsb := .ofInt low })

def splitAtPlaces (b : Binding) : List Int → Result (List Binding)
  | [] => pure [b]
  | p :: ps => do
    let (left, right) ← n.splitBinding b p
    return right.toList ++ (← splitAtPlaces left ps)

def splitBindings (places : List Int) : List Binding → Result (List Binding)
  | [] => pure []
  | b :: bs => do
    let here ← n.splitAtPlaces b places
    return here ++ (← splitBindings places bs)

/-! ## Merging -/

/-- A tree in all missing arms of another. -/
def appendTail (tail : Tree) : Tree → Tree
  | .hole => tail
  | .branch cond yes no => .branch cond (appendTail tail yes) (appendTail tail no)
  | t => t

/-- Two bindings of the same bits as one tree. -/
def mergeTree : Tree → Tree → Result Tree
  | .branch c y n', .branch c' y' n'' => do
    let first ← n.optimizer.optimize c
    let second ← n.optimizer.optimize c'
    if ← first.equal second then
      let yes ← mergeTree y y'
      return .branch first yes (← mergeTree n' n'')
    return .branch second (appendTail (.branch c y n') y') (appendTail (.branch c y n') n'')
  | .hole, t => pure t
  | t, .hole => pure t
  | .branch c y n', t => do
    return .branch (← n.optimizer.optimize c) (appendTail t y) (appendTail t n')
  | t, .branch c y n' => do
    return .branch (← n.optimizer.optimize c) (appendTail t y) (appendTail t n')
  | _, t => pure t

def differentItems (a b : Binding) : Bool :=
  match a.ptr, b.ptr with
  | .value v _ _ _, .value w _ _ _ => v != w
  | _, _ => false

def sameBits (a b : Binding) : Result Bool := do
  if differentItems a b then return false
  if a.lsb.isHole || b.lsb.isHole || b.msb.isHole then return false
  let low ← a.lsb.valueOf
  if !(low == (← b.lsb.valueOf)) then return false
  let high ← a.msb.valueOf
  return high == (← b.msb.valueOf)

/-- Merges neighbours for the same slice; `done` holds the bindings, last one first. -/
def mergeNeighbours : (done : List Binding) → List Binding → Result (List Binding)
  | done, [] => pure done.reverse
  | [], b :: bs => mergeNeighbours [b] bs
  | last :: done, b :: bs => do
    if ← sameBits last b then
      let t ← n.optimizer.optimize (← n.mergeTree last.tree b.tree)
      mergeNeighbours ({ b with tree := t } :: done) bs
    else mergeNeighbours (b :: last :: done) bs

def mergeBindings (bs : List Binding) : Result (List Binding) := do
  n.mergeNeighbours [] (← Binding.sorted n.optimizer n.termAt bs)

def mergedTree (bs : List Binding) : Result Tree := Binding.joined n.optimizer n.termAt bs

/-- The bindings of a signal, split where others begin or end and merged. -/
def optimizedBindings (bs : List Binding) : Result (List Binding) := do
  let bs ← bs.mapM fun b => do
    let tree ← n.optimizer.optimize b.tree
    let msb ← n.optimizer.optimize b.msb
    let lsb ← n.optimizer.optimize b.lsb
    return { b with tree, msb, lsb, ptr := ← n.optimizer.optimize b.ptr }
  if bs.length ≤ 1 then return bs
  let places ← n.splitPositions bs
  n.mergeBindings (← n.splitBindings places bs)

/-! ## The tree of a signal -/

/-- Bindings by the elements of an array that they are for; none if one of them has no fixed
element. -/
def byItem? (bs : List Binding) : Option (Table Scalar (List Binding)) :=
  bs.foldlM (fun table b => match b.ptr with
    | .value v _ _ _ => some (table.put v ((table.get? v).getD [] ++ [b]))
    | _ => none) {}

def itemTree (bs : List Binding) : Result Tree :=
  match bs with
  | [b] => pure b.tree
  | bs => n.mergedTree bs

def itemAt (table : Table Scalar (List Binding)) (v : Scalar) : Result (List Binding) :=
  orThrow .noEntry (table.get? v)

def arrayTree (table : Table Scalar (List Binding)) (ptr : Tree) : Result Tree := do
  let keys ← table.keys.mapM Scalar.toInt
  let low := keys.foldl min (keys.headD 0)
  let high := keys.foldl max (keys.headD 0)
  (List.range (high - low + 1).toNat).foldlM (fun rest (i : Nat) => do
    let c := low + i
    let t ← n.itemTree (← itemAt table (.int c))
    return .branch (← Tree.mkOp "Eq" [.ofInt c, ptr]) t rest) .hole

/-- The definition of a signal. -/
def tree (name : Path) (ptr : Tree := .hole) : Result Tree := do
  let bs ← n.optimizedBindings (n.resolvedBindings name)
  if bs.isEmpty then return .hole
  let kinds ← n.kinds name
  if SignalKind.isArray kinds then
    match byItem? bs, ptr with
    | none, _ => return .term name
    | some table, .value v _ _ _ => n.itemTree (← itemAt table v)
    | some table, _ => n.arrayTree table ptr
  else
    match bs with
    | [b] => return b.tree
    | bs => do n.optimizer.optimize (← n.mergedTree bs)

end Netlist

end RtlFlow
