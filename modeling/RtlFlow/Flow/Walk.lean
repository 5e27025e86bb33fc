import RtlFlow.Flow.Merge

/-!
# Walking through definitions

Walking replaces every signal in a tree by its definition, down to the inputs of the top module and
to registers. A signal on whose definition the walk already is stays as it is, so that a loop does
not go on for ever.
-/

namespace RtlFlow.Netlist

attribute [local instance (2000)] Zero.ofOfNat0 instPowNat

variable (n : Netlist)

/-- Where a walk is: the signals on the way, and the bits and the element that are selected. -/
structure Walk where
  visited : List Path := []
  step : Int := 0
  bits : Option (Tree × Tree) := none
  ptr : Tree := .hole

def Walk.inner (w : Walk) : Walk := { w with bits := none, ptr := .hole }

/-- What a walk does at a signal: it stays, or it goes on with the definition. -/
inductive Turn where
  | stay
  | go (ptr : Tree) (step : Int)

def Walk.hasBits (w : Walk) : Bool :=
  match w.bits with
  | some (m, l) => !m.isHole && !l.isHole
  | none => false

def turn (w : Walk) (name : Path) : Result Turn := do
  if w.visited.contains name then return .stay
  let kinds ← n.kinds name
  if name.length = 2 && kinds.contains "Input" then return .stay
  let array := SignalKind.isArray kinds
  if array && w.ptr.isHole then throw (.format "Array variable requires an pointer.")
  if array && w.hasBits then return .stay
  let ptr := if array then w.ptr else .hole
  let register := (kinds.contains "Reg" || kinds.contains "RegArray") &&
    !n.isCombination name && !kinds.contains "Rename"
  if register then
    if w.step = 0 then return .stay
    return .go ptr (w.step - 1)
  return .go ptr w.step

/-- A selection from a selection, as one selection. The places of the outer one are counted from
the low end of the signal. -/
def shiftPart (var msb lsb inner innerLsb : Tree) : Result Tree := do
  let low ← match n.termNamed? (← var.name) with
    | some t => t.lsb.eval
    | none => throw .noMember
  let shifted (t : Tree) : Result Tree := do
    let v ← (← (← t.eval).add (← innerLsb.eval)).sub low
    return .const .int v.toText
  let msb ← shifted msb
  return .part inner msb (← shifted lsb)

def replacesItem (name : Path) (walked : Tree) : Result Bool := do
  if !SignalKind.isArray (← n.kinds name) then return false
  match walked with
  | .term name' => return !(name' == name)
  | _ => return true

mutual

/-- A tree with its signals replaced; `expand` goes on with the definition of a signal. -/
def walkWith (expand : Walk → Tree → Result Tree) (w : Walk) : Tree → Result Tree
  | .hole => pure (.unknown (.int 32))
  | .term name => do
    match ← n.turn w name with
    | .stay => return .term name
    | .go ptr step => do
      let definition ← n.tree name ptr
      expand { visited := name :: w.visited, step } definition
  | .unbound => throw .wrongKind
  | .branch cond yes no => do
    let cond ← walkWith expand w.inner cond
    let yes ← walkWith expand w.inner yes
    return .branch cond yes (← walkWith expand w.inner no)
  | .op name args => do Tree.mkOp name (← walkAll expand w args)
  | .part var msb lsb => do
    let msb ← walkWith expand w.inner msb
    let lsb ← walkWith expand w.inner lsb
    let walked ← walkWith expand { w.inner with bits := some (msb, lsb) } var
    match walked with
    | .part inner _ innerLsb => n.shiftPart var msb lsb inner innerLsb
    | t => return .part t msb lsb
  | .item var ptr => do
    let ptr ← walkWith expand w.inner ptr
    let walked ← walkWith expand { w.inner with ptr } var
    match var with
    | .term name => do
      if ← n.replacesItem name walked then return walked
      return .item walked ptr
    | _ => return .item walked ptr
  | .concat items => do return .concat (← walkAll expand w items)
  | .delay next => throw (strange (.delay next))
  | .call name args => throw (strange (.call name args))
  | t => pure t

@[inherit_doc walkWith]
def walkAll (expand : Walk → Tree → Result Tree) (w : Walk) :
    List Tree → Result (List Tree)
  | [] => pure []
  | t :: ts => do return (← walkWith expand w.inner t) :: (← walkAll expand w ts)

end

def walkBounded : Nat → Walk → Tree → Result Tree
  | 0, _, _ => throw .tooDeep
  | k + 1, w, t => n.walkWith (walkBounded k) w t

/-- A bound for the definitions that a walk goes on with, one in the other. Of the names that match
one key, those with the same kinds match each other, and only one of them is visited. -/
def walkBound : Nat := (n.terms.keys.map fun k => ScopeKind.all.length ^ k.length).sum + 2

def walkTree (w : Walk) (t : Tree) : Result Tree := n.walkBounded n.walkBound w t

/-- The definition of a signal, walked; what is unknown in it stands for the signal itself. -/
def walkName (name : Path) (shown : String) (step : Int) : Result Tree := do
  if !n.terms.contains name then throw (.definition ("No such signals: " ++ shown))
  let t ← n.tree name
  Tree.fill (.term name) (← n.walkTree { step := step } t)

end RtlFlow.Netlist
