import RtlFlow.Control.Analyzer

/-!
# Active conditions by ranges

The conditions of a signal as ranges of the signals they compare. A condition is a table of terms,
and a list of conditions is a disjunction. Terms and conditions are kept in a store and changed in
place, so that one term can stand in several conditions.
-/

namespace RtlFlow.Active

/-- A signal in some ranges. A missing upper end is open. -/
structure Term where
  name : Path
  ranges : Limits := []
  min : Scalar := .int 0
  max : Scalar := .int 0
deriving Repr, Inhabited

structure Store where
  terms : Array Term := #[]
  conds : Array (Table Path Nat) := #[]
deriving Inhabited

abbrev M := EStateM Fault Store

/-- A term, a condition or a list of conditions, by number. -/
inductive Item where
  | term (i : Nat)
  | cond (i : Nat)
  | list (members : List Item)
deriving Repr, Inhabited

/-! ## Terms -/

namespace Term

/-- Ranges by their low ends; open low ends cannot be compared. -/
def sortRanges (rs : Limits) : Result Limits :=
  Machine.sortByKey Prod.fst rs

/-- The complement of a term. A term without a range has none. -/
def invert (t : Term) : Result Term := do
  if t.ranges.isEmpty then return t
  let rs ← sortRanges t.ranges
  let rs ← Ranges.ofScalars (rs.map fun r => (r.1, if r.2 == .none then t.max else r.2))
  let low ← t.min.toInt
  return { t with ranges := Ranges.toScalars (Ranges.compl low (← t.max.toInt) rs) }

def toText (t : Term) : String :=
  Text.dropEnd 2 ("(" ++ t.name.code ++ " " ++ String.join (t.ranges.map fun r =>
    r.1.toText ++ ":" ++ r.2.toText ++ ", ")) ++ ")"

def toCode (t : Term) : String :=
  Text.dropEnd 2 ("(" ++ String.join (t.ranges.map fun r =>
    "(" ++ r.1.toText ++ "<=" ++ t.name.code ++
      (if r.2 == .none then "" else "&&" ++ t.name.code ++ "<=" ++ r.2.toText) ++ ")||")) ++ ")"

def rangeTree (t : Term) (r : Scalar × Scalar) : Tree :=
  let low := Tree.op "LessEq" [.num r.1, .term t.name]
  if r.2 == .none then low
  else .op "Land" [low, .op "GreaterEq" [.term t.name, .num r.2]]

def joinTrees (name : String) : List Tree → Result Tree
  | [] => pure .hole
  | t :: ts => ts.foldlM (fun acc u => if acc.isHole then pure u else Tree.mkOp name [acc, u]) t

def toTree (t : Term) : Result Tree := joinTrees "Lor" (t.ranges.map t.rangeTree)

def satisfies (t : Term) (v : Scalar) : Result Bool := do
  let rs ← sortRanges t.ranges
  for r in rs do
    if ← r.1.le v then
      if ← v.le r.2 then return true
  return false

def meet (a b : Term) : Result Limits := do
  let as ← sortRanges a.ranges
  let bs ← sortRanges b.ranges
  if as.isEmpty || bs.isEmpty then return []
  let as ← Ranges.ofScalars as
  return Ranges.toScalars (Ranges.inter as (← Ranges.ofScalars bs))

def same (a b : Term) : Bool :=
  a.name == b.name && a.ranges == b.ranges && a.min == b.min && a.max == b.max

end Term

/-! ## The store -/

def getTerm (i : Nat) : M Term := do return (← get).terms.getD i default

def setTerm (i : Nat) (t : Term) : M Unit :=
  modify fun s => { s with terms := s.terms.setIfInBounds i t }

def newTerm (t : Term) : M Item := do
  let i := (← get).terms.size
  modify fun s => { s with terms := s.terms.push t }
  return .term i

def getCond (i : Nat) : M (Table Path Nat) := do return (← get).conds.getD i {}

def setCond (i : Nat) (c : Table Path Nat) : M Unit :=
  modify fun s => { s with conds := s.conds.setIfInBounds i c }

def newCond (c : Table Path Nat := {}) : M Nat := do
  let i := (← get).conds.size
  modify fun s => { s with conds := s.conds.push c }
  return i

def invertTerm (i : Nat) : M Unit := do
  let t ← getTerm i
  setTerm i (← lift t.invert)

/-- Puts a term into a condition. If there is one for the signal, that one is narrowed to the
common ranges. -/
def setIn (cond : Nat) (name : Path) (i : Nat) : M Unit := do
  let c ← getCond cond
  match c.get? name with
  | none => setCond cond (c.put name i)
  | some j => do
    let a ← getTerm j
    let b ← getTerm i
    setTerm j { a with ranges := ← lift (a.meet b) }

def resolve (cond : Nat) : M Unit := do
  let c ← getCond cond
  let s ← get
  setCond cond ⟨c.entries.filter fun e => !(s.terms.getD e.2 default).ranges.isEmpty⟩

/-- Puts a term or the terms of a condition into a condition. -/
def putIn (cond : Nat) : Item → M Unit
  | .term i => do setIn cond (← getTerm i).name i
  | .cond i => do (← getCond i).entries.forM fun (name, i) => setIn cond name i
  | .list _ => throw .noMember

/-- A new condition with the terms of several items. -/
def joined (items : List Item) : M Nat := do
  let c ← newCond
  items.forM (putIn c)
  return c

def condNumber : Item → M Nat
  | .cond i => pure i
  | _ => throw .noMember

/-! ## Operations -/

def spreadTerm (i : Nat) (cs : List Item) : M Item := do
  let name := (← getTerm i).name
  for c in cs do
    match c with
    | .cond c => setIn c name i
    | _ => throw .wrongKind
  return .list cs

/-- The conjunction. A term is put into the conditions of a list in their places. -/
def and (left right : Option Item) : M (Option Item) := do
  match left, right with
  | some (.term i), some (.list cs) | some (.list cs), some (.term i) =>
    return some (← spreadTerm i cs)
  | some (.cond i), some (.list cs) => do
    return some (.list (← cs.mapM fun c => return .cond (← joined [.cond i, c])))
  | some (.list cs), some (.cond j) => do
    let conds ← cs.mapM fun c => do return Item.cond (← joined [.cond (← condNumber c), .cond j])
    return some (.list conds)
  | some (.list cs), some (.list ds) => do
    let conds ← ds.mapM fun d => cs.mapM fun c => do
      return Item.cond (← joined [.cond (← condNumber c), d])
    return some (.list conds.flatten)
  | some l, some r => return some (.cond (← joined [l, r]))
  | _, _ => return none

def asConds : Item → M (List Item)
  | .term i => do return [.cond (← joined [.term i])]
  | .cond i => return [.cond i]
  | .list cs => return cs

def or (left right : Option Item) : M (Option Item) := do
  match left, right with
  | some l, some r => do
    let ls ← asConds l
    return some (.list (ls ++ (← asConds r)))
  | _, _ => return none

/-- The negation. Of a list of conditions there is none; the terms of its first two conditions
are inverted all the same. -/
def not (item : Option Item) : M (Option Item) := do
  match item with
  | some (.term i) => do
    invertTerm i
    return some (.term i)
  | some (.cond i) => do
    let cs ← (← getCond i).entries.mapM fun (name, t) => do
      invertTerm t
      let c ← newCond
      setIn c name t
      return Item.cond c
    return some (.list cs)
  | some (.list (a :: b :: _)) => do
    let left ← getCond (← condNumber a)
    let right ← getCond (← condNumber b)
    for (_, l) in left.entries do
      invertTerm l
      for (_, r) in right.entries do
        invertTerm r
    return none
  | _ => return none

/-! ## Written forms of conditions -/

def Store.termsOf (s : Store) (c : Table Path Nat) : List Term :=
  c.values.map fun i => s.terms.getD i default

def Store.condText (s : Store) (c : Table Path Nat) : String :=
  if c.size = 0 then "(empty)"
  else
    let byName := c.entries.mergeSort fun a b => compare a.1.dotted.toList b.1.dotted.toList != .gt
    "(" ++ Text.joinWith " && " ((s.termsOf ⟨byName⟩).map Term.toText) ++ ")"

def Store.condCode (s : Store) (c : Table Path Nat) : String :=
  if c.size = 0 then "1" else "(" ++ Text.joinWith "&&" ((s.termsOf c).map Term.toCode) ++ ")"

def Store.condTree (s : Store) (c : Table Path Nat) : Result Tree := do
  if c.size = 0 then return .ofInt 1
  Term.joinTrees "Land" (← (s.termsOf c).mapM Term.toTree)

/-! ## Conditions of trees -/

def compareTerm (n : Netlist) (op : String) (name : Path) (other : Tree) : M (Option Item) := do
  let i ← lift (Inferred.infer op other)
  let max ← lift (do maxValue (← n.signalWidth name))
  return some (← newTerm ⟨name, [(i.min, i.max)], .int 0, max⟩)

def valueOf? : Tree → Option Scalar
  | .value v _ _ _ => some v
  | _ => none

def notUnless (keep : Bool) (item : Option Item) : M (Option Item) :=
  if keep then pure item else not item

/-- A comparison of two trees that are no signals; `keep` tells for which values of one side the
other side holds. -/
def compareItems (keep : Scalar → Result Bool) (l r : Tree) (left right : Option Item)
    (otherwise : M (Option Item)) : M (Option Item) := do
  match left, right, valueOf? l, valueOf? r with
  | some _, none, _, some v => notUnless (← lift (keep v)) left
  | none, some _, some v, _ => notUnless (← lift (keep v)) right
  | _, _, _, _ => otherwise

def walkDual (n : Netlist) (op : String) (l r : Tree) (left right : M (Option Item)) :
    M (Option Item) := do
  let combine (f : Option Item → Option Item → M (Option Item)) : M (Option Item) := do
    let a ← left
    let b ← right
    match a, b with
    | none, some _ => return b
    | some _, none => return a
    | _, _ => f a b
  if SignalKind.isOr op then combine or
  else if SignalKind.isAnd op then combine and
  else match l, r with
    | .term name, _ => compareTerm n op name r
    | _, .term name => compareTerm n (exchanged op) name l
    | _, _ =>
      if op == "Eq" then do
        let a ← left
        let b ← right
        compareItems (fun v => v.gt (.int 0)) l r a b (and a b)
      else if op == "NotEq" then do
        let a ← left
        let b ← right
        compareItems (fun v => pure (v == .int 0)) l r a b (pure none)
      else return none

def walk (n : Netlist) : Tree → M (Option Item)
  | .term name => compareTerm n "GreaterThan" name (.ofInt 0)
  | .op op [a] => do
    let item ← walk n a
    if SignalKind.isNot op then not item else return none
  | .op op [l, r] => walkDual n op l r (walk n l) (walk n r)
  | _ => return none

def infer (n : Netlist) (conds : List Tree) : M (Option Item) :=
  conds.foldlM (fun acc c => do
    let item ← walk n c
    match acc with
    | none => return item
    | some a => and (some a) item) none

/-- The numbers of the conditions of an item, without empty terms. A condition without any term
is left out unless it stands in a list. -/
def conditionsOf (dropEmptyTerm : Bool) : Option Item → M (List Nat)
  | none => return []
  | some (.term i) => do
    if dropEmptyTerm && (← getTerm i).ranges.isEmpty then return []
    return [← joined [.term i]]
  | some (.cond i) => do
    resolve i
    return if (← getCond i).entries.isEmpty then [] else [i]
  | some (.list cs) => cs.mapM fun c => do
    let i ← condNumber c
    resolve i
    return i

def inferAll (n : Netlist) (condlists : List (List Tree)) : M (List Item) := do
  let found ← condlists.foldlM (fun acc conds => do
    let here ← conditionsOf false (← infer n conds)
    return here.foldl (fun acc i => if acc.contains i then acc else acc ++ [i]) acc) []
  return found.map .cond

def inferCases (n : Netlist) (cs : Cases) : M (List (Item × Tree)) := do
  let found ← cs.entries.foldlM (fun (acc : List (Nat × Tree)) (conds, leaf) => do
    let here ← conditionsOf true (← infer n conds)
    return here.foldl (fun acc i =>
      if acc.any (·.1 == i) then acc else acc ++ [(i, leaf)]) acc) []
  return found.map fun e => (.cond e.1, e.2)

/-! ## Conditions of signals -/

def casesOf (n : Netlist) (name : Path) : Result Cases := do
  Cases.split (← n.controlTree name)

def condsWhere (test : Tree → Result Bool) (cs : Cases) :
    Result (List (List Tree)) := do
  let found ← cs.entries.mapM fun (conds, leaf) => do
    let conds ← Cases.dropResets conds
    return if ← test leaf then some conds else none
  return found.filterMap id

def activeConditions (n : Netlist) (name : Path) (mark : String) (bound : Scalar) :
    M (List Item) := do
  if !n.resolvedBinds.contains name then return []
  let cs ← lift (casesOf n name)
  let conds ← lift (condsWhere (fun t => match t with
    | .value v _ _ _ => Cases.compareBy mark v bound
    | _ => pure false) cs)
  inferAll n conds

/-- The conditions for the leaves that are the signal itself, or for the others. -/
def conditionsWhere (same : Bool) (n : Netlist) (name : Path) : M (List Item) := do
  if !n.resolvedBinds.contains name then return []
  let _ ← lift (n.kinds name)
  let cs ← lift (casesOf n name)
  let conds ← lift (condsWhere (fun t => pure (t.isSignal name == same)) cs)
  inferAll n conds

def changedConditions : Netlist → Path → M (List Item) := conditionsWhere false

def unchangedConditions : Netlist → Path → M (List Item) := conditionsWhere true

def changedAssignments (n : Netlist) (name : Path) : M (List (Item × Tree)) := do
  if !n.resolvedBinds.contains name then return []
  let _ ← lift (n.kinds name)
  let cs ← lift (casesOf n name)
  let changed ← lift (cs.entries.foldlM (fun (acc : Cases) (conds, leaf) => do
    let conds ← Cases.dropResets conds
    if leaf.isSignal name then return acc
    acc.add conds leaf) {})
  inferCases n changed

end RtlFlow.Active
