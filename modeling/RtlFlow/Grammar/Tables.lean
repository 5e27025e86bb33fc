import RtlFlow.Grammar.Lookahead

/-!
# Parsing tables

For each state and terminal the table says what to do: shift the terminal, reduce by a rule,
accept, or refuse. Where a shift and a reduction are both possible the precedences decide, and
where they do not the shift is kept. Of two reductions the rule that stands on the earlier line
is kept.
-/

namespace RtlFlow.Grammar

inductive Action where
  | shift (state : Nat)
  | reduce (rule : Nat)
  | accept
  /-- Operators that do not associate stand side by side. -/
  | refuse
deriving DecidableEq, Repr, Inhabited

inductive Method where
  | lalr
  | slr
deriving DecidableEq, Repr, Inhabited

def Method.word : Method → String
  | .lalr => "LALR"
  | .slr => "SLR"

def Method.ofWord (w : String) : Result Method :=
  if w == "LALR" then pure .lalr
  else if w == "SLR" then pure .slr
  else throw (.tables ("Unsupported method " ++ w))

structure ShiftReduce where
  state : Nat
  terminal : String
  shift : Bool
deriving DecidableEq, Repr, Inhabited

structure ReduceReduce where
  state : Nat
  chosen : Nat
  rejected : Nat
deriving DecidableEq, Repr, Inhabited

structure Tables where
  method : Method := .lalr
  names : Array String := #[]
  ids : Std.HashMap String Nat := {}
  nonterminal : Array Bool := #[]
  rules : Array Rule := #[]
  lefts : Array Nat := #[]
  actions : Array (Array (Option Action)) := #[]
  next : Array (Array Nat) := #[]
  shiftReduce : Array ShiftReduce := #[]
  reduceReduce : Array ReduceReduce := #[]
  reduced : Array Int := #[]
  log : Array String := #[]
deriving Inhabited

namespace Tables

/-! ## One entry -/

/-- An entry of a row, with the item that it comes from. -/
structure Cell where
  action : Option Action
  item : Item
deriving Inhabited

/-- What becomes of an entry when an item asks for another one. -/
inductive Verdict where
  | replace
  | refuse
  | keep
deriving DecidableEq

/-- Of two entries the one of the higher level stays. At the same level the entry is replaced if the
operators associate to the given side. -/
def contest (held asked : Nat) (assoc side : Assoc) : Verdict :=
  if held < asked || (held = asked && assoc = side) then .replace
  else if held = asked && assoc = .nonassoc then .refuse
  else .keep

/-- What becomes of a shift: the precedence of the rule that is shifted by, and that of the
terminal. -/
def reduceOver (shifted given : Precedence) : Verdict :=
  contest shifted.level given.level given.assoc .left

/-- What becomes of a reduction: the precedence of the terminal, and that of the rule that is reduced
by. -/
def shiftOver (given reduced : Precedence) : Verdict :=
  contest reduced.level given.level reduced.assoc .right

namespace Cell

/-- The verdict on the entry at a terminal `s` when an item is to be reduced. -/
def onReduce (g : Indexed) (s : Nat) (item : Item) (c : Cell) : Verdict :=
  match c.action with
  | none | some .refuse => .replace
  | some (.shift _) => reduceOver (g.rule c.item.rule).prec (g.prec.getD s {})
  | some (.reduce old) => if (g.rule old).line > (g.rule item.rule).line then .replace else .keep
  | some .accept => .keep

/-- The verdict on the entry at a terminal `s` when it is to be shifted. -/
def onShift (g : Indexed) (s : Nat) (c : Cell) : Verdict :=
  match c.action with
  | none | some .refuse => .replace
  | some (.reduce _) => shiftOver (g.prec.getD s {}) (g.rule c.item.rule).prec
  | _ => .keep

def turn (c : Cell) (x : Action) (item : Item) : Verdict → Cell
  | .replace => ⟨some x, item⟩
  | .refuse => { c with action := some .refuse }
  | .keep => c

def reduce (g : Indexed) (s : Nat) (item : Item) (c : Cell) : Cell :=
  c.turn (.reduce item.rule) item (c.onReduce g s item)

def shift (g : Indexed) (s : Nat) (item : Item) (target : Nat) (c : Cell) : Cell :=
  c.turn (.shift target) item (c.onShift g s)

end Cell

/-! ## One state -/

structure Build where
  tables : Tables
  cells : Array Cell
  logging : Bool
  /-- All entries that were possible: the symbol, the item, and what it would do. -/
  possible : Array (Nat × Item × String) := #[]
deriving Inhabited

namespace Build

def say (b : Build) (line : String) : Build :=
  if b.logging then { b with tables.log := b.tables.log.push line } else b

def cell (b : Build) (s : Nat) : Cell := b.cells.getD s default

def put (b : Build) (s : Nat) (c : Cell) : Build := { b with cells := b.cells.setIfInBounds s c }

def count (b : Build) (rule : Nat) (n : Int) : Build :=
  { b with tables.reduced := b.tables.reduced.modify rule (· + n) }

def name (b : Build) (s : Nat) : String := b.tables.names.getD s ""

/-- Notes a conflict that no precedence has settled. -/
def conflict (b : Build) (state s : Nat) (prec : Precedence) (shift : Bool) : Build :=
  if prec.level = 0 then
    let b := b.say ("  ! shift/reduce conflict for " ++ b.name s ++ " resolved as " ++
      (if shift then "shift" else "reduce"))
    { b with tables.shiftReduce := b.tables.shiftReduce.push ⟨state, b.name s, shift⟩ }
  else b

/-- Notes the reduction that gives way to that of an item. -/
def reject (b : Build) (a : Automaton) (state s : Nat) (kept : Item) (rejected : Nat) : Build :=
  let b := b.say ("  ! reduce/reduce conflict for " ++ b.name s ++ " resolved using rule " ++
    Text.ofInt kept.rule ++ " (" ++ a.itemText kept ++ ")")
  { b with tables.reduceReduce := b.tables.reduceReduce.push ⟨state, kept.rule, rejected⟩ }

def consider (b : Build) (s : Nat) (item : Item) (what : Unit → String) : Build :=
  if b.logging then { b with possible := b.possible.push (s, item, what ()) } else b

def addReduce (a : Automaton) (state : Nat) (item : Item) (b : Build) (s : Nat) :
    Result Build :=
  let c := b.cell s
  let kept := c.reduce a.grammar s item
  let b := (b.consider s item fun _ =>
    "reduce using rule " ++ Text.ofInt item.rule ++ " (" ++ a.itemText item ++ ")").put s kept
  match c.action, c.onReduce a.grammar s item with
  | some .accept, _ => throw (.tables ("Unknown conflict in state " ++ Text.ofInt state))
  | some (.shift _), .replace =>
    pure ((b.conflict state s (a.grammar.prec.getD s {}) false).count item.rule 1)
  | some (.shift _), .keep => pure (b.conflict state s (a.grammar.prec.getD s {}) true)
  | some (.reduce old), .replace =>
    pure (((b.count item.rule 1).count old (-1)).reject a state s kept.item old)
  | some (.reduce _), _ => pure (b.reject a state s kept.item item.rule)
  | _, .replace => pure (b.count item.rule 1)
  | _, _ => pure b

def addShift (a : Automaton) (state : Nat) (item : Item) (s target : Nat) (b : Build) :
    Result Build :=
  let c := b.cell s
  let reduced := (a.grammar.rule c.item.rule).prec
  let b := (b.consider s item fun _ => "shift and go to state " ++ Text.ofInt target).put s
    (c.shift a.grammar s item target)
  match c.action, c.onShift a.grammar s with
  | some .accept, _ => throw (.tables ("Unknown conflict in state " ++ Text.ofInt state))
  | some (.shift old), _ =>
    if old = target then pure b
    else throw (.tables ("Shift/shift conflict in state " ++ Text.ofInt state))
  | some (.reduce _), .replace => pure ((b.count c.item.rule (-1)).conflict state s reduced true)
  | some (.reduce _), .keep => pure (b.conflict state s reduced false)
  | _, _ => pure b

def addItem (a : Automaton) (ends : Nat → Item → Array Nat) (state : Nat) (b : Build)
    (item : Item) : Result Build :=
  match item.next? with
  | none =>
    if item.left = Indexed.startId then
      pure (b.put Indexed.endId ⟨some .accept, item⟩)
    else (ends state item).foldlM (addReduce a state item) b
  | some s =>
    if a.grammar.terminal.getD s false then
      match a.goto? state s with
      | some j => addShift a state item s j b
      | none => pure b
    else pure b

def logEntries (b : Build) : Build :=
  let used := b.possible.filter fun (s, item, _) =>
    (b.cell s).action.isSome && (b.cell s).item = item
  let b := used.foldl (fun b (s, _, what) =>
    b.say ("    " ++ Text.padRight 15 (b.name s) ++ " " ++ what)) b
  let b := b.say ""
  let (b, _, any) := b.possible.foldl (fun (b, seen, any) (s, item, what) =>
      if (b.cell s).action.isSome && (b.cell s).item ≠ item && !seen.contains (s, what) then
        (b.say ("  ! " ++ Text.padRight 15 (b.name s) ++ " [ " ++ what ++ " ]"),
          seen.push (s, what), true)
      else (b, seen, any)) (b, used.map fun (s, _, what) => (s, what), false)
  if any then b.say "" else b

def addState (a : Automaton) (ends : Nat → Item → Array Nat) (b : Build) (state : Nat) :
    Result Build := do
  let items := a.stateItems state
  let b := ((b.say "").say ("state " ++ Text.ofInt state)).say ""
  let b := if b.logging then items.foldl (fun b item =>
      b.say ("    (" ++ Text.ofInt item.rule ++ ") " ++ a.itemText item)) b
    else b
  let b := b.say ""
  let b := { b with cells := Array.replicate a.grammar.names.size default, possible := #[] }
  let b ← items.foldlM (addItem a ends state) b
  let b := if b.logging then b.logEntries else b
  let b := if b.logging then (Automaton.stateSymbols a.grammar items).foldl (fun b s =>
      match a.goto? state s with
      | some j =>
        if a.grammar.nonterminal.getD s false then
          b.say ("    " ++ Text.padRight 30 (b.name s) ++ " shift and go to state " ++
            Text.ofInt j)
        else b
      | none => b) b
    else b
  let row := b.cells.map (·.action)
  return { b with tables.actions := b.tables.actions.push row }

end Build

def ofIndexed (ig : Indexed) (rules : Array Rule) (method : Method) (logging : Bool) :
    Result Tables := do
  let a := Automaton.ofIndexed ig
  let lookaheads := match method with
    | .lalr => a.lookaheads
    | .slr => {}
  let follow := match method with
    | .lalr => #[]
    | .slr => ig.followSets
  let ends (state : Nat) (item : Item) : Array Nat := match method with
    | .lalr => lookaheads.getD (state, item.rule) #[]
    | .slr => follow.getD item.left #[]
  let start : Tables := {
    method, names := ig.names, ids := ig.ids, nonterminal := ig.nonterminal
    rules, lefts := ig.rules.map (·.left), next := a.next
    reduced := Array.replicate rules.size 0 }
  let b : Build := ⟨start, #[], logging, #[]⟩
  let b := b.say ("Parsing method: " ++ method.word)
  let b ← (List.range a.states.size).foldlM (Build.addState a ends) b
  return b.tables

def ofGrammar (g : Grammar) (method : Method) (logging : Bool) : Result Tables :=
  ofIndexed (Indexed.ofGrammar g) g.allRules method logging

def action? (t : Tables) (state s : Nat) : Option Action :=
  match (t.actions.getD state #[]).getD s none with
  | some .refuse => none
  | a => a

def goto? (t : Tables) (state s : Nat) : Option Nat :=
  match (t.next.getD state #[]).getD s 0 with
  | 0 => none
  | j + 1 => some j

/-- The number of a symbol. A name that the grammar does not have gets a number without
entries. -/
def symbolId (t : Tables) (name : String) : Nat := t.ids.getD name t.names.size

def entries (t : Tables) (state : Nat) : List (String × Action) :=
  ((t.actions.getD state #[]).toList.zip t.names.toList).filterMap fun (a, n) =>
    a.map fun a => (n, a)

def gotos (t : Tables) (state : Nat) : List (String × Nat) :=
  (List.range t.names.size).filterMap fun s =>
    if t.nonterminal.getD s false then
      (t.goto? state s).map fun j => (t.names.getD s "", j)
    else none

end Tables

end RtlFlow.Grammar
