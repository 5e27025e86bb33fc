import RtlFlow.Grammar.Automaton

/-!
# Lookaheads

The terminals that can come after a rule that has been read in a state. They are found from the
transitions of the automaton by nonterminals:

* a transition *reads* the terminals that can be shifted behind it, and those of the empty
  transitions behind it;
* what can come after a transition of a nonterminal at the end of a rule *includes* what can come
  after the transition of the rule;
* a complete item *looks back* at the transitions of its rule.

Read sets and follow sets are solutions of equations over a relation, found by one walk over the
components of the relation. The transitions of a component share one set, and the follow sets are
grown from the read sets themselves.

* `Automaton.lookaheads`: the lookaheads of the complete items of each state.
-/

namespace RtlFlow.Grammar

structure Transition where
  state : Nat
  symbol : Nat
deriving DecidableEq, Repr, Inhabited

structure Transitions where
  list : Array Transition := #[]
  /-- For each state and symbol the number of the transition plus one; 0 if there is none. -/
  index : Array (Array Nat) := #[]
deriving Inhabited

def Transitions.find? (t : Transitions) (state s : Nat) : Option Nat :=
  match (t.index.getD state #[]).getD s 0 with
  | 0 => none
  | i + 1 => some i

namespace Automaton

/-- The symbols that can be empty, with those of which a rule has only known ones. -/
def nullableRound (g : Indexed) (known : Array Bool) : Array Bool :=
  (g.rules.toList.drop 1).foldl (fun known r =>
    if r.right.all (known.getD · false) then known.setIfInBounds r.left true else known) known

def nullableRounds (g : Indexed) : (fuel : Nat) → Array Bool → Array Bool
  | 0, known => known
  | fuel + 1, known =>
    let known' := nullableRound g known
    if known' == known then known else nullableRounds g fuel known'

def nullable (g : Indexed) : Array Bool :=
  nullableRounds g (g.names.size + 1) (Array.replicate g.names.size false)

/-- The transitions by the nonterminals behind the points of items, with those before. `row` holds
the numbers of the transitions of the state plus one. -/
def addTransitions (g : Indexed) (state : Nat) :
    List Item → Array Transition → Array Nat → Array Transition × Array Nat
  | [], list, row => (list, row)
  | item :: items, list, row =>
    match item.next? with
    | some s =>
      if g.nonterminal.getD s false && row.getD s 0 = 0 then
        addTransitions g state items (list.push ⟨state, s⟩) (row.setIfInBounds s (list.size + 1))
      else addTransitions g state items list row
    | none => addTransitions g state items list row

def transitions (a : Automaton) : Transitions :=
  (List.range a.states.size).foldl (fun t state =>
    let row := Array.replicate a.grammar.names.size 0
    let (list, row) := addTransitions a.grammar state (a.stateItems state) t.list row
    { list, index := t.index.push row }) {}

/-- The terminals that can be shifted behind a transition, and the end of the input behind that
of the start symbol. -/
def shiftable (a : Automaton) (t : Transition) : Array Nat :=
  let g := a.grammar
  let terms := match a.goto? t.state t.symbol with
    | some j => (((a.stateItems j).filterMap Item.next?).filter (g.terminal.getD · false)).eraseDups
    | none => []
  if t.state = 0 && (g.rule 0).right.getD 0 0 = t.symbol then (terms ++ [Indexed.endId]).toArray
  else terms.toArray

end Automaton

/-! ## Sets over a relation -/

structure Walk where
  depth : Array Nat
  stack : List Nat
  setOf : Array Nat
  sets : Array (Array Nat)
deriving Inhabited

namespace Walk

def start (n : Nat) (sets : Array (Array Nat)) : Walk :=
  ⟨Array.replicate n 0, [], Array.replicate n 0, sets⟩

def finished (w : Walk) : Nat := w.depth.size + 1

def elems (w : Walk) (x : Nat) : Array Nat := w.sets.getD (w.setOf.getD x 0) #[]

def insertAll (new set : Array Nat) : Array Nat :=
  new.foldl (fun set e => if set.contains e then set else set.push e) set

def push (w : Walk) (x : Nat) : Walk :=
  { w with stack := x :: w.stack, depth := w.depth.setIfInBounds x (w.stack.length + 1) }

/-- A node takes over what a related node has. -/
def meet (w : Walk) (x y : Nat) : Walk :=
  { w with
    depth := w.depth.setIfInBounds x (min (w.depth.getD x 0) (w.depth.getD y 0))
    sets := w.sets.modify (w.setOf.getD x 0) (insertAll (w.elems y)) }

def unwind (x : Nat) : List Nat → Walk → Walk
  | [], w => w
  | y :: rest, w =>
    let w := { w with
      stack := rest
      depth := w.depth.setIfInBounds y w.finished
      setOf := w.setOf.setIfInBounds y (w.setOf.getD x 0) }
    if y = x then w else unwind x rest w

mutual

def visit (relation : Array (List Nat)) (enter : Nat → Walk → Walk) :
    (fuel : Nat) → (x : Nat) → Walk → Walk
  | 0, _, w => w
  | fuel + 1, x, w =>
    let w' := visitAll relation enter fuel x (relation.getD x []) (enter x (w.push x))
    if w'.depth.getD x 0 = w.stack.length + 1 then unwind x w'.stack w' else w'

def visitAll (relation : Array (List Nat)) (enter : Nat → Walk → Walk) :
    (fuel : Nat) → (x : Nat) → List Nat → Walk → Walk
  | _, _, [], w => w
  | fuel, x, y :: ys, w =>
    let w := if w.depth.getD y 0 = 0 then visit relation enter fuel y w else w
    visitAll relation enter fuel x ys (w.meet x y)

end

def run (relation : Array (List Nat)) (enter : Nat → Walk → Walk) (n : Nat)
    (sets : Array (Array Nat)) : Walk :=
  (List.range n).foldl (fun w x =>
    if w.depth.getD x 0 = 0 then visit relation enter (n + 1) x w else w) (start n sets)

end Walk

/-! ## Looking back -/

/-- An automaton with what its lookaheads are found from. -/
structure Traced extends Automaton where
  /-- The transitions by nonterminals. -/
  transitions : Transitions
  nullable : Array Bool

def Automaton.traced (a : Automaton) : Traced := ⟨a, a.transitions, nullable a.grammar⟩

namespace Traced

def reads (a : Traced) (t : Transition) : List Nat :=
  match a.goto? t.state t.symbol with
  | some j => ((a.stateItems j).filterMap Item.next?).filterMap fun s =>
      if a.nullable.getD s false then a.transitions.find? j s else none
  | none => []

def pointed (g : Indexed) (item : Item) : List Nat :=
  item.seen.reverse ++ g.ids.getD "." 0 :: item.rest

def completes (g : Indexed) (item done : Item) : Bool :=
  done.isComplete && done.left = item.left && done.seen.reverse = (pointed g item).tail

/-- The last state when symbols are read from a state on. -/
def last (a : Traced) : (state : Nat) → List Nat → Nat
  | state, [] => state
  | state, s :: rest =>
    match a.goto? state s with
    | some j => a.last j rest
    | none => state

/-- The transitions on the way behind which the rest of the symbols can be empty. -/
def endings (a : Traced) : (state : Nat) → List Nat → List Nat
  | _, [] => []
  | state, s :: rest =>
    let empty := rest.all fun r => !a.grammar.terminal.getD r false && a.nullable.getD r false
    let here := if empty then (a.transitions.find? state s).toList else []
    match a.goto? state s with
    | some j => here ++ a.endings j rest
    | none => here

def itemsOf (a : Traced) (t : Transition) : List Item :=
  (a.stateItems t.state).filter (·.left = t.symbol)

/-- The states and rules of the complete items that look back at a transition. -/
def lookbacks (a : Traced) (t : Transition) : List (Nat × Nat) :=
  (a.itemsOf t).flatMap fun item =>
    let j := a.last t.state item.rest
    ((a.stateItems j).filter (completes a.grammar item)).map fun d => (j, d.rule)

/-- For each transition those whose follow sets it includes. -/
def includes (a : Traced) : Array (List Nat) :=
  let pairs := a.transitions.list.toList.zipIdx.flatMap fun (t, i) =>
    (a.itemsOf t).flatMap fun item => (a.endings t.state item.rest).map fun k => (k, i)
  pairs.foldl (fun inc (k, i) => inc.modify k (· ++ [i]))
    (Array.replicate a.transitions.list.size [])

/-- What can be shifted behind a transition. -/
def firstRead (a : Traced) (x : Nat) : Array Nat :=
  a.shiftable (a.transitions.list.getD x default)

def enterRead (a : Traced) (x : Nat) (w : Walk) : Walk :=
  { w with
    setOf := w.setOf.setIfInBounds x w.sets.size
    sets := w.sets.push (a.firstRead x) }

/-- The set of a transition that is grown by the walk over the included transitions. -/
def enterFollow (read : Walk) (x : Nat) (w : Walk) : Walk :=
  { w with setOf := w.setOf.setIfInBounds x (read.setOf.getD x 0) }

def readRelation (a : Traced) : Array (List Nat) := a.transitions.list.map a.reads

def readWalk (a : Traced) : Walk :=
  Walk.run a.readRelation a.enterRead a.transitions.list.size #[]

def followWalk (a : Traced) : Walk :=
  let read := a.readWalk
  Walk.run a.includes (enterFollow read) a.transitions.list.size read.sets

end Traced

/-- Lookaheads by state and rule. -/
abbrev Ends := Std.HashMap (Nat × Nat) (Array Nat)

def Ends.add (las : Ends) (key : Nat × Nat) (set : Array Nat) : Ends :=
  las.insert key (Walk.insertAll set (las.getD key #[]))

def Automaton.lookaheads (a : Automaton) : Ends :=
  let a := a.traced
  let followed := a.followWalk
  (a.transitions.list.toList.zipIdx.flatMap fun (t, x) =>
    (a.lookbacks t).map fun key => (key, x)).foldl
    (fun las (key, x) => las.add key (followed.elems x)) {}

end RtlFlow.Grammar
