import RtlFlow.Grammar.Indexed

/-!
# The automaton of a grammar

An item is a rule with a point in its right side. The states of the automaton are lists of items:
a kernel, and the rules of the nonterminals that stand behind a point. Two states are the same if
their kernels are, in the same order. The states are numbered in the order in which they are
found, symbol by symbol.

* `Automaton.ofIndexed`: the automaton.
* `Automaton.goto?`: the state behind a symbol.
-/

namespace RtlFlow.Grammar

attribute [local instance (2000)] instPowNat Zero.ofOfNat0

structure Item where
  rule : Nat
  left : Nat
  seen : List Nat
  rest : List Nat
deriving DecidableEq, Repr, Inhabited

namespace Item

def next? (i : Item) : Option Nat := i.rest.head?

def isComplete (i : Item) : Bool := i.rest.isEmpty

def advance? (s : Nat) (i : Item) : Option Item :=
  match i.rest with
  | [] => none
  | x :: rest => if x = s then some { i with seen := x :: i.seen, rest } else none

end Item

namespace Indexed

def startItem (g : Indexed) (r : Nat) : Item := ⟨r, (g.rule r).left, [], (g.rule r).right⟩

def startItems (g : Indexed) (s : Nat) : List Item := (g.rulesOf.getD s []).map g.startItem

def itemCount (g : Indexed) : Nat :=
  (g.rules.toList.map fun r => r.right.length + 1).sum

end Indexed

/-! ## Lists of items -/

/-- Goes through the items of a state and adds the rules of the nonterminals behind their points.
`starts` gives the items of a symbol, and `added` are the symbols whose items are there. -/
def close (starts : Nat → List Item) :
    (fuel : Nat) → (items : List Item) → (added : List Nat) → List Item
  | 0, items, _ => items
  | _, [], _ => []
  | fuel + 1, item :: items, added =>
    match item.next? with
    | none => item :: close starts fuel items added
    | some s =>
      if added.contains s then item :: close starts fuel items added
      else item :: close starts fuel (items ++ starts s) (s :: added)

def successors (s : Nat) (items : List Item) : List Item := items.filterMap (Item.advance? s)

structure Automaton where
  grammar : Indexed
  kernels : Array (List Item) := #[]
  states : Array (List Item) := #[]
  /-- For each state and symbol the number of the next state plus one; 0 if there is none. -/
  next : Array (Array Nat) := #[]
deriving Inhabited

namespace Automaton

def closure (g : Indexed) (kernel : List Item) : List Item :=
  close g.startItems (kernel.length + g.rules.size) kernel []

def stateSymbols (g : Indexed) (items : List Item) : List Nat :=
  (items.flatMap fun i => (g.rule i.rule).right).eraseDups

def stateOf (a : Automaton) (kernel : List Item) : Nat × Automaton :=
  match a.kernels.idxOf? kernel with
  | some j => (j, a)
  | none => (a.kernels.size, { a with
      kernels := a.kernels.push kernel
      states := a.states.push (closure a.grammar kernel) })

/-- The automaton with the states behind the symbols of a state, and the numbers of these states
plus one. -/
def expand (items : List Item) : List Nat → Automaton → Array Nat → Automaton × Array Nat
  | [], a, row => (a, row)
  | s :: ss, a, row =>
    match successors s items with
    | [] => expand items ss a row
    | kernel =>
      let (j, a) := a.stateOf kernel
      expand items ss a (row.setIfInBounds s (j + 1))

/-- Finds the states behind the states from number `i` on, at most `fuel` of them. -/
def explore : (fuel i : Nat) → Automaton → Automaton
  | 0, _, a => a
  | fuel + 1, i, a =>
    match a.states[i]? with
    | none => a
    | some items =>
      let row := Array.replicate a.grammar.names.size 0
      let (a, row) := expand items (stateSymbols a.grammar items) a row
      explore fuel (i + 1) { a with next := a.next.push row }

/-- More than the number of kernels that a grammar can have. -/
def stateLimit (g : Indexed) : Nat := (g.itemCount + 1) ^ (g.itemCount + 1)

def ofIndexed (g : Indexed) : Automaton :=
  let kernel := [g.startItem 0]
  explore (stateLimit g) 0 { grammar := g, kernels := #[kernel], states := #[closure g kernel] }

def goto? (a : Automaton) (state s : Nat) : Option Nat :=
  match (a.next.getD state #[]).getD s 0 with
  | 0 => none
  | j + 1 => some j

def stateItems (a : Automaton) (state : Nat) : List Item := a.states.getD state []

def itemText (a : Automaton) (item : Item) : String :=
  let syms (ss : List Nat) := ss.map a.grammar.name
  a.grammar.name item.left ++ " -> " ++
    Text.joinWith " " (syms item.seen.reverse ++ "." :: syms item.rest)

end Automaton

end RtlFlow.Grammar
