import Std.Data.HashMap
import RtlFlow.Grammar.Basic

/-!
# Grammars over numbered symbols

For the construction of tables the symbols of a grammar are numbered. Four symbols that are not
the grammar's own have numbers too: the end of the input, the left side of the start rule, the
mark for the empty text in a first set, and the point of an item.
-/

namespace RtlFlow.Grammar

structure IndexedRule where
  left : Nat
  right : List Nat
  prec : Precedence
  line : Nat
deriving Inhabited

structure Indexed where
  names : Array String
  ids : Std.HashMap String Nat
  terminal : Array Bool
  nonterminal : Array Bool
  nonterminals : Array Nat
  rules : Array IndexedRule
  rulesOf : Array (List Nat)
  prec : Array Precedence
deriving Inhabited

namespace Indexed

def endId : Nat := 0

def startId : Nat := 1

def emptyId : Nat := 2

def reserved : List String := ["$end", "S'", "<empty>"]

def name (g : Indexed) (s : Nat) : String := g.names.getD s ""

/-- The numbers of a list of names; a name that has none gets the next one. -/
def number (names : List String) : Array String × Std.HashMap String Nat :=
  names.foldl (fun (arr, ids) n =>
    if ids.contains n then (arr, ids) else (arr.push n, ids.insert n arr.size)) (#[], {})

def tabulate {α : Type} (n : Nat) (f : Nat → α) : Array α := (Array.range n).map f

/-- The numbers of the rules of a symbol. The start rule, number 0, does not count. -/
def rulesFor (rules : List IndexedRule) (s : Nat) : List Nat :=
  ((rules.zipIdx.drop 1).filter fun r => r.1.left = s).map Prod.snd

def assemble (names : List String) (terminals nonterminals : List Nat)
    (rules : List IndexedRule) (prec : List (Nat × Precedence)) : Indexed :=
  let (names, ids) := number names
  { names, ids
    nonterminals := nonterminals.toArray
    terminal := tabulate names.size terminals.contains
    nonterminal := tabulate names.size nonterminals.contains
    rules := rules.toArray
    rulesOf := tabulate names.size (rulesFor rules)
    prec := tabulate names.size fun s => (prec.lookup s).getD {} }

def ofGrammar (g : Grammar) : Indexed :=
  let names := reserved ++ g.terminals.keys ++ g.nonterminals.keys ++ ["."]
  let ids := (number names).2
  let id (s : String) : Nat := ids.getD s 0
  assemble names (g.terminals.keys.map id) (g.nonterminals.keys.map id)
    (g.allRules.toList.map fun r => ⟨id r.name, r.symbols.map id, r.prec, r.line⟩)
    (g.precedences.entries.filterMap fun (t, p) => (ids.get? t).map fun i => (i, p))

def rule (g : Indexed) (i : Nat) : IndexedRule := g.rules.getD i default

/-! ## First and follow sets -/

/-- What a list of symbols can begin with, from what the symbols can begin with so far. -/
def firstOf (first : Array (Array Nat)) : (found : Array Nat) → List Nat → Array Nat
  | found, [] => found.push emptyId
  | found, s :: ss =>
    let here := first.getD s #[]
    let found := here.foldl (fun acc f =>
      if f = emptyId || acc.contains f then acc else acc.push f) found
    if here.contains emptyId then firstOf first found ss else found

/-- A set, as an array by number, with new elements; and whether any was new. -/
def extend (sets : Array (Array Nat)) (s : Nat) (new : Array Nat) : Array (Array Nat) × Bool :=
  new.foldl (fun (sets, changed) f =>
    if (sets.getD s #[]).contains f then (sets, changed)
    else (sets.modify s (·.push f), true)) (sets, false)

def firstRound (g : Indexed) (first : Array (Array Nat)) : Array (Array Nat) × Bool :=
  g.nonterminals.foldl (fun acc n =>
    (g.rulesOf.getD n []).foldl (fun (first, changed) i =>
      let (first, new) := extend first n (firstOf first #[] (g.rule i).right)
      (first, changed || new)) acc) (first, false)

def rounds (round : Array (Array Nat) → Array (Array Nat) × Bool) :
    (fuel : Nat) → Array (Array Nat) → Array (Array Nat)
  | 0, sets => sets
  | fuel + 1, sets =>
    let (sets, changed) := round sets
    if changed then rounds round fuel sets else sets

/-- A number of rounds that is enough: every round but the last finds an element. -/
def enough (g : Indexed) : Nat := g.names.size * g.names.size + 1

def firstSets (g : Indexed) : Array (Array Nat) :=
  let start := (Array.range g.names.size).map fun s =>
    if g.nonterminal.getD s false then #[]
    else if g.terminal.getD s false || s = endId then #[s] else #[]
  rounds g.firstRound g.enough start

/-- The follow sets with what one occurrence of a symbol in a rule adds: what the symbols after
it can begin with and, if they can be empty, what comes after the rule. -/
def followAt (g : Indexed) (first : Array (Array Nat)) (r : IndexedRule) (i : Nat)
    (follow : Array (Array Nat)) : Array (Array Nat) × Bool :=
  let s := r.right.getD i 0
  if g.nonterminal.getD s false then
    let after := firstOf first #[] (r.right.drop (i + 1))
    let (follow, new) := extend follow s (after.filter (· ≠ emptyId))
    if after.contains emptyId || i + 1 = r.right.length then
      let (follow, new') := extend follow s (follow.getD r.left #[])
      (follow, new || new')
    else (follow, new)
  else (follow, false)

def followRound (g : Indexed) (first : Array (Array Nat)) (follow : Array (Array Nat)) :
    Array (Array Nat) × Bool :=
  g.rules.foldl (fun acc r =>
    (List.range r.right.length).foldl (fun (follow, changed) i =>
      let (follow, new) := g.followAt first r i follow
      (follow, changed || new)) acc) (follow, false) 1

/-- What can come after each symbol. The end of the input comes after the nonterminal of the
first rule. -/
def followSets (g : Indexed) : Array (Array Nat) :=
  let first := g.firstSets
  let start := (Array.replicate g.names.size #[]).setIfInBounds (g.rule 1).left #[endId]
  rounds (g.followRound first) g.enough start

end Indexed

/-! ## Checks -/

/-- The symbols that rules use and that are neither terminals nor have rules, each with the
number of the rule. -/
def undefinedSymbols (g : Grammar) : List (String × Nat) :=
  g.allRules.toList.flatMap fun r => r.symbols.filterMap fun s =>
    if g.hasRule s || g.terminals.contains s || s == "error" then none else some (s, r.number)

def unusedTerminals (g : Grammar) : List String :=
  g.terminals.entries.filterMap fun (t, uses) => if t != "error" && uses.isEmpty then some t else none

def unusedRules (g : Grammar) : List Rule :=
  g.nonterminals.entries.filterMap fun (n, uses) =>
    if uses.isEmpty then (g.rulesOf n).head? else none

def reach (g : Grammar) : (fuel : Nat) → (seen todo : List String) → List String
  | 0, seen, _ => seen
  | _, seen, [] => seen
  | fuel + 1, seen, s :: todo =>
    if seen.contains s then reach g fuel seen todo
    else reach g fuel (s :: seen) ((g.rulesOf s).flatMap Rule.symbols ++ todo)

def unreachable (g : Grammar) : List String :=
  let size := g.rules.foldl (fun n r => n + r.symbols.length + 1) 2
  let seen := reach g (size * (g.nonterminals.size + 1)) [] g.start.toList
  g.nonterminals.keys.filter fun n => !seen.contains n

/-- One round: the symbols that derive a text of terminals, with the nonterminals of which a
rule has only such symbols. -/
def endingRound (g : Grammar) (ending : List String) : List String :=
  g.nonterminals.keys.foldl (fun ending n =>
    if ending.contains n then ending
    else if (g.rulesOf n).any fun r => r.symbols.all ending.contains then ending ++ [n]
    else ending) ending

def neverEnding (g : Grammar) : List String :=
  let ending := (List.range (g.nonterminals.size + 1)).foldl (fun e _ => endingRound g e)
    (g.terminals.keys.filter (fun t => !g.nonterminals.contains t) ++ ["$end"])
  g.nonterminals.keys.filter fun n => !ending.contains n && g.hasRule n

/-- The precedences that were given and that neither a terminal nor a rule has. -/
def unusedPrecedences (g : Grammar) : List (String × Assoc) :=
  g.precedences.entries.filterMap fun (t, p) =>
    if g.terminals.contains t || g.usedPrecedences.contains t then none else some (t, p.assoc)

end RtlFlow.Grammar
