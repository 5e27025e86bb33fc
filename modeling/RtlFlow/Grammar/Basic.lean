import RtlFlow.Fault
import RtlFlow.Table
import RtlFlow.Text.Numeral

/-!
# Grammars

A grammar has terminals, rules and precedences. Rules come as text, one or several alternatives
for one nonterminal.
-/

namespace RtlFlow.Grammar

inductive Assoc where
  | left | right | nonassoc
deriving DecidableEq, Repr, Inhabited

namespace Assoc

def word : Assoc → String
  | .left => "left" | .right => "right" | .nonassoc => "nonassoc"

def ofWord? (w : String) : Option Assoc :=
  [Assoc.left, .right, .nonassoc].find? fun a => a.word == w

end Assoc

structure Precedence where
  assoc : Assoc := .right
  level : Nat := 0
deriving DecidableEq, Repr, Inhabited

structure Rule where
  number : Nat
  name : String
  symbols : List String
  prec : Precedence := {}
  action : String := ""
  file : String := ""
  line : Nat := 0
deriving DecidableEq, Repr, Inhabited

def symbolsText : List String → String
  | [] => "<empty>"
  | syms => Text.joinWith " " syms

def Rule.text (r : Rule) : String := r.name ++ " -> " ++ symbolsText r.symbols

/-! ## Rules in text -/

structure RuleText where
  file : String
  line : Nat
  name : String
  words : List String
deriving DecidableEq, Repr, Inhabited

def placed (file : String) (line : Nat) (message : String) : String :=
  file ++ ":" ++ Text.ofInt line ++ ": " ++ message

/-- Reads the lines of a rule text. `last` is the nonterminal of the rule before, which a line
that begins with `|` goes on with. -/
def readRuleLines (file : String) :
    (line : Nat) → (last : Option String) → List String → Result (List RuleText)
  | _, _, [] => pure []
  | line, last, l :: ls =>
    let line := line + 1
    match Text.words l with
    | [] => readRuleLines file line last ls
    | "|" :: rest =>
      match last with
      | none => throw (.ruleText (placed file line "Misplaced '|'"))
      | some name => return ⟨file, line, name, rest⟩ :: (← readRuleLines file line last ls)
    | [_] => throw (.ruleText (placed file line ("Syntax error in rule '" ++ Text.trim l ++ "'")))
    | name :: colon :: rest =>
      if colon == ":" || colon == "::=" then
        return ⟨file, line, name, rest⟩ :: (← readRuleLines file line (some name) ls)
      else throw (.ruleText (placed file line "Syntax error. Expected ':'"))

def readRules (text : String) (file : String) (line : Nat) : Result (List RuleText) :=
  readRuleLines file line none (Text.lines text)

/-! ## Literal tokens -/

def escapeChar? : Char → Option Char
  | 'n' => some '\n' | 't' => some '\t' | 'r' => some '\r' | '\\' => some '\\'
  | '\'' => some '\'' | '"' => some '"' | 'a' => some '\x07' | 'b' => some '\x08'
  | 'f' => some '\x0c' | 'v' => some '\x0b' | '0' => some '\x00'
  | _ => none

def readQuoted (quote : Char) : List Char → Option (List Char × List Char)
  | [] => none
  | '\\' :: c :: rest =>
    match escapeChar? c with
    | some e => (readQuoted quote rest).map fun (cs, r) => (e :: cs, r)
    | none => (readQuoted quote rest).map fun (cs, r) => ('\\' :: c :: cs, r)
  | c :: rest =>
    if c = quote then some ([], rest)
    else if c = '\\' then none
    else (readQuoted quote rest).map fun (cs, r) => (c :: cs, r)

/-- The text of a word that is one or several literals in quotes; none if it is not. -/
def literalText? (word : List Char) : Option (List Char) :=
  go word.length word
where
  go : Nat → List Char → Option (List Char)
    | 0, _ => none
    | n + 1, c :: rest =>
      if c = '\'' || c = '"' then
        match readQuoted c rest with
        | some (cs, []) => some cs
        | some (cs, more) => (go n more).map (cs ++ ·)
        | none => none
      else none
    | _, [] => none

def isSymbolName (w : String) : Bool :=
  w != "" && w.all fun c => c.isAlphanum || c = '_' || c = '-'

end Grammar

/-! ## Grammars -/

structure Grammar where
  terminals : Table String (List Nat) := ⟨[("error", [])]⟩
  nonterminals : Table String (List Nat) := ⟨[]⟩
  rules : Array Grammar.Rule := #[]
  start : Option String := none
  precedences : Table String Grammar.Precedence := ⟨[]⟩
  usedPrecedences : List String := []
deriving Inhabited

namespace Grammar

def ofTerminals (terminals : List String) : Grammar :=
  { terminals := Table.ofList ((terminals ++ ["error"]).map fun t => (t, [])) }

def setPrecedence (g : Grammar) (term assoc : String) (level : Nat) : Result Grammar :=
  if g.precedences.contains term then
    throw (.grammar ("Precedence already specified for terminal '" ++ term ++ "'"))
  else
    match Assoc.ofWord? assoc with
    | none => throw (.grammar "Associativity must be one of 'left','right', or 'nonassoc'")
    | some a => pure { g with precedences := g.precedences.put term ⟨a, level⟩ }

/-- The words of a rule with the literals read, and the grammar with the terminals that they
are. A word that is no symbol is a fault, which keeps the terminals found before it. -/
def readWords (place : String → String) (name : String) :
    Grammar → List String → Result (List String) × Grammar
  | g, [] => (pure [], g)
  | g, w :: ws =>
    let literal := match w.toList with
      | c :: _ => if c = '\'' || c = '"' then literalText? w.toList else none
      | [] => none
    match literal with
    | some cs =>
      if cs.length > 1 then
        (throw (.grammar (place ("Literal token " ++ w ++ " in rule '" ++ name ++
          "' may only be a single character"))), g)
      else
        let c := String.ofList cs
        let g := if g.terminals.contains c then g
          else { g with terminals := g.terminals.put c [] }
        let (rest, g) := readWords place name g ws
        (rest.map (c :: ·), g)
    | none =>
      if isSymbolName w || w == "%prec" then
        let (rest, g) := readWords place name g ws
        (rest.map (w :: ·), g)
      else (throw (.grammar (place ("Illegal name '" ++ w ++ "' in rule '" ++ name ++ "'"))), g)

def lastTerminal? (g : Grammar) (syms : List String) : Option String :=
  syms.reverse.find? g.terminals.contains

/-- The symbols of a rule without its `%prec`, its precedence, and the name that the precedence
was given by. -/
def rulePrecedence (g : Grammar) (place : String → String) (syms : List String) :
    Result (List String × Precedence × Option String) :=
  if syms.contains "%prec" then
    match syms.reverse with
    | "%prec" :: _ => throw (.grammar (place "Syntax error. Nothing follows %prec"))
    | name :: "%prec" :: before =>
      match g.precedences.get? name with
      | some p => pure (before.reverse, p, some name)
      | none =>
        throw (.grammar (place ("Nothing known about the precedence of '" ++ name ++ "'")))
    | _ => throw (.grammar (place
        "Syntax error. %prec can only appear at the end of a grammar rule"))
  else
    let p := (g.lastTerminal? syms).bind g.precedences.get?
    pure (syms, p.getD {}, none)

def noteUse (number : Nat) (g : Grammar) (sym : String) : Grammar :=
  match g.terminals.get? sym with
  | some uses => { g with terminals := g.terminals.put sym (uses ++ [number]) }
  | none =>
    let uses := (g.nonterminals.get? sym).getD []
    { g with nonterminals := g.nonterminals.put sym (uses ++ [number]) }

/-- The grammar with one more rule. On a fault the grammar keeps the literal terminals of the
rule. -/
def addRule (g : Grammar) (r : RuleText) (action : String) : Result Unit × Grammar :=
  let place := placed r.file r.line
  if g.terminals.contains r.name then
    (throw (.grammar (place ("Illegal rule name '" ++ r.name ++ "'. Already defined as a token"))),
      g)
  else if r.name == "error" then
    (throw (.grammar (place ("Illegal rule name '" ++ r.name ++ "'. error is a reserved word"))),
      g)
  else if !isSymbolName r.name then
    (throw (.grammar (place ("Illegal rule name '" ++ r.name ++ "'"))), g)
  else
    match readWords place r.name g r.words with
    | (.error e, g) => (.error e, g)
    | (.ok syms, g) =>
      match g.rulePrecedence place syms with
      | .error e => (.error e, g)
      | .ok (syms, prec, given) =>
        let g := match given with
          | some name => { g with usedPrecedences := name :: g.usedPrecedences }
          | none => g
        match g.rules.find? fun q => q.name == r.name && q.symbols == syms with
        | some q =>
          (throw (.grammar (place ("Duplicate rule " ++ q.text ++ ". Previous definition at " ++
            q.file ++ ":" ++ Text.ofInt q.line))), g)
        | none =>
          let number := g.rules.size + 1
          let g := if g.nonterminals.contains r.name then g
            else { g with nonterminals := g.nonterminals.put r.name [] }
          let g := syms.foldl (noteUse number) g
          let rule : Rule := ⟨number, r.name, syms, prec, action, r.file, r.line⟩
          (pure (), { g with rules := g.rules.push rule })

/-- The grammar with its start symbol; without a given one, the nonterminal of the first rule. -/
def setStart (g : Grammar) (start : Option String) : Result Grammar := do
  let given := match start with
    | some "" => none
    | s => s
  let start ← match given with
    | some s => pure s
    | none => match g.rules[0]? with
      | some r => pure r.name
      | none => throw .badPosition
  match g.nonterminals.get? start with
  | none => throw (.grammar ("start symbol " ++ start ++ " undefined"))
  | some uses =>
    return { g with
      start := some start
      nonterminals := g.nonterminals.put start (uses ++ [0]) }

def startRule (g : Grammar) : Rule := { number := 0, name := "S'", symbols := g.start.toList }

def allRules (g : Grammar) : Array Rule := #[g.startRule] ++ g.rules

def rulesOf (g : Grammar) (name : String) : List Rule :=
  g.rules.toList.filter fun r => r.name == name

def hasRule (g : Grammar) (name : String) : Bool := g.rules.any fun r => r.name == name

end RtlFlow.Grammar
