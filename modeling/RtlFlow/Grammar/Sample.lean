import RtlFlow.Grammar.Datum
import RtlFlow.Grammar.Engine

/-!
# Parsing lists of tokens

Parses a list of tokens by the tables of any grammar. The value of a rule is the list of its
nonterminal and the values of its right side, so that the result shows the whole derivation. A
value `"raise"` on the right side makes the rule be refused.
-/

namespace RtlFlow.Grammar

inductive Recovery where
  | engine
  | resume
  | restart
deriving DecidableEq, Repr, Inhabited

structure Sample where
  tables : Tables
  tracking : Bool := false
  recovery : Recovery := .engine
deriving Inhabited

namespace Sample

structure State where
  rest : List (Symbol Datum)
  errors : List (Option (Symbol Datum)) := []
deriving Inhabited

/-- The tokens of a list of classes and values: the token in place `k` is on line `k`, at
position `10 * k`. -/
def tokens (t : Tables) (list : List (String × Datum)) : List (Symbol Datum) :=
  list.zipIdx.map fun ((kind, value), i) =>
    { name := kind, id := t.symbolId kind, value := some value, line := some (i + 1 : Nat)
      pos := some (10 * (i + 1) : Nat), isToken := true }

def fetch : EStateM Fault State (Option (Symbol Datum)) := do
  let s ← get
  match s.rest with
  | [] => return none
  | t :: rest =>
    set { s with rest }
    return some t

/-- A value as it appears in a derivation: an error symbol appears by the class of its token. -/
def shown : Datum → Datum
  | .token kind .. => .text ("error:" ++ kind)
  | d => d

def isText (w : String) : Datum → Bool
  | .scalar (.text s) => s == w
  | _ => false

def valueOf (s : Symbol Datum) : Result Datum :=
  match s.value with
  | some v => pure (shown v)
  | none => throw .noMember

def pair (p : Int × Int) : Datum := .list [.int p.1, .int p.2]

def reduce (tracking : Bool) (r : Reduction Datum) : EStateM Fault State (Outcome Datum) := do
  let values ← lift (r.right.mapM valueOf)
  if values.any (isText "raise") then return .refuse
  let span := if tracking then [.list [pair r.left.lineSpan, pair r.left.posSpan]] else []
  return .value (.list (.text r.rule.name :: values ++ span)) none

def report (recovery : Recovery) (token : Option (Symbol Datum)) :
    EStateM Fault State (Reply Datum) := do
  modify fun s => { s with errors := token :: s.errors }
  match recovery with
  | .engine => return {}
  | .restart => return { restart := true }
  | .resume =>
    if token.isNone then return {}
    else return { resume := true, token := ← fetch }

def wrap (s : Symbol Datum) : Datum :=
  .token s.name (s.value.getD .none) s.lineOrZero s.posOrZero

def machine (c : Sample) : Machine State Datum where
  tables := c.tables
  tracking := c.tracking
  fetch := fetch
  place := fun _ => (1, 0)
  reduce := reduce c.tracking
  report := some (report c.recovery)
  complain := fun _ s => s
  wrap := wrap
  absent := .none

def parse (c : Sample) (list : List (String × Datum)) :
    Result (Option Datum) × List (Option (Symbol Datum)) :=
  match c.machine.parse list.length ⟨tokens c.tables list, []⟩ with
  | .ok v s => (.ok v, s.errors.reverse)
  | .error e s => (.error e, s.errors.reverse)

end Sample

/-! ## Grammars by hand -/

/-- A grammar with a list of precedences and rule texts. A precedence or rule that is refused is
left out, and its message is noted. The rules of text number `n` begin behind line `10 * n`. -/
def assemble (terminals : List String) (precedences : List (String × List String))
    (texts : List String) : Result (Grammar × List String) := do
  let note (acc : Grammar × List String) (e : Fault) := (acc.1, acc.2 ++ [e.message?.getD ""])
  let start := (ofTerminals terminals, ([] : List String))
  let acc := precedences.zipIdx.foldl (fun acc ((assoc, terms), i) =>
    terms.foldl (fun acc t =>
      match acc.1.setPrecedence t assoc (i + 1) with
      | .ok g => (g, acc.2)
      | .error e => note acc e) acc) start
  let rules ← texts.zipIdx.mapM fun (text, n) => do
    return (← readRules text "g" (10 * n)).map fun r => (r, "p_" ++ Text.ofInt n)
  return rules.flatten.foldl (fun acc (r, action) =>
    match acc.1.addRule r action with
    | (.ok (), g) => (g, acc.2)
    | (.error e, g) => note (g, acc.2) e) acc

end RtlFlow.Grammar
