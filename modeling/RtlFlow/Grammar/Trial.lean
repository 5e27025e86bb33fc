import RtlFlow.Grammar.Builder
import RtlFlow.Grammar.Sample
import RtlFlow.Scanner.Run

/-!
# Trials of parsers

A trial parses texts with a parser and a scanner that are built from the same definitions. The
functions of the definitions make the values.
-/

namespace RtlFlow.Grammar

open Scanner (Function RuleAction Lexer Item)

structure Trial where
  parser : Parser
  tracking : Bool := false
  debug : Bool := false
deriving Inhabited

namespace Trial

structure State where
  lexer : Lexer
  errors : List (Option (Symbol Datum)) := []
  trace : List String := []
  complaints : String := ""
deriving Inhabited

abbrev Parsing := EStateM Fault State

/-! ## Tokens -/

def symbolOf (t : Tables) (i : Scanner.Item) : Symbol Datum :=
  { name := i.kind.toText, id := t.symbolId i.kind.toText, value := some i.value
    line := some i.line, pos := some i.pos, isToken := true }

def fetch (t : Tables) : Parsing (Option (Symbol Datum)) := do
  let s ← get
  match Lexer.next.run s.lexer with
  | .ok item l =>
    set { s with lexer := l }
    return item.map (symbolOf t)
  | .error e l =>
    set { s with lexer := l }
    throw e

/-! ## Functions -/

def valueOf (s : Symbol Datum) : Result Datum := orThrow .noMember s.value

def pair (p : Int × Int) : Datum := .tuple [.int p.1, .int p.2]

def givenLine : Int := 100

def act (action : RuleAction) (r : Reduction Datum) : Result (Outcome Datum) := do
  let name : Datum := .text r.rule.name
  match action with
  | .pass =>
    match r.right with
    | [] => throw .badPosition
    | s :: _ => return .value (← valueOf s) none
  | .refuse => return .refuse
  | .peek =>
    match r.below with
    | [] => throw .badPosition
    | s :: _ => return .value (.list [name, ← valueOf s]) none
  | .positions =>
    let lines := givenLine :: r.right.map Symbol.lineOrZero
    let places := (r.left :: r.right).map Symbol.posOrZero
    let spans := r.right.map fun s => pair s.lineSpan
    let ranges := r.right.map fun s => pair s.posSpan
    return .value (.list [name, .list (lines.map Datum.int), .list (places.map Datum.int),
      .list spans, .list ranges]) (some givenLine)
  | .collect | .resume | .restart =>
    let values ← r.right.mapM valueOf
    return .value (.list (name :: values.map Sample.shown)) none

def functionOf (p : Parser) (r : Rule) : Option Function :=
  (p.book.meanings.get? r.action).bind (·.function?)

def reduce (p : Parser) (r : Reduction Datum) : Parsing (Outcome Datum) :=
  match functionOf p r.rule with
  | some f => lift (act f.action r)
  | none => throw .wrongKind

def report (t : Tables) (f : Function) (token : Option (Symbol Datum)) :
    Parsing (Reply Datum) := do
  modify fun s => { s with errors := token :: s.errors }
  match f.action, token with
  | .resume, some _ => return { resume := true, token := ← fetch t }
  | .restart, _ => return { restart := true }
  | _, _ => return {}

/-! ## Traces -/

def briefLimit : Nat := 16

def fullLimit : Nat := 40

def anonymous (d : Datum) : String := "<" ++ d.typeName ++ " @ 0x>"

def brief (d : Datum) : String :=
  if d.repr.length < briefLimit then d.repr else anonymous d

def full (d : Datum) : String :=
  let text := d.repr
  let shown := if text.length > fullLimit then String.ofList (text.toList.take fullLimit) ++ " ..."
    else text
  anonymous d ++ " (" ++ shown ++ ")"

def trace : Trace State Datum where
  say := fun line s => { s with trace := line :: s.trace }
  brief := fun v => brief (v.getD .none)
  full := fun v => full (v.getD .none)
  lookahead := fun s => if s.isToken then (Sample.wrap s).repr else s.name

/-! ## Parses -/

def machine (c : Trial) : Machine State Datum where
  tables := c.parser.tables
  tracking := c.tracking
  fetch := fetch c.parser.tables
  place := fun s => (s.lexer.line, s.lexer.pos)
  reduce := reduce c.parser
  report := c.parser.book.onError.map (report c.parser.tables)
  complain := fun text s => { s with complaints := s.complaints ++ text }
  wrap := Sample.wrap
  absent := .none
  trace := if c.debug then some trace else none

structure Verdict where
  result : Result Datum
  errors : List (Option (Symbol Datum)) := []
  trace : List String := []
  complaints : String := ""

def verdict (r : Result Datum) (s : State) : Verdict :=
  ⟨r, s.errors.reverse, s.trace.reverse, s.complaints⟩

def parse (c : Trial) (l : Lexer) (text : String) : Verdict :=
  let fed : Lexer := { l with text := some text.toList, pos := 0 }
  match (c.machine.parse text.length).run { lexer := fed } with
  | .ok v s => verdict (.ok (v.getD .none)) s
  | .error e s => verdict (.error e) s

def parseNothing (c : Trial) : Verdict :=
  { result := .error .noUnit, trace := if c.debug then [Machine.startLine] else [] }

/-- The verdicts for texts, each with the journal of its scanner. A scanner that cannot be built
is a fault. The tables of the scanner before are given, if there are any. -/
def run (c : Trial) (s : Scanner.Settings) :
    (kept : Option Scanner.Tables) → List String →
    Result (List (Scanner.Journal × Verdict))
  | _, [] => pure []
  | kept, text :: texts =>
    match (Scanner.Tables.build c.parser.book.source s kept).run {} with
    | .error e _ => throw e
    | .ok t j => do
      let kept := if Scanner.Tables.isFound s then some t else none
      return (j, c.parse (Lexer.ofTables t) text) :: (← c.run s kept texts)

end Trial

end RtlFlow.Grammar
