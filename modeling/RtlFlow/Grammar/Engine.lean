import RtlFlow.Grammar.Tables

/-!
# Running the tables

The engine keeps a stack of states and a stack of symbols. At a terminal that the table has no
entry for it reports the error, and then looks for a state that goes on with the symbol `error`:
it takes symbols off the stack until there is one, and then skips terminals. For three shifted
terminals after an error no further one is reported.
-/

namespace RtlFlow.Grammar

structure Symbol (α : Type) where
  name : String
  id : Nat
  value : Option α := none
  line : Option Int := none
  pos : Option Int := none
  endLine : Option Int := none
  endPos : Option Int := none
  isToken : Bool := false
deriving Repr, Inhabited

namespace Symbol

variable {α : Type}

def endMark : Symbol α := { name := "$end", id := Indexed.endId }

def isEnd (s : Symbol α) : Bool := s.name == "$end"

def isError (s : Symbol α) : Bool := s.name == "error"

def lineOrZero (s : Symbol α) : Int := s.line.getD 0

def posOrZero (s : Symbol α) : Int := s.pos.getD 0

def lineSpan (s : Symbol α) : Int × Int := (s.lineOrZero, s.endLine.getD s.lineOrZero)

def posSpan (s : Symbol α) : Int × Int := (s.posOrZero, s.endPos.getD s.posOrZero)

end Symbol

structure Reduction (α : Type) where
  rule : Rule
  left : Symbol α
  right : List (Symbol α)
  below : List (Symbol α)
deriving Inhabited

inductive Outcome (α : Type) where
  | value (v : α) (line : Option Int)
  | refuse
deriving Inhabited

structure Reply (α : Type) where
  resume : Bool := false
  token : Option (Symbol α) := none
  restart : Bool := false
deriving Inhabited

structure Trace (σ α : Type) where
  say : String → σ → σ
  brief : Option α → String
  full : Option α → String
  lookahead : Symbol α → String

/-- Tables, a source of tokens, and actions. `σ` is the state of the source and of the actions. -/
structure Machine (σ α : Type) where
  tables : Tables
  tracking : Bool := false
  fetch : EStateM Fault σ (Option (Symbol α))
  place : σ → Int × Int
  reduce : Reduction α → EStateM Fault σ (Outcome α)
  report : Option (Option (Symbol α) → EStateM Fault σ (Reply α))
  complain : String → σ → σ
  wrap : Symbol α → α
  absent : α
  trace : Option (Trace σ α) := none

structure Run (α : Type) where
  states : List Nat := [0]
  symbols : List (Symbol α) := [Symbol.endMark]
  state : Nat := 0
  lookahead : Option (Symbol α) := none
  pushed : List (Symbol α) := []
  /-- How many terminals have to be shifted until an error is reported again. -/
  quiet : Nat := 0
  resumed : Bool := false
deriving Inhabited

namespace Machine

variable {σ α : Type}

def say (m : Machine σ α) (line : Trace σ α → String) : EStateM Fault σ Unit :=
  match m.trace with
  | some t => modify (t.say (line t))
  | none => pure ()

def quietSpan : Nat := 3

def look (m : Machine σ α) (r : Run α) : EStateM Fault σ (Symbol α × Run α) :=
  match r.lookahead with
  | some s => pure (s, r)
  | none => do
    let (found, r) ← match r.pushed with
      | s :: rest => pure (some s, { r with pushed := rest })
      | [] => do pure (← m.fetch, r)
    let s := found.getD Symbol.endMark
    return (s, { r with lookahead := some s })

def stackText (t : Trace σ α) (r : Run α) (s : Symbol α) : String :=
  let names := (r.symbols.reverse.drop 1).map Symbol.name
  let front := Text.joinWith " " names
  String.ofList (Text.trimFront (front ++ " . " ++ t.lookahead s).toList)

def trackedLeft (left : Symbol α) (right : List (Symbol α)) : Result (Symbol α) :=
  match right.head?, right.getLast? with
  | some first, some last =>
    match first.line, first.pos with
    | some line, some pos => do
      let endLine ← match last.endLine, last.line with
        | some l, some _ => pure l
        | none, some l => pure l
        | _, none => throw .noMember
      let endPos ← match last.endPos, last.pos with
        | some p, some _ => pure p
        | none, some p => pure p
        | _, none => throw .noMember
      return { left with
        line := some line, pos := some pos, endLine := some endLine, endPos := some endPos }
    | _, _ => throw .noMember
  | _, _ => throw .badPosition

/-- Goes on after an action has refused its rule: one more symbol is taken off the stack, and the
left side becomes an error symbol in front of the lookahead. -/
def refused (m : Machine σ α) (r : Run α) (lookahead left : Symbol α) :
    EStateM Fault σ (Run α) :=
  match r.symbols, r.states with
  | _ :: symbols, _ :: state :: states =>
    pure { r with
      symbols := symbols
      states := state :: states
      state := state
      pushed := lookahead :: r.pushed
      lookahead := some { left with
        name := "error", id := m.tables.symbolId "error", value := some m.absent }
      quiet := quietSpan
      resumed := false }
  | _, _ => throw .badPosition

def reduceBy (m : Machine σ α) (r : Run α) (lookahead : Symbol α) (number : Nat) :
    EStateM Fault σ (Run α) := do
  let rule := m.tables.rules.getD number default
  let n := rule.symbols.length
  let right := (r.symbols.take n).reverse
  m.say fun t => "Action : Reduce rule [" ++ rule.text ++ "] with [" ++
    Text.joinWith "," (right.map fun s => t.brief s.value) ++ "] and goto state " ++
    Text.ofInt number
  if r.symbols.length ≤ n then throw .badPosition
  let left : Symbol α := { name := rule.name, id := m.tables.lefts.getD number m.tables.names.size }
  let left ← if m.tracking then
      if n = 0 then do
        let (line, pos) := m.place (← get)
        pure { left with line := some line, pos := some pos }
      else lift (trackedLeft left right)
    else pure left
  let r := { r with symbols := r.symbols.drop n, states := r.states.drop n }
  match ← m.reduce ⟨rule, left, right, r.symbols⟩ with
  | .refuse => m.refused r lookahead left
  | .value v line =>
    m.say fun t => "Result : " ++ t.full (some v)
    let left := { left with value := some v, line := line.or left.line }
    match r.states with
    | [] => throw .badPosition
    | top :: _ =>
      match m.tables.goto? top left.id with
      | none => throw .noEntry
      | some state =>
        return { r with
          symbols := left :: r.symbols
          states := state :: r.states
          state := state
          lookahead := some lookahead }

/-- Reports an error and says whether the run goes on as if there had been none. The second
result is false if the parse is given up. -/
def reportError (m : Machine σ α) (r : Run α) (s : Symbol α) :
    EStateM Fault σ (Run α × Bool × Bool) :=
  let r := { r with quiet := quietSpan, resumed := false }
  let token := if s.isEnd then none else some s
  match m.report with
  | some report => do
    let reply ← report token
    let r := if reply.restart then
        { r with states := [0], symbols := [Symbol.endMark] }
      else r
    if reply.resume then
      return ({ r with resumed := true, lookahead := reply.token }, true, true)
    else return (r, false, true)
  | none => do
    match token with
    | some t =>
      let line := t.lineOrZero
      modify (m.complain (if line ≠ 0 then
          "yacc: Syntax error at line " ++ Text.ofInt line ++ ", token=" ++ t.name ++ "\n"
        else "yacc: Syntax error, token=" ++ t.name))
      return (r, false, true)
    | none =>
      modify (m.complain "yacc: Parse error in input. EOF\n")
      return (r, false, false)

/-- Looks for a state that goes on with the error symbol. Nothing is left at the end of the
input. -/
def recover (m : Machine σ α) (r : Run α) (s : Symbol α) : Result (Option (Run α)) :=
  if r.states.length ≤ 1 && !s.isEnd then
    pure (some { r with lookahead := none, state := 0, pushed := [] })
  else if s.isEnd then pure none
  else if !s.isError then
    match r.symbols with
    | [] => throw .badPosition
    | top :: _ =>
      if top.isError then pure (some { r with lookahead := none })
      else
        let e : Symbol α := {
          name := "error", id := m.tables.symbolId "error", value := some (m.wrap s)
          line := s.line }
        pure (some { r with pushed := s :: r.pushed, lookahead := some e })
  else
    match r.symbols, r.states with
    | _ :: symbols, _ :: state :: states =>
      pure (some { r with symbols, states := state :: states, state })
    | _, _ => throw .badPosition

/-- One step: a shift, a reduction, or a step of recovery. The result is a value at the end. -/
def step (m : Machine σ α) (r : Run α) : EStateM Fault σ (Run α ⊕ Option α) := do
  m.say fun _ => ""
  m.say fun _ => "State  : " ++ Text.ofInt r.state
  let (s, r) ← m.look r
  m.say fun t => "Stack  : " ++ stackText t r s
  match m.tables.action? r.state s.id with
  | some (.shift state) =>
    m.say fun _ => "Action : Shift and goto state " ++ Text.ofInt state
    return .inl { r with
      states := state :: r.states
      symbols := s :: r.symbols
      state := state
      lookahead := none
      quiet := r.quiet - 1 }
  | some (.reduce number) => return .inl (← m.reduceBy r s number)
  | some .accept =>
    match r.symbols with
    | [] => throw .badPosition
    | top :: _ =>
      m.say fun t => "Done   : Returning " ++ t.full top.value
      m.say fun _ => "PLY: PARSE DEBUG END"
      return .inr top.value
  | _ =>
    m.say fun t => "ERROR: Error  : " ++ stackText t r s
    let (r, resume, go) ← if r.quiet = 0 || r.resumed then m.reportError r s
      else pure ({ r with quiet := quietSpan }, false, true)
    if resume then return .inl r
    if !go then return .inr none
    match ← lift (m.recover r s) with
    | some r => return .inl r
    | none => return .inr none

def steps (m : Machine σ α) : (fuel : Nat) → Run α → EStateM Fault σ (Option α)
  | 0, _ => throw .tooDeep
  | fuel + 1, r => do
    match ← m.step r with
    | .inl r => steps m fuel r
    | .inr v => pure v

def enough (m : Machine σ α) (n : Nat) : Nat :=
  (n + 2) * (m.tables.rules.size + m.tables.names.size + 16) * 8

def startLine : String := "PLY: PARSE DEBUG START"

def parse (m : Machine σ α) (n : Nat) : EStateM Fault σ (Option α) := do
  m.say fun _ => startLine
  m.steps (m.enough n) {}

end Machine

end RtlFlow.Grammar
