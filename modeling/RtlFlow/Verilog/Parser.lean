import RtlFlow.Grammar.Engine
import RtlFlow.Verilog.Rules.Declaration
import RtlFlow.Verilog.Rules.Expression
import RtlFlow.Verilog.Rules.Hierarchy

/-!
# The Verilog parser

* `productions`: all rules with their actions, in the order of the grammar.
* `tablesFrom`: the parsing tables for a start symbol.
* `Workspace.parseFrom`: parses a text from a start symbol on.
* `Workspace.parse`: parses a source text. Line count, directives and default net type of one text
  go on in the next.
-/

namespace RtlFlow.Verilog

def productions : List Production :=
  sourceRules ++ moduleRules ++ portRules ++ ioportRules ++ signalRules ++ numberRules ++
    parameterRules ++ sideRules ++ operatorRules ++ operandRules ++ senseRules ++ assignRules ++
    blockRules ++ flowRules ++ eventRules ++ instanceRules ++ generateRules ++ systemCallRules ++
    functionRules ++ taskRules ++ identifierRules

def precedences : List (List Sym) :=
  [[.LOR], [.LAND], [.OR], [.AND, .XOR, .XNOR], [.EQ, .NE, .EQL, .NEL], [.LT, .GT, .LE, .GE],
   [.LSHIFT, .RSHIFT, .LSHIFTA, .RSHIFTA], [.PLUS, .MINUS], [.TIMES, .DIVIDE, .MOD], [.POWER]]

/-- The precedence of a terminal. Binary operators group to the left. -/
def Sym.prec (s : Sym) : Grammar.Precedence :=
  match precedences.findIdx? (·.contains s) with
  | some i => ⟨.left, i + 1⟩
  | none => {}

def unaryPrecedence : Grammar.Precedence := ⟨.right, precedences.length + 1⟩

def Production.prec (p : Production) : Grammar.Precedence :=
  match p.right with
  | [mark, .expression] => if mark.isTerminal then unaryPrecedence else {}
  | right => (right.reverse.find? Sym.isTerminal).elim {} Sym.prec

def Production.indexed (p : Production) (line : Nat) : Grammar.IndexedRule :=
  ⟨p.left.id, p.right.map Sym.id, p.prec, line⟩

def grammarFrom (start : Sym) : Grammar.Indexed :=
  let terminals := Sym.all.filter Sym.isTerminal
  Grammar.Indexed.assemble
    (Grammar.Indexed.reserved ++ Sym.all.map Sym.name ++ ["."])
    (terminals.map Sym.id) ((Sym.all.filter (!·.isTerminal)).map Sym.id)
    (⟨Grammar.Indexed.startId, [start.id], {}, 0⟩ :: productions.mapIdx fun i p => p.indexed (i + 1))
    (terminals.map fun s => (s.id, s.prec))

def rulesFrom (start : Sym) : List Grammar.Rule :=
  ⟨0, "S'", [start.name], {}, "", "", 0⟩ :: productions.mapIdx fun i p =>
    ⟨i + 1, p.left.name, p.right.map Sym.name, p.prec, "", "", i + 1⟩

def tablesFrom (start : Sym) : Grammar.Tables :=
  match Grammar.Tables.ofIndexed (grammarFrom start) (rulesFrom start).toArray .lalr false with
  | .ok t => t
  | .error _ => {}

def symbolOf (tables : Grammar.Tables) (t : Token) : Grammar.Symbol Ast :=
  { name := t.kind, id := tables.symbolId t.kind, value := some (.text t.text)
    line := some t.line, pos := some t.pos, isToken := true }

def fetch (tables : Grammar.Tables) : Maker (Option (Grammar.Symbol Ast)) := do
  let s ← get
  match s.lexer.nextToken with
  | .ok (t, lexer) =>
    set { s with lexer }
    return t.map (symbolOf tables)
  | .error e => throw e

def actions : Array Production := (pass .empty [] :: productions).toArray

def reduce (r : Grammar.Reduction Ast) : Maker (Grammar.Outcome Ast) := do
  let p : Parts := ⟨(r.right.map fun s => s.value.getD .absent).toArray,
    (r.right.map Grammar.Symbol.lineOrZero).toArray⟩
  let production := actions.getD r.rule.number (pass .empty [])
  let v ← production.action p
  return .value v (production.lineFrom.map p.line)

def reportError (token : Option (Grammar.Symbol Ast)) : Maker (Grammar.Reply Ast) := do
  modify fun s => { s with printed := "Syntax error" :: s.printed }
  match token with
  | some t =>
    let text := match t.value with
      | some v => v.toText
      | none => ""
    throw (.parse (":" ++ Text.ofInt t.lineOrZero ++ ": before: " ++ text))
  | none => throw (.parse ": At end of input")

def machineOf (tables : Grammar.Tables) : Grammar.Machine Workspace Ast where
  tables := tables
  fetch := fetch tables
  place := fun s => (s.lexer.line, s.lexer.pos)
  reduce := reduce
  report := some reportError
  complain := fun _ s => s
  wrap := fun s => s.value.getD .absent
  absent := .absent

/-- Parses a text by a parser. Nothing comes out if the text is given up. -/
def Workspace.parseBy (machine : Grammar.Machine Workspace Ast) (s : Workspace) (text : String) :
    Result (Option Ast) × Workspace :=
  let s := { s with lexer := s.lexer.load text }
  match machine.parse text.length s with
  | .ok v s => (.ok v, s)
  | .error e s => (.error e, s)

def Workspace.parseFrom (start : Sym) (s : Workspace) (text : String) :
    Result (Option Ast) × Workspace :=
  s.parseBy (machineOf (tablesFrom start)) text

def machine : Grammar.Machine Workspace Ast := machineOf (tablesFrom .sourceText)

def Workspace.parse (s : Workspace) (text : String) : Result (Option Ast) × Workspace :=
  s.parseBy machine text

def definitions (source : Ast) : List Ast :=
  match source with
  | .node .source _ [_, .node .description _ [.seq items]] => items
  | _ => []

def nettypes (source : Ast) : List (Ast × Ast) :=
  (definitions source).filterMap fun d =>
    match d with
    | .node .moduleDef _ [name, _, _, _, nettype] => some (name, nettype)
    | _ => none

def parseText (text : String) : Result (Option Ast) × Workspace :=
  Workspace.parse {} text

end RtlFlow.Verilog
