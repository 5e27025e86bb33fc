import RtlFlow.Verilog.Printer
import RtlFlow.Workbench.TreeCommands

/-!
# Tools

Small functions on names, texts and words, called by name.
-/

namespace RtlFlow.Workbench.Tools

def asText : Value → Result String
  | .text s => pure s
  | _ => throw .noMember

def onText {α : Type} (f : String → α) (v : Value) : Result α := f <$> asText v

def isKey : Value → Bool
  | .list _ | .set _ | .map .. => false
  | _ => true

def lookUp {α : Type} (f : String → Option α) : Value → Result (Option α)
  | .text s => pure (f s)
  | v => if isKey v then pure none else throw .wrongKind

def hasMember (word : String) (v : Value) : Result Bool := do
  return (← v.items).any fun w => match w with
    | .text s => s == word
    | _ => false

def hasKind (kinds : List String) (v : Value) : Result Bool := do
  return (← kinds.mapM fun k => hasMember k v).any id

def testWord (f : String → Bool) (otherwise : Bool) : Value → Bool
  | .text s => f s
  | _ => otherwise

def withoutLast : Value → Result Value
  | .text s => pure (.text (Text.dropEnd 1 s))
  | v => scopeOf v

/-- The names of the scopes of a path, with points between them, and its last label. -/
def splitScope : Value → Result Value
  | .path p =>
    match p.labels.getLast? with
    | none => throw .badPosition
    | some l => pure (.tuple [
        .text (Text.joinWith "." (p.labels.dropLast.map Label.name)), .label l])
  | .tuple [] | .list [] | .text "" => throw .badPosition
  | .tuple [v] | .list [v] => pure (.tuple [.text "", v])
  | .tuple _ | .list _ | .text _ => throw .noMember
  | _ => throw .wrongKind

def appendNew (held : Value) (v : Value) : Result Value := do
  let present ← (← held.items).anyM fun w => w.equal v
  if present then return held
  match held with
  | .list vs => return .list (vs ++ [v])
  | _ => throw .noMember

/-- A table of lists with the new entries of another. -/
def mergeLists : (List (Value × Value)) → List (Value × Value) →
    Result (List (Value × Value))
  | held, [] => pure held
  | held, (k, new) :: rest => do
    let same ← held.mapM fun e => e.1.equal k
    if same.any id then
      let held ← (held.zip same).mapM fun (e, hit) => do
        if hit then return (e.1, ← (← new.items).foldlM appendNew e.2) else return e
      mergeLists held rest
    else mergeLists (held ++ [(k, new)]) rest

def mergeTables : Value → Value → Result Value
  | .map ks vs, .map ls ws => do
    let merged ← mergeLists (ks.zip vs) (ls.zip ws)
    return .map (merged.map Prod.fst) (merged.map Prod.snd)
  | _, _ => throw .wrongKind

/-- The values without repetition. -/
def distinct (vs : List Value) : Result (List Value) :=
  vs.foldlM (fun acc v => do
    if !isKey v then throw .wrongKind
    return if ← acc.anyM v.equal then acc else acc ++ [v]) []

def preprocessorCommand (_ output includes defines : Value) : Result String := do
  let switches (mark : String) (v : Value) : Result (List String) := do
    match v with
    | .none => return []
    | v => (← v.items).mapM fun t => do return mark ++ (← t.toText) ++ " "
  let includes ← switches "-I " includes
  let defines ← switches "-D" defines
  return "iverilog " ++ String.join includes ++ String.join defines ++ "-E -o " ++
    (← output.toText)

def place (file line column : Value) : Result String := do
  let start := (← plainText file) ++ ":" ++ (← plainText line)
  match column with
  | .scalar a => if a.truth then return start ++ ":" ++ (← plainText column) else return start
  | v => return start ++ ":" ++ (← plainText v)

def nodeClasses : List String :=
  ["DFIntConst", "DFFloatConst", "DFStringConst", "DFEvalValue", "DFUndefined", "DFHighImpedance",
   "DFTerminal", "DFBranch", "DFOperator", "DFPartselect", "DFPointer", "DFConcat", "DFDelay",
   "DFSyscall"]

def walkFrame (offset : Int) : Report Unit := do
  let line (depth : Nat) (s : String) : Report Unit :=
    Report.say (Text.fill (4 * (depth + offset.toNat)) ' ' ++ s)
  line 0 "def walkTree(tree):"
  for c in nodeClasses do
    line 1 ("if isinstance(tree, " ++ c ++ "):")
    line 2 "pass"

def union (vs ws : List Value) : Result Value := do return .set (← distinct (vs ++ ws))

def intersect (v : Value) (ws : List Value) : Result Value := do
  let ws ← distinct ws
  return .set (← (← distinct (← v.items)).filterM fun v => ws.anyM v.equal)

def isType (ks : List Value) (k : Value) : Result Bool := ks.anyM k.equal

/-- All tools by name. -/
def tools : Commands Report := [
  ("op2mark", does ["op"] (lookUp Operator.mark?)),
  ("op2order", does ["op"] (lookUp Operator.order?)),
  ("to termname", does ["name"] fun v => Prod.fst <$> namePath v),
  ("to flatname", does ["termname"] (codeOf none (.text "dest"))),
  ("scope", does ["termname"] withoutLast),
  ("split scope name", does ["termname"] splitScope),
  ("is topmodule", does ["scope"] fun (vs : List Value) => vs.length == 1),
  ("dictlistmerge", does ["a", "b"] mergeTables),
  ("max value", does ["width"] maxValue),
  ("indent multiline assign", does ["s"] (onText Verilog.Printer.alignAssign)),
  ("escape", does ["s"] (onText Verilog.Printer.escape)),
  ("del paren", does ["s"] (onText Verilog.Printer.withoutParens)),
  ("del space", does ["s"] (onText Verilog.Printer.withoutBlanks)),
  ("iverilog", does ["filelist", may "outputfile" (.text "pp.out"), may "include" .none,
    may "define" .none] preprocessorCommand),
  ("coord", does ["file", "line", may "column" .none] place),
  ("union", does ["a", "b"] union),
  ("intersect", does ["a", "b"] intersect),
  ("unique", does ["a"] (union [])),
  ("generate walk tree", does [may "offset" (.int 1)] walkFrame),
  ("version", does [] "1.0.6"),
  ("is type", does ["termtype", "matchtype"] isType),
  ("is array", does ["termtype"] (hasKind ["WireArray", "RegArray"])),
  ("is clock", does ["search_str"] (onText SignalKind.isClockName)),
  ("is reset", does ["search_str"] (onText SignalKind.isResetName)),
  ("is compare", does ["op"] (testWord SignalKind.isCompare false)),
  ("is not", does ["op"] (testWord SignalKind.isNot false)),
  ("is and", does ["op"] (testWord SignalKind.isAnd false)),
  ("is or", does ["op"] (testWord SignalKind.isOr false)),
  ("is non condition op", does ["op"] (testWord SignalKind.isNonCondition true))] ++
  [("input", "Input"), ("output", "Output"), ("inout", "Inout"), ("wire", "Wire"), ("reg", "Reg"),
    ("wire array", "WireArray"), ("reg array", "RegArray"), ("integer", "Integer"),
    ("genvar", "Genvar"), ("parameter", "Parameter"), ("localparam", "Localparam"),
    ("function", "Function"), ("rename", "Rename")].map fun (word, k) =>
      ("is " ++ word, does ["termtype"] (hasKind [k]))

/-- Calls a tool: its outcome and the lines after those that were written before. -/
def call (lines : List String) (word : String) (args : Arguments) :
    Result Value × List String :=
  Work.run (tools.call word args) lines

end RtlFlow.Workbench.Tools
