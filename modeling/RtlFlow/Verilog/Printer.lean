import RtlFlow.Ast.Basic
import RtlFlow.Operator
import RtlFlow.Text.Search

/-!
# Printing syntax trees

The Verilog text of a syntax tree. Operations stand in parentheses, which are left out where the
surrounding text or the order of binding makes them unnecessary; what stands inside a construct
is indented by a margin.
-/

namespace RtlFlow.Verilog.Printer

/-! ## Pieces of text -/

/-- A name; a name that begins with a backslash ends with a blank. -/
def escape (s : String) : String := if Text.startsWith "\\" s then s ++ " " else s

/-- The text without its first and last character if these are parentheses. They need not
belong together. -/
def withoutParens (s : String) : String :=
  if Text.startsWith "(" s && Text.endsWith ")" s then
    String.ofList (s.toList.drop 1).dropLast
  else s

def withoutBlanks (s : String) : String := Text.without ' ' s

/-- The text with all lines but the first moved two places to the right of the first equals sign
of the first line, if it has one. -/
def alignAssign (s : String) : String :=
  match Text.pieces '\n' s with
  | first :: more@(_ :: _) =>
    match first.toList.idxOf? '=' with
    | some p => first ++ "\n" ++
        Text.indentWith (Text.fill (p + 2) ' ') (Text.joinWith "\n" more)
    | none => s
  | _ => s

def spaced (s : String) : String := if s == "" then "" else s ++ " "

def lined (ls : List String) : String := String.join (ls.map ("\n" ++ ·))

def commaLined (ls : List String) : String := "\n" ++ Text.joinWith ",\n" ls

def elsePart (first second : String) : String :=
  let gap := if Text.endsWith " " first || Text.endsWith "\n" first then "" else " "
  if second == "" then gap
  else gap ++ (if Text.hasInfix "\n" first then "" else "\n") ++ "else " ++ second

/-! ## Parts of a node -/

structure Printed where
  whole : Result String
  range : Result String

structure Context where
  parts : List Ast
  found : List (Ast.Found Printed)
  margin : String

namespace Context

def part (c : Context) (i : Nat) : Ast := c.parts.getD i .absent

def code (c : Context) (i : Nat) : Result String :=
  match c.found[i]? with
  | some f => f.whole.whole
  | none => throw .noMember

def codes (c : Context) (i : Nat) : Result (List String) :=
  match c.found[i]? with
  | some f => do (← f.each).mapM Printed.whole
  | none => throw .noMember

def indented (c : Context) (i : Nat) : Result (List String) := do
  return (← c.codes i).map (Text.indentWith c.margin)

def codeOr (c : Context) (i : Nat) : Result String :=
  if (c.part i).isAbsent then pure "" else c.code i

def rangeOf (c : Context) (i : Nat) : Result String :=
  match c.found[i]? with
  | some f => f.whole.range
  | none => throw .noMember

def bare (c : Context) (i : Nat) : Result String := do return withoutParens (← c.code i)

def dense (c : Context) (i : Nat) : Result String := do return withoutBlanks (← c.bare i)

def name (c : Context) (i : Nat) : Result String :=
  match c.part i with
  | .atom (.text s) => pure (escape s)
  | _ => throw .noMember

def nameOr (c : Context) (i : Nat) : Result String :=
  if (c.part i).isAbsent then pure "" else c.name i

def signed (c : Context) (i : Nat) : String := if (c.part i).isPresent then "signed " else ""

end Context

/-! ## Nodes -/

def variableCode (word : String) (c : Context) : Result String := do
  let name ← c.name 0
  let width ← c.codeOr 1
  return word ++ " " ++ c.signed 2 ++ spaced width ++ name ++ ";"

def arrayCode (word : String) (c : Context) : Result String := do
  let name ← c.name 0
  let width ← c.codeOr 1
  let length ← c.code 2
  return word ++ " " ++ c.signed 3 ++ spaced width ++ name ++ " " ++ length ++ ";"

/-- A declaration of a parameter after a word. A string value has no width. -/
def parameterCode (word : String) (c : Context) : Result String := do
  let value ← c.code 1
  let name ← c.name 0
  let width ← if Text.startsWith "\"" value && Text.endsWith "\"" value then pure ""
    else c.codeOr 2
  return word ++ " " ++ c.signed 3 ++ spaced width ++ name ++ " = " ++ value ++ ";"

def ioportCode (c : Context) : Result String := do
  let first := c.part 0
  let second := c.part 1
  let name ← match ← first.part "name" with
    | .atom (.text s) => pure (escape s)
    | _ => throw .noMember
  let width ← c.rangeOf 0
  let signed ← if (← first.part "signed").isPresent then pure true
    else if second.isAbsent then pure false
    else do pure (← second.part "signed").isPresent
  return Text.lower first.kindWord ++ " " ++ spaced (Text.lower second.kindWord) ++
    (if signed then "signed " else "") ++ spaced width ++ name

/-- Whether an operation keeps its parentheses inside another one: shifts and comparisons. -/
def keepsParens (t : Ast) : Bool :=
  match t.kind? with
  | some k => [Ast.Kind.sll, .srl, .sra, .lessThan, .greaterThan, .lessEq, .greaterEq, .eq,
      .notEq, .eql, .notEql].contains k
  | none => false

/-- An operation with two operands. A left operand that binds as strongly or more, and a right
operand that binds more strongly, have no parentheses. -/
def binaryCode (k : Ast.Kind) (c : Context) : Result String := do
  let order := Operator.order? k.word
  let compared (t : Ast) (test : Nat → Nat → Bool) : Result Bool :=
    if keepsParens t then pure false
    else match Operator.order? t.kindWord, order with
      | none, _ => pure false
      | some _, none => throw .wrongKind
      | some o, some order => pure (test o order)
  let left ← c.code 0
  let right ← c.code 1
  let left := if ← compared (c.part 0) (fun o n => o ≤ n) then withoutParens left else left
  let right := if ← compared (c.part 1) (fun o n => o < n) then withoutParens right else right
  return "(" ++ left ++ " " ++ (Operator.mark? k.word).getD "None" ++ " " ++ right ++ ")"

def substitutionCode (mark : String) (c : Context) : Result String := do
  let left ← c.code 0
  let right ← c.code 1
  let ldelay ← c.codeOr 2
  let rdelay ← c.codeOr 3
  return alignAssign (spaced ldelay ++ left ++ " " ++ mark ++ " " ++ spaced rdelay ++ right ++ ";")

def blockCode (first last : String) (c : Context) : Result String := do
  let scope ← c.nameOr 1
  let statements ← c.indented 0
  return first ++ (if scope == "" then "" else " : " ++ scope) ++ lined statements ++ "\n" ++ last

def caseCode (word : String) (c : Context) : Result String := do
  let comp ← c.bare 0
  let items ← c.indented 1
  return word ++ "(" ++ comp ++ ")" ++ lined items ++ "\nendcase"

def routineCode (head last : String) (statements : List String) : String :=
  "\n" ++ head ++ ";" ++ lined statements ++ "\n" ++ last ++ "\n"

def moduleCode (c : Context) : Result String := do
  let inside (i : Nat) : Result String := do
    return Text.indentWith c.margin (← c.codeOr i)
  let params ← inside 1
  let ports ← inside 2
  let name ← c.name 0
  let items ← if (c.part 3).isPresent then c.indented 3 else pure []
  return "\nmodule " ++ name ++ (if params == "" then "" else " #\n(\n" ++ params ++ "\n)") ++
    "\n(\n" ++ ports ++ "\n);\n\n" ++ String.join (items.map (· ++ "\n")) ++ "\nendmodule\n"

def instancesCode (c : Context) : Result String := do
  let params ← c.indented 1
  let instances ← c.codes 2
  let name ← c.name 0
  return "\n" ++ name ++ (if params.isEmpty then "" else "\n#(" ++ commaLined params ++ "\n)") ++
    (if instances.isEmpty then "" else commaLined instances) ++ ";\n"

def instanceCode (c : Context) : Result String := do
  let array ← c.codeOr 4
  let ports ← c.indented 2
  let name ← c.name 1
  return name ++ array ++ "\n(" ++ (if ports.isEmpty then "" else commaLined ports) ++ "\n)"

def argumentCode (c : Context) : Result String := do
  let name ← c.nameOr 0
  let arg ← if (c.part 1).isAbsent then pure "" else c.bare 1
  return if name == "" then arg else "." ++ name ++ "(" ++ arg ++ ")"

def caseItemCode (c : Context) : Result String := do
  let conds ← if (c.part 0).isAbsent then pure ["default"]
    else do pure ((← c.codes 0).map withoutParens)
  return Text.joinWith ", " conds ++ ": " ++ (← c.code 1)

def forCode (c : Context) : Result String := do
  let pre := withoutBlanks (← c.codeOr 0)
  let cond := withoutBlanks (withoutParens (← c.codeOr 1))
  let post := withoutBlanks (Text.without ';' (← c.codeOr 2))
  return "for(" ++ pre ++ " " ++ cond ++ "; " ++ post ++ ") " ++ (← c.codeOr 3)

/-- A choice between two values. A choice in the second place begins on a new line. -/
def condCode (c : Context) : Result String := do
  let yes ← c.bare 1
  let no ← c.bare 2
  let no := if (c.part 2).is .cond then "\n" ++ no else no
  return "((" ++ (← c.bare 0) ++ ")? " ++ yes ++ " : " ++ no ++ ")"

/-- The text of a node of a kind. A kind without a rule has the texts of its children, one after
the other. -/
def nodeCode (k : Ast.Kind) (c : Context) : Result String :=
  let enclosed (a b : String) (i : Nat) : Result String := do return a ++ (← c.code i) ++ b
  match k with
  | .source => c.code 1
  | .description => do return String.join ((← c.codes 0).map fun d => "\n" ++ d ++ "\n")
  | .moduleDef => moduleCode c
  | .paramlist => do return Text.joinWith ",\n" ((← c.codes 0).map (Text.without ';'))
  | .portlist => do return Text.joinWith ",\n" (← c.codes 0)
  | .port => c.name 0
  | .width | .length => do return "[" ++ (← c.dense 0) ++ ":" ++ (← c.dense 1) ++ "]"
  | .identifier => do
    let name ← c.name 0
    return (← c.codeOr 1) ++ name
  | .value | .literal | .intConst | .floatConst => pure (c.part 0).toText
  | .stringConst => pure ("\"" ++ (c.part 0).toText ++ "\"")
  | .anyVariable | .input | .output | .inout | .tri | .wire | .reg =>
    variableCode (Text.lower k.word) c
  | .wireArray => arrayCode "wire" c
  | .regArray => arrayCode "reg" c
  | .integer | .real | .genvar => do return Text.lower k.word ++ " " ++ (← c.name 0) ++ ";"
  | .ioport => ioportCode c
  | .parameter | .localparam => parameterCode (Text.lower k.word) c
  | .decl => do return String.join (← c.codes 0)
  | .concat | .leftConcat => do
    return "\x7b " ++ Text.joinWith ", " ((← c.codes 0).map withoutParens) ++ " \x7d"
  | .replicate => do
    let value ← c.bare 0
    return "\x7b " ++ (← c.bare 1) ++ value ++ " \x7d"
  | .partselect => do
    let var ← c.code 0
    return var ++ "[" ++ (← c.dense 1) ++ ":" ++ (← c.dense 2) ++ "]"
  | .pointer => do
    let var ← c.code 0
    return var ++ "[" ++ (← c.bare 1) ++ "]"
  | .lvalue | .rvalue => c.bare 0
  | .cond => condCode c
  | .assign => do
    let left ← c.code 0
    return alignAssign ("assign " ++ left ++ " = " ++ (← c.code 1) ++ ";")
  | .always => do
    let sens ← c.code 0
    return "\nalways @(" ++ sens ++ ") " ++ (← c.code 1) ++ "\n"
  | .sensList => do return Text.joinWith " or " (← c.codes 0)
  | .sens => do
    let kind := (c.part 1).toText
    let sig ← if kind == "all" then pure "*" else c.code 0
    return (if kind == "posedge" || kind == "negedge" then kind ++ " " else "") ++ sig
  | .substitution | .blockingSubstitution => substitutionCode "=" c
  | .nonblockingSubstitution => substitutionCode "<=" c
  | .ifStatement => do
    let yes ← c.codeOr 1
    let no ← c.codeOr 2
    return "if(" ++ (← c.bare 0) ++ ") " ++ yes ++ elsePart yes no
  | .forStatement => forCode c
  | .whileStatement => do
    let cond := withoutParens (← c.codeOr 0)
    return "while(" ++ cond ++ ") " ++ (← c.codeOr 1)
  | .caseStatement => caseCode "case" c
  | .casexStatement => caseCode "casex" c
  | .caseItem => caseItemCode c
  | .block => blockCode "begin" "end" c
  | .parallelBlock => blockCode "fork" "join" c
  | .initial => enclosed "\ninitial " "\n" 0
  | .eventStatement => do return "@(" ++ (← c.bare 0) ++ ");"
  | .waitStatement => do
    let cond ← c.bare 0
    let statement ← if (c.part 1).isPresent then c.code 1 else pure ""
    return "wait(" ++ cond ++ ")" ++ (if statement == "" then ";" else " " ++ statement)
  | .foreverStatement => enclosed "forever " "" 0
  | .delayStatement => enclosed "#" "" 0
  | .instanceList => instancesCode c
  | .inst => instanceCode c
  | .paramArg | .portArg => argumentCode c
  | .function => do
    let statements ← c.indented 2
    let name ← c.name 0
    return routineCode ("function " ++ (← c.code 1) ++ " " ++ name) "endfunction" statements
  | .functionCall => do
    let args ← c.codes 1
    return (← c.code 0) ++ "(" ++ Text.joinWith ", " args ++ ")"
  | .task => do
    let statements ← c.indented 1
    return routineCode ("task " ++ (← c.name 0)) "endtask" statements
  | .generateStatement => do
    return "\ngenerate " ++ String.join (← c.codes 0) ++ "\nendgenerate\n"
  | .systemCall => do
    let args ← c.codes 1
    return "$" ++ (← c.name 0) ++
      (if args.isEmpty then "" else "(" ++ Text.joinWith ", " args ++ ")")
  | .identifierScopeLabel => do
    let name ← c.name 0
    let loop ← c.codeOr 1
    return name ++ (if loop == "" then "" else "[" ++ loop ++ "]") ++ "."
  | .identifierScope => do return String.join (← c.codes 0)
  | .pragma => enclosed "(* " " *)" 0
  | .pragmaEntry => do
    let name ← c.name 0
    let value ← c.codeOr 1
    return name ++ (if value == "" then "" else " = " ++ value)
  | .disable => do return "diable " ++ (← c.name 0)
  | .singleStatement => enclosed "" ";" 0
  | .supply | .casezStatement | .taskCall => do
    return String.join (← (← Ast.gather c.found k.shape.slots).mapM Printed.whole)
  | k =>
    if k.isUnary then do
      let mark := if k = .uplus then "" else (Operator.mark? k.word).getD "None"
      return "(" ++ mark ++ (← c.code 0) ++ ")"
    else binaryCode k c

def rangeCode (k : Ast.Kind) (c : Context) : Result String :=
  match k.shape.parts.idxOf? "width" with
  | some i => c.codeOr i
  | none => throw .noMember

end Printer

def code (margin : String) (t : Ast) : Result String :=
  (t.fold (fun _ => ⟨throw .noMember, throw .noMember⟩) fun k _ parts found =>
    let c : Printer.Context := ⟨parts, found, margin⟩
    ⟨Printer.nodeCode k c, Printer.rangeCode k c⟩).whole

end RtlFlow.Verilog
