import RtlFlow.Number.Scalar

/-!
# Kinds of syntax nodes

Every node of a syntax tree has a kind. The kind fixes the parts of the node, which of them are
shown as attributes, and which of them are, or list, its children.
-/

namespace RtlFlow.Ast

inductive Kind where
  | source | description | moduleDef | paramlist | portlist | port | width | length | identifier
  | value | literal | intConst | floatConst | stringConst | anyVariable | input | output | inout
  | tri | wire | reg | wireArray | regArray | integer | real | genvar | ioport | parameter
  | localparam | supply | decl | concat | leftConcat | replicate | partselect | pointer | lvalue
  | rvalue | binary | unary | uplus | uminus | ulnot | unot | uand | unand | uor | unor | uxor
  | uxnor | power | times | divide | mod | plus | minus | sll | srl | sra | lessThan
  | greaterThan | lessEq | greaterEq | eq | notEq | eql | notEql | and | xor | xnor | or | land
  | lor | cond | assign | always | sensList | sens | substitution | blockingSubstitution
  | nonblockingSubstitution | ifStatement | forStatement | whileStatement | caseStatement
  | casexStatement | casezStatement | caseItem | block | initial | eventStatement | waitStatement
  | foreverStatement | delayStatement | instanceList | inst | paramArg | portArg | function
  | functionCall | task | taskCall | generateStatement | systemCall | identifierScopeLabel
  | identifierScope | pragma | pragmaEntry | disable | parallelBlock | singleStatement
deriving DecidableEq, Repr, Inhabited

namespace Kind

def all : List Kind := (List.range 111).map Kind.ofNat

def words : List String := [
  "Source", "Description", "ModuleDef", "Paramlist", "Portlist", "Port", "Width", "Length",
  "Identifier", "Value", "Constant", "IntConst", "FloatConst", "StringConst", "Variable",
  "Input", "Output", "Inout", "Tri", "Wire", "Reg", "WireArray", "RegArray", "Integer", "Real",
  "Genvar", "Ioport", "Parameter", "Localparam", "Supply", "Decl", "Concat", "LConcat", "Repeat",
  "Partselect", "Pointer", "Lvalue", "Rvalue", "Operator", "UnaryOperator", "Uplus", "Uminus",
  "Ulnot", "Unot", "Uand", "Unand", "Uor", "Unor", "Uxor", "Uxnor", "Power", "Times", "Divide",
  "Mod", "Plus", "Minus", "Sll", "Srl", "Sra", "LessThan", "GreaterThan", "LessEq", "GreaterEq",
  "Eq", "NotEq", "Eql", "NotEql", "And", "Xor", "Xnor", "Or", "Land", "Lor", "Cond", "Assign",
  "Always", "SensList", "Sens", "Substitution", "BlockingSubstitution",
  "NonblockingSubstitution", "IfStatement", "ForStatement", "WhileStatement", "CaseStatement",
  "CasexStatement", "CasezStatement", "Case", "Block", "Initial", "EventStatement",
  "WaitStatement", "ForeverStatement", "DelayStatement", "InstanceList", "Instance", "ParamArg",
  "PortArg", "Function", "FunctionCall", "Task", "TaskCall", "GenerateStatement", "SystemCall",
  "IdentifierScopeLabel", "IdentifierScope", "Pragma", "PragmaEntry", "Disable", "ParallelBlock",
  "SingleStatement"]

def word (k : Kind) : String := words.getD k.ctorIdx ""

def ofWord? (w : String) : Option Kind := all.find? fun k => k.word == w

end Kind

/-- A child of a node: one of its parts, or the members of one. -/
inductive Slot where
  | one (i : Nat)
  | each (i : Nat)
deriving DecidableEq, Repr

def Slot.index : Slot → Nat
  | .one i | .each i => i

structure Shape where
  parts : List String
  defaults : List Scalar := []
  attrs : List Nat := []
  slots : List Slot := []
deriving Repr

def Kind.general : Kind → Option Kind
  | .length => some .width
  | .literal | .anyVariable => some .value
  | .intConst | .floatConst | .stringConst => some .literal
  | .input | .output | .inout | .tri | .wire | .reg | .wireArray | .regArray | .integer | .real
  | .genvar => some .anyVariable
  | .localparam | .supply => some .parameter
  | .leftConcat => some .concat
  | .uplus | .uminus | .ulnot | .unot | .uand | .unand | .uor | .unor | .uxor | .uxnor =>
    some .unary
  | .unary | .power | .times | .divide | .mod | .plus | .minus | .sll | .srl | .sra | .lessThan
  | .greaterThan | .lessEq | .greaterEq | .eq | .notEq | .eql | .notEql | .and | .xor | .xnor
  | .or | .land | .lor | .cond => some .binary
  | .blockingSubstitution | .nonblockingSubstitution => some .substitution
  | .casexStatement | .casezStatement => some .caseStatement
  | _ => none

def Kind.isUnary (k : Kind) : Bool := k = .unary || k.general = some .unary

def Kind.isOperator (k : Kind) : Bool := k = .binary || k.isUnary || k.general = some .binary

def Kind.isLiteral (k : Kind) : Bool := k = .literal || k.general = some .literal

def Kind.shape (k : Kind) : Shape :=
  match k with
  | .source => ⟨["name", "description"], [], [0], [.one 1]⟩
  | .description => ⟨["definitions"], [], [], [.each 0]⟩
  | .moduleDef => ⟨["name", "paramlist", "portlist", "items", "default_nettype"],
      [.text "wire"], [0], [.one 1, .one 2, .each 3]⟩
  | .paramlist => ⟨["params"], [], [], [.each 0]⟩
  | .portlist => ⟨["ports"], [], [], [.each 0]⟩
  | .port => ⟨["name", "width", "type"], [], [0, 2], [.one 1]⟩
  | .width | .length => ⟨["msb", "lsb"], [], [], [.one 0, .one 1]⟩
  | .identifier => ⟨["name", "scope"], [.none], [0], [.one 1]⟩
  | .value => ⟨["value"], [], [], [.one 0]⟩
  | .literal | .intConst | .floatConst | .stringConst => ⟨["value"], [], [0], []⟩
  | .anyVariable | .input | .output | .inout | .tri | .wire | .reg | .integer | .real
  | .genvar => ⟨["name", "width", "signed"], [.none, .bool false], [0, 2], [.one 1]⟩
  | .wireArray | .regArray =>
    ⟨["name", "width", "length", "signed"], [.bool false], [0, 3], [.one 1, .one 2]⟩
  | .ioport => ⟨["first", "second"], [.none], [], [.one 0, .one 1]⟩
  | .parameter | .localparam | .supply =>
    ⟨["name", "value", "width", "signed"], [.none, .bool false], [0, 3], [.one 1, .one 2]⟩
  | .decl | .concat | .leftConcat | .sensList => ⟨["list"], [], [], [.each 0]⟩
  | .replicate => ⟨["value", "times"], [], [], [.one 0, .one 1]⟩
  | .partselect => ⟨["var", "msb", "lsb"], [], [], [.one 0, .one 1, .one 2]⟩
  | .pointer => ⟨["var", "ptr"], [], [], [.one 0, .one 1]⟩
  | .lvalue | .rvalue => ⟨["var"], [], [], [.one 0]⟩
  | .cond => ⟨["cond", "true_value", "false_value"], [], [], [.one 0, .one 1, .one 2]⟩
  | .assign | .substitution | .blockingSubstitution | .nonblockingSubstitution =>
    ⟨["left", "right", "ldelay", "rdelay"], [.none, .none], [], [.one 0, .one 1, .one 2, .one 3]⟩
  | .always => ⟨["sens_list", "statement"], [], [], [.one 0, .one 1]⟩
  | .sens => ⟨["sig", "type"], [.text "posedge"], [1], [.one 0]⟩
  | .ifStatement =>
    ⟨["cond", "true_statement", "false_statement"], [], [], [.one 0, .one 1, .one 2]⟩
  | .forStatement =>
    ⟨["pre", "cond", "post", "statement"], [], [], [.one 0, .one 1, .one 2, .one 3]⟩
  | .whileStatement | .waitStatement => ⟨["cond", "statement"], [], [], [.one 0, .one 1]⟩
  | .caseStatement | .casexStatement | .casezStatement =>
    ⟨["comp", "caselist"], [], [], [.one 0, .each 1]⟩
  | .caseItem => ⟨["cond", "statement"], [], [], [.each 0, .one 1]⟩
  | .block | .parallelBlock => ⟨["statements", "scope"], [.none], [1], [.each 0]⟩
  | .initial | .foreverStatement | .singleStatement => ⟨["statement"], [], [], [.one 0]⟩
  | .eventStatement => ⟨["senslist"], [], [], [.one 0]⟩
  | .delayStatement => ⟨["delay"], [], [], [.one 0]⟩
  | .instanceList => ⟨["module", "parameterlist", "instances"], [], [0], [.each 1, .each 2]⟩
  | .inst => ⟨["module", "name", "portlist", "parameterlist", "array"], [.none], [1, 0],
      [.one 4, .each 3, .each 2]⟩
  | .paramArg => ⟨["paramname", "argname"], [], [0], [.one 1]⟩
  | .portArg => ⟨["portname", "argname"], [], [0], [.one 1]⟩
  | .function => ⟨["name", "retwidth", "statement"], [], [0], [.one 1, .each 2]⟩
  | .functionCall | .taskCall => ⟨["name", "args"], [], [], [.one 0, .each 1]⟩
  | .task => ⟨["name", "statement"], [], [0], [.each 1]⟩
  | .generateStatement => ⟨["items"], [], [], [.each 0]⟩
  | .systemCall => ⟨["syscall", "args"], [], [0], [.each 1]⟩
  | .identifierScopeLabel => ⟨["name", "loop"], [.none], [0, 1], []⟩
  | .identifierScope => ⟨["labellist"], [], [], [.each 0]⟩
  | .pragma => ⟨["entry"], [], [], [.one 0]⟩
  | .pragmaEntry => ⟨["name", "value"], [.none], [0], [.one 1]⟩
  | .disable => ⟨["dest"], [], [0], []⟩
  | k =>
    if k.isUnary then ⟨["right"], [], [], [.one 0]⟩
    else ⟨["left", "right"], [], [], [.one 0, .one 1]⟩

end RtlFlow.Ast
