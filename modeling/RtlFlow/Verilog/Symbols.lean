import RtlFlow.Grammar.Basic

/-!
# The symbols of the Verilog grammar

The terminals are the token classes and the error symbol. They come before the nonterminals, which
stand in the order in which the rules name them.
-/

namespace RtlFlow.Verilog

inductive Sym where
  | MODULE | ENDMODULE | BEGIN | END | GENERATE | ENDGENERATE | GENVAR | FUNCTION | ENDFUNCTION
  | TASK | ENDTASK | INPUT | INOUT | OUTPUT | TRI | REG | WIRE | INTEGER | REAL | SIGNED
  | PARAMETER | LOCALPARAM | SUPPLY0 | SUPPLY1 | ASSIGN | ALWAYS | SENS_OR | POSEDGE | NEGEDGE
  | INITIAL | IF | ELSE | FOR | WHILE | CASE | CASEX | CASEZ | ENDCASE | DEFAULT | WAIT | FOREVER
  | DISABLE | FORK | JOIN | LSHIFTA | RSHIFTA | EQL | NEL | LOR | LAND | POWER | NOR | NAND
  | XNOR | PLUSCOLON | MINUSCOLON | LSHIFT | RSHIFT | EQ | NE | LE | GE | OR | AND | XOR | LNOT
  | NOT | LT | GT | PLUS | MINUS | TIMES | DIVIDE | MOD | COND | EQUALS | AT | COMMA | SEMICOLON
  | COLON | DOT | LPAREN | RPAREN | LBRACKET | RBRACKET | LBRACE | RBRACE | DELAY | DOLLER | ID
  | FLOATNUMBER | STRING_LITERAL | INTNUMBER_DEC | SIGNED_INTNUMBER_DEC | INTNUMBER_HEX
  | SIGNED_INTNUMBER_HEX | INTNUMBER_OCT | SIGNED_INTNUMBER_OCT | INTNUMBER_BIN
  | SIGNED_INTNUMBER_BIN | error
  | sourceText | description | definitions | definition | moduledef | pragma | expression
  | modulename | paramlist | portlist | items | params | empty | paramsBegin | paramEnd | param
  | paramSubstitutionList | width | ports | ioports | portname | sigtypes | sigtype | ioport
  | ioportHead | length | item | standardItem | generate | decl | integerdecl | realdecl
  | declassign | parameterdecl | localparamdecl | genvardecl | assignment | always | initial
  | instantiation | function | task | declnamelist | declname | declassignElement | rvalue
  | delays | integernamelist | integername | realnamelist | realname | paramSubstitution | lvalue
  | lpartselect | pointer | identifier | lpointer | lconcat | lconcatlist | lconcatOne | concat
  | replication | partselect | functioncall | systemcall | constExpression | concatlist
  | intnumber | floatnumber | stringliteral | senslist | alwaysStatement | edgesigs | edgesig
  | edgesigBase | levelsig | levelsigs | levelsigBase | basicStatement | ifStatement
  | caseStatement | casexStatement | casezStatement | forStatement | whileStatement
  | eventStatement | waitStatement | foreverStatement | block | namedblock | parallelblock
  | blockingSubstitution | nonblockingSubstitution | singleStatement | blockingSubstitutionBase
  | blockStatements | blockStatement | namedblockStatements | namedblockStatement | cond
  | trueStatement | elseStatement | ifcontentStatement | forpre | forcond | forpost
  | forcontentStatement | whilecontentStatement | caseComp | casecontentStatements
  | casecontentStatement | casecontentCondition | initialStatement | waitcontentStatement
  | parameterlist | instanceBodylist | instanceBody | instancePorts | instanceBodylistNoname
  | instanceBodyNoname | paramArgs | paramArgsNoname | paramArgNoname | paramArg
  | instancePortsList | instancePortsArg | instancePortList | instancePortArg | genvarlist
  | genvar | generateItems | generateItem | generateIf | generateFor | generateBlock
  | gifTrueItem | gifFalseItem | generateForcontent | sysargs | sysarg | functionStatement
  | funcvardecls | functionCalc | funcvardecl | funcArgs | taskStatement | taskvardecls
  | taskCalc | taskvardecl | scope | disable
deriving DecidableEq, Repr, Inhabited

namespace Sym

def names : List String := [
  "MODULE", "ENDMODULE", "BEGIN", "END", "GENERATE", "ENDGENERATE", "GENVAR", "FUNCTION",
  "ENDFUNCTION", "TASK", "ENDTASK", "INPUT", "INOUT", "OUTPUT", "TRI", "REG", "WIRE", "INTEGER",
  "REAL", "SIGNED", "PARAMETER", "LOCALPARAM", "SUPPLY0", "SUPPLY1", "ASSIGN", "ALWAYS",
  "SENS_OR", "POSEDGE", "NEGEDGE", "INITIAL", "IF", "ELSE", "FOR", "WHILE", "CASE", "CASEX",
  "CASEZ", "ENDCASE", "DEFAULT", "WAIT", "FOREVER", "DISABLE", "FORK", "JOIN", "LSHIFTA",
  "RSHIFTA", "EQL", "NEL", "LOR", "LAND", "POWER", "NOR", "NAND", "XNOR", "PLUSCOLON",
  "MINUSCOLON", "LSHIFT", "RSHIFT", "EQ", "NE", "LE", "GE", "OR", "AND", "XOR", "LNOT", "NOT",
  "LT", "GT", "PLUS", "MINUS", "TIMES", "DIVIDE", "MOD", "COND", "EQUALS", "AT", "COMMA",
  "SEMICOLON", "COLON", "DOT", "LPAREN", "RPAREN", "LBRACKET", "RBRACKET", "LBRACE", "RBRACE",
  "DELAY", "DOLLER", "ID", "FLOATNUMBER", "STRING_LITERAL", "INTNUMBER_DEC",
  "SIGNED_INTNUMBER_DEC", "INTNUMBER_HEX", "SIGNED_INTNUMBER_HEX", "INTNUMBER_OCT",
  "SIGNED_INTNUMBER_OCT", "INTNUMBER_BIN", "SIGNED_INTNUMBER_BIN", "error", "source_text",
  "description", "definitions", "definition", "moduledef", "pragma", "expression", "modulename",
  "paramlist", "portlist", "items", "params", "empty", "params_begin", "param_end", "param",
  "param_substitution_list", "width", "ports", "ioports", "portname", "sigtypes", "sigtype",
  "ioport", "ioport_head", "length", "item", "standard_item", "generate", "decl", "integerdecl",
  "realdecl", "declassign", "parameterdecl", "localparamdecl", "genvardecl", "assignment",
  "always", "initial", "instance", "function", "task", "declnamelist", "declname",
  "declassign_element", "rvalue", "delays", "integernamelist", "integername", "realnamelist",
  "realname", "param_substitution", "lvalue", "lpartselect", "pointer", "identifier", "lpointer",
  "lconcat", "lconcatlist", "lconcat_one", "concat", "repeat", "partselect", "functioncall",
  "systemcall", "const_expression", "concatlist", "intnumber", "floatnumber", "stringliteral",
  "senslist", "always_statement", "edgesigs", "edgesig", "edgesig_base", "levelsig", "levelsigs",
  "levelsig_base", "basic_statement", "if_statement", "case_statement", "casex_statement",
  "casez_statement", "for_statement", "while_statement", "event_statement", "wait_statement",
  "forever_statement", "block", "namedblock", "parallelblock", "blocking_substitution",
  "nonblocking_substitution", "single_statement", "blocking_substitution_base",
  "block_statements", "block_statement", "namedblock_statements", "namedblock_statement", "cond",
  "true_statement", "else_statement", "ifcontent_statement", "forpre", "forcond", "forpost",
  "forcontent_statement", "whilecontent_statement", "case_comp", "casecontent_statements",
  "casecontent_statement", "casecontent_condition", "initial_statement", "waitcontent_statement",
  "parameterlist", "instance_bodylist", "instance_body", "instance_ports",
  "instance_bodylist_noname", "instance_body_noname", "param_args", "param_args_noname",
  "param_arg_noname", "param_arg", "instance_ports_list", "instance_ports_arg",
  "instance_port_list", "instance_port_arg", "genvarlist", "genvar", "generate_items",
  "generate_item", "generate_if", "generate_for", "generate_block", "gif_true_item",
  "gif_false_item", "generate_forcontent", "sysargs", "sysarg", "function_statement",
  "funcvardecls", "function_calc", "funcvardecl", "func_args", "task_statement", "taskvardecls",
  "task_calc", "taskvardecl", "scope", "disable"]

def name (s : Sym) : String := names.getD s.ctorIdx ""

def terminalCount : Nat := 101

def count : Nat := 252

def all : List Sym := (List.range count).map Sym.ofNat

def isTerminal (s : Sym) : Bool := s.ctorIdx < terminalCount

/-- The number of a symbol. The numbers below belong to the symbols of all grammars. -/
def id (s : Sym) : Nat := s.ctorIdx + 3

end Sym

end RtlFlow.Verilog
