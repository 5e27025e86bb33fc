import RtlFlow.Verilog.Action

/-!
# Expressions

The rules for left and right sides, operators, selections and constants.
-/

namespace RtlFlow.Verilog

/-- The part select of `x[b +: w]` or `x[b -: w]`, where `k` is the operator that makes the second
bound from base and width, and `opLine` the line of its node. -/
def indexedSelect (k : Ast.Kind) (x b w : Ast) (opLine line : Int) : Maker Ast := do
  make .partselect line [x, b, ← make k opLine [b, w]]

def selecting (base : Sym) (inside : List Sym) : List Sym :=
  base :: .LBRACKET :: inside ++ [.RBRACKET]

def rangeRule (left base : Sym) : Production :=
  build left (selecting base [.expression, .COLON, .expression]) .partselect
    (fun p => [p 1, p 3, p 5])

/-- A production of a part select with a base and a width, which `mark` separates. -/
def indexedRule (left base mark : Sym) (k : Ast.Kind) (opLine : Bool) : Production :=
  ⟨left, selecting base [.expression, mark, .expression], some 1, fun p =>
    indexedSelect k (p 1) (p 3) (p 5) (if opLine then p.line 1 else 0) (p.line 1)⟩

def sideRules : List Production :=
  [rangeRule .lpartselect .pointer,
   indexedRule .lpartselect .pointer .PLUSCOLON .plus false,
   indexedRule .lpartselect .pointer .MINUSCOLON .minus false,
   rangeRule .lpartselect .identifier,
   indexedRule .lpartselect .identifier .PLUSCOLON .plus false,
   indexedRule .lpartselect .identifier .MINUSCOLON .minus false,
   pass .lpointer [.pointer],
   build .lconcat [.LBRACE, .lconcatlist, .RBRACE] .leftConcat (fun p => [p 2]),
   further .lconcatlist [.lconcatlist, .COMMA, .lconcatOne] 3,
   first .lconcatlist [.lconcatOne],
   pass .lconcatOne [.identifier],
   pass .lconcatOne [.lpartselect],
   pass .lconcatOne [.lpointer],
   pass .lconcatOne [.lconcat],
   build .lvalue [.lpartselect] .lvalue (fun p => [p 1]),
   build .lvalue [.lpointer] .lvalue (fun p => [p 1]),
   build .lvalue [.lconcat] .lvalue (fun p => [p 1]),
   build .lvalue [.identifier] .lvalue (fun p => [p 1]),
   build .rvalue [.expression] .rvalue (fun p => [p 1])]

def unaryRule (mark : Sym) (k : Ast.Kind) : Production :=
  build .expression [mark, .expression] k (fun p => [p 2])

def binaryRule (mark : Sym) (k : Ast.Kind) : Production :=
  build .expression [.expression, mark, .expression] k (fun p => [p 1, p 3])

def operatorRules : List Production :=
  [unaryRule .MINUS .uminus,
   ⟨.expression, [.PLUS, .expression], some 1, fun p => pure (p 2)⟩,
   unaryRule .LNOT .ulnot,
   unaryRule .NOT .unot,
   unaryRule .AND .uand,
   unaryRule .NAND .unand,
   unaryRule .NOR .unor,
   unaryRule .OR .uor,
   unaryRule .XOR .uxor,
   unaryRule .XNOR .uxnor,
   binaryRule .POWER .power,
   binaryRule .TIMES .times,
   binaryRule .DIVIDE .divide,
   binaryRule .MOD .mod,
   binaryRule .PLUS .plus,
   binaryRule .MINUS .minus,
   binaryRule .LSHIFT .sll,
   binaryRule .RSHIFT .srl,
   binaryRule .LSHIFTA .sll,
   binaryRule .RSHIFTA .sra,
   binaryRule .LT .lessThan,
   binaryRule .GT .greaterThan,
   binaryRule .LE .lessEq,
   binaryRule .GE .greaterEq,
   binaryRule .EQ .eq,
   binaryRule .NE .notEq,
   binaryRule .EQL .eql,
   binaryRule .NEL .notEql,
   binaryRule .AND .and,
   binaryRule .XOR .xor,
   binaryRule .XNOR .xnor,
   binaryRule .OR .or,
   binaryRule .LAND .land,
   binaryRule .LOR .lor,
   build .expression [.expression, .COND, .expression, .COLON, .expression] .cond
     (fun p => [p 1, p 3, p 5]),
   pass .expression [.LPAREN, .expression, .RPAREN] 2,
   pass .expression [.concat],
   pass .expression [.replication],
   pass .expression [.partselect],
   pass .expression [.pointer],
   pass .expression [.functioncall],
   pass .expression [.systemcall],
   pass .expression [.identifier],
   pass .expression [.constExpression]]

def unquote : Ast → Ast
  | .atom (.text s) => .text (String.ofList (s.toList.drop 1).dropLast)
  | t => t

def operandRules : List Production :=
  [build .concat [.LBRACE, .concatlist, .RBRACE] .concat (fun p => [p 2]),
   further .concatlist [.concatlist, .COMMA, .expression] 3,
   first .concatlist [.expression],
   build .replication [.LBRACE, .expression, .concat, .RBRACE] .replicate (fun p => [p 3, p 2]),
   rangeRule .partselect .identifier,
   indexedRule .partselect .identifier .PLUSCOLON .plus true,
   indexedRule .partselect .identifier .MINUSCOLON .minus true,
   rangeRule .partselect .pointer,
   indexedRule .partselect .pointer .PLUSCOLON .plus true,
   indexedRule .partselect .pointer .MINUSCOLON .minus true,
   build .pointer [.identifier, .LBRACKET, .expression, .RBRACKET] .pointer (fun p => [p 1, p 3]),
   build .pointer [.pointer, .LBRACKET, .expression, .RBRACKET] .pointer (fun p => [p 1, p 3]),
   build .constExpression [.intnumber] .intConst (fun p => [p 1]),
   build .constExpression [.floatnumber] .floatConst (fun p => [p 1]),
   build .constExpression [.stringliteral] .stringConst (fun p => [p 1]),
   pass .floatnumber [.FLOATNUMBER]] ++
  choice .intnumber [.INTNUMBER_DEC, .SIGNED_INTNUMBER_DEC, .INTNUMBER_BIN, .SIGNED_INTNUMBER_BIN,
    .INTNUMBER_OCT, .SIGNED_INTNUMBER_OCT, .INTNUMBER_HEX, .SIGNED_INTNUMBER_HEX] ++
  [⟨.stringliteral, [.STRING_LITERAL], some 1, fun p => pure (unquote (p 1))⟩]

end RtlFlow.Verilog
