import Mathlib
import RtlFlow.Proofs.Verilog.Lexemes
import RtlFlow.Verilog.Parser

/-!
# The spelling of expressions

A spelling of an expression is a list of tokens for it. Between a printed text and a parsed tree it
says what is common to both: it does not say where parentheses stand, only where they have to.
-/

namespace RtlFlow.Verilog

def unaryOperators : List (Ast.Kind × Sym × List Char) :=
  [(.uminus, .MINUS, ['-']), (.ulnot, .LNOT, ['!']), (.unot, .NOT, ['~']), (.uand, .AND, ['&']),
   (.unand, .NAND, ['~', '&']), (.uor, .OR, ['|']), (.unor, .NOR, ['~', '|']),
   (.uxor, .XOR, ['^']), (.uxnor, .XNOR, ['~', '^'])]

def binaryOperators : List (Ast.Kind × Sym × List Char) :=
  [(.power, .POWER, ['*', '*']), (.times, .TIMES, ['*']), (.divide, .DIVIDE, ['/']),
   (.mod, .MOD, ['%']), (.plus, .PLUS, ['+']), (.minus, .MINUS, ['-']),
   (.sll, .LSHIFT, ['<', '<']), (.srl, .RSHIFT, ['>', '>']), (.sra, .RSHIFTA, ['>', '>', '>']),
   (.lessThan, .LT, ['<']), (.greaterThan, .GT, ['>']), (.lessEq, .LE, ['<', '=']),
   (.greaterEq, .GE, ['>', '=']), (.eq, .EQ, ['=', '=']), (.notEq, .NE, ['!', '=']),
   (.eql, .EQL, ['=', '=', '=']), (.notEql, .NEL, ['!', '=', '=']), (.and, .AND, ['&']),
   (.xor, .XOR, ['^']), (.xnor, .XNOR, ['~', '^']), (.or, .OR, ['|']), (.land, .LAND, ['&', '&']),
   (.lor, .LOR, ['|', '|'])]

/-- The strength of what no operator takes apart. -/
def tight : Nat := precedences.length + 2

def labelsOf : Ast → List Ast
  | .node .identifierScope _ [.seq labels] => labels
  | _ => []

/-- A scope of a name, which may be absent. -/
inductive IsScope : Ast → Prop
  | absent : IsScope .absent
  | labels (place : Ast.Place) (labels : List Ast) :
      IsScope (.node .identifierScope place [.seq labels])

inductive Phrase where
  /-- An expression whose loosest operator binds with a strength. -/
  | expr (strength : Nat)
  | operand
  | name
  | pointer
  | scope
  /-- Expressions with commas between them. -/
  | list
deriving DecidableEq

/-- The tokens of a tree, wherever its nodes have their places. -/
inductive Spelling : Phrase → Ast → Wording → Prop
  | name {p : Ast.Place} {x : String} (hx : Lexeme .ID x) :
      Spelling .name (.node .identifier p [.text x, .absent]) [(.ID, x)]
  | inScope {p : Ast.Place} {x : String} {scope : Ast} {w : Wording}
      (hs : Spelling .scope scope w) (hx : Lexeme .ID x) :
      Spelling .name (.node .identifier p [.text x, scope]) (w ++ [(.ID, x)])
  | scopeName {p q r : Ast.Place} {x : String} {scope : Ast} {w : Wording}
      (hn : Spelling .name (.node .identifier p [.text x, scope]) w) :
      Spelling .scope (.node .identifierScope q [.seq (labelsOf scope ++
        [.node .identifierScopeLabel r [.text x, .absent]])]) (w ++ [(.DOT, ".")])
  | scopePointer {p p' q r : Ast.Place} {x : String} {scope e : Ast} {w : Wording}
      (hn : Spelling .pointer (.node .pointer p [.node .identifier p' [.text x, scope], e]) w) :
      Spelling .scope (.node .identifierScope q [.seq (labelsOf scope ++
        [.node .identifierScopeLabel r [.text x, e]])]) (w ++ [(.DOT, ".")])
  | pointer {p : Ast.Place} {base : Phrase} {v e : Ast} {b : Nat} {w w' : Wording}
      (hbase : base = .name ∨ base = .pointer) (hv : Spelling base v w)
      (he : Spelling (.expr b) e w') :
      Spelling .pointer (.node .pointer p [v, e])
        (w ++ ((.LBRACKET, "[") :: w' ++ [(.RBRACKET, "]")]))
  | ofName {e : Ast} {w : Wording} (h : Spelling .name e w) : Spelling .operand e w
  | ofPointer {e : Ast} {w : Wording} (h : Spelling .pointer e w) :
      Spelling .operand e w
  | integer {p : Ast.Place} {s : Sym} {x : String} (hs : s ∈ integerSyms) (hx : Lexeme s x) :
      Spelling .operand (.node .intConst p [.text x]) [(s, x)]
  | float {p : Ast.Place} {x : String} (hx : Lexeme .FLOATNUMBER x) :
      Spelling .operand (.node .floatConst p [.text x]) [(.FLOATNUMBER, x)]
  | string {p : Ast.Place} {x y : String} (hx : Lexeme .STRING_LITERAL x)
      (hy : x.toList = '"' :: (y.toList ++ ['"'])) :
      Spelling .operand (.node .stringConst p [.text y]) [(.STRING_LITERAL, x)]
  | paren {e : Ast} {b : Nat} {w : Wording} (h : Spelling (.expr b) e w) :
      Spelling .operand e ((.LPAREN, "(") :: w ++ [(.RPAREN, ")")])
  | concat {p : Ast.Place} {es : List Ast} {w : Wording} (h : Spelling .list (.seq es) w) :
      Spelling .operand (.node .concat p [.seq es])
        ((.LBRACE, "\x7b") :: w ++ [(.RBRACE, "\x7d")])
  | replicate {p p' : Ast.Place} {e : Ast} {es : List Ast} {b : Nat} {w w' : Wording}
      (h : Spelling (.expr b) e w) (hs : Spelling .list (.seq es) w') :
      Spelling .operand (.node .replicate p [.node .concat p' [.seq es], e])
        ((.LBRACE, "\x7b") :: w ++
          ((.LBRACE, "\x7b") :: w' ++ [(.RBRACE, "\x7d"), (.RBRACE, "\x7d")]))
  | call {p : Ast.Place} {f : Ast} {w : Wording} (hf : Spelling .name f w) :
      Spelling .operand (.node .functionCall p [f, .seq []])
        (w ++ [(.LPAREN, "("), (.RPAREN, ")")])
  | callWith {p : Ast.Place} {f : Ast} {es : List Ast} {w w' : Wording} (hf : Spelling .name f w)
      (hs : Spelling .list (.seq es) w') :
      Spelling .operand (.node .functionCall p [f, .seq es])
        (w ++ ((.LPAREN, "(") :: w' ++ [(.RPAREN, ")")]))
  | systemCall {p : Ast.Place} {x : String} (hx : Lexeme .ID x) :
      Spelling .operand (.node .systemCall p [.text x, .seq []]) [(.DOLLER, "$"), (.ID, x)]
  | systemCallWith {p : Ast.Place} {s : Sym} {x : String} {es : List Ast} {w : Wording}
      (hs : s = .ID ∨ s = .SIGNED) (hx : Lexeme s x) (h : Spelling .list (.seq es) w) :
      Spelling .operand (.node .systemCall p [.text x, .seq es])
        ((.DOLLER, "$") :: (s, x) :: (.LPAREN, "(") :: w ++ [(.RPAREN, ")")])
  | ofOperand {e : Ast} {w : Wording} (h : Spelling .operand e w) :
      Spelling (.expr tight) e w
  | unary {p : Ast.Place} {k : Ast.Kind} {s : Sym} {m : List Char} {e : Ast} {w : Wording}
      (hk : (k, s, m) ∈ unaryOperators) (h : Spelling .operand e w) :
      Spelling (.expr tight) (.node k p [e]) ((s, String.ofList m) :: w)
  | binary {p : Ast.Place} {k : Ast.Kind} {s : Sym} {m : List Char} {e e' : Ast} {b b' : Nat}
      {w w' : Wording} (hk : (k, s, m) ∈ binaryOperators)
      (h : Spelling (.expr b) e w) (h' : Spelling (.expr b') e' w')
      (hb : s.prec.level ≤ b) (hb' : s.prec.level < b') :
      Spelling (.expr s.prec.level) (.node k p [e, e']) (w ++ ((s, String.ofList m) :: w'))
  | cond {p : Ast.Place} {c e e' : Ast} {a b b' : Nat} {w w' w'' : Wording}
      (hc : Spelling (.expr a) c w) (h : Spelling (.expr b) e w')
      (h' : Spelling (.expr b') e' w'') :
      Spelling (.expr 0) (.node .cond p [c, e, e'])
        ((.LPAREN, "(") :: w ++ ((.RPAREN, ")") :: (.COND, "?") :: w' ++ ((.COLON, ":") :: w'')))
  | one {e : Ast} {b : Nat} {w : Wording} (h : Spelling (.expr b) e w) :
      Spelling .list (.seq [e]) w
  | more {es : List Ast} {e : Ast} {b : Nat} {w w' : Wording}
      (hs : Spelling .list (.seq es) w) (h : Spelling (.expr b) e w') :
      Spelling .list (.seq (es ++ [e])) (w ++ ((.COMMA, ",") :: w'))

theorem Spelling.ne_nil {ph : Phrase} {e : Ast} {w : Wording} (h : Spelling ph e w) :
    w ≠ [] := by
  induction h <;> simp_all

theorem Spelling.isScope_of_scope {e : Ast} {w : Wording} (h : Spelling .scope e w) :
    IsScope e := by
  cases h with
  | scopeName hn => exact .labels _ _
  | scopePointer hn => exact .labels _ _

theorem Spelling.isScope_of_name {p : Ast.Place} {x : String} {scope : Ast}
    {w : Wording} (h : Spelling .name (.node .identifier p [.text x, scope]) w) :
    IsScope scope := by
  cases h with
  | name hx => exact .absent
  | inScope hscope hx => exact hscope.isScope_of_scope

theorem Spelling.isScope_of_pointer {p q : Ast.Place} {x : String} {scope e : Ast}
    {w : Wording}
    (h : Spelling .pointer (.node .pointer p [.node .identifier q [.text x, scope], e]) w) :
    IsScope scope := by
  cases h with
  | pointer hbase hv he =>
    rcases hbase with rfl | rfl
    · exact hv.isScope_of_name
    · cases hv

end RtlFlow.Verilog
