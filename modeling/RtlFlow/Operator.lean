import RtlFlow.Ast.Kind

/-!
# Operators

The mark of an operator in Verilog and its place in the order of binding, by the word for the
operator.
-/

namespace RtlFlow.Operator

/-- The operators: word, mark, and order of binding, where 0 binds most strongly. -/
def all : List (String × String × Nat) :=
  [("Uminus", "-", 0), ("Ulnot", "!", 0), ("Unot", "~", 0), ("Uand", "&", 0), ("Unand", "~&", 0),
   ("Uor", "|", 0), ("Unor", "~|", 0), ("Uxor", "^", 0), ("Uxnor", "~^", 0), ("Power", "**", 1),
   ("Times", "*", 2), ("Divide", "/", 2), ("Mod", "%", 2), ("Plus", "+", 3), ("Minus", "-", 3),
   ("Sll", "<<", 4), ("Srl", ">>", 4), ("Sra", ">>>", 4), ("LessThan", "<", 5),
   ("GreaterThan", ">", 5), ("LessEq", "<=", 5), ("GreaterEq", ">=", 5), ("Eq", "==", 6),
   ("NotEq", "!=", 6), ("Eql", "===", 6), ("NotEql", "!==", 6), ("And", "&", 7), ("Xor", "^", 7),
   ("Xnor", "~^", 7), ("Or", "|", 8), ("Land", "&&", 9), ("Lor", "||", 10)]

def mark? (word : String) : Option String := (all.lookup word).map Prod.fst

def order? (word : String) : Option Nat := (all.lookup word).map Prod.snd

end RtlFlow.Operator
