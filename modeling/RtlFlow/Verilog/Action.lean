import RtlFlow.Ast.Basic
import RtlFlow.Verilog.Lexer
import RtlFlow.Verilog.Symbols

/-!
# Actions of the Verilog grammar

A production is a rule together with what it makes of the values of its symbols. The value of a
token is its text. Most productions pass the line of their first symbol on.
-/

namespace RtlFlow.Verilog

structure Workspace where
  lexer : Lexer := {}
  made : Nat := 0
  printed : List String := []
deriving Inhabited

abbrev Maker := EStateM Fault Workspace

structure Parts where
  values : Array Ast
  lines : Array Int
deriving Inhabited

namespace Parts

def value (p : Parts) (i : Nat) : Ast := p.values.getD (i - 1) .absent

def line (p : Parts) (i : Nat) : Int := p.lines.getD (i - 1) 0

instance : CoeFun Parts (fun _ => Nat → Ast) := ⟨value⟩

end Parts

def make (k : Ast.Kind) (line : Int) (parts : List Ast) : Maker Ast := do
  let s ← get
  let n := s.made + 1
  set { s with made := n }
  return .node k ⟨line, n⟩ parts

def illFormed : Fault := .parse "Syntax Error"

def partOf (name : String) (t : Ast) : Maker Ast := lift (t.part name)

structure Production where
  left : Sym
  right : List Sym
  lineFrom : Option Nat
  action : Parts → Maker Ast

def pass (left : Sym) (right : List Sym) (i : Nat := 1) : Production :=
  ⟨left, right, some i, fun p => pure (p i)⟩

def choice (left : Sym) (symbols : List Sym) : List Production :=
  symbols.map fun s => pass left [s]

def first (left : Sym) (right : List Sym) : Production :=
  ⟨left, right, some 1, fun p => pure (.seq [p 1])⟩

def snoc (list member : Ast) : Ast :=
  match list with
  | .seq items => .seq (items ++ [member])
  | other => other

/-- A production that puts the value of symbol `i` behind the list that is the value of symbol
1. -/
def further (left : Sym) (right : List Sym) (i : Nat) : Production :=
  ⟨left, right, some 1, fun p => pure (snoc (p 1) (p i))⟩

def nothing (left : Sym) (right : List Sym) : Production :=
  ⟨left, right, none, fun _ => pure (.seq [])⟩

def missing (left : Sym) (right : List Sym) (lineFrom : Option Nat := none) : Production :=
  ⟨left, right, lineFrom, fun _ => pure .absent⟩

/-- A production of a node, at the line of symbol `i`, with the line of this symbol. -/
def build (left : Sym) (right : List Sym) (k : Ast.Kind) (parts : Parts → List Ast)
    (i : Nat := 1) : Production :=
  ⟨left, right, some i, fun p => make k (p.line i) (parts p)⟩

def members : Ast → List Ast
  | .seq items => items
  | _ => []

def elements : Ast → List Ast
  | .atom (.text s) => s.toList.map fun c => .text (String.singleton c)
  | t => members t

end RtlFlow.Verilog
