import RtlFlow.Workbench.Session

/-!
# Forms of syntax trees
-/

namespace RtlFlow.Workbench

/-- A node of a syntax tree. -/
structure Node where
  tree : Ast

instance : Readable Node where
  read
    | .ast t => pure ⟨t⟩
    | _ => throw .noMember

/-- The identifiers of a tree after those of a list. -/
def identifiersAfter (t : Ast) : Value → Result Value
  | .list vs => do return .list (vs ++ (← t.identifiers).map .ofAst)
  | _ => throw .noMember

/-- Nodes of syntax trees. -/
def nodeForm : Form Ast where
  parameters := ["node"]
  make := Takes.take Node.tree
  commands := textCommands (fun _ t => pure t.toText) ++ [
    ("children", asks [] Ast.children),
    ("identifiers", asks [may "currentlist" (.list [])] identifiersAfter)] ++
    comparisons .ast
  shown t _ := do return .text (← t.listing {})

def meet (names : List Ast) (t : Node) : Result (List Ast) := do
  return names ++ (← t.tree.names)

def meetBelow (names : List Ast) (t : Node) : Result (List Ast) := do
  return names ++ (← (← t.tree.children).mapM Ast.names).flatten

def meetName (names : List Ast) (t : Node) : Result (List Ast) := do
  return names ++ [← t.tree.part "name"]

/-- The names that were met in syntax trees. -/
def nameForm : Form (List Ast) where
  make _ := pure []
  commands := [
    ("visit", changes ["node"] meet),
    ("generic visit", changes ["node"] meetBelow),
    ("visit identifier", changes ["node"] meetName),
    ("identifiers", asks [] id),
    ("reset", changes [] fun _ => ([] : List Ast))]
  shown names _ := pure (Showable.form names)

end RtlFlow.Workbench
