import RtlFlow.Ast.Basic

/-!
# Nodes by name

A node is made from the word for its kind and its parts in order. Parts at the end may be left
out if they have a usual value, and one more argument gives the line.
-/

namespace RtlFlow.Ast

def ofKind (k : Kind) (args : List Ast) : Result Ast :=
  let shape := k.shape
  let n := shape.parts.length
  if n + 1 < args.length || args.length + shape.defaults.length < n then throw .wrongKind
  else
    let parts := args.take n
    let usual := shape.defaults.drop (parts.length + shape.defaults.length - n)
    let line := match args[n]? with
      | some (.atom (.int l)) => l
      | _ => 0
    pure (.mk k line (parts ++ usual.map .atom))

def construct (word : String) (args : List Ast) : Result Ast :=
  match Kind.ofWord? word with
  | some k => ofKind k args
  | none => throw .noMember

end RtlFlow.Ast
