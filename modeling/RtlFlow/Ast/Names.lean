import RtlFlow.Ast.Basic
import RtlFlow.Table

/-!
# The names in a syntax tree

* `Ast.names`: their names.
* `Ast.rename`: the tree with other names. All names are replaced at once. A node that stands in
  several places of the tree is one node, and what stands below it is renamed once for each of
  the places.
-/

namespace RtlFlow.Ast

/-- The identifiers of a tree. The scope of an identifier is part of it and not looked into,
unless the identifier is the whole tree. -/
def identifiers (t : Ast) : Result (List Ast) :=
  fold (β := Bool → Result (List Ast)) (fun _ _ => throw .noMember)
    (fun k p parts found inner => do
      let here := if k = .identifier then [Ast.node k p parts] else []
      if k = .identifier && inner then return here
      let below ← (← gather found k.shape.slots).mapM (· true)
      return here ++ below.flatten) t false

def names (t : Ast) : Result (List Ast) :=
  fold (fun _ => throw .noMember)
    (fun k _ parts found => do
      if k = .identifier then return parts.take 1
      let below ← (← gather found k.shape.slots).mapM id
      return below.flatten) t

/-! ## Renaming -/

mutual

/-- The numbers of the nodes that a renaming goes through, once for each place. -/
def visited : Ast → List Nat
  | .node .identifier _ _ => []
  | .node k p parts => p.number :: visitedParts k.shape.attrs 0 parts
  | .seq items => visitedAll items
  | .path _ => []
  | .atom _ => []

def visitedAll : List Ast → List Nat
  | [] => []
  | t :: ts => visited t ++ visitedAll ts

def visitedParts (attrs : List Nat) (i : Nat) : List Ast → List Nat
  | [] => []
  | t :: ts =>
    (if attrs.contains i then [] else visited t) ++ visitedParts attrs (i + 1) ts

end

/-- An identifier after a number of renamings. A new name has no scope and no line. -/
def renamed (ids : Table String String) : (times : Nat) → (p : Place) → (parts : List Ast) → Ast
  | 0, p, parts => .node .identifier p parts
  | n + 1, p, parts =>
    match parts with
    | .atom (.text name) :: _ =>
      match ids.get? name with
      | some new => renamed ids n {} [.text new, .absent]
      | none => .node .identifier p parts
    | _ => .node .identifier p parts

mutual

/-- The tree with new names; `times` is how often what stands directly below this place is
renamed, and `visits` how often each node is gone through. -/
def renameAt (ids : Table String String) (visits : List Nat) (times : Nat) : Ast → Ast
  | .node .identifier p parts => renamed ids times p parts
  | .node k p parts =>
    let n := if p.number = 0 then 1 else visits.count p.number
    .node k p (renameParts ids visits n k.shape.attrs 0 parts)
  | .seq items => .seq (renameAll ids visits times items)
  | .path p => .path p
  | .atom a => .atom a

def renameAll (ids : Table String String) (visits : List Nat) (times : Nat) : List Ast → List Ast
  | [] => []
  | t :: ts => renameAt ids visits times t :: renameAll ids visits times ts

def renameParts (ids : Table String String) (visits : List Nat) (times : Nat)
    (attrs : List Nat) (i : Nat) : List Ast → List Ast
  | [] => []
  | t :: ts =>
    (if attrs.contains i then t else renameAt ids visits times t) ::
      renameParts ids visits times attrs (i + 1) ts

end

def rename (ids : Table String String) (t : Ast) : Ast := renameAt ids (visited t) 1 t

end RtlFlow.Ast
