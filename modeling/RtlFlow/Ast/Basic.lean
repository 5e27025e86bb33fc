import RtlFlow.Ast.Kind
import RtlFlow.Scope
import RtlFlow.Text.Quoted

/-!
# Syntax trees

A syntax tree has nodes of the kinds of `Kind`, lists, and plain values. The parts of a node
stand in the order of its shape.
-/

namespace RtlFlow

structure Ast.Place where
  line : Int := 0
  /-- The number of the node among those that were made; 0 for a node without a number. Two
  nodes of a tree with one number are one node that stands in two places. -/
  number : Nat := 0
deriving DecidableEq, Repr, Inhabited

inductive Ast where
  /-- A plain value; `none` is an absent part. -/
  | atom (a : Scalar)
  | path (p : Path)
  | seq (items : List Ast)
  | node (kind : Ast.Kind) (place : Ast.Place) (parts : List Ast)
deriving Repr, Inhabited

namespace Ast

@[match_pattern]
def absent : Ast := .atom .none

@[match_pattern]
def text (s : String) : Ast := .atom (.text s)

def mk (k : Kind) (line : Int) (parts : List Ast) : Ast := .node k { line := line } parts

/-- Whether a tree counts as present: neither absent nor empty nor zero. -/
def isPresent : Ast → Bool
  | .atom a => a.truth
  | .path p => !p.labels.isEmpty
  | .seq items => !items.isEmpty
  | .node .. => true

def isAbsent : Ast → Bool
  | .atom .none => true
  | _ => false

def kind? : Ast → Option Kind
  | .node k _ _ => some k
  | _ => none

def is (k : Kind) (t : Ast) : Bool := t.kind? = some k

def line : Ast → Int
  | .node _ p _ => p.line
  | _ => 0

def part? (name : String) : Ast → Option Ast
  | .node k _ parts => (k.shape.parts.idxOf? name).bind fun i => parts[i]?
  | _ => none

def part (name : String) (t : Ast) : Result Ast := orThrow .noMember (t.part? name)

def members : Ast → Result (List Ast)
  | .seq items => pure items
  | .atom (.text s) => pure (s.toList.map fun c => .text (String.singleton c))
  | .path _ => pure []
  | _ => throw .wrongKind

def slotChildren (parts : List Ast) : Slot → Result (List Ast)
  | .one i => pure <| match parts[i]? with
    | some p => if p.isPresent then [p] else []
    | none => []
  | .each i => match parts[i]? with
    | some p => if p.isPresent then p.members else pure []
    | none => pure []

def children : Ast → Result (List Ast)
  | .node k _ parts => do
    let lists ← k.shape.slots.mapM (slotChildren parts)
    return lists.flatten
  | _ => throw .noMember

def attrs : Ast → List Ast
  | .node k _ parts => k.shape.attrs.filterMap fun i => parts[i]?
  | _ => []

def kindWord : Ast → String
  | .node k _ _ => k.word
  | _ => ""

/-! ## Recursion over parts -/

structure Found (β : Type) where
  present : Bool
  whole : β
  each : Result (List β)

def gather {β : Type} (found : List (Found β)) : List Slot → Result (List β)
  | [] => pure []
  | .one i :: slots => do
    let rest ← gather found slots
    return match found[i]? with
      | some f => if f.present then f.whole :: rest else rest
      | none => rest
  | .each i :: slots => do
    let here ← match found[i]? with
      | some f => if f.present then f.each else pure []
      | none => pure []
    return here ++ (← gather found slots)

section Fold

variable {β : Type} (leaf : Ast → β) (node : Kind → Place → List Ast → List (Found β) → β)

mutual

/-- Recursion over a tree. `node` gets the parts of a node and the results for them; `leaf`
treats what is not a node. -/
def fold : Ast → β
  | .node k p parts => node k p parts (foldParts parts)
  | .seq items => leaf (.seq items)
  | .path p => leaf (.path p)
  | .atom a => leaf (.atom a)

def foldMembers : Ast → Result (List β)
  | .seq items => pure (foldAll items)
  | .atom (.text s) => pure (s.toList.map fun c => leaf (.text (String.singleton c)))
  | .atom _ => throw .wrongKind
  | .path _ => pure []
  | .node .. => throw .wrongKind

def foldAll : List Ast → List β
  | [] => []
  | t :: ts => fold t :: foldAll ts

def foldParts : List Ast → List (Found β)
  | [] => []
  | t :: ts => ⟨t.isPresent, fold t, foldMembers t⟩ :: foldParts ts

end

end Fold

/-! ## Written forms -/

def bareText (k : Kind) : String := "<pyverilog.vparser.ast." ++ k.word ++ " object>"

mutual

/-- The short written form: of a name, the name; of a constant, its text; of an operator, its
word and its operands. A plain text stands in quotes if `quote` is set. -/
def render (quote : Bool) : Ast → String
  | .atom (.text s) => if quote then Text.quoted s else s
  | .atom a => a.toText
  | .path p => p.dotted
  | .seq items => "(" ++ Text.joinWith ", " (renderAll true items) ++ ")"
  | .node .identifier _ [name, scope] =>
    if scope.isAbsent then render false name
    else render true scope ++ "." ++ render false name
  | .node .function _ (name :: _) => render true name
  | .node .functionCall _ (name :: _) => render true name
  | .node .systemCall _ [name, .seq args] =>
    "($" ++ render false name ++ String.join ((renderAll false args).map (" " ++ ·)) ++ ")"
  | .node k _ parts =>
    if k.isLiteral then String.join (renderAll false parts)
    else if k.isOperator then
      "(" ++ k.word ++ String.join ((renderPresent parts).map (" " ++ ·)) ++ ")"
    else bareText k

def renderAll (quote : Bool) : List Ast → List String
  | [] => []
  | t :: ts => render quote t :: renderAll quote ts

def renderPresent : List Ast → List String
  | [] => []
  | t :: ts => if t.isPresent then render true t :: renderPresent ts else renderPresent ts

end

def toText (t : Ast) : String := t.render false

/-- An attribute as it is shown. A list of one member is shown as the member. -/
def attrText : Ast → Result String
  | .seq [t] => pure t.toText
  | .seq _ => throw .wrongKind
  | t => pure t.toText

structure ShowStyle where
  /-- Show attributes with their names. There is no form for that, so a node with an attribute
  cannot be shown. -/
  names : Bool := false
  lines : Bool := true
deriving Repr, Inhabited

def headLine (style : ShowStyle) (offset : Nat) (k : Kind) (p : Place) (attrs : List Ast) :
    Result String := do
  let shown ← if attrs.isEmpty then pure []
    else if style.names then throw .wrongKind
    else attrs.mapM attrText
  let place := if style.lines then " (at " ++ Text.ofInt p.line ++ ")" else ""
  return Text.fill offset ' ' ++ k.word ++ ": " ++ Text.joinWith ", " shown ++ place ++ "\n"

/-- The long written form: a line for every node, the children indented below it. -/
def listing (style : ShowStyle) (t : Ast) : Result String :=
  fold (β := Nat → Result String) (fun _ _ => throw .noMember)
    (fun k p parts found offset => do
      let head ← headLine style offset k p (attrs (.node k p parts))
      let tails ← (← gather found k.shape.slots).mapM (· (offset + 2))
      return head ++ String.join tails) t 0

/-! ## Equality -/

def agree : List (Ast → Result Bool) → List Ast → Result Bool
  | [], [] => pure true
  | t :: ts, u :: us => do
    if ← t u then agree ts us else pure false
  | _, _ => pure false

/-- Whether the tests for the children of one node hold for the children of another. The tests
decide how many children are looked at; there is a fault if a child is missing for a test. -/
def agreeFront : List (Ast → Result Bool) → List Ast → Result Bool
  | [], _ => pure true
  | _ :: _, [] => throw .badPosition
  | t :: ts, u :: us => do
    if ← t u then agreeFront ts us else pure false

def leafEqual : Ast → Ast → Bool
  | .atom a, .atom b => a.same b
  | .path p, .path q => p == q
  | .seq [], .seq [] => true
  | _, _ => false

/-- Compares two trees. Two nodes are equal if their kinds and attributes are, and if every
child of the first is equal to the child of the second in its place. -/
def equal (t u : Ast) : Result Bool :=
  fold (β := Ast → Result Bool) (fun t u => pure (leafEqual t u))
    (fun k _ _ found u =>
      match u with
      | .node k' p' parts' => do
        if k ≠ k' then return false
        let attrTests := k.shape.attrs.filterMap fun i => found[i]?.map Found.whole
        unless ← agree attrTests (attrs (.node k' p' parts')) do return false
        let tests ← gather found k.shape.slots
        agreeFront tests (← children (.node k' p' parts'))
      | _ => pure false) t u

def same (t u : Ast) : Bool :=
  match equal t u, equal u t with
  | .ok a, .ok b => a && b
  | _, _ => false

instance : BEq Ast := ⟨same⟩

/-- What the hash of a tree is made of: attributes and children, without the kinds. -/
def hashKey (t : Ast) : Ast :=
  fold id (fun k _ _ found =>
    .seq [.seq (k.shape.attrs.filterMap fun i => found[i]?.map Found.whole),
      .seq (match gather found k.shape.slots with
        | .ok cs => cs
        | .error _ => [])]) t

mutual

def keyEqual : Ast → Ast → Bool
  | .seq ts, .seq us => keysEqual ts us
  | t, u => leafEqual t u

def keysEqual : List Ast → List Ast → Bool
  | [], [] => true
  | t :: ts, u :: us => keyEqual t u && keysEqual ts us
  | _, _ => false

end

def sameHash (t u : Ast) : Bool := keyEqual t.hashKey u.hashKey

end Ast

end RtlFlow
