import RtlFlow.Flow.Term

/-!
# Splitting a definition by conditions

A branch tree is split into its leaves. Each leaf is listed under the conditions on the way to it;
the condition of a second arm is negated.
-/

namespace RtlFlow

/-- Leaves by the conditions on the way to them. -/
abbrev Cases := Table (List Tree) Tree

namespace Cases

/-- The cases with one more; conditions that cannot be hashed cannot be listed. -/
def add (cs : Cases) (conds : List Tree) (leaf : Tree) : Result Cases := do
  let _ ← Tree.hashKeys conds
  return cs.put conds leaf

def under (cond arm : Tree) (inner cs : Cases) : Result Cases :=
  if inner.entries.isEmpty then
    if arm.isHole then pure cs else cs.add [cond] arm
  else inner.entries.foldlM (fun cs (conds, leaf) => cs.add (cond :: conds) leaf) cs

/-- The leaves of a branch tree by their conditions; what is no branch has none. -/
def split : Tree → Result Cases
  | .branch cond yes no => do
    let cs ← under cond yes (← split yes) {}
    let inner ← split no
    under (← Tree.mkOp "Ulnot" [cond]) no inner cs
  | _ => pure {}

def dropResets : List Tree → Result (List Tree)
  | [] => pure []
  | c :: cs => do
    let reset := SignalKind.isResetName (← c.toText)
    let rest ← dropResets cs
    return if reset then rest else c :: rest

/-- The cases without the conditions on resets. A case without any condition goes if there are
others. -/
def withoutReset (cs : Cases) : Result Cases := do
  let cs' ← cs.entries.foldlM (fun (acc : Cases) (conds, leaf) => do
    acc.add (← dropResets conds) leaf) {}
  return if cs'.contains [] && cs'.size > 1 then cs'.erase [] else cs'

inductive Test where
  | constant
  | modify
  | unmodify
deriving DecidableEq, Repr

def isNameChar (c : Char) : Bool := c.isAlphanum || c == '_'

def reread : Scalar → Result Scalar
  | .text s =>
    match Text.readInt? 10 s, Real.read? s with
    | some n, _ => pure (.int n)
    | none, some x => pure (.real x)
    | none, none =>
      if s != "" && s.toList.all isNameChar && !(s.toList.headD ' ').isDigit then
        throw .unboundName
      else throw .malformed
  | v => pure v

def compareBy (mark : String) (a b : Scalar) : Result Bool :=
  match mark with
  | ">" => a.gt b
  | "<" => a.lt b
  | ">=" => a.ge b
  | "<=" => a.le b
  | "==" => pure (a == b)
  | "!=" => pure (a != b)
  | _ => throw .malformed

def isActive (mark : String) (bound : Scalar) : Tree → Result Bool
  | .value v _ _ _ => do compareBy mark (← reread v) (← reread bound)
  | _ => pure false

def Test.holds (t : Test) (name : Path) (leaf : Tree) : Result Bool :=
  match t with
  | .constant => isActive ">" (.int 0) leaf
  | .modify => pure !(leaf.isSignal name)
  | .unmodify => pure (leaf.isSignal name)

def filter (cs : Cases) (name : Path) (t : Test) : Result Cases := do
  return ⟨← cs.entries.filterM fun e => t.holds name e.2⟩

end Cases

end RtlFlow
