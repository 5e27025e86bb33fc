import RtlFlow.Ast.Basic
import RtlFlow.Flow.SignalKind
import RtlFlow.Flow.Tree
import RtlFlow.Table

/-!
# Terms and bindings
-/

namespace RtlFlow

/-- A declared signal or constant with its range. -/
structure Term where
  name : Path
  kinds : List String := []
  msb : Tree := .hole
  lsb : Tree := .hole
  lenMsb : Tree := .hole
  lenLsb : Tree := .hole
deriving Repr, Inhabited

def wordList (words : List String) : String :=
  "[" ++ Text.joinWith ", " (words.map Text.quoted) ++ "]"

def wordSet (words : List String) : String :=
  if words.isEmpty then "set()" else "\x7b" ++ Text.joinWith ", " (words.map Text.quoted) ++ "\x7d"

def sortWords (words : List String) : List String :=
  words.mergeSort fun a b => compare a.toList b.toList != .gt

namespace Term

def isArray (t : Term) : Bool := SignalKind.isArray t.kinds

def is (t : Term) (kind : String) : Bool := t.kinds.contains kind

def toText (t : Term) : Result String := do
  let msb ← t.msb.marked " msb:"
  let lsb ← t.lsb.marked " lsb:"
  let lenMsb ← t.lenMsb.marked " lenmsb:"
  let lenLsb ← t.lenLsb.marked " lenlsb:"
  return "(Term name:" ++ t.name.dotted ++ " type:" ++ wordList (sortWords t.kinds) ++
    msb ++ lsb ++ lenMsb ++ lenLsb ++ ")"

/-- The words of the declaration. Ports are ports in the top module and wires elsewhere. -/
def words (t : Term) : String :=
  let port :=
    if t.name.length = 2 then
      if t.is "Input" then "input " else if t.is "Inout" then "inout "
      else if t.is "Output" then "output " else ""
    else
      if t.is "Input" || t.is "Inout" || (t.is "Output" && !t.is "Reg") then "wire " else ""
  port ++ String.join ([("Reg", "reg "), ("RegArray", "reg "), ("Wire", "wire "),
    ("WireArray", "wire "), ("Integer", "integer "), ("Function", "wire "),
    ("Rename", "wire ")].map fun (kind, word) => if t.is kind then word else "")

def toCode (t : Term) : Result String := do
  let flat := t.name.code
  let range ← if t.is "Integer" || t.msb.isHole || t.lsb.isHole then pure ""
    else do
      let msb ← t.msb.toCode none
      pure ("[" ++ msb ++ ":" ++ (← t.lsb.toCode none) ++ "] ")
  let length ← if t.lenMsb.isHole || t.lenLsb.isHole then pure ""
    else do
      let msb ← t.lenMsb.toCode (some "dest")
      pure (" [" ++ msb ++ ":" ++ (← t.lenLsb.toCode (some flat)) ++ "]")
  return t.words ++ range ++ flat ++ length ++ ";\n"

/-- A term with the kinds of another added, and with its ranges where this one has none. -/
def join (t u : Term) : Term :=
  let fallback (a b : Tree) := if a.isHole then b else a
  { t with
    kinds := t.kinds ++ u.kinds.filter fun k => !t.kinds.contains k
    msb := fallback t.msb u.msb
    lsb := fallback t.lsb u.lsb
    lenMsb := fallback t.lenMsb u.lenMsb
    lenLsb := fallback t.lenLsb u.lenLsb }

def equal (t u : Term) : Result Bool := do
  let sameKinds := t.kinds.all u.kinds.contains && u.kinds.all t.kinds.contains
  if !(t.name == u.name && sameKinds) then return false
  if !(← t.msb.equal u.msb) then return false
  if !(← t.lsb.equal u.lsb) then return false
  if !(← t.lenMsb.equal u.lenMsb) then return false
  t.lenLsb.equal u.lenLsb

end Term

/-- A signal that is waited for, with its edge. -/
structure Edge where
  name : Ast := .absent
  edge : Ast := .absent
  bit : Ast := .absent
deriving Repr, Inhabited

def Edge.isEdge (e : Edge) : Bool :=
  e.name != .text "" && (e.edge == .text "posedge" || e.edge == .text "negedge")

def Edge.toCode (e : Edge) : Result String :=
  match e.edge, e.name with
  | .absent, _ => pure ""
  | _, .absent => pure ""
  | .atom (.text s), .path p => pure (s ++ " " ++ p.code)
  | .atom (.text _), _ => throw .noMember
  | _, _ => throw .wrongKind

/-- The clock, the reset and the further signals that an always block waits for. -/
structure Sensitivity where
  clock : Edge := ⟨.text "", .absent, .atom (.int 0)⟩
  reset : Edge := ⟨.text "", .absent, .atom (.int 0)⟩
  others : Ast := .seq []
  /-- The number of the block; two blocks that wait for the same are not the same. -/
  stamp : Nat := 0
deriving Repr, Inhabited

namespace Sensitivity

def isClockEdge (s : Sensitivity) : Bool := s.clock.isEdge

def isResetEdge (s : Sensitivity) : Bool := s.reset.isEdge

def isCombination (s : Sensitivity) : Bool := s.clock.name.isAbsent

end Sensitivity

/-- An assignment of a tree to a term, or to a slice of it. -/
structure Binding where
  tree : Tree
  dest : Path
  msb : Tree := .hole
  lsb : Tree := .hole
  ptr : Tree := .hole
  always : Option Sensitivity := none
  /-- The word for the kind of the assignment; the assignments of parameters are declarations. -/
  parameter : Option String := some ""
deriving Repr, Inhabited

namespace Binding

def isCombination (b : Binding) : Bool :=
  match b.always with
  | none => true
  | some s => s.isCombination

def isClockEdge (b : Binding) : Bool :=
  match b.always with
  | none => false
  | some s => s.isClockEdge

def toText (b : Binding) : Result String := do
  let msb ← b.msb.marked " msb:"
  let lsb ← b.lsb.marked " lsb:"
  let ptr ← b.ptr.marked " ptr:"
  let tree ← b.tree.marked " tree:"
  return "(Bind dest:" ++ b.dest.dotted ++ msb ++ lsb ++ ptr ++ tree ++ ")"

def destCode (b : Binding) : Result String := do
  let ptr ← if b.ptr.isHole then pure "" else do pure ("[" ++ (← b.ptr.toCode none) ++ "]")
  let range ← if b.msb.isHole || b.lsb.isHole then pure ""
    else do
      let msb ← b.msb.toCode none
      let lsb ← b.lsb.toCode none
      pure ("[" ++ msb ++ (if msb == lsb then "" else ":" ++ lsb) ++ "]")
  return b.dest.code ++ ptr ++ range

def plainCode (word : String) (b : Binding) : Result String := do
  let dest ← b.destCode
  return word ++ " " ++ dest ++ " = " ++ (← b.tree.toCode (some dest)) ++ ";\n"

def blockCode (mark : Tree.AssignMark) (head : String) (dest : String) (b : Binding) :
    Result String := do
  return head ++ " begin\n" ++ (← b.tree.toStatements mark (some dest)) ++ "end\n\n"

def clockedCode (s : Sensitivity) (b : Binding) : Result String := do
  let dest ← b.destCode
  let clock ← s.clock.toCode
  let reset ← s.reset.toCode
  b.blockCode .nonblocking
    ("always @(" ++ clock ++ (if reset == "" then "" else " or " ++ reset) ++ ")") dest

def toCode (b : Binding) : Result String := do
  if b.parameter == some "parameter" then b.plainCode "parameter"
  else if b.parameter == some "localparam" then b.plainCode "localparam"
  else match b.always with
    | none => b.plainCode "assign"
    | some s =>
      if s.isCombination then do
        let dest ← b.destCode
        b.blockCode .blocking "always @*" dest
      else b.clockedCode s

def equal (a b : Binding) : Result Bool := do
  if !(← a.tree.equal b.tree) then return false
  if !(a.dest == b.dest) then return false
  if !(← a.msb.equal b.msb) then return false
  if !(← a.lsb.equal b.lsb) then return false
  if !(← a.ptr.equal b.ptr) then return false
  return a.always.map Sensitivity.stamp == b.always.map Sensitivity.stamp &&
    a.parameter == b.parameter

def same (a b : Binding) : Bool :=
  match a.equal b with
  | .ok r => r
  | .error _ => false

def sameSlice (a b : Binding) : Result Bool := do
  if !(← a.msb.equal b.msb) then return false
  if !(← a.lsb.equal b.lsb) then return false
  a.ptr.equal b.ptr

end Binding

abbrev Terms := Table Path Term

abbrev Bindings := Table Path (List Binding)

end RtlFlow
