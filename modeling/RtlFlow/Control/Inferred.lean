import RtlFlow.Flow.Tree

/-!
# Inferred values

What a comparison with a constant says about the other side: a range of values, or the complement
of one. A missing end is open.
-/

namespace RtlFlow

structure Inferred where
  min : Scalar
  max : Scalar
  inverted : Bool := false
deriving DecidableEq, Repr, Inhabited

namespace Inferred

def toText (i : Inferred) : String :=
  let range := "min:" ++ i.min.toText ++ " max:" ++ i.max.toText
  if i.inverted then "(INV " ++ range ++ ")" else range

def invert (i : Inferred) : Inferred := { i with inverted := !i.inverted }

def ofCompare (op : String) (v : Scalar) : Result Inferred :=
  match op with
  | "LessThan" => do
    let top ← v.sub (.int 1)
    if ← top.lt (.int 0) then return ⟨.none, .none, false⟩
    return ⟨.int 0, top, false⟩
  | "GreaterThan" => do return ⟨← v.add (.int 1), .none, false⟩
  | "LassEq" => pure ⟨.int 0, v, false⟩
  | "GreaterEq" => pure ⟨v, .none, false⟩
  | "Eq" => pure ⟨v, v, false⟩
  | "NotEq" => pure ⟨v, v, true⟩
  | "Eql" => pure ⟨v, v, false⟩
  | "NotEql" => pure ⟨v, v, true⟩
  | _ => throw (.format "Unsupported Comparator")

def infer (op : String) : Tree → Result Inferred
  | .value v _ _ _ => ofCompare op v
  | _ => throw (.format "Can not infer the value from non DFEvalValue object")

end Inferred

def maxValue (width : Scalar) : Result Scalar := do
  (← (Scalar.int 2).pow width).sub (.int 1)

def exchanged (op : String) : String :=
  Text.replace "TMP" "Less" (Text.replace "Less" "Greater" (Text.replace "Greater" "TMP" op))

end RtlFlow
