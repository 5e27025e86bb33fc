import RtlFlow.Number.Scalar

/-!
# Ranges of integers

Lists of closed ranges as sets of integers: their intersection and their complement.
-/

namespace RtlFlow

/-- Closed ranges of integers. -/
abbrev Spans := List (Int × Int)

/-- The ends of ranges. -/
abbrev Limits := List (Scalar × Scalar)

namespace Ranges

def sort (rs : Spans) : Spans := rs.mergeSort fun a b => a.1 ≤ b.1

def overlap (a b : Int × Int) : Spans :=
  if b.2 < a.1 || b.1 > a.2 then [] else [(max a.1 b.1, min a.2 b.2)]

/-- The common parts of two sorted lists. The list whose first range ends first goes on. -/
def meet : Spans → Spans → Spans
  | a :: as, b :: bs =>
    overlap a b ++
      if a.2 ≥ b.2 && !bs.isEmpty then meet (a :: as) bs
      else if a.2 ≤ b.2 && !as.isEmpty then meet as (b :: bs)
      else []
  | _, _ => []
termination_by as bs => as.length + bs.length

def distinct (rs : Spans) : Spans :=
  rs.foldl (fun acc r => if acc.contains r then acc else acc ++ [r]) []

def inter (as bs : Spans) : Spans := distinct (meet (sort as) (sort bs))

def gaps (low high : Int) : Spans → Spans
  | [] => if low ≤ high then [(low, high)] else []
  | r :: rs =>
    (if r.1 - 1 ≥ low then [(low, r.1 - 1)] else []) ++ gaps (max (r.2 + 1) low) high rs

def compl (low high : Int) (rs : Spans) : Spans := gaps low high (sort rs)

def ofScalars (rs : Limits) : Result Spans :=
  rs.mapM fun r => do
    let low ← r.1.toInt
    return (low, ← r.2.toInt)

def toScalars (rs : Spans) : Limits :=
  rs.map fun r => (.int r.1, .int r.2)

/-- The key of an end of a range in the listed order: an open end comes before any number. -/
def endKey : Scalar → Int × Int
  | .none => (0, 0)
  | a => (1, a.int?.getD 0)

def endLe (a b : Scalar) : Bool :=
  let p := endKey a
  let q := endKey b
  p.1 < q.1 || (p.1 == q.1 && p.2 ≤ q.2)

def listed (rs : Limits) : Limits :=
  rs.mergeSort fun a b => if endKey a.1 == endKey b.1 then endLe a.2 b.2 else endLe a.1 b.1

end Ranges

end RtlFlow
