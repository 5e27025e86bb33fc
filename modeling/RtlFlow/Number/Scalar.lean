import RtlFlow.Fault
import RtlFlow.Number.Decimal

/-!
# Scalars

The value of a folded constant: an integer of any size, a double, a truth value, a text, or
nothing. Truth values count as the integers 0 and 1 in arithmetic. Each operation either has a
result or the fault that says why not.
-/

namespace RtlFlow

attribute [local instance (2000)] instPowNat

inductive Scalar where
  | none
  | bool (b : Bool)
  | int (n : Int)
  | real (x : Real)
  | text (s : String)
deriving DecidableEq, Repr, Inhabited

namespace Scalar

def int? : Scalar → Option Int
  | .bool b => some (if b then 1 else 0)
  | .int n => some n
  | _ => Option.none

def toInt (v : Scalar) : Result Int := orThrow .wrongKind v.int?

def toText : Scalar → String
  | .none => "None"
  | .bool b => if b then "True" else "False"
  | .int n => Text.ofInt n
  | .real x => x.toText
  | .text s => s

def truth : Scalar → Bool
  | .none => false
  | .bool b => b
  | .int n => n != 0
  | .real x => !x.isZero
  | .text s => s != ""

/-- The order of two scalars: none if one of them is not a number, a fault if they cannot be
compared. -/
def order (a b : Scalar) : Result (Option Ordering) :=
  match a, b with
  | .text s, .text t => pure (some (compare s.toList t.toList))
  | .real x, .real y => pure (x.compare? y)
  | .real x, b =>
    match b.int? with
    | some n => pure (x.compareInt? n)
    | Option.none => throw .wrongKind
  | a, .real y =>
    match a.int? with
    | some n => pure ((y.compareInt? n).map Ordering.swap)
    | Option.none => throw .wrongKind
  | a, b =>
    match a.int?, b.int? with
    | some m, some n => pure (some (compare m n))
    | _, _ => throw .wrongKind

/-- Equality of scalars. Numbers are equal by value, whatever their kinds. -/
def same (a b : Scalar) : Bool :=
  match a, b with
  | .none, .none => true
  | a, b =>
    match order a b with
    | .ok (some .eq) => true
    | _ => false

instance : BEq Scalar := ⟨same⟩

def lt (a b : Scalar) : Result Bool := return (← order a b) == some .lt

def gt (a b : Scalar) : Result Bool := return (← order a b) == some .gt

def le (a b : Scalar) : Result Bool := do
  let o ← order a b
  return o == some .lt || o == some .eq

def ge (a b : Scalar) : Result Bool := do
  let o ← order a b
  return o == some .gt || o == some .eq

def realOfInt (n : Int) : Result Real :=
  match Real.ofInt? n with
  | some x => pure x
  | Option.none => throw .tooLarge

/-- Applies an operation on integers to two integers, and one on doubles if one of the operands
is a double. -/
def arith (onInts : Int → Int → Result Scalar) (onReals : Real → Real → Result Scalar)
    (a b : Scalar) : Result Scalar :=
  match a, b with
  | .real x, .real y => onReals x y
  | .real x, b =>
    match b.int? with
    | some n => do onReals x (← realOfInt n)
    | Option.none => throw .wrongKind
  | a, .real y =>
    match a.int? with
    | some n => do onReals (← realOfInt n) y
    | Option.none => throw .wrongKind
  | a, b =>
    match a.int?, b.int? with
    | some m, some n => onInts m n
    | _, _ => throw .wrongKind

def add (a b : Scalar) : Result Scalar :=
  match a, b with
  | .text s, .text t => pure (.text (s ++ t))
  | a, b => arith (fun m n => pure (.int (m + n))) (fun x y => pure (.real (x.add y))) a b

def sub (a b : Scalar) : Result Scalar :=
  arith (fun m n => pure (.int (m - n))) (fun x y => pure (.real (x.sub y))) a b

def repeated (s : String) (n : Int) : String := String.join (List.replicate n.toNat s)

/-- The product; of a text and an integer, the text that many times. -/
def mul (a b : Scalar) : Result Scalar :=
  match a, b with
  | .text s, b =>
    match b.int? with
    | some n => pure (.text (repeated s n))
    | Option.none => throw .wrongKind
  | a, .text s =>
    match a.int? with
    | some n => pure (.text (repeated s n))
    | Option.none => throw .wrongKind
  | a, b => arith (fun m n => pure (.int (m * n))) (fun x y => pure (.real (x.mul y))) a b

def intQuotient (m n : Int) : Result Real :=
  if n = 0 then throw .zeroDivision
  else
    match Real.ofRatio? ((m < 0) != (n < 0) && m != 0) m.natAbs n.natAbs with
    | some x => pure x
    | Option.none => throw .tooLarge

/-- The quotient. Of two integers it is the integer part of the quotient rounded to a double. -/
def div (a b : Scalar) : Result Scalar :=
  arith
    (fun m n => do
      let q ← intQuotient m n
      match q.trunc? with
      | some k => pure (.int k)
      | Option.none => throw .tooLarge)
    (fun x y => if y.isZero then throw .zeroDivision else pure (.real (x.div y))) a b

def mod (a b : Scalar) : Result Scalar :=
  arith (fun m n => if n = 0 then throw .zeroDivision else pure (.int (m.fmod n)))
    (fun x y => if y.isZero then throw .zeroDivision else pure (.real (x.floorMod y))) a b

/-- The power of two doubles, with the fault of a zero base and a negative exponent and the one
of a result that is too large. -/
def realPow (x y : Real) : Result Scalar :=
  if x.isZero && y.toFloat < 0 then throw .zeroDivision
  else
    let r := x.pow y
    match r.decode, x.decode, y.decode with
    | .infinite _, .finite .., .finite .. => throw .tooLarge
    | _, _, _ => pure (.real r)

/-- The power. An integer to a negative integer is a double. -/
def pow (a b : Scalar) : Result Scalar :=
  arith
    (fun m n =>
      if n < 0 then do
        if m = 0 then throw .zeroDivision
        realPow (← realOfInt m) (← realOfInt n)
      else pure (.int (m ^ n.toNat)))
    realPow a b

def twoInts (a b : Scalar) : Result (Int × Int) :=
  match a.int?, b.int? with
  | some m, some n => pure (m, n)
  | _, _ => throw .wrongKind

def shiftLeft (a b : Scalar) : Result Scalar := do
  let (m, n) ← twoInts a b
  if n < 0 then throw .badValue
  return .int (m * 2 ^ n.toNat)

/-- The integer shifted to the right; what falls off is lost, the sign stays. -/
def shiftRight (a b : Scalar) : Result Scalar := do
  let (m, n) ← twoInts a b
  if n < 0 then throw .badValue
  return .int (m >>> n.toNat)

/-- Bitwise operation on two integers of unlimited width in two's complement, from its effect on
two bits. -/
def bitwiseInt (f : Bool → Bool → Bool) (m n : Int) : Int :=
  match m, n with
  | .ofNat a, .ofNat b =>
    if f false false then Int.negSucc (Nat.bitwise (fun x y => !f x y) a b)
    else Int.ofNat (Nat.bitwise f a b)
  | .ofNat a, .negSucc b =>
    if f false true then Int.negSucc (Nat.bitwise (fun x y => !f x (!y)) a b)
    else Int.ofNat (Nat.bitwise (fun x y => f x (!y)) a b)
  | .negSucc a, .ofNat b =>
    if f true false then Int.negSucc (Nat.bitwise (fun x y => !f (!x) y) a b)
    else Int.ofNat (Nat.bitwise (fun x y => f (!x) y) a b)
  | .negSucc a, .negSucc b =>
    if f true true then Int.negSucc (Nat.bitwise (fun x y => !f (!x) (!y)) a b)
    else Int.ofNat (Nat.bitwise (fun x y => f (!x) (!y)) a b)

/-- A bitwise operation; two truth values give a truth value. -/
def bitwise (f : Bool → Bool → Bool) (a b : Scalar) : Result Scalar :=
  match a, b with
  | .bool x, .bool y => pure (.bool (f x y))
  | a, b => do
    let (m, n) ← twoInts a b
    return .int (bitwiseInt f m n)

def bitAnd (a b : Scalar) : Result Scalar := bitwise (fun x y => x && y) a b

def bitOr (a b : Scalar) : Result Scalar := bitwise (fun x y => x || y) a b

def bitXor (a b : Scalar) : Result Scalar := bitwise (fun x y => x != y) a b

def bitNot (a : Scalar) : Result Scalar :=
  match a.int? with
  | some n => pure (.int (-n - 1))
  | Option.none => throw .wrongKind

def abs (a : Scalar) : Result Scalar :=
  match a with
  | .real x => pure (.real x.abs)
  | a =>
    match a.int? with
    | some n => pure (.int n.natAbs)
    | Option.none => throw .wrongKind

def testBit (n : Int) (i : Nat) : Bool :=
  match n with
  | .ofNat k => k.testBit i
  | .negSucc k => !k.testBit i

end Scalar

end RtlFlow
