import RtlFlow.Text.Numeral

/-!
# Binary floating point numbers

A `Real` is a double in its bit pattern, so that equality of values of types that hold one is
decidable. `decode` gives the sign, the significand and the exponent; `ofRatio?` rounds an exact
quotient of naturals to the nearest double, a tie to the even significand.
-/

namespace RtlFlow

attribute [local instance (2000)] instPowNat

structure Real where
  bits : UInt64
deriving DecidableEq, Repr, Inhabited

namespace Real

inductive Decoded where
  | nan
  | infinite (negative : Bool)
  | finite (negative : Bool) (significand : Nat) (exponent : Int)
deriving DecidableEq, Repr

def toFloat (x : Real) : Float := Float.ofBits x.bits

def ofFloat (x : Float) : Real := ⟨x.toBits⟩

def decode (x : Real) : Decoded :=
  let n := x.bits.toNat
  let negative := n ≥ 2 ^ (63 : Nat)
  let biased : Nat := n / 2 ^ (52 : Nat) % 2 ^ (11 : Nat)
  let fraction : Nat := n % 2 ^ (52 : Nat)
  if biased = 2047 then
    if fraction = 0 then .infinite negative else .nan
  else if biased = 0 then .finite negative fraction (-1074)
  else .finite negative (fraction + 2 ^ (52 : Nat)) ((biased : Int) - 1075)

/-- The double `± significand * 2 ^ exponent`, for a significand below `2 ^ 53` and an exponent
from `-1074` on that is in range. -/
def encode (negative : Bool) (significand : Nat) (exponent : Int) : Real :=
  let sign := if negative then 2 ^ (63 : Nat) else 0
  let magnitude :=
    if significand < 2 ^ (52 : Nat) then significand
    else (exponent + 1075).toNat * 2 ^ (52 : Nat) + (significand - 2 ^ (52 : Nat))
  ⟨UInt64.ofNat (sign + magnitude)⟩

/-- The nearest integer to `num / den`, a tie to the even one. -/
def roundDiv (num den : Nat) : Nat :=
  let q := num / den
  let twice := 2 * (num % den)
  if twice < den then q
  else if den < twice then q + 1
  else if q % 2 = 0 then q else q + 1

def scaled (num den : Nat) (exponent : Int) : Nat × Nat :=
  if exponent < 0 then (num * 2 ^ (-exponent).toNat, den) else (num, den * 2 ^ exponent.toNat)

/-- The double nearest to `num / den`, with the given sign; none if it is too large. -/
def ofRatio? (negative : Bool) (num den : Nat) : Option Real :=
  if num = 0 then some (encode negative 0 (-1074))
  else
    let guess : Int := max ((Nat.log2 num : Int) - (Nat.log2 den : Int) - 53) (-1074)
    let tooFine := (scaled num den guess).1 / (scaled num den guess).2 ≥ 2 ^ (53 : Nat)
    let exponent := if tooFine then guess + 1 else guess
    let (n, d) := scaled num den exponent
    let m := roundDiv n d
    let (significand, exponent) :=
      if m = 2 ^ (53 : Nat) then (2 ^ (52 : Nat), exponent + 1) else (m, exponent)
    if significand ≥ 2 ^ (52 : Nat) && exponent > 971 then none
    else some (encode negative significand exponent)

def ofInt? (n : Int) : Option Real := ofRatio? (n < 0) n.natAbs 1

/-- The integer part, toward zero; none for the numbers that are not finite. -/
def trunc? (x : Real) : Option Int :=
  match x.decode with
  | .finite negative m e =>
    let n : Nat := if e < 0 then m / 2 ^ (-e).toNat else m * 2 ^ e.toNat
    some (if negative then -(n : Int) else n)
  | _ => none

def signed (negative : Bool) (n : Nat) : Int := if negative then -(n : Int) else n

def compareInt? (x : Real) (n : Int) : Option Ordering :=
  match x.decode with
  | .nan => none
  | .infinite negative => some (if negative then .lt else .gt)
  | .finite negative m e =>
    let m := signed negative m
    some (if e < 0 then compare m (n * 2 ^ (-e).toNat) else compare (m * 2 ^ e.toNat) n)

/-- How two doubles compare, exactly; none if one of them is not a number. -/
def compare? (x y : Real) : Option Ordering :=
  match x.decode, y.decode with
  | .nan, _ | _, .nan => none
  | .infinite a, .infinite b => some (compare b a)
  | .infinite negative, .finite .. => some (if negative then .lt else .gt)
  | .finite .., .infinite negative => some (if negative then .gt else .lt)
  | .finite negative m e, .finite negative' m' e' =>
    let low := min e e'
    some (compare (signed negative (m * 2 ^ (e - low).toNat))
      (signed negative' (m' * 2 ^ (e' - low).toNat)))

/-- Sum, difference, product and quotient, rounded. -/
def add (x y : Real) : Real := ofFloat (x.toFloat + y.toFloat)

@[inherit_doc add]
def sub (x y : Real) : Real := ofFloat (x.toFloat - y.toFloat)

@[inherit_doc add]
def mul (x y : Real) : Real := ofFloat (x.toFloat * y.toFloat)

@[inherit_doc add]
def div (x y : Real) : Real := ofFloat (x.toFloat / y.toFloat)

def abs (x : Real) : Real := ⟨UInt64.ofNat (x.bits.toNat % 2 ^ (63 : Nat))⟩

def isZero (x : Real) : Bool := x.bits.toNat % 2 ^ (63 : Nat) = 0

/-- The exact remainder of a finite `x` by a finite nonzero `y`, with the sign of `x`. -/
def remainder (x y : Real) : Real :=
  match x.decode, y.decode with
  | .finite negative a e, .finite _ b f =>
    let low := min e f
    let a' := a * 2 ^ (e - low).toNat
    let b' := b * 2 ^ (f - low).toNat
    let r := a' % b'
    let ratio := if low < 0 then ofRatio? negative r (2 ^ (-low).toNat)
      else ofRatio? negative (r * 2 ^ low.toNat) 1
    ratio.getD x
  | .finite .., .infinite _ => x
  | _, _ => ofFloat (0.0 / 0.0)

/-- The remainder with the sign of the divisor, as it belongs to the quotient's floor. -/
def floorMod (x y : Real) : Real :=
  let r := remainder x y
  if r.isZero then ⟨UInt64.ofNat (y.bits.toNat / 2 ^ (63 : Nat) * 2 ^ (63 : Nat))⟩
  else if (r.toFloat < 0) != (y.toFloat < 0) then add r y
  else r

def pow (x y : Real) : Real := ofFloat (Float.pow x.toFloat y.toFloat)

/-- The logarithm of a positive integer to base two, as the quotient of two rounded natural
logarithms. -/
def logTwo (n : Nat) : Real := ofFloat (Float.log (Float.ofNat n) / Float.log 2)

end Real

end RtlFlow
