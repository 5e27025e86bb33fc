import RtlFlow.Number.Real

/-!
# Decimal text of doubles

`shortest` gives the fewest decimal digits that read back as a double, and of those the digits
nearest to it. `Layout` holds the choices of the written form: how far numbers are written
without an exponent, and how the exponent looks. `read?` reads a decimal.
-/

namespace RtlFlow.Real

attribute [local instance (2000)] instPowNat

def readsBack (significand : Nat) (exponent : Int) (num den : Nat) : Bool :=
  match ofRatio? false num den with
  | some x => x = encode false significand exponent
  | none => false

/-- Digits and decimal exponent: `digits * 10 ^ exponent`. -/
structure Digits where
  digits : Nat
  exponent : Int
deriving DecidableEq, Repr

def Digits.ratio (d : Digits) : Nat × Nat :=
  if d.exponent < 0 then (d.digits, 10 ^ (-d.exponent).toNat)
  else (d.digits * 10 ^ d.exponent.toNat, 1)

/-- Of the two neighbours of the number on the grid of `10 ^ exponent`, the nearer one that
reads back. -/
def onGrid? (significand : Nat) (binary exponent : Int) : Option Digits :=
  let (num, den) := if binary < 0 then (significand, 2 ^ (-binary).toNat)
    else (significand * 2 ^ binary.toNat, 1)
  let (n, d) := if exponent < 0 then (num * 10 ^ (-exponent).toNat, den)
    else (num, den * 10 ^ exponent.toNat)
  let low : Digits := ⟨n / d, exponent⟩
  let high : Digits := ⟨n / d + 1, exponent⟩
  let good (x : Digits) := readsBack significand binary x.ratio.1 x.ratio.2
  let lowNearer := 2 * (n % d) < d || (2 * (n % d) == d && (n / d) % 2 == 0)
  match good low, good high with
  | true, true => some (if lowNearer then low else high)
  | true, false => some low
  | false, true => some high
  | false, false => none

def firstGrid (significand : Nat) (binary : Int) : Nat → Int → Digits
  | 0, exponent => ⟨0, exponent⟩
  | fuel + 1, exponent =>
    match onGrid? significand binary exponent with
    | some d => if d.digits = 0 then firstGrid significand binary fuel (exponent - 1) else d
    | none => firstGrid significand binary fuel (exponent - 1)

def shortest (significand : Nat) (binary : Int) : Digits :=
  let size : Int := (Nat.log2 significand : Int) + binary
  let top : Int := size * 30103 / 100000 + 1
  firstGrid significand binary 24 top

def Digits.stripZeros : Nat → Digits → Digits
  | 0, d => d
  | fuel + 1, d =>
    if d.digits % 10 = 0 && d.digits ≠ 0 then Digits.stripZeros fuel ⟨d.digits / 10, d.exponent + 1⟩
    else d

structure Layout where
  positionalBelow : Int
  positionalFrom : Int
  exponentWidth : Nat

/-- Reports show numbers from a ten-thousandth up to below `10 ^ 16` without an exponent; an
exponent has a sign and at least two digits. -/
def Layout.report : Layout := ⟨16, -4, 2⟩

/-- Digits in a layout; whole numbers end in `.0` where no exponent is written. -/
def Layout.write (layout : Layout) (d : Digits) : String :=
  let ds := Nat.toDigits 10 d.digits
  let point : Int := (ds.length : Int) + d.exponent
  if layout.positionalFrom < point && point ≤ layout.positionalBelow then
    if point ≤ 0 then String.ofList (['0', '.'] ++ List.replicate (-point).toNat '0' ++ ds)
    else
      let k := point.toNat
      if ds.length ≤ k then
        String.ofList (ds ++ List.replicate (k - ds.length) '0' ++ ['.', '0'])
      else String.ofList (ds.take k ++ '.' :: ds.drop k)
  else
    let e := point - 1
    let es := Nat.toDigits 10 e.natAbs
    let es := List.replicate (layout.exponentWidth - es.length) '0' ++ es
    let head := match ds with
      | [c] => [c]
      | c :: cs => c :: '.' :: cs
      | [] => []
    String.ofList (head ++ 'e' :: (if e < 0 then '-' else '+') :: es)

def toText (x : Real) : String :=
  match x.decode with
  | .nan => "nan"
  | .infinite negative => if negative then "-inf" else "inf"
  | .finite negative m e =>
    let sign := if negative then "-" else ""
    if m = 0 then sign ++ "0.0"
    else sign ++ Layout.report.write ((shortest m e).stripZeros 30)

/-! ## Reading -/

/-- Decimal digits with single underscores between them, and what follows them; `pending` says
that a digit has to follow. -/
def takeDigits : (pending : Bool) → List Char → Option (List Nat × List Char)
  | pending, [] => if pending then none else some ([], [])
  | pending, c :: cs =>
    match Text.decimalDigit? c with
    | some d => (takeDigits false cs).map fun (ds, rest) => (d :: ds, rest)
    | none =>
      if c == '_' && !pending then
        match takeDigits true cs with
        | some (ds, rest) => some (ds, rest)
        | none => none
      else if pending then none else some ([], c :: cs)

def optionalDigits (cs : List Char) : Option (List Nat × List Char) :=
  match cs with
  | c :: _ => if (Text.decimalDigit? c).isSome then takeDigits true cs else some ([], cs)
  | [] => some ([], [])

def digitsToNat (ds : List Nat) : Nat := ds.foldl (fun n d => n * 10 + d) 0

/-- The double nearest to `digits * 10 ^ exponent`; too large a number is infinite. -/
def ofDecimal (negative : Bool) (digits : Nat) (exponent : Int) : Real :=
  let infinite : Real :=
    ⟨UInt64.ofNat ((if negative then 2 ^ (63 : Nat) else 0) + 2047 * 2 ^ (52 : Nat))⟩
  if digits = 0 then encode negative 0 (-1074)
  else if exponent > 400 then infinite
  else if exponent + (Nat.toDigits 10 digits).length < -400 then encode negative 0 (-1074)
  else
    let d : Digits := ⟨digits, exponent⟩
    (ofRatio? negative d.ratio.1 d.ratio.2).getD infinite

/-- The exponent after a number, if there is one; nothing may follow it. -/
def readExponent? (cs : List Char) : Option Int :=
  match cs with
  | [] => some 0
  | c :: rest =>
    if c == 'e' || c == 'E' then
      let (negative, rest) := match rest with
        | '-' :: more => (true, more)
        | '+' :: more => (false, more)
        | more => (false, more)
      match takeDigits true rest with
      | some (ds, []) =>
        let n : Int := digitsToNat ds
        some (if negative then -n else n)
      | _ => none
    else none

/-- An unsigned decimal: digits, a point, digits, an exponent, with a digit on one side of the
point at least. -/
def readUnsigned? (negative : Bool) (cs : List Char) : Option Real :=
  match optionalDigits cs with
  | none => none
  | some (whole, rest) =>
    let fraction := match rest with
      | '.' :: more => optionalDigits more
      | more => some ([], more)
    match fraction with
    | none => none
    | some (part, rest) =>
      if whole.isEmpty && part.isEmpty then none
      else (readExponent? rest).map fun e =>
        ofDecimal negative (digitsToNat (whole ++ part)) (e - part.length)

def read? (s : String) : Option Real :=
  let cs := Text.trimChars s.toList
  let (negative, cs) := match cs with
    | '-' :: more => (true, more)
    | '+' :: more => (false, more)
    | more => (false, more)
  let word := String.ofList (cs.map Char.toLower)
  if word = "inf" || word = "infinity" then
    some ⟨UInt64.ofNat ((if negative then 2 ^ (63 : Nat) else 0) + 2047 * 2 ^ (52 : Nat))⟩
  else if word = "nan" then
    some ⟨UInt64.ofNat ((if negative then 2 ^ (63 : Nat) else 0) + 4095 * 2 ^ (51 : Nat))⟩
  else readUnsigned? negative cs

end RtlFlow.Real
