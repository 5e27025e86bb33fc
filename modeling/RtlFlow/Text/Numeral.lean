import RtlFlow.Text.Lines

/-!
# Numerals

Reading an integer from text in a given base. A numeral may have blanks around it, a sign,
the mark of its base (`0x`, `0o`, `0b`) in front of the digits, and single underscores between
digits. Digits of every script count, by their value.
-/

namespace RtlFlow.Text

/-- The code points of the digit zero in each script; the other nine follow it. -/
def zeroDigits : List Nat :=
  [48, 1632, 1776, 1984, 2406, 2534, 2662, 2790, 2918, 3046, 3174, 3302, 3430, 3558, 3664, 3792,
   3872, 4160, 4240, 6112, 6160, 6470, 6608, 6784, 6800, 6992, 7088, 7232, 7248, 42528, 43216,
   43264, 43472, 43504, 43600, 44016, 65296, 66720, 68912, 69734, 69872, 69942, 70096, 70384,
   70736, 70864, 71248, 71360, 71472, 71904, 72016, 72784, 73040, 73120, 92768, 92864, 93008,
   120782, 120792, 120802, 120812, 120822, 123200, 123632, 125264, 130032]

def decimalDigit? (c : Char) : Option Nat :=
  (zeroDigits.find? fun z => z ≤ c.toNat && c.toNat < z + 10).map fun z => c.toNat - z

def digitValue? (c : Char) : Option Nat :=
  if '0' ≤ c && c ≤ '9' then some (c.toNat - 48)
  else if 'a' ≤ c && c ≤ 'f' then some (c.toNat - 87)
  else if 'A' ≤ c && c ≤ 'F' then some (c.toNat - 55)
  else decimalDigit? c

/-- The value of digits in a base, with underscores allowed between two digits; `value` is the
value of the digits read so far and `pending` says that a digit has to follow. -/
def digitsValue? (base : Nat) : (value : Nat) → (pending : Bool) → List Char → Option Nat
  | value, pending, [] => if pending then none else some value
  | value, pending, c :: cs =>
    if c == '_' then
      if pending then none else digitsValue? base value true cs
    else
      match digitValue? c with
      | some d => if d < base then digitsValue? base (value * base + d) false cs else none
      | none => none

def dropMark (base : Nat) : List Char → List Char
  | '0' :: c :: rest =>
    let marked := (base == 16 && (c == 'x' || c == 'X')) || (base == 8 && (c == 'o' || c == 'O'))
      || (base == 2 && (c == 'b' || c == 'B'))
    if marked then
      match rest with
      | '_' :: more => more
      | more => more
    else '0' :: c :: rest
  | cs => cs

def readInt? (base : Nat) (s : String) : Option Int :=
  match trimChars s.toList with
  | '-' :: cs => (digitsValue? base 0 true (dropMark base cs)).map fun n => -(n : Int)
  | '+' :: cs => (digitsValue? base 0 true (dropMark base cs)).map Int.ofNat
  | cs => (digitsValue? base 0 true (dropMark base cs)).map Int.ofNat

/-- An integer in decimal digits, with a minus sign in front if it is negative. -/
def ofInt (n : Int) : String :=
  match n with
  | .ofNat k => String.ofList (Nat.toDigits 10 k)
  | .negSucc k => String.ofList ('-' :: Nat.toDigits 10 (k + 1))

end RtlFlow.Text
