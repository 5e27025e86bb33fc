import RtlFlow.Number.Scalar
import RtlFlow.Text.Search

/-!
# Integer literals

Value and width of an integer literal, from its text. A letter for the base is looked for in the
whole text, in the order hexadecimal, decimal, octal, binary, and the digits are what follows its
first occurrence. Underscores are left out before. A pattern never goes beyond the end of a line.
-/

namespace RtlFlow.Literal

structure BaseLetter where
  small : Char
  capital : Char
  base : Nat

def BaseLetter.is (l : BaseLetter) (c : Char) : Bool := c == l.small || c == l.capital

def baseLetters : List BaseLetter := [⟨'h', 'H', 16⟩, ⟨'d', 'D', 10⟩, ⟨'o', 'O', 8⟩, ⟨'b', 'B', 2⟩]

def isMark (c : Char) : Bool := c == 's' || c == 'S' || baseLetters.any (·.is c)

def rows (cs : List Char) : List (List Char) := Text.splitAt (· == '\n') cs

/-- Whether a question mark follows a letter for a base. -/
def hasOpenDigit (row : List Char) : Bool := (row.dropWhile fun c => !isMark c).contains '?'

def digitsAfter? (l : BaseLetter) : List Char → Option (List Char)
  | [] => none
  | [_] => none
  | c :: cs => if l.is c then some cs else digitsAfter? l cs

/-- What stands before the last quote with a letter for a base and at least one more character
behind it. -/
def sizeBefore? (l : BaseLetter) : List Char → Option (List Char)
  | [] => none
  | c :: cs =>
    match sizeBefore? l cs with
    | some size => some (c :: size)
    | none =>
      match cs with
      | '\'' :: b :: _ :: _ => if l.is b then some [c] else none
      | _ => none

def readInt (base : Nat) (cs : List Char) : Result Int :=
  orThrow .badValue (Text.readInt? base (String.ofList cs))

def digits (cs : List Char) : Nat × List Char :=
  match baseLetters.findSome? fun l => ((rows cs).findSome? (digitsAfter? l)).map (l.base, ·) with
  | some found => found
  | none => (10, cs)

/-- The value of a literal. -/
def value (s : String) : Result Scalar := do
  let cs := (Text.without '_' s).toList
  if (rows cs).any hasOpenDigit then return .text (String.ofList cs)
  let (base, ds) := digits cs
  return .int (← readInt base ds)

/-- The number of bits of a literal. -/
def width (s : String) : Result Int :=
  let cs := (Text.without '_' s).toList
  match baseLetters.findSome? fun l => (rows cs).findSome? (sizeBefore? l) with
  | some size => readInt 10 size
  | none => pure 32

end RtlFlow.Literal
