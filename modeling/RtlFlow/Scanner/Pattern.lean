import RtlFlow.Table
import RtlFlow.Text.Numeral
import RtlFlow.Text.Search

/-!
# Patterns

A pattern describes texts: single characters by their class, sequences, alternatives, which are
tried in order, repetitions, groups, and conditions on a place. Groups have numbers, in the order
in which they are opened, and some have names.
-/

namespace RtlFlow.Scanner

/-! ## Classes of characters -/

inductive Kind where
  | digit
  | blank
  | word
deriving DecidableEq, Repr, Inhabited

/-- The blocks above ASCII whose characters are letters or digits. -/
def letterRanges : List (Nat × Nat) := [
  (0xaa, 0xaa), (0xb2, 0xb3), (0xb5, 0xb5), (0xb9, 0xba), (0xbc, 0xbe), (0xc0, 0xd6),
  (0xd8, 0xf6), (0xf8, 0x2c1), (0x370, 0x374), (0x376, 0x377), (0x37a, 0x37d), (0x386, 0x386),
  (0x388, 0x3f5), (0x3f7, 0x481), (0x48a, 0x52f), (0x531, 0x556), (0x561, 0x587),
  (0x5d0, 0x5ea), (0x620, 0x64a), (0x660, 0x669), (0x671, 0x6d3), (0x904, 0x939),
  (0x966, 0x96f), (0xe01, 0xe30), (0x10a0, 0x10ff), (0x1e00, 0x1fff), (0x2070, 0x2079),
  (0x2080, 0x2089), (0x2460, 0x249b), (0x3041, 0x3096), (0x30a1, 0x30fa), (0x3400, 0x4dbf),
  (0x4e00, 0x9fff), (0xac00, 0xd7a3), (0xf900, 0xfa6d), (0xff10, 0xff19), (0xff21, 0xff3a),
  (0xff41, 0xff5a), (0x20000, 0x2a6df)]

def isWordChar (c : Char) : Bool :=
  c.isAlphanum || c == '_' ||
    (0x80 ≤ c.toNat && letterRanges.any fun (low, high) => low ≤ c.toNat && c.toNat ≤ high)

def Kind.holds (c : Char) : Kind → Bool
  | .digit => (Text.decimalDigit? c).isSome
  | .blank => Text.isBlank c
  | .word => isWordChar c

inductive Member where
  | range (low high : Char)
  | kind (k : Kind) (inside : Bool)
deriving DecidableEq, Repr, Inhabited

def Member.holds (c : Char) : Member → Bool
  | .range low high => low ≤ c && c ≤ high
  | .kind k inside => k.holds c == inside

structure CharClass where
  members : List Member
  negated : Bool := false
  anyCase : Bool := false
deriving DecidableEq, Repr, Inhabited

/-- The upper-case form of a character of ASCII or Latin-1, or of a Greek or Cyrillic letter. -/
def upperChar (c : Char) : Char :=
  let n := c.toNat
  if 97 ≤ n && n ≤ 122 then Char.ofNat (n - 32)
  else if 0xe0 ≤ n && n ≤ 0xfe && n != 0xf7 then Char.ofNat (n - 32)
  else if 0x3b1 ≤ n && n ≤ 0x3cb && n != 0x3c2 then Char.ofNat (n - 32)
  else if 0x430 ≤ n && n ≤ 0x44f then Char.ofNat (n - 32)
  else if 0x450 ≤ n && n ≤ 0x45f then Char.ofNat (n - 80)
  else c

namespace CharClass

def single (c : Char) : CharClass := { members := [.range c c] }

def inLine : CharClass := { members := [.range '\n' '\n'], negated := true }

def all : CharClass := { members := [], negated := true }

def holds (k : CharClass) (c : Char) : Bool :=
  let forms := if k.anyCase then [c, Text.lowerChar c, upperChar c] else [c]
  (forms.any fun d => k.members.any (Member.holds d)) != k.negated

end CharClass

/-! ## Patterns -/

inductive Anchor where
  | start
  | lineStart
  | finish
  | lastLineEnd
  | lineEnd
  | wordEdge
  | noWordEdge
deriving DecidableEq, Repr, Inhabited

inductive Pattern where
  | empty
  | one (k : CharClass)
  | anchor (a : Anchor)
  | seq (p q : Pattern)
  | alt (p q : Pattern)
  /-- A repetition, at least `low` and at most `high` times, as often as possible if it is
  greedy and as seldom as possible if not. -/
  | many (p : Pattern) (low : Nat) (high : Option Nat) (greedy : Bool)
  | group (number : Option Nat) (p : Pattern)
  /-- A place where the pattern matches, or one where it does not, without moving on. -/
  | ahead (p : Pattern) (wanted : Bool)
deriving Repr, Inhabited

structure Expression where
  pattern : Pattern
  names : Table String Nat
deriving Repr, Inhabited

end RtlFlow.Scanner
