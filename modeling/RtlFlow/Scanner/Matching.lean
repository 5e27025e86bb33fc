import RtlFlow.Scanner.Pattern

/-!
# Matching

A pattern is matched from the left, by going through its choices in order: the first way to
match that also lets what follows match is taken. What follows is passed on as a function of the
place that was reached.
-/

namespace RtlFlow.Scanner

structure Spot where
  pos : Nat
  before : Option Char
  rest : List Char
  closed : Option Nat := none
deriving Repr, Inhabited

namespace Spot

def ofText (text : List Char) (pos : Nat) : Spot :=
  { pos := pos
    before := if pos = 0 then none else text[pos - 1]?
    rest := text.drop pos }

def take? (k : CharClass) (s : Spot) : Option Spot :=
  match s.rest with
  | c :: rest =>
    if k.holds c then some { s with pos := s.pos + 1, before := some c, rest } else none
  | [] => none

def holds (s : Spot) : Anchor → Bool
  | .start => s.before.isNone
  | .lineStart => s.before.isNone || s.before == some '\n'
  | .finish => s.rest.isEmpty
  | .lastLineEnd => s.rest.isEmpty || s.rest == ['\n']
  | .lineEnd => s.rest.isEmpty || s.rest.head? == some '\n'
  | .wordEdge => s.before.any isWordChar != s.rest.head?.any isWordChar
  | .noWordEdge => s.before.any isWordChar == s.rest.head?.any isWordChar

end Spot

abbrev Rest := Spot → Option Spot

/-- Repeats a body. After the first `low` times a further time that does not move on is the last
one. The fuel bounds the number of times. -/
def iterate (body : Spot → Rest → Option Spot) (greedy : Bool) :
    (fuel low : Nat) → (high : Option Nat) → Spot → Rest → Option Spot
  | 0, _, _, s, k => k s
  | fuel + 1, low + 1, high, s, k =>
    body s fun t => iterate body greedy fuel low (high.map (· - 1)) t k
  | fuel + 1, 0, high, s, k =>
    if high == some 0 then k s
    else
      let more := fun (_ : Unit) => body s fun t =>
        if s.pos < t.pos then iterate body greedy fuel 0 (high.map (· - 1)) t k else k t
      if greedy then (more ()).or (k s) else (k s).or (more ())

def Pattern.run : Pattern → Spot → Rest → Option Spot
  | .empty, s, k => k s
  | .one c, s, k => (s.take? c).bind k
  | .anchor a, s, k => if s.holds a then k s else none
  | .seq p q, s, k => p.run s fun t => q.run t k
  | .alt p q, s, k => (p.run s k).or (q.run s k)
  | .many p low high greedy, s, k =>
    iterate (fun t r => p.run t r) greedy (low + s.rest.length + 1) low high s k
  | .group number p, s, k => p.run s fun t => k { t with closed := number.or t.closed }
  | .ahead p wanted, s, k => if (p.run s some).isSome == wanted then k s else none

def Expression.matchAt (e : Expression) (s : Spot) : Option Spot := e.pattern.run s some

def Expression.startsText (e : Expression) (text : List Char) : Bool :=
  (e.matchAt (Spot.ofText text 0)).isSome

end RtlFlow.Scanner
