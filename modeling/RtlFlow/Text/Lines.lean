/-!
# Blanks, lines and words

Cutting a text at blanks and at line ends. All functions work on lists of characters, so that
each is a plain recursion; the names without a suffix take and give strings.
-/

namespace RtlFlow.Text

/-- A character that trimming removes and that separates words. -/
def isBlank (c : Char) : Bool :=
  let n := c.toNat
  (9 ≤ n && n ≤ 13) || (28 ≤ n && n ≤ 32) || n == 0x85 || n == 0xa0 || n == 0x1680 ||
    (0x2000 ≤ n && n ≤ 0x200a) || n == 0x2028 || n == 0x2029 || n == 0x202f ||
    n == 0x205f || n == 0x3000

def isLineEnd (c : Char) : Bool :=
  let n := c.toNat
  (10 ≤ n && n ≤ 13) || (28 ≤ n && n ≤ 30) || n == 0x85 || n == 0x2028 || n == 0x2029

def trimFront (cs : List Char) : List Char := cs.dropWhile isBlank

def trimChars (cs : List Char) : List Char :=
  (trimFront (trimFront cs).reverse).reverse

def trim (s : String) : String := String.ofList (trimChars s.toList)

/-- The lines of a text, each with its line end; `line` holds the characters of the line that
is being read, last first. -/
def cutLines : (line : List Char) → List Char → List (List Char × List Char)
  | [], [] => []
  | line, [] => [(line.reverse, [])]
  | line, '\r' :: '\n' :: rest => (line.reverse, ['\r', '\n']) :: cutLines [] rest
  | line, c :: rest =>
    if isLineEnd c then (line.reverse, [c]) :: cutLines [] rest else cutLines (c :: line) rest

def linesWithEnds (cs : List Char) : List (List Char) :=
  (cutLines [] cs).map fun p => p.1 ++ p.2

def linesChars (cs : List Char) : List (List Char) := (cutLines [] cs).map Prod.fst

def lines (s : String) : List String := (linesChars s.toList).map String.ofList

/-- The pieces between the characters of a class; `k` separators give `k + 1` pieces. -/
def splitAt (sep : Char → Bool) : List Char → List (List Char)
  | [] => [[]]
  | c :: rest =>
    if sep c then [] :: splitAt sep rest
    else
      match splitAt sep rest with
      | [] => [[c]]
      | piece :: pieces => (c :: piece) :: pieces

def pieces (sep : Char) (s : String) : List String :=
  (splitAt (· == sep) s.toList).map String.ofList

def words (s : String) : List String :=
  ((splitAt isBlank s.toList).filter (fun w => !w.isEmpty)).map String.ofList

def joinWith (sep : String) (xs : List String) : String := String.intercalate sep xs

def indentWith (margin : String) (s : String) : String :=
  String.ofList ((linesWithEnds s.toList).flatMap fun line =>
    if line.all isBlank then line else margin.toList ++ line)

def fill (n : Nat) (c : Char) : String := String.ofList (List.replicate n c)

def padRight (width : Nat) (s : String) : String :=
  s ++ fill (width - s.length) ' '

end RtlFlow.Text
