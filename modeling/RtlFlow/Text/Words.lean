import RtlFlow.Text.Lines
import RtlFlow.Text.Search

/-!
# The words of a name

A name is made of words, which underscores separate and capitals begin. A run of capitals is one
word, up to a capital that a small letter follows.
-/

namespace RtlFlow.Text

/-- The words of a name without underscores; `word` holds the characters of the word that is
being read, last first. -/
def capitalWords : (word : List Char) → List Char → List (List Char)
  | word, [] => [word.reverse]
  | word, c :: cs =>
    let fresh := c.isUpper && match word, cs with
      | d :: _, n :: _ => !d.isUpper || n.isLower
      | d :: _, [] => !d.isUpper
      | [], _ => false
    if fresh then word.reverse :: capitalWords [c] cs else capitalWords (c :: word) cs

def nameWords (name : String) : List String :=
  (pieces '_' name).flatMap fun part =>
    ((capitalWords [] part.toList).filter (· != [])).map fun w => lower (String.ofList w)

end RtlFlow.Text
