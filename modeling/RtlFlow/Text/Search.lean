/-!
# Searching and replacing

Literal search in a text, replacement of every occurrence, and the lower-case form that the
recognition of clock and reset names is based on.
-/

namespace RtlFlow.Text

def startsChars : (pat cs : List Char) → Bool
  | [], _ => true
  | _ :: _, [] => false
  | p :: ps, c :: cs => p == c && startsChars ps cs

def hasInfixChars (pat : List Char) : List Char → Bool
  | [] => pat.isEmpty
  | c :: cs => startsChars pat (c :: cs) || hasInfixChars pat cs

def hasInfix (pat s : String) : Bool := hasInfixChars pat.toList s.toList

/-- The text with each occurrence of `pat` replaced, from the left and without overlaps. The
first argument counts the characters of an occurrence that are still to be dropped. -/
def replaceChars (pat new : List Char) : Nat → List Char → List Char
  | _, [] => []
  | skip + 1, _ :: cs => replaceChars pat new skip cs
  | 0, c :: cs =>
    if !pat.isEmpty && startsChars pat (c :: cs) then
      new ++ replaceChars pat new (pat.length - 1) cs
    else c :: replaceChars pat new 0 cs

def replace (pat new s : String) : String :=
  String.ofList (replaceChars pat.toList new.toList 0 s.toList)

def without (c : Char) (s : String) : String := String.ofList (s.toList.filter (· != c))

/-- The lower-case form of a character: letters of ASCII and Latin-1, the Greek and Cyrillic
capitals, and the two signs (Kelvin and Ångström) whose lower-case form is a plain letter. -/
def lowerChar (c : Char) : Char :=
  let n := c.toNat
  if 65 ≤ n && n ≤ 90 then Char.ofNat (n + 32)
  else if 0xc0 ≤ n && n ≤ 0xde && n != 0xd7 then Char.ofNat (n + 32)
  else if 0x391 ≤ n && n ≤ 0x3ab && n != 0x3a2 then Char.ofNat (n + 32)
  else if 0x410 ≤ n && n ≤ 0x42f then Char.ofNat (n + 32)
  else if 0x400 ≤ n && n ≤ 0x40f then Char.ofNat (n + 80)
  else if n == 0x212a then 'k'
  else if n == 0x212b then Char.ofNat 0xe5
  else c

def lower (s : String) : String := String.ofList (s.toList.map lowerChar)

def startsWith (pat s : String) : Bool := startsChars pat.toList s.toList

def endsWith (pat s : String) : Bool := startsChars pat.toList.reverse s.toList.reverse

def dropEnd (n : Nat) (s : String) : String :=
  String.ofList (s.toList.take (s.toList.length - n))

end RtlFlow.Text
