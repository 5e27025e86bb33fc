import RtlFlow.Scanner.Pattern

/-!
# Reading patterns

The text of a pattern is read from the left. Outside a class of characters, blanks count for
nothing and a number sign starts a comment up to the end of the line. Every character that opens
a group puts what was read so far aside, and the one that closes it takes it up again.
-/

namespace RtlFlow.Scanner

structure Flags where
  anyCase : Bool := false
  byLine : Bool := false
  pointAll : Bool := false
deriving DecidableEq, Repr, Inhabited

def Flags.ofNat (n : Nat) : Flags :=
  { anyCase := n.testBit 1, byLine := n.testBit 3, pointAll := n.testBit 4 }

inductive Opener where
  | whole
  | group (number : Option Nat)
  | ahead (wanted : Bool)
deriving DecidableEq, Repr, Inhabited

structure Frame where
  opener : Opener := .whole
  done : List Pattern := []
  items : List Pattern := []
deriving Inhabited

namespace Frame

def sequence (f : Frame) : Pattern :=
  match f.items with
  | [] => .empty
  | p :: ps => ps.foldl (fun acc q => .seq q acc) p

def next (f : Frame) : Frame := { f with done := f.sequence :: f.done, items := [] }

def close (f : Frame) : Pattern :=
  let body := f.done.foldl (fun acc q => .alt q acc) f.sequence
  match f.opener with
  | .whole => body
  | .group number => .group number body
  | .ahead wanted => .ahead body wanted

def push (p : Pattern) (f : Frame) : Frame := { f with items := p :: f.items }

end Frame

structure Reading where
  frame : Frame := {}
  outer : List Frame := []
  groups : Nat := 0
  names : Table String Nat := {}
deriving Inhabited

/-! ## Escapes -/

def takeDigits (digit : Char → Bool) (n : Nat) (cs : List Char) : List Char × List Char :=
  let ds := (cs.take n).takeWhile digit
  (ds, cs.drop ds.length)

def isHexDigit (c : Char) : Bool :=
  c.isDigit || ('a' ≤ c && c ≤ 'f') || ('A' ≤ c && c ≤ 'F')

def isOctalDigit (c : Char) : Bool := '0' ≤ c && c ≤ '7'

def digitsValue (base : Nat) (ds : List Char) : Nat :=
  ds.foldl (fun n d => n * base + (Text.digitValue? d).getD 0) 0

/-- The character with a code of exactly `n` digits of base sixteen. -/
def codeChar? (n : Nat) (cs : List Char) : Option (Char × List Char) :=
  let (ds, rest) := takeDigits isHexDigit n cs
  let code := digitsValue 16 ds
  if ds.length = n && code ≤ 0x10ffff then some (Char.ofNat code, rest) else none

def control? : Char → Option Char
  | 'a' => some (Char.ofNat 7)
  | 'f' => some (Char.ofNat 12)
  | 'n' => some '\n'
  | 'r' => some '\r'
  | 't' => some '\t'
  | 'v' => some (Char.ofNat 11)
  | _ => none

def kind? : Char → Option Member
  | 'd' => some (.kind .digit true)
  | 'D' => some (.kind .digit false)
  | 's' => some (.kind .blank true)
  | 'S' => some (.kind .blank false)
  | 'w' => some (.kind .word true)
  | 'W' => some (.kind .word false)
  | _ => none

def escape? (c : Char) (cs : List Char) : Option (Member × List Char) :=
  let plain (r : Char × List Char) : Member × List Char := (.range r.1 r.1, r.2)
  match kind? c, control? c with
  | some m, _ => some (m, cs)
  | none, some d => some (.range d d, cs)
  | none, none =>
    if c == 'x' then (codeChar? 2 cs).map plain
    else if c == 'u' then (codeChar? 4 cs).map plain
    else if c == 'U' then (codeChar? 8 cs).map plain
    else if c.isAlpha then none
    else some (.range c c, cs)

/-- The character whose code is written with up to three digits of base eight. -/
def octalChar? (c : Char) (cs : List Char) : Option (Char × List Char) :=
  let (ds, rest) := takeDigits isOctalDigit 2 cs
  let code := digitsValue 8 (c :: ds)
  if code ≤ 0o377 then some (Char.ofNat code, rest) else none

def classEscape? (c : Char) (cs : List Char) : Option (Member × List Char) :=
  if c == 'b' then some (.range (Char.ofNat 8) (Char.ofNat 8), cs)
  else if isOctalDigit c then (octalChar? c cs).map fun (d, rest) => (.range d d, rest)
  else if c.isDigit then none
  else escape? c cs

/-! ## Classes -/

def classMember? : List Char → Option (Member × List Char)
  | [] => none
  | '\\' :: c :: cs => classEscape? c cs
  | ['\\'] => none
  | c :: cs => some (.range c c, cs)

def rangeOf? : Member → Member → Option Member
  | .range a _, .range b _ => if a ≤ b then some (.range a b) else none
  | _, _ => none

/-- The members of a class up to the bracket that ends it, and what follows. A bracket right at
the start is a member. The members before are given latest first. -/
def classMembers? : (fuel : Nat) → (before : List Member) → List Char →
    Option (List Member × List Char)
  | 0, _, _ => none
  | fuel + 1, before, cs =>
    match cs with
    | ']' :: rest =>
      if before.isEmpty then
        (classMember? cs).bind fun (m, rest) => next fuel before m rest
      else some (before.reverse, rest)
    | cs => (classMember? cs).bind fun (m, rest) => next fuel before m rest
where
  next (fuel : Nat) (before : List Member) (m : Member) (cs : List Char) :
      Option (List Member × List Char) :=
    match cs with
    | '-' :: ']' :: rest => some ((.range '-' '-' :: m :: before).reverse, rest)
    | '-' :: cs => do
      let (n, rest) ← classMember? cs
      classMembers? fuel ((← rangeOf? m n) :: before) rest
    | cs => classMembers? fuel (m :: before) cs

def charClass? (f : Flags) (cs : List Char) : Option (CharClass × List Char) :=
  let (negated, cs) := match cs with
    | '^' :: rest => (true, rest)
    | cs => (false, cs)
  (classMembers? (cs.length + 1) [] cs).map fun (members, rest) =>
    ({ members, negated, anyCase := f.anyCase }, rest)

/-! ## Items -/

def dropComment : List Char → Option (List Char)
  | [] => some []
  | '\n' :: cs => some cs
  | ['\\'] => none
  | '\\' :: _ :: cs => dropComment cs
  | _ :: cs => dropComment cs

def isSkipped (c : Char) : Bool :=
  c == ' ' || (9 ≤ c.toNat && c.toNat ≤ 13)

/-- The bounds of a repetition in braces, and what follows them; none if the brace is an ordinary
character. -/
def bounds? (cs : List Char) : Option (Nat × Option Nat × List Char) :=
  let (low, rest) := (cs.takeWhile Char.isDigit, cs.dropWhile Char.isDigit)
  let value := digitsValue 10
  match cs, rest with
  | '\x7d' :: _, _ => none
  | _, '\x7d' :: rest => some (value low, some (value low), rest)
  | _, ',' :: rest =>
    let (high, rest) := (rest.takeWhile Char.isDigit, rest.dropWhile Char.isDigit)
    match rest with
    | '\x7d' :: rest => some (value low, if high.isEmpty then none else some (value high), rest)
    | _ => none
  | _, _ => none

namespace Reading

def push (r : Reading) (p : Pattern) : Reading := { r with frame := r.frame.push p }

def literal (r : Reading) (f : Flags) (c : Char) : Reading :=
  r.push (.one { CharClass.single c with anyCase := f.anyCase })

/-- Repeats the latest item. A condition and a repetition cannot be repeated. -/
def again (r : Reading) (low : Nat) (high : Option Nat) (cs : List Char) :
    Option (Reading × List Char) :=
  let (greedy, cs) := match cs with
    | '?' :: rest => (false, rest)
    | cs => (true, cs)
  if high.any (· < low) then none
  else
    match r.frame.items with
    | [] | .anchor _ :: _ | .many .. :: _ => none
    | p :: ps =>
      some ({ r with frame.items := .many p low high greedy :: ps }, cs)

def openAs (r : Reading) (o : Opener) : Reading :=
  { r with frame := { opener := o }, outer := r.frame :: r.outer }

def openNumbered (r : Reading) : Reading :=
  { r.openAs (.group (some (r.groups + 1))) with groups := r.groups + 1 }

def isGroupName : List Char → Bool
  | [] => false
  | c :: cs => isWordChar c && (Text.decimalDigit? c).isNone && cs.all isWordChar

/-- Opens a group with a name; the name must be new. -/
def openNamed? (r : Reading) (cs : List Char) : Option (Reading × List Char) :=
  let name := cs.takeWhile (· != '>')
  match cs.dropWhile (· != '>') with
  | _ :: rest =>
    let key := String.ofList name
    if isGroupName name && !r.names.contains key then
      some ({ r.openNumbered with names := r.names.put key (r.groups + 1) }, rest)
    else none
  | [] => none

def openGroup? (r : Reading) : List Char → Option (Reading × List Char)
  | '?' :: 'P' :: '<' :: cs => r.openNamed? cs
  | '?' :: ':' :: cs => some (r.openAs (.group none), cs)
  | '?' :: '=' :: cs => some (r.openAs (.ahead true), cs)
  | '?' :: '!' :: cs => some (r.openAs (.ahead false), cs)
  | '?' :: '#' :: cs =>
    match cs.dropWhile (· != ')') with
    | _ :: rest => some (r, rest)
    | [] => none
  | '?' :: _ => none
  | cs => some (r.openNumbered, cs)

def close? (r : Reading) : Option Reading :=
  match r.outer with
  | f :: outer => some { r with frame := f.push r.frame.close, outer }
  | [] => none

def escaped? (r : Reading) (f : Flags) : List Char → Option (Reading × List Char)
  | [] => none
  | 'A' :: cs => some (r.push (.anchor .start), cs)
  | 'Z' :: cs => some (r.push (.anchor .finish), cs)
  | 'b' :: cs => some (r.push (.anchor .wordEdge), cs)
  | 'B' :: cs => some (r.push (.anchor .noWordEdge), cs)
  | '0' :: cs => (octalChar? '0' cs).map fun (d, rest) => (r.literal f d, rest)
  | c :: cs =>
    if c.isDigit then
      if isOctalDigit c && (takeDigits isOctalDigit 2 cs).1.length = 2 then
        (octalChar? c cs).map fun (d, rest) => (r.literal f d, rest)
      else none
    else
      (escape? c cs).map fun (m, rest) =>
        (r.push (.one { members := [m], anyCase := f.anyCase }), rest)

def step (r : Reading) (f : Flags) (c : Char) (cs : List Char) : Option (Reading × List Char) :=
  if isSkipped c then some (r, cs)
  else
    match c with
    | '#' => (dropComment cs).map fun rest => (r, rest)
    | '|' => some ({ r with frame := r.frame.next }, cs)
    | ')' => r.close?.map fun r => (r, cs)
    | '(' => r.openGroup? cs
    | '\\' => r.escaped? f cs
    | '[' => (charClass? f cs).map fun (k, rest) => (r.push (.one k), rest)
    | '.' => some (r.push (.one (if f.pointAll then .all else .inLine)), cs)
    | '^' => some (r.push (.anchor (if f.byLine then .lineStart else .start)), cs)
    | '$' => some (r.push (.anchor (if f.byLine then .lineEnd else .lastLineEnd)), cs)
    | '*' => r.again 0 none cs
    | '+' => r.again 1 none cs
    | '?' => r.again 0 (some 1) cs
    | '\x7b' =>
      match bounds? cs with
      | some (low, high, rest) => r.again low high rest
      | none => some (r.literal f c, cs)
    | c => some (r.literal f c, cs)

def steps (f : Flags) : (fuel : Nat) → Reading → List Char → Option Reading
  | _, r, [] => some r
  | 0, _, _ :: _ => none
  | fuel + 1, r, c :: cs => (r.step f c cs).bind fun (r, rest) => steps f fuel r rest

end Reading

def Expression.read? (f : Flags) (text : String) : Option Expression := do
  let cs := text.toList
  let r ← Reading.steps f cs.length {} cs
  if r.outer.isEmpty then some ⟨r.frame.close, r.names⟩ else none

end RtlFlow.Scanner
