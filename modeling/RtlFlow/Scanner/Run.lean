import RtlFlow.Scanner.Tables

/-!
# Scanning

A scanner goes through a text and gives its tokens one by one. At a place it passes over the
characters between tokens, tries the expressions of its state in order, then the literals, and
then calls the function for errors. A function may drop the token, change it, move the scanner,
and change its state.
-/

namespace RtlFlow.Scanner

open Grammar (Datum)

structure Item where
  kind : Datum
  value : Datum
  line : Int
  pos : Int
deriving Repr, Inhabited

structure Lexer where
  tables : Tables
  masters : List Master
  ignored : String
  onError : Option Function
  state : String := initialState
  stack : List String := []
  text : Option (List Char) := none
  pos : Int := 0
  line : Int := 1
deriving Inhabited

abbrev Scanning := EStateM Fault Lexer

namespace Lexer

def ofTables (t : Tables) : Lexer where
  tables := t
  masters := (t.states.get? initialState).getD []
  ignored := (t.ignored.get? initialState).getD ""
  onError := (t.onError.get? initialState).join

/-! ## States and places -/

def start (state : Datum) : Scanning Unit := do
  let l ← get
  match state with
  | .scalar (.text name) =>
    match l.tables.states.get? name with
    | none => throw .badValue
    | some masters =>
      set { l with
        masters := masters
        ignored := (l.tables.ignored.get? name).getD ""
        onError := (l.tables.onError.get? name).join
        state := name }
  | .list _ => throw .wrongKind
  | _ => throw .badValue

def enter (state : Datum) : Scanning Unit := do
  modify fun l => { l with stack := l.stack ++ [l.state] }
  start state

def leave : Scanning Unit := do
  let l ← get
  match l.stack.getLast? with
  | none => throw .badPosition
  | some state =>
    set { l with stack := l.stack.dropLast }
    start (.text state)

def skip (count : Datum) : Scanning Unit :=
  match count with
  | .scalar a =>
    match a.int? with
    | some n => modify fun l => { l with pos := l.pos + n }
    | none => throw .wrongKind
  | _ => throw .wrongKind

def feed (text : Datum) : Scanning Unit :=
  match text with
  | .scalar (.text s) => modify fun l => { l with text := some s.toList, pos := 0 }
  | .list _ | .tuple _ => throw .badValue
  | _ => throw .wrongKind

/-! ## Functions -/

def integer : Datum → Result Datum
  | .scalar (.text s) =>
    match Text.readInt? 10 s with
    | some n => pure (.int n)
    | none => throw .badValue
  | .scalar (.real x) =>
    match x.trunc? with
    | some n => pure (.int n)
    | none => throw .badValue
  | .scalar a =>
    match a.int? with
    | some n => pure (.int n)
    | none => throw .wrongKind
  | _ => throw .wrongKind

def perform : List TokenStep → Item → Scanning (Option Item)
  | [], t => return some t
  | .drop :: _, _ => return none
  | .retype d :: rest, t => perform rest { t with kind := d }
  | .revalue d :: rest, t => perform rest { t with value := d }
  | .toInt :: rest, t => do
    match integer t.value with
    | .ok d => perform rest { t with value := d }
    | .error e => throw e
  | .countLines :: rest, t => do
    match t.value with
    | .scalar (.text s) =>
      modify fun l => { l with line := l.line + (s.toList.count '\n' : Nat) }
      perform rest t
    | .list _ | .tuple _ => perform rest t
    | _ => throw .noMember
  | .start s :: rest, t => do
    start s
    perform rest t
  | .enter s :: rest, t => do
    enter s
    perform rest t
  | .leave :: rest, t => do
    leave
    perform rest t
  | .skip n :: rest, t => do
    skip n
    perform rest t

def call (f : Function) (t : Item) : Scanning (Option Item) :=
  if f.parameters = 1 then perform f.steps t else throw .wrongKind

/-! ## Tokens -/

/-- The character at a position; a negative position counts from the end. -/
def charAt (text : List Char) (pos : Int) : Result Char :=
  let i := if pos < 0 then pos + text.length else pos
  if i < 0 then throw .badPosition
  else element text i.toNat

/-- The text from a position on; a negative position counts from the end. -/
def textFrom (text : List Char) (pos : Int) : String :=
  let i := if pos < 0 then pos + text.length else pos
  String.ofList (text.drop i.toNat)

def firstMatch : List Master → Spot → Option (Master × Spot)
  | [], _ => none
  | m :: ms, s =>
    match m.expression.matchAt s with
    | some t => some (m, t)
    | none => firstMatch ms s

/-- What is done with a match: the entry of the group that was closed last. -/
def entryAt (m : Master) (s : Spot) : Result Entry :=
  match s.closed with
  | none => throw .wrongKind
  | some i =>
    match m.entries[i]? with
    | none => throw .badPosition
    | some none => throw .wrongKind
    | some (some e) => pure e

def isLiteral (literals : Datum) (c : Char) : Result Bool :=
  match literals with
  | .scalar (.text s) => pure (s.toList.contains c)
  | _ => throw .wrongKind

def checkKind (f : Function) (t : Item) : Scanning Unit := do
  let l ← get
  let known ← match t.kind with
    | .scalar (.text s) => pure (l.tables.tokens.contains s)
    | .list _ => throw .wrongKind
    | _ => pure false
  unless l.tables.optimized || known do
    throw (.scan (l.tables.source.place f.line ++ ": Rule '" ++ f.name ++
      "' returned an unknown token type '" ++ t.kind.toText ++ "'"))

/-- How scanning goes on: with a token, or from a position with characters to pass over. -/
inductive Move where
  | token (t : Item)
  | on (pos : Int) (ignored : String)

def matched (text : List Char) (pos : Int) (ignored : String) (m : Master) (s : Spot) :
    Scanning Move := do
  let l ← get
  let first := if pos < 0 then 0 else pos.toNat
  let value := String.ofList ((text.drop first).take (s.pos - first))
  match entryAt m s with
  | .error e => throw e
  | .ok e =>
    match e.function, e.token with
    | none, some kind =>
      set { l with pos := s.pos }
      return .token ⟨.text kind, .text value, l.line, pos⟩
    | none, none => return .on s.pos ignored
    | some f, kind =>
      set { l with pos := s.pos }
      match ← call f ⟨.text (kind.getD ""), .text value, l.line, pos⟩ with
      | none =>
        let l ← get
        return .on l.pos l.ignored
      | some t =>
        checkKind f t
        return .token t

/-- Goes on where no expression matches: with a literal, or with the function for errors. -/
def unmatched (text : List Char) (pos : Int) (ignored : String) (c : Char) : Scanning Move := do
  let l ← get
  match isLiteral l.tables.literals c with
  | .error e => throw e
  | .ok true =>
    set { l with pos := pos + 1 }
    return .token ⟨.text (String.singleton c), .text (String.singleton c), l.line, pos⟩
  | .ok false =>
    set { l with pos }
    match l.onError with
    | none =>
      throw (.scan ("Illegal character '" ++ String.singleton c ++ "' at index " ++
        Text.ofInt pos))
    | some f =>
      let result ← call f ⟨.text "error", .text (textFrom text pos), l.line, pos⟩
      let l ← get
      if l.pos = pos then
        throw (.scan ("Scanning error. Illegal character '" ++ String.singleton c ++ "'"))
      match result with
      | some t => return .token t
      | none => return .on l.pos ignored

/-- Goes on from a position until there is a token or the text ends. The fuel bounds the number
of moves. -/
def scan (text : List Char) : (fuel : Nat) → (pos : Int) → (ignored : String) →
    Scanning (Option Item)
  | 0, _, _ => throw .tooDeep
  | fuel + 1, pos, ignored => do
    if pos ≥ text.length then
      modify fun l => { l with pos := pos + 1 }
      return none
    match charAt text pos with
    | .error e => throw e
    | .ok c =>
      if ignored.toList.contains c then scan text fuel (pos + 1) ignored
      else
        let spot := Spot.ofText text (if pos < 0 then 0 else pos.toNat)
        let move ← match firstMatch (← get).masters spot with
          | some (m, s) => matched text pos ignored m s
          | none => unmatched text pos ignored c
        match move with
        | .token t => return some t
        | .on pos ignored => scan text fuel pos ignored

def enough (l : Lexer) (text : List Char) : Nat :=
  (text.length + l.pos.natAbs + 2) * (l.tables.states.size + 1) * 4

def next : Scanning (Option Item) := do
  let l ← get
  match l.text with
  | none =>
    if 0 ≤ l.pos then
      set { l with pos := l.pos + 1 }
      throw .badState
    else throw .wrongKind
  | some text => scan text (l.enough text) l.pos l.ignored

def all : (fuel : Nat) → Scanning (List Item)
  | 0 => throw .tooDeep
  | fuel + 1 => do
    match ← next with
    | none => return []
    | some t => return t :: (← all fuel)

def most (l : Lexer) : Nat := l.enough (l.text.getD [])

end Lexer

/-! ## Written forms -/

namespace Item

def datum (t : Item) : Datum := .list [t.kind, t.value, .int t.line, .int t.pos]

def parts (t : Item) : String :=
  "(" ++ t.kind.toText ++ "," ++ t.value.repr ++ "," ++ Text.ofInt t.line ++ "," ++
    Text.ofInt t.pos ++ ")"

end Item

end RtlFlow.Scanner
