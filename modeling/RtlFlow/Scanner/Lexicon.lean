import RtlFlow.Scanner.Definitions
import RtlFlow.Scanner.Journal
import RtlFlow.Scanner.Matching
import RtlFlow.Scanner.Reader

/-!
# Lexicons

A lexicon is what definitions say about a scanner: the classes of its tokens, its literals, its
states, and for each state the rules, the characters between tokens and the function for errors.
The name of a rule is the mark `t_`, the states that it is for, and the class of its tokens.
-/

namespace RtlFlow.Scanner

open Grammar (Datum)
open Building (warn refuse)

inductive StateKind where
  | inclusive
  | exclusive
deriving DecidableEq, Repr, Inhabited

def StateKind.text : StateKind → String
  | .inclusive => "inclusive"
  | .exclusive => "exclusive"

def initialState : String := "INITIAL"

structure Lexicon where
  source : Definitions
  meanings : Table String Meaning
  tokens : Datum := .list []
  literals : Datum := .text ""
  states : Table String StateKind := ⟨[(initialState, .inclusive)]⟩
  classes : Table String String := {}
  functions : List (String × Function) := []
  patterns : List (String × String × String) := []
  ignored : Table String String := {}
  onError : Table String Function := {}
deriving Inhabited

def members? : Datum → Option (List Datum)
  | .list items | .tuple items => some items
  | _ => none

def text? : Datum → Option String
  | .scalar (.text s) => some s
  | _ => none

namespace Lexicon

/-! ## Collecting -/

def refused (l : Lexicon) (finding : String) : Building Lexicon := do
  refuse finding
  return l

def takeTokens (l : Lexicon) : Building Lexicon :=
  match l.meanings.get? "tokens" with
  | some (.value d) =>
    if !d.truth then l.refused "No token list is defined"
    else if (members? d).isNone then l.refused "tokens must be a list or tuple"
    else return { l with tokens := d }
  | some (.function _) => l.refused "tokens must be a list or tuple"
  | none => l.refused "No token list is defined"

def takeState (l : Lexicon) (s : Datum) : Building Lexicon :=
  match s with
  | .tuple [name, kind] =>
    match text? name with
    | none => l.refused ("State name " ++ name.repr ++ " must be a string")
    | some name =>
      let put (k : StateKind) : Building Lexicon :=
        if l.states.contains name then l.refused ("State '" ++ name ++ "' already defined")
        else return { l with states := l.states.put name k }
      match text? kind with
      | some "inclusive" => put .inclusive
      | some "exclusive" => put .exclusive
      | _ => l.refused ("State type for state " ++ name ++ " must be 'inclusive' or 'exclusive'")
  | s => l.refused ("Invalid state specifier " ++ s.repr ++
      ". Must be a tuple (statename,'exclusive|inclusive')")

def takeStates (l : Lexicon) : Building Lexicon :=
  match l.meanings.get? "states" with
  | none => return l
  | some (.function _) => l.refused "states must be defined as a tuple or list"
  | some (.value d) =>
    if !d.truth then return l
    else
      match members? d with
      | some items => items.foldlM takeState l
      | none => l.refused "states must be defined as a tuple or list"

/-- The states that a rule is for and the class of its tokens, from its name. After the mark come
names of states, and the last part is never one of them. -/
def splitName (states : Table String StateKind) (name : String) : List String × String :=
  let parts := (Text.pieces '_' name).drop 1
  let named := parts.takeWhile fun p => states.contains p || p == "ANY"
  let k := min named.length (parts.length - 1)
  let own := if k = 0 then [initialState] else parts.take k
  (if own.contains "ANY" then states.keys else own, Text.joinWith "_" (parts.drop k))

def takeRule (l : Lexicon) (name : String) (m : Meaning) : Building Lexicon := do
  let (states, token) := splitName l.states name
  let l := { l with classes := l.classes.put name token }
  match m with
  | .function f =>
    if token == "error" then
      return { l with onError := states.foldl (fun t s => t.put s f) l.onError }
    else if token == "ignore" then
      l.refused (l.source.place f.line ++ ": Rule '" ++ f.name ++ "' must be defined as a string")
    else return { l with functions := l.functions ++ states.map fun s => (s, f) }
  | .value d =>
    match text? d with
    | some pattern =>
      if token == "ignore" then
        if pattern.toList.contains '\\' then
          warn (name ++ " contains a literal backslash '\\'")
        return { l with ignored := states.foldl (fun t s => t.put s pattern) l.ignored }
      else if token == "error" then
        l.refused ("Rule '" ++ name ++ "' must be defined as a function")
      else return { l with patterns := l.patterns ++ states.map fun s => (s, name, pattern) }
    | none => l.refused (name ++ " not defined as a function or string")

def takeRules (l : Lexicon) : Building Lexicon :=
  let rules := l.meanings.entries.filter fun e => Text.startsWith "t_" e.1
  if rules.isEmpty then l.refused "No rules of the form t_rulename are defined"
  else rules.foldlM (fun l e => l.takeRule e.1 e.2) l

def collect (d : Definitions) : Building Lexicon := do
  let meanings := d.meanings
  let l ← takeTokens { source := d, meanings }
  let literals := match meanings.get? "literals" with
    | some (.value v) => v
    | some (.function _) => .none
    | none => .text ""
  (← takeStates { l with literals }).takeRules

/-! ## Rules -/

def functionsOf (l : Lexicon) (state : String) : List Function :=
  let own := (l.functions.filter fun e => e.1 == state).map Prod.snd
  own.mergeSort fun a b => a.line ≤ b.line

def patternsOf (l : Lexicon) (state : String) : List (String × String) :=
  let own := (l.patterns.filter fun e => e.1 == state).map Prod.snd
  own.mergeSort fun a b => b.2.length ≤ a.2.length

def grouped (name pattern : String) : String := "(?P<" ++ name ++ ">" ++ pattern ++ ")"

/-! ## Checks -/

/-- Whether a text is a name for a class of tokens; a line feed may follow it. -/
def isTokenName (s : String) : Bool :=
  let cs := s.toList
  let cs := if cs.getLast? == some '\n' then cs.dropLast else cs
  !cs.isEmpty && cs.all fun c => c.isAlphanum || c == '_'

def checkTokens : (before : List String) → List Datum → Building Unit
  | _, [] => pure ()
  | before, d :: ds => do
    match text? d with
    | none => throw .wrongKind
    | some name =>
      unless isTokenName name do refuse ("Bad token name '" ++ name ++ "'")
      if before.contains name then warn ("Token '" ++ name ++ "' multiply defined")
      checkTokens (name :: before) ds

def checkLiterals (d : Datum) : Building Unit :=
  match d with
  | .scalar (.text _) => pure ()
  | d =>
    match members? d with
    | none => refuse
        "Invalid literals specification. literals must be a sequence of characters"
    | some items => items.forM fun c => do
      unless (text? c).any fun s => s.length ≤ 1 do
        refuse ("Invalid literal " ++ c.repr ++ ". Must be a single character")

def checkParameters (l : Lexicon) (f : Function) : Building Unit := do
  let front := l.source.place f.line ++ ": Rule '" ++ f.name ++ "' "
  if f.parameters > 1 then refuse (front ++ "has too many arguments")
  if f.parameters < 1 then refuse (front ++ "requires an argument")

/-- Checks the pattern of a rule. The texts say where the rule is: before a finding, and before
the hint about a number sign. -/
def checkPattern (flags : Flags) (front hint name pattern : String) : Building Unit :=
  let rule := "rule '" ++ name ++ "'"
  match Expression.read? flags (grouped name pattern) with
  | some e =>
    if e.startsText [] then
      refuse (front ++ "Regular expression for " ++ rule ++ " matches empty string")
    else pure ()
  | none => do
    refuse (front ++ "Invalid regular expression for " ++ rule ++ ".")
    if pattern.toList.contains '#' then
      refuse (hint ++ "Make sure '#' in " ++ rule ++ " is escaped with '\\#'")

def checkFunction (l : Lexicon) (flags : Flags) (f : Function) : Building Unit :=
  let place := l.source.place f.line
  if f.parameters ≠ 1 then l.checkParameters f
  else
    match f.text with
    | none | some "" =>
      refuse (place ++ ": No regular expression defined for rule '" ++ f.name ++ "'")
    | some pattern => checkPattern flags (place ++ ": ") (place ++ ". ") f.name pattern

def checkText (l : Lexicon) (flags : Flags) (name pattern : String) : Building Unit :=
  let token := (l.classes.get? name).getD ""
  let known := ((members? l.tokens).getD []).any fun d => text? d == some token
  if !known && !Text.hasInfix "ignore_" token then
    refuse ("Rule '" ++ name ++ "' defined for an unspecified token " ++ token)
  else checkPattern flags "" "" name pattern

def checkState (l : Lexicon) (flags : Flags) (state : String) : Building Unit := do
  let functions := l.functionsOf state
  let patterns := l.patternsOf state
  functions.forM (l.checkFunction flags)
  patterns.forM fun (name, pattern) => l.checkText flags name pattern
  if functions.isEmpty && patterns.isEmpty then
    refuse ("No rules defined for state '" ++ state ++ "'")
  match l.onError.get? state with
  | some f => l.checkParameters f
  | none => pure ()

def fileKnown (l : Lexicon) : Bool :=
  !l.functions.isEmpty || l.states.keys.any fun s => l.onError.contains s

def checkRepeats (l : Lexicon) : Building Unit :=
  if l.fileKnown then
    (l.source.repeats "t_" fun _ => true).forM fun (line, name, first) =>
      refuse (l.source.place line ++ ": Rule " ++ name ++
        " redefined. Previously defined on line " ++ Text.ofInt first)
  else pure ()

def check (l : Lexicon) (flags : Flags) : Building Unit := do
  checkTokens [] ((members? l.tokens).getD [])
  checkLiterals l.literals
  l.states.keys.forM (l.checkState flags)
  l.checkRepeats

end Lexicon

end RtlFlow.Scanner
