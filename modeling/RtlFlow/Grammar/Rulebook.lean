import RtlFlow.Grammar.Indexed
import RtlFlow.Scanner.Lexicon

/-!
# Rulebooks

A rulebook is what definitions say about a parser: its tokens, its start symbol, the precedences,
the function for errors, and the functions whose texts hold the rules of the grammar.
-/

namespace RtlFlow.Grammar

open Scanner (Definitions Meaning Function Building members? text?)
open Scanner.Building (warn refuse)

structure Rulebook where
  source : Definitions
  meanings : Table String Meaning
  start : Datum := .none
  tokens : List Datum := []
  precedences : Datum := .none
  functions : List Function := []
deriving Inhabited

structure Readout where
  precedences : List (String × String × Nat) := []
  rules : List (RuleText × String) := []
deriving Inhabited

namespace Rulebook

/-! ## Collecting -/

def valueOf (meanings : Table String Meaning) (name : String) : Datum :=
  match meanings.get? name with
  | some (.value d) => d
  | _ => .none

def ruleFunctions (meanings : Table String Meaning) : List Function :=
  let own := meanings.entries.filterMap fun (name, m) =>
    if Text.startsWith "p_" name && name != "p_error" then m.function? else none
  own.mergeSort fun a b => a.line ≤ b.line

def collect (d : Definitions) : Building Rulebook := do
  let meanings := d.meanings
  let tokens := valueOf meanings "tokens"
  let listed := (members? tokens).getD []
  if !tokens.truth && (meanings.get? "tokens").all (·.function?.isNone) then
    refuse "No token list is defined"
  else if (members? tokens).isNone then refuse "tokens must be a list or tuple"
  return {
    source := d, meanings, start := valueOf meanings "start", tokens := listed
    precedences := valueOf meanings "precedence", functions := ruleFunctions meanings }

def onError (b : Rulebook) : Option Function := (b.meanings.get? "p_error").bind (·.function?)

def lacksOnError (b : Rulebook) : Bool :=
  match b.meanings.get? "p_error" with
  | some (.value d) => !d.truth
  | some (.function _) => false
  | none => true

/-! ## Checks -/

def checkStart (b : Rulebook) : Building Unit :=
  match b.start with
  | .scalar .none | .scalar (.text _) => pure ()
  | _ => Scanner.Building.remark "ERROR: 'start' must be a string"

def checkOnError (b : Rulebook) : Building Unit :=
  match b.onError with
  | some f =>
    if f.parameters ≠ 1 then
      refuse (b.source.place f.line ++ ": p_error() requires 1 argument")
    else pure ()
  | none =>
    if b.lacksOnError then pure ()
    else refuse "'p_error' defined, but is not a function or method"

def checkRepeated : (before : List String) → List String → Building Unit
  | _, [] => pure ()
  | before, t :: ts => do
    if before.contains t then warn ("Token '" ++ t ++ "' multiply defined")
    checkRepeated (t :: before) ts

def checkTokens (b : Rulebook) : Building Unit :=
  if b.tokens.any fun d => text? d == some "error" then
    refuse "Illegal token name 'error'. Is a reserved word"
  else checkRepeated [] (b.tokens.map Datum.toText)

def readLevel (entry : Datum) (level : Nat) : Except String (List (String × String × Nat)) :=
  match members? entry with
  | none => throw "Bad precedence table"
  | some (assoc :: t :: ts) =>
    match text? assoc with
    | none => throw "precedence associativity must be a string"
    | some a => (t :: ts).mapM fun d =>
      match text? d with
      | some t => pure (t, a, level)
      | none => throw "precedence items must be strings"
  | some _ => throw ("Malformed precedence entry " ++ entry.repr ++
      ". Must be (assoc, term, ..., term)")

def readPrecedences (d : Datum) : Except String (List (String × String × Nat)) :=
  if !d.truth then pure []
  else
    match members? d with
    | none => throw "precedence must be a list or tuple"
    | some levels => do
      return (← levels.zipIdx.mapM fun (entry, i) => readLevel entry (i + 1)).flatten

def checkPrecedences (b : Rulebook) : Building (List (String × String × Nat)) :=
  match readPrecedences b.precedences with
  | .ok ps => return ps
  | .error message => do
    refuse message
    return []

def checkFunction (b : Rulebook) (f : Function) : Building (List (RuleText × String)) := do
  let front := b.source.place f.line ++ ": Rule '" ++ f.name ++ "' "
  if f.parameters > 1 then
    refuse (front ++ "has too many arguments")
    return []
  if f.parameters < 1 then
    refuse (front ++ "requires an argument")
    return []
  match f.text with
  | none | some "" =>
    warn (b.source.place f.line ++ ": No documentation string specified in function '" ++
      f.name ++ "' (ignored)")
    return []
  | some text =>
    match readRules text b.source.file f.line with
    | .ok rules => return rules.map fun r => (r, f.name)
    | .error e =>
      refuse (e.message?.getD "")
      return []

def looksLikeRule (f : Function) : Bool :=
  f.parameters = 1 &&
    match f.text with
    | some text => (Text.pieces ' ' text)[1]? == some ":"
    | none => false

/-- Warns about a name that is marked like a rule and is none, or that could be one. -/
def checkName (b : Rulebook) (name : String) (m : Meaning) : Building Unit := do
  let marked := Text.startsWith "p_" name
  unless (marked && m.function?.isSome) || Text.startsWith "t_" name do
    if marked && name != "p_error" then warn ("'" ++ name ++ "' not defined as a function")
    match m.function? with
    | some f =>
      if looksLikeRule f then
        warn (b.source.place f.line ++ ": Possible grammar rule '" ++ name ++
          "' defined without p_ prefix")
    | none => pure ()

def checkFunctions (b : Rulebook) : Building (List (RuleText × String)) := do
  if b.functions.isEmpty then
    refuse "no rules of the form p_rulename are defined"
    return []
  let rules ← b.functions.mapM b.checkFunction
  b.meanings.entries.forM fun (name, m) => b.checkName name m
  return rules.flatten

def fileKnown (b : Rulebook) : Bool :=
  b.onError.isSome || b.functions.any fun f => f.parameters = 1 && f.text.any (· != "")

def checkRepeats (b : Rulebook) : Building Unit :=
  if b.fileKnown then
    let isFunction : Scanner.Line → Bool
      | .function .. => true
      | .value .. => false
    (b.source.repeats "p_" isFunction).forM fun (line, name, first) =>
      warn (b.source.place line ++ ": Function " ++ name ++
        " redefined. Previously defined on line " ++ Text.ofInt first)
  else pure ()

def check (b : Rulebook) : Building Readout := do
  b.checkStart
  b.checkOnError
  b.checkTokens
  let precedences ← b.checkPrecedences
  let rules ← b.checkFunctions
  b.checkRepeats
  return ⟨precedences, rules⟩

end Rulebook

end RtlFlow.Grammar
