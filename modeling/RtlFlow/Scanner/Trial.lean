import RtlFlow.Scanner.Run

/-!
# Trials of scanners

A trial builds a scanner from definitions and then uses it step by step: it feeds texts, asks for
tokens, changes states, and goes on with a copy. A copy shares its stack of states with the
scanner that it was made from.
-/

namespace RtlFlow.Scanner

open Grammar (Datum)

inductive Step where
  | tokens
  | token
  | demand
  | written
  | setLine (line : Int)
  | copy
  | rebind
  /-- The tokens of a text in written form, by the present scanner or by the one built last. -/
  | print (text : Datum) (present : Bool)
  | feed (text : Datum)
  | start (state : Datum)
  | enter (state : Datum)
  | leave
  | state
  | skip (count : Datum)
deriving Repr, Inhabited

def stepWords : List String :=
  ["token", "next", "input", "begin", "push state", "pop state", "current state", "skip"]

def Step.named (word : String) (args : List Datum) : Result Step :=
  match word, args with
  | "tokens", [] => pure .tokens
  | "token", [] => pure .token
  | "next", [] => pure .demand
  | "text", [] => pure .written
  | "line", [.scalar (.int n)] => pure (.setLine n)
  | "clone", [] => pure .copy
  | "rebind", [] => pure .rebind
  | "print", [t] => pure (.print t false)
  | "print", [t, _] => pure (.print t true)
  | "input", [t] => pure (.feed t)
  | "begin", [s] => pure (.start s)
  | "push state", [s] => pure (.enter s)
  | "pop state", [] => pure .leave
  | "current state", [] => pure .state
  | "skip", [n] => pure (.skip n)
  | w, _ => throw (if stepWords.contains w then .wrongKind else .noMember)

structure Bench where
  present : Lexer
  first : Option Lexer := none
deriving Inhabited

namespace Bench

def ofTables (t : Tables) : Bench := { present := .ofTables t }

def optional : Option Item → Datum
  | some t => t.datum
  | none => .none

def printed (text : Datum) : Scanning Datum := do
  Lexer.feed text
  let items ← Lexer.all (← get).most
  return .text (String.join (items.map fun t => t.parts ++ "\n"))

def work (b : Bench) (x : Scanning Datum) : Result Datum × Bench :=
  match x.run b.present with
  | .ok d l => (.ok d, { b with present := l })
  | .error e l => (.error e, { b with present := l })

def perform (b : Bench) (x : Scanning Unit) : Result Datum × Bench :=
  b.work do
    x
    return .none

/-- Work of the scanner built last. The stack of states is shared. -/
def workFirst (b : Bench) (x : Scanning Datum) : Result Datum × Bench :=
  match b.first with
  | none => b.work x
  | some l =>
    let back (l : Lexer) : Bench := ⟨{ b.present with stack := l.stack }, some l⟩
    match x.run { l with stack := b.present.stack } with
    | .ok d l => (.ok d, back l)
    | .error e l => (.error e, back l)

/-- The tables with functions from new definitions. Only the last expression of each state is
kept, and every state needs a function for errors. -/
def rebound (t : Tables) : Result Tables :=
  if t.onError.values.all Option.isSome then
    pure { t with states := t.states.mapValues fun ms => ms.getLast?.toList }
  else throw .noMember

def onCopy (b : Bench) (l : Lexer) : Bench := ⟨l, some (b.first.getD b.present)⟩

def step (b : Bench) : Step → Result Datum × Bench
  | .tokens => b.work do return .list ((← Lexer.all (← get).most).map Item.datum)
  | .token => b.work do return optional (← Lexer.next)
  | .demand => b.work do
    match ← Lexer.next with
    | some t => return t.datum
    | none => throw .noMoreElements
  | .written => b.work do
    match ← Lexer.next with
    | some t => return .text ("LexToken" ++ t.parts)
    | none => return .text "None"
  | .setLine n => b.perform (modify fun l => { l with line := n })
  | .copy => (.ok .none, b.onCopy b.present)
  | .rebind =>
    match rebound b.present.tables with
    | .ok t => (.ok .none, b.onCopy { b.present with tables := t })
    | .error e => (.error e, b)
  | .print text present => if present then b.work (printed text) else b.workFirst (printed text)
  | .feed text => b.perform (Lexer.feed text)
  | .start state => b.perform (Lexer.start state)
  | .enter state => b.perform (Lexer.enter state)
  | .leave => b.perform Lexer.leave
  | .state => b.work do return .text (← get).state
  | .skip n => b.perform (Lexer.skip n)

/-- The answers to steps, each with the scanner after it. A step that cannot be read fails, and
changes nothing. -/
def run (b : Bench) : List (Result Step) → List (Result Datum × Lexer)
  | [] => []
  | .error e :: rest => (.error e, b.present) :: run b rest
  | .ok s :: rest =>
    let (answer, b) := b.step s
    (answer, b.present) :: run b rest

end Bench

end RtlFlow.Scanner
