import RtlFlow.Scanner.Lexicon

/-!
# Scanning tables

For each state the patterns of its rules are joined to one expression, in which every rule is a
group. A list of rules that cannot be joined is cut in halves, and each half is joined for itself.
With optimisation the tables are kept in a file, and a later building takes them from there
without checks.
-/

namespace RtlFlow.Scanner

open Grammar (Datum)
open Building (warn note)

/-- What is done with a match of a rule: its function, if it has one, and the class of its
tokens; without either the match is passed over. -/
structure Entry where
  function : Option Function := none
  token : Option String := none
deriving Repr, Inhabited

structure Master where
  text : String
  expression : Expression
  entries : List (Option Entry)
deriving Repr, Inhabited

structure Settings where
  debug : Bool := false
  optimize : Bool := false
  flags : Flags := {}
  file : String := "lextab"
deriving Repr, Inhabited

structure Tables where
  states : Table String (List Master)
  ignored : Table String String
  onError : Table String (Option Function)
  tokens : List String
  literals : Datum
  source : Definitions
  optimized : Bool
deriving Inhabited

namespace Lexicon

/-! ## Expressions -/

/-- What is done with a match of the group of a name. The name of an inner group is that of no
rule; there is no answer for a definition that is no rule. -/
def entry? (l : Lexicon) (name : String) : Option (Option Entry) :=
  let token := l.classes.get? name
  match l.meanings.get? name with
  | none => some none
  | some (.function f) => token.map fun t => some ⟨some f, some t⟩
  | some m =>
    if m.isNone then some none
    else if Text.hasInfixChars "ignore_".toList (name.toList.drop 1) then some (some {})
    else token.map fun t => some ⟨none, some t⟩

def master? (l : Lexicon) (flags : Flags) (rules : List String) : Option Master := do
  let text := Text.joinWith "|" rules
  let e ← Expression.read? flags text
  let last := e.names.values.foldl max 0
  let entries ← (List.range (last + 1)).mapM fun i =>
    match e.names.entries.find? fun p => p.2 == i with
    | some (name, _) => l.entry? name
    | none => some none
  return ⟨text, e, entries⟩

/-- The expressions for rules. A single rule that has none is cut without end. -/
def masters (l : Lexicon) (flags : Flags) (rules : List String) : Result (List Master) :=
  match l.master? flags rules with
  | some m => pure [m]
  | none =>
    if _h : 2 ≤ rules.length then do
      let front ← l.masters flags (rules.take (rules.length / 2))
      let back ← l.masters flags (rules.drop (rules.length / 2))
      return front ++ back
    else throw .tooDeep
termination_by rules.length
decreasing_by
  · simp only [List.length_take]; omega
  · simp only [List.length_drop]; omega

def rulesOf (l : Lexicon) (state : String) : List (String × String) :=
  (l.functionsOf state).map (fun f => (f.name, f.text.getD "None")) ++ l.patternsOf state

/-! ## Tables -/

def literalText (d : Datum) : Result Datum :=
  match members? d with
  | none => pure d
  | some [] => throw .badPosition
  | some (c :: cs) =>
    if (text? c).isNone then throw .noMember
    else
      match (c :: cs).mapM text? with
      | some texts => pure (.text (String.join texts))
      | none => throw .wrongKind

def statesText (l : Lexicon) : String :=
  "\x7b" ++ Text.joinWith ", " (l.states.entries.map fun (name, kind) =>
    Text.quoted name ++ ": " ++ Text.quoted kind.text) ++ "\x7d"

def tell (s : Settings) (line : String) : Building Unit :=
  if s.debug then note ("lex: " ++ line) else pure ()

def expressions (l : Lexicon) (s : Settings) : Building (Table String (List Master)) := do
  let rules := l.states.keys.map fun state => (state, l.rulesOf state)
  rules.forM fun (state, own) => own.forM fun (name, pattern) =>
    tell s ("Adding rule " ++ name ++ " -> '" ++ pattern ++ "' (state '" ++ state ++ "')")
  tell s "==== MASTER REGEXS FOLLOW ===="
  let built ← rules.mapM fun (state, own) => do
    if own.isEmpty then throw .badValue
    let masters ← lift (l.masters s.flags (own.map fun (name, pattern) => grouped name pattern))
    masters.zipIdx.forM fun (m, i) =>
      tell s ("state '" ++ state ++ "' : regex[" ++ Text.ofInt i ++ "] = '" ++ m.text ++ "'")
    return (state, masters)
  return ⟨built⟩

/-- Adds the expressions of the initial state to those of the inclusive states. -/
def shared (l : Lexicon) (t : Table String (List Master)) : Table String (List Master) :=
  let initial := (t.get? initialState).getD []
  ⟨t.entries.map fun (state, own) =>
    if state != initialState && l.states.get? state == some .inclusive then (state, own ++ initial)
    else (state, own)⟩

def warnAbout (l : Lexicon) (state : String) (kind : StateKind) : Building Unit := do
  if kind == .exclusive then
    unless l.onError.contains state do
      warn ("No error rule is defined for exclusive state '" ++ state ++ "'")
    if !l.ignored.contains state && (l.ignored.get? initialState).getD "" != "" then
      warn ("No ignore rule is defined for exclusive state '" ++ state ++ "'")

/-- The entries of a table by state, where an inclusive state without one takes that of the
initial state. -/
def inherited {α : Type} (l : Lexicon) (t : Table String α) (initial : α) : Table String α :=
  l.states.entries.foldl (fun t (state, kind) =>
    if kind == .inclusive && !t.contains state then t.put state initial else t) t

end Lexicon

namespace Tables

def ofLexicon (l : Lexicon) (s : Settings) : Building Tables := do
  Lexicon.tell s ("tokens   = " ++ l.tokens.repr)
  Lexicon.tell s ("literals = " ++ l.literals.repr)
  Lexicon.tell s ("states   = " ++ l.statesText)
  let literals ← lift (Lexicon.literalText l.literals)
  let states := l.shared (← l.expressions s)
  let onError := l.onError.mapValues some
  let failure := l.onError.get? initialState
  if failure.isNone then warn "No t_error rule is defined"
  l.states.entries.forM fun (state, kind) => l.warnAbout state kind
  return {
    states := states
    ignored := l.inherited l.ignored ((l.ignored.get? initialState).getD "")
    onError := l.inherited onError failure
    tokens := ((members? l.tokens).getD []).filterMap text?
    literals := literals
    source := l.source
    optimized := s.optimize }

def isPath (s : String) : Bool :=
  (Text.pieces '.' s).all fun p => Reading.isGroupName p.toList

/-- The tables from the file of an earlier building. Every state needs a function for errors. -/
def reload (t : Tables) : Result Tables :=
  if t.onError.values.all Option.isSome then pure t else throw .noEntry

/-- The tables of definitions; `kept` are those of an earlier building, if there is a file. -/
def build (d : Definitions) (s : Settings) (kept : Option Tables) : Building Tables := do
  let l ← Lexicon.collect d
  if s.optimize then
    if s.file != "" && !isPath s.file then throw .malformed
    match kept with
    | some t => lift t.reload
    | none => ofLexicon l s
  else
    l.check s.flags
    if (← get).failed then throw .malformed
    ofLexicon l s

def file? (s : Settings) : Option String :=
  if s.optimize && s.file != "" then (Text.pieces '.' s.file).getLast? else none

def isFound (s : Settings) : Bool :=
  s.optimize && s.file != "" && !s.file.toList.contains '.'

def buildTimes (d : Definitions) (s : Settings) :
    (times : Nat) → (kept : Option Tables) → Building Tables
  | 0, kept => match kept with
    | some t => pure t
    | none => throw .noEntry
  | 1, kept => build d s (if isFound s then kept else none)
  | n + 1, kept => do
    let t ← build d s (if isFound s then kept else none)
    buildTimes d s n (some t)

end Tables

end RtlFlow.Scanner
