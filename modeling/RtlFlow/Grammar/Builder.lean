import RtlFlow.Grammar.Rulebook
import RtlFlow.Grammar.Tables

/-!
# Building parsers

A parser is built from definitions: the rulebook is collected and checked, the grammar is
assembled and examined, and the tables are made. The tables are kept in a file, and a later
building takes them from there if the file fits the definitions.
-/

namespace RtlFlow.Grammar

open Scanner (Definitions Meaning Function Journal Building)
open Scanner.Building (warn refuse note remark)

structure Options where
  debug : Bool := false
  method : String := "LALR"
  start : Option String := none
  /-- Whether unreachable and never ending symbols are looked for. -/
  checkRecursion : Bool := true
  /-- Whether tables from a file are taken without a look at the definitions. -/
  optimize : Bool := false
  writeTables : Bool := true
  directory : String := ""
  archive : String := ""
  /-- Whether the steps of the work go to a file of their own. -/
  logFile : Bool := false
deriving Repr, Inhabited

inductive Damage where
  | version
  | signature
  | functions
deriving DecidableEq, Repr, Inhabited

structure Kept where
  tables : Tables
  damage : Option Damage := none
deriving Inhabited

inductive Origin where
  | generated
  | read
deriving DecidableEq, Repr, Inhabited

structure Parser where
  tables : Tables
  origin : Origin
  book : Rulebook
deriving Inhabited

/-! ## Grammars -/

namespace Rulebook

/-- Adds the precedences. One that is refused is left out, with a warning. -/
def addPrecedences (ps : List (String × String × Nat)) (g : Grammar) : Building Grammar :=
  ps.foldlM (fun g (term, assoc, level) =>
    match g.setPrecedence term assoc level with
    | .ok g => return g
    | .error e => do
      warn (e.message?.getD "")
      return g) g

/-- Adds the rules. One that is refused is left out, with an error. -/
def addRules (rules : List (RuleText × String)) (g : Grammar) : Building Grammar :=
  rules.foldlM (fun g (rule, action) =>
    match g.addRule rule action with
    | (.ok (), g) => return g
    | (.error e, g) => do
      refuse (e.message?.getD "")
      return g) g

def startAt (b : Rulebook) (given : Option String) (g : Grammar) : Building Grammar :=
  let set (s : Option String) : Building Grammar :=
    match g.setStart s with
    | .ok g => return g
    | .error (.grammar message) => do
      refuse message
      return g
    | .error e => throw e
  match given, b.start with
  | some s, _ => set (some s)
  | none, .scalar (.text s) => set (some s)
  | none, .list (_ :: _) => throw .wrongKind
  | none, d =>
    if d.truth then do
      refuse ("start symbol " ++ d.toText ++ " undefined")
      return g
    else set none

def grammar (b : Rulebook) (r : Readout) (start : Option String) : Building Grammar := do
  let g ← addPrecedences r.precedences (ofTerminals (b.tokens.map Datum.toText))
  b.startAt start (← addRules r.rules g)

end Rulebook

/-! ## Findings about a grammar -/

def warnCount (n : Nat) (what : String) : Building Unit :=
  if n = 1 then warn ("There is 1 unused " ++ what)
  else if n > 1 then warn ("There are " ++ Text.ofInt n ++ " unused " ++ what ++ "s")
  else pure ()

def heading (title : String) : Building Unit := do
  note ""
  note title
  note ""

def noteUses (t : Table String (List Nat)) : Building Unit :=
  let sorted := t.entries.mergeSort fun a b => compare a.1.toList b.1.toList != .gt
  sorted.forM fun (name, uses) =>
    note (Text.padRight 20 name ++ " : " ++
      Text.joinWith " " (uses.map fun (n : Nat) => Text.ofInt n))

def reportUses (o : Options) (g : Grammar) : Building Unit := do
  (undefinedSymbols g).forM fun (s, number) => do
    let r := g.allRules.getD number default
    refuse (placed r.file r.line
      ("Symbol '" ++ s ++ "' used, but not defined as a token or a rule"))
  let terminals := unusedTerminals g
  unless terminals.isEmpty do
    heading "Unused terminals:"
    terminals.forM fun t => do
      warn ("Token '" ++ t ++ "' defined, but not used")
      note ("    " ++ t)
  if o.debug then
    heading "Grammar"
    g.allRules.toList.forM fun r =>
      note ("Rule " ++ Text.padRight 5 (Text.ofInt r.number) ++ " " ++ r.text)
  let rules := unusedRules g
  rules.forM fun r => warn (placed r.file r.line ("Rule '" ++ r.name ++ "' defined, but not used"))
  warnCount terminals.length "token"
  warnCount rules.length "rule"
  if o.debug then
    heading "Terminals, with rules where they appear"
    noteUses g.terminals
    heading "Nonterminals, with rules where they appear"
    noteUses g.nonterminals
    note ""

/-- Reports symbols that cannot be reached or never end, and precedences of nothing. -/
def reportStructure (o : Options) (g : Grammar) : Building Unit := do
  if o.checkRecursion then
    (unreachable g).forM fun s => warn ("Symbol '" ++ s ++ "' is unreachable")
    (neverEnding g).forM fun s =>
      refuse ("Infinite recursion detected for symbol '" ++ s ++ "'")
  (unusedPrecedences g).forM fun (term, assoc) =>
    refuse ("Precedence rule '" ++ assoc.word ++ "' defined for unknown symbol '" ++ term ++ "'")

def warnConflicts (n : Nat) (what : String) : Building Unit :=
  if n = 0 then pure ()
  else warn (Text.ofInt n ++ " " ++ what ++ " conflict" ++ if n = 1 then "" else "s")

/-- Writes down a warning among the steps, and also among the findings if it is meant for both. -/
def noteWarning (both : Bool) (text : String) : Building Unit := do
  note ("WARNING: " ++ text)
  if both then warn text

def reportConflicts (t : Tables) : Building Unit := do
  let rule (n : Nat) : String := (t.rules.getD n default).text
  let pairs := t.reduceReduce.toList
  warnConflicts t.shiftReduce.size "shift/reduce"
  warnConflicts pairs.length "reduce/reduce"
  unless t.shiftReduce.isEmpty && pairs.isEmpty do
    ["", "Conflicts:", ""].forM (noteWarning false)
    t.shiftReduce.toList.forM fun c => noteWarning false
      ("shift/reduce conflict for " ++ c.terminal ++ " in state " ++ Text.ofInt c.state ++
        " resolved as " ++ if c.shift then "shift" else "reduce")
    pairs.eraseDups.forM fun c => do
      noteWarning true ("reduce/reduce conflict in state " ++ Text.ofInt c.state ++
        " resolved using rule (" ++ rule c.chosen ++ ")")
      noteWarning true ("rejected rule (" ++ rule c.rejected ++ ") in state " ++
        Text.ofInt c.state)
    ((pairs.map (·.rejected)).filter fun n => t.reduced.getD n 0 == 0).eraseDups.forM fun n =>
      noteWarning true ("Rule (" ++ rule n ++ ") is never reduced")

def unable : Fault := .build "Unable to build parser"

def stopIfFailed : Building Unit := do
  if (← get).failed then throw unable

def Rulebook.generate (b : Rulebook) (o : Options) (banner : String) : Building Tables := do
  note banner
  let r ← b.check
  stopIfFailed
  if b.lacksOnError then warn "no p_error() function is defined"
  let g ← b.grammar r o.start
  stopIfFailed
  reportUses o g
  reportStructure o g
  stopIfFailed
  if o.debug then remark ("Generating " ++ o.method ++ " tables")
  let method ← lift (Method.ofWord o.method)
  let t ← lift (Tables.ofGrammar g method true)
  t.log.toList.forM note
  if o.debug then reportConflicts t
  return t

/-! ## Files -/

structure Stationery where
  banner : String
  tableFile : String
  logFile : String
  outdated : String
  renamed : String → String

structure Shop where
  journal : Journal := {}
  /-- What was written about files that cannot be made, and about errors in texts. -/
  complaints : String := ""
  tableFile : Option Kept := none
  archives : Table String Kept := {}
  logged : Bool := false
  parsers : List Parser := []
deriving Inhabited

namespace Shop

abbrev Work := EStateM Fault Shop

def inJournal {α : Type} (x : Building α) : Work α := do
  let s ← get
  match x.run s.journal with
  | .ok a j =>
    set { s with journal := j }
    return a
  | .error e j =>
    set { s with journal := j }
    throw e

def files (p : Stationery) (s : Shop) : List String :=
  s.archives.keys ++ (if s.tableFile.isSome then [p.tableFile] else []) ++
    if s.logged then [p.logFile] else []

def hasDirectory (directory : String) : Bool := ["", ".", "./"].contains directory

def pathIn (directory file : String) : String :=
  if directory == "" then file
  else if Text.endsWith "/" directory then directory ++ file
  else directory ++ "/" ++ file

def reading (p : Stationery) (o : Options) : Work (Option Tables) := do
  let s ← get
  let kept := if o.archive != "" then s.archives.get? o.archive else s.tableFile
  match kept with
  | none => return none
  | some k =>
    match k.damage with
    | none => return some k.tables
    | some .version =>
      inJournal (warn p.outdated)
      return none
    | some .signature => return if o.optimize then some k.tables else none
    | some .functions =>
      match (k.tables.rules.toList.drop 1).head? with
      | some r =>
        inJournal (warn ("There was a problem loading the table file: KeyError(" ++
          Text.quoted (p.renamed r.action) ++ ")"))
        return none
      | none => return some k.tables

def keep (p : Stationery) (o : Options) (t : Tables) : Work Unit := do
  if o.archive != "" then
    if o.archive.toList.contains '/' then throw .noFile
    modify fun s => { s with archives := s.archives.put o.archive ⟨t, none⟩ }
  else if o.writeTables then
    if hasDirectory o.directory then
      modify fun s => { s with tableFile := some ⟨t, none⟩ }
    else
      let file := Text.quoted (pathIn o.directory p.tableFile)
      modify fun s => { s with complaints := s.complaints ++
        "Unable to create '" ++ pathIn o.directory p.tableFile ++ "'\n" ++
        "[Errno 2] No such file or directory: " ++ file ++ "\n" }

/-- Makes the tables of a rulebook. The steps of the work follow those before, or are the only
ones in a file of their own, which is only there if everything is written down. -/
def generating (p : Stationery) (o : Options) (b : Rulebook) : Work (Result Tables) := do
  let s ← get
  let settle (j : Journal) : Shop :=
    if !o.logFile then { s with journal := { j with steps := j.steps ++ s.journal.steps } }
    else if o.debug then { s with journal := j, logged := true }
    else { s with journal := { j with steps := s.journal.steps } }
  match (b.generate o p.banner).run { s.journal with steps := [] } with
  | .ok t j =>
    set (settle j)
    return .ok t
  | .error e j =>
    set (settle j)
    return .error e

def build (p : Stationery) (d : Definitions) (o : Options) : Work Unit := do
  modify fun s => { s with journal.failed := false }
  let b ← inJournal (Rulebook.collect d)
  inJournal stopIfFailed
  match ← reading p o with
  | some t => modify fun s => { s with parsers := ⟨t, .read, b⟩ :: s.parsers }
  | none =>
    let r ← generating p o b
    match r with
    | .error e => throw e
    | .ok t =>
      keep p o t
      modify fun s => { s with parsers := ⟨t, .generated, b⟩ :: s.parsers }

def spoil (damage : Damage) (s : Shop) : Shop :=
  { s with tableFile := s.tableFile.map fun k => { k with damage := some damage } }

/-- Builds several times, with options for the first and for the later times. The file is damaged
after the first time. -/
def buildTimes (p : Stationery) (d : Definitions) (first later : Options)
    (damage : Option Damage) (times : Nat) : Work Unit := do
  build p d first
  match damage with
  | some damage => modify (spoil damage)
  | none => pure ()
  (List.range (times - 1)).forM fun _ => build p d later

end Shop

end RtlFlow.Grammar
