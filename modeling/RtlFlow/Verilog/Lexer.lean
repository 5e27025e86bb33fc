import RtlFlow.Fault
import RtlFlow.Text.Quoted
import RtlFlow.Text.Numeral
import RtlFlow.Verilog.Token

/-!
# Reading tokens

The lexer goes over a text lexeme by lexeme. Blanks and tabs are skipped, directives are noted,
and a character at which no rule applies is reported with its line and column.
-/

namespace RtlFlow.Verilog

structure Lexer where
  rest : List Char := []
  pos : Nat := 0
  /-- The number of characters up to the last line feed read, less one; 0 before the first. -/
  lastFeed : Nat := 0
  line : Nat := 1
  directivesRev : List (Nat × String) := []
  nettype : String := "wire"
deriving Repr, Inhabited

structure Illegal where
  char : Char
  line : Nat
  column : Nat
deriving DecidableEq, Repr, Inhabited

def Illegal.message (e : Illegal) : String :=
  "Illegal character " ++ Text.quoted (String.singleton e.char)

inductive Report where
  | token (t : Token)
  | illegal (e : Illegal)
deriving DecidableEq, Repr, Inhabited

namespace Lexer

def directives (s : Lexer) : List (Nat × String) := s.directivesRev.reverse

/-- The lexer set to the front of a new text. The line count, the directives and the net type
go on. -/
def load (s : Lexer) (text : String) : Lexer :=
  { s with rest := text.toList, pos := 0, lastFeed := 0 }

def feeds (cs : List Char) : Nat := cs.count '\n'

/-- The position of the last line feed among characters that begin at `pos`, or else `last`. -/
def lastFeedIn : (pos last : Nat) → List Char → Nat
  | _, last, [] => last
  | pos, last, c :: cs => lastFeedIn (pos + 1) (if c = '\n' then pos else last) cs

def column (lastFeed pos : Nat) : Nat := pos - lastFeed + 1

/-- The net type that a `default_nettype` directive sets: what follows the blanks after the
word, up to the end of the line; of a line that has only blanks there, the last of at least
two. -/
def nettypeOf (directive : List Char) : Option String :=
  let word := "`default_nettype".toList
  if word.isPrefixOf directive then
    let tail := (directive.drop word.length).takeWhile (· ≠ '\n')
    let blanks := tail.takeWhile Text.isBlank
    let value := tail.dropWhile Text.isBlank
    if blanks.isEmpty then none
    else if value.isEmpty then
      if blanks.length < 2 then none else some (String.ofList (blanks.drop (blanks.length - 1)))
    else some (String.ofList value)
  else none

def pass (s : Lexer) (n : Nat) : Lexer :=
  let lexeme := s.rest.take n
  { s with
    rest := s.rest.drop n
    pos := s.pos + n
    lastFeed := lastFeedIn s.pos s.lastFeed lexeme }

/-- The lexer with the line feeds of a lexeme counted. Only directives, comments and line ends can
have some, so the lexer counts in these only. -/
def countFeeds (s : Lexer) (lexeme : List Char) : Lexer :=
  { s with line := s.line + feeds lexeme }

def note (s : Lexer) (line : Nat) (directive : List Char) : Lexer :=
  { s with
    directivesRev := (line, String.ofList directive) :: s.directivesRev
    nettype := (nettypeOf directive).getD s.nettype }

def read (s : Lexer) (role : Role) (n : Nat) : Option Report × Lexer :=
  let lexeme := s.rest.take n
  let after := s.pass n
  match role with
  | .token kind => (some (.token ⟨kind, String.ofList lexeme, s.line, s.pos⟩), after)
  | .word =>
    let w := String.ofList lexeme
    (some (.token ⟨wordKind w, w, s.line, s.pos⟩), after)
  | .directive => (none, (after.countFeeds lexeme).note s.line lexeme)
  | .skipped => (none, after.countFeeds lexeme)

/-- One step: over a blank, a lexeme or an illegal character. Nothing at the end of the text. -/
def advance? (s : Lexer) : Option (Option Report × Lexer) :=
  match s.rest with
  | [] => none
  | c :: _ =>
    if c = ' ' || c = '\t' then some (none, s.pass 1)
    else
      match firstMatch s.rest with
      | some (role, n) => some (s.read role (n - 1 + 1))
      | none => some (some (.illegal ⟨c, s.line, column s.lastFeed s.pos⟩), s.pass 1)

theorem rest_read (s : Lexer) (role : Role) (n : Nat) : (s.read role n).2.rest = s.rest.drop n := by
  cases role <;> rfl

/-- Every step shortens the text. -/
theorem rest_length_lt_of_advance? {s t : Lexer} {r : Option Report}
    (h : s.advance? = some (r, t)) : t.rest.length < s.rest.length := by
  unfold advance? at h
  cases hs : s.rest with
  | nil => simp [hs] at h
  | cons c cs =>
    have key : ∀ n, (s.pass (n + 1)).rest.length < cs.length + 1 := by
      intro n
      simp only [pass, hs, List.drop_succ_cons, List.length_drop]
      omega
    simp only [hs] at h
    split at h
    · simp only [Option.some.injEq, Prod.mk.injEq] at h
      exact h.2 ▸ key 0
    · split at h
      · next role n _ =>
        obtain rfl : (s.read role (n - 1 + 1)).2 = t := by rw [Option.some.inj h]
        rw [rest_read]
        exact key (n - 1)
      · simp only [Option.some.injEq, Prod.mk.injEq] at h
        exact h.2 ▸ key 0

def next (s : Lexer) : Option Report × Lexer :=
  match _h : s.advance? with
  | none => (none, s)
  | some (some r, t) => (some r, t)
  | some (none, t) => next t
termination_by s.rest.length
decreasing_by exact rest_length_lt_of_advance? _h

def scan (s : Lexer) : List Report × Lexer :=
  match _h : s.advance? with
  | none => ([], s)
  | some (some r, t) =>
    let (rs, u) := scan t
    (r :: rs, u)
  | some (none, t) => scan t
termination_by s.rest.length
decreasing_by all_goals exact rest_length_lt_of_advance? _h

/-- The next token; a fault at an illegal character. The message of the fault begins with the
place. -/
def nextToken (s : Lexer) : Result (Option Token × Lexer) :=
  match s.next with
  | (none, t) => pure (none, t)
  | (some (.token k), t) => pure (some k, t)
  | (some (.illegal e), _) =>
    throw (.parse s!":{e.line}:{e.column}: {e.message}")

end Lexer

structure Scan where
  tokens : List Token := []
  illegals : List Illegal := []
  lexer : Lexer := {}
  stopped : Option Illegal := none
deriving Repr, Inhabited

def Scan.ofReports (rs : List Report) (lexer : Lexer) : Scan :=
  { tokens := rs.filterMap fun r => match r with
      | .token t => some t
      | .illegal _ => none
    illegals := rs.filterMap fun r => match r with
      | .token _ => none
      | .illegal e => some e
    lexer := lexer }

def scanText (text : String) : Scan :=
  let (rs, s) := (Lexer.load {} text).scan
  Scan.ofReports rs s

/-- Scans a text up to its first illegal character; what comes before is in the result. -/
def scanStrict (s : Lexer) : Scan :=
  match _h : s.advance? with
  | none => { lexer := s }
  | some (none, t) => scanStrict t
  | some (some (.token k), t) =>
    let rest := scanStrict t
    { rest with tokens := k :: rest.tokens }
  | some (some (.illegal e), _) => { illegals := [e], lexer := s, stopped := some e }
termination_by s.rest.length
decreasing_by all_goals exact Lexer.rest_length_lt_of_advance? _h

/-- The list of the tokens of a text, one a line: text, class, line and position. There is no
list of a text with an illegal character. -/
def listTokens (text : String) : Result String :=
  let r := scanStrict (Lexer.load {} text)
  match r.stopped with
  | some _ => throw .noMember
  | none => pure <| String.join <| r.tokens.map fun t =>
      t.text ++ " " ++ t.kind ++ " " ++ Text.ofInt t.line ++ "  " ++ Text.ofInt t.pos ++ "\n"

end RtlFlow.Verilog
