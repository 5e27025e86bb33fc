import RtlFlow.Grammar.Datum
import RtlFlow.Table
import RtlFlow.Text.Search

/-!
# Definitions

Scanners and parsers are described by definitions: each line of a definition file gives a name a
value, or a function with a text. A function whose name begins with `t_` makes tokens, and its
text is a pattern. A function whose name begins with `p_` makes values, and its text holds rules
of a grammar.
-/

namespace RtlFlow.Scanner

open Grammar (Datum)

inductive TokenStep where
  | drop
  | retype (d : Datum)
  | revalue (d : Datum)
  | toInt
  | countLines
  | start (state : Datum)
  | enter (state : Datum)
  | leave
  | skip (count : Datum)
deriving Repr, Inhabited

inductive RuleAction where
  /-- Lists the nonterminal and the values of the right side; does nothing about an error. -/
  | collect
  | pass
  | refuse
  | peek
  | positions
  | resume
  | restart
deriving DecidableEq, Repr, Inhabited

structure Function where
  name : String
  line : Nat
  parameters : Nat := 1
  text : Option String := none
  steps : List TokenStep := []
  action : RuleAction := .collect
deriving Repr, Inhabited

inductive Meaning where
  | value (d : Datum)
  | function (f : Function)
deriving Repr, Inhabited

namespace Meaning

def function? : Meaning → Option Function
  | .function f => some f
  | .value _ => none

def isNone : Meaning → Bool
  | .value (.scalar .none) => true
  | _ => false

end Meaning

inductive Line where
  | value (name : String) (d : Datum)
  /-- A function. What is not given is kept from an earlier function of the name. -/
  | function (name : String) (text : Option String) (steps : Option (List TokenStep))
      (action : Option RuleAction) (parameters : Nat)
deriving Repr, Inhabited

def Line.name : Line → String
  | .value name _ => name
  | .function name .. => name

structure Definitions where
  file : String
  lines : List Line
  bound : Bool := false
  inOrder : Bool := false
deriving Inhabited

namespace Definitions

def place (d : Definitions) (line : Nat) : String := d.file ++ ":" ++ Text.ofInt line

structure Said where
  text : Option String := none
  steps : Option (List TokenStep) := none
  action : Option RuleAction := none
deriving Inhabited

def said (d : Definitions) (name : String) : Said :=
  d.lines.foldl (fun s l =>
    match l with
    | .function n text steps action _ =>
      if n == name then ⟨text.or s.text, steps.or s.steps, action.or s.action⟩ else s
    | .value .. => s) {}

def meaningOf (d : Definitions) (line : Nat) : Line → Meaning
  | .value _ v => .value v
  | .function name _ _ _ parameters =>
    let s := d.said name
    .function {
      name, line, parameters, text := s.text
      steps := s.steps.getD [], action := s.action.getD .collect }

def meanings (d : Definitions) : Table String Meaning :=
  let t : Table String Meaning := .ofList (d.lines.zipIdx.map fun (l, i) =>
    (l.name, d.meaningOf (i + 1) l))
  if d.inOrder then t
  else ⟨t.entries.mergeSort fun a b => compare a.1.toList b.1.toList != .gt⟩

/-- Whether a name is a mark and then letters, digits and underscores of ASCII. -/
def isPlain (mark name : String) : Bool :=
  Text.startsWith mark name && name.toList.all fun c => c.isAlphanum || c == '_'

def repeats (mark : String) (counts : Line → Bool) (d : Definitions) :
    List (Nat × String × Nat) :=
  let named := (d.lines.zipIdx.filter fun (l, _) => counts l && isPlain mark l.name).map
    fun (l, i) => (i + 1, l.name)
  named.filterMap fun (line, name) =>
    match named.find? fun e => e.2 == name with
    | some (first, _) => if first < line then some (line, name, first) else none
    | none => none

end Definitions

end RtlFlow.Scanner
