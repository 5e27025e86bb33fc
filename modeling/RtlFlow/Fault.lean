/-!
# Faults

The causes for which an operation of this library gives no result. The causes of the first group
are about the objects an operation meets: an absent part, an operand of the wrong kind, a look-up
without an entry. Those of the second group are findings about the design or the grammar, and
each of these has a message.
-/

namespace RtlFlow

inductive Fault where
  | noMember
  | wrongKind
  | unboundName
  /-- A local quantity was used before it had a value. -/
  | unsetLocal
  | noEntry
  | badPosition
  | badValue
  | zeroDivision
  | tooLarge
  | tooDeep
  | noMoreElements
  | badState
  | noUnit
  | noFile
  | malformed
  | unsupported (message : String)
  /-- An object has a form that an analysis cannot use. -/
  | format (message : String)
  | definition (message : String)
  | parse (message : String)
  | scan (message : String)
  | build (message : String)
  | grammar (message : String)
  | tables (message : String)
  | ruleText (message : String)
deriving DecidableEq, Repr, Inhabited

/-- What an operation gives: its result, or the fault for which there is none. -/
abbrev Result : Type → Type := Except Fault

section

variable {σ α : Type}

/-- What an option holds; it is a fault if it holds nothing. -/
def orThrow (f : Fault) : Option α → Result α
  | some a => pure a
  | none => throw f

def element (as : List α) (i : Nat) : Result α := orThrow .badPosition as[i]?

/-- A result as a computation, which leaves its state as it is. -/
def lift (r : Result α) : EStateM Fault σ α :=
  match r with
  | .ok a => pure a
  | .error f => throw f

/-- What a computation gives, and the state at its end or at its fault. -/
def run (m : EStateM Fault σ α) (s : σ) : Result α × σ :=
  match EStateM.run m s with
  | .ok a s => (.ok a, s)
  | .error f s => (.error f, s)

end

def Fault.message? : Fault → Option String
  | .unsupported m | .format m | .definition m | .parse m | .scan m | .build m | .grammar m
  | .tables m | .ruleText m => some m
  | _ => none

end RtlFlow
