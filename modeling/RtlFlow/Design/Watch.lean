import RtlFlow.Design.Definition
import RtlFlow.Flow.Term

/-!
# Sensitivity lists

An always block names the signals that it waits for. The clock and the reset among them are told
by their names.
-/

namespace RtlFlow.Design

def signalName : Ast → Option String
  | .node .identifier _ (.atom (.text s) :: _) => some s
  | .node .pointer _ (var :: _) => signalName var
  | .node .partselect _ (var :: _) => signalName var
  | _ => none

def bitNumber (pointer : Ast) : Result Int := do
  match ← (← pointer.part "ptr").part "value" with
  | .atom (.text s) => orThrow .badValue (Text.readInt? 10 s)
  | _ => throw .wrongKind

/-- The name and the bit of an entry of a sensitivity list; nothing if it stands for all
signals. -/
def watched (entry : Ast) : Result (Option (String × Int)) := do
  let signal ← entry.part "sig"
  if signal.isAbsent then return none
  let bit ← if signal.is .pointer then bitNumber signal else pure 0
  match signalName signal with
  | some name => return some (name, bit)
  | none => throw .noMember

/-- Whether a list has a clock; what stands behind the first clock is not looked at. -/
def hasClock : List Ast → Result Bool
  | [] => pure false
  | entry :: rest => do
    match ← watched entry with
    | some (name, _) => if SignalKind.isClockName name then return true else hasClock rest
    | none => hasClock rest

structure Watch where
  clock : Edge := {}
  reset : Edge := {}
  others : List Ast := []
deriving Inhabited

/-- The clock, the reset and the other entries of a list; `locate` gives what a clock or a reset
is recorded as. A later clock or reset takes the place of an earlier one. -/
def watchedEdges (locate : String → Result Ast) (entries : List Ast) : Result Watch :=
  entries.foldlM (fun (w : Watch) entry => do
    match ← watched entry with
    | none => return w
    | some (name, bit) =>
      let edge : Result Edge := do
        let signal ← locate name
        return ⟨signal, ← entry.part "type", .atom (.int bit)⟩
      if SignalKind.isClockName name then return { w with clock := ← edge }
      else if SignalKind.isResetName name then return { w with reset := ← edge }
      else return { w with others := w.others ++ [entry] }) {}

def watchList (always : Ast) : Result (List Ast) := do
  (← (← always.part "sens_list").part "list").members

end RtlFlow.Design
