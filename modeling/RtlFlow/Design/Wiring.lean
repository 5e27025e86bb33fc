import RtlFlow.Design.Stage
import RtlFlow.Design.Guards

/-!
# Terms and bindings of a design

The second pass collects terms and bindings. The bindings stand under numbers, since a frame and
the design can hold one binding together: a new tree for it is then seen by both.
-/

namespace RtlFlow.Design.Wiring

def addTerm (w : Wiring) (name : Path) (t : Term) : Wiring :=
  { w with terms := w.terms.put name (match w.terms.get? name with
    | some old => old.join t
    | none => t) }

def termAt (w : Wiring) (name : Path) : Result Term := orThrow .noMember (w.terms.get? name)

def addSlot (w : Wiring) (b : Binding) : Wiring × Nat :=
  ({ w with slots := w.slots.push b }, w.slots.size)

/-- Stores the binding with a number under a name. -/
def store (w : Wiring) (name : Path) (i : Nat) : Result Wiring := do
  let (binds, slots) ← noteSlot Binding.sameSlice w.binds w.slots name i
  return { w with binds, slots }

def addBinding (w : Wiring) (name : Path) (b : Binding) : Result Wiring :=
  let (w, i) := w.addSlot b
  w.store name i

/-! ## Names -/

/-- Searches a name from a scope outwards, up to the module. -/
def search {α : Type} (fs : Frames) (kind : ScopeKind) (table : Table Path α) (name : String) :
    List Label → Result (Option (Path × α))
  | [] => pure none
  | l :: outer => do
    let scope : Path := ⟨(l :: outer).reverse⟩
    let path := scope.push ⟨name, kind, .none⟩
    match table.get? path with
    | some a => return some (path, a)
    | none =>
      if (← fs.at? scope).isModule then return none
      search fs kind table name outer

def searchTerm (w : Wiring) (fs : Frames) (name : String) (scope : Path) :
    Result (Option Path) := do
  return (← search fs .signal w.terms name scope.labels.reverse).map Prod.fst

def searchFunction (w : Wiring) (fs : Frames) (name : String) (scope : Path) :
    Result (Option Ast) := do
  return (← search fs .function w.functions name scope.labels.reverse).map Prod.snd

def searchFunctionPorts (w : Wiring) (fs : Frames) (name : String) (scope : Path) :
    Result (List Ast) := do
  match ← search fs .function w.functions name scope.labels.reverse with
  | some (path, _) => return (w.functionPorts.get? path).getD []
  | none => return []

def searchTask (w : Wiring) (fs : Frames) (name : String) (scope : Path) :
    Result (Option Ast) := do
  return (← search fs .task w.tasks name scope.labels.reverse).map Prod.snd

def searchTaskPorts (w : Wiring) (fs : Frames) (name : String) (scope : Path) :
    Result (List Ast) := do
  match ← search fs .task w.tasks name scope.labels.reverse with
  | some (path, _) => return (w.taskPorts.get? path).getD []
  | none => return []

end RtlFlow.Design.Wiring
