import RtlFlow.Design.Connect

/-!
# Elaboration

A design is elaborated from the modules of a text: the first pass makes the frames, the second one
the terms and the bindings.
-/

namespace RtlFlow.Design

structure Request where
  top : String := "TOP"
  ordered : Bool := true
  wired : Bool := true
  ignored : Option (List String) := none
  tracing : Bool := false
deriving Repr, Inhabited

/-- Whether the passes are looked into: then both are made and both know the black boxes. -/
def Request.inspected (r : Request) : Bool := r.ignored.isSome || r.tracing

/-- The stages after the passes of a design. -/
structure Elaboration where
  request : Request := {}
  declared : Stage := {}
  connected : Option Stage := none
deriving Inhabited

namespace Elaboration

def last (e : Elaboration) : Stage := e.connected.getD e.declared

def frames (e : Elaboration) : Frames := e.last.frames

def modules (e : Elaboration) : Modules := e.last.modules

def declaredNow (e : Elaboration) : Stage :=
  { e.declared with frames := e.frames, modules := e.modules, lines := e.last.lines }

end Elaboration

/-- Elaborates a design. Of a pass that fails the stage at the fault is kept. Unless the passes are
looked into, the second one does not know black boxes. -/
def elaborate (modules : Modules) (r : Request) : Result Unit × Elaboration :=
  let (outcome, declared) := Declare.run modules r.top (r.ignored.getD []) r.tracing
  match outcome with
  | .error f => (.error f, ⟨r, declared, none⟩)
  | .ok _ =>
    if !r.wired && !r.inspected then (.ok (), ⟨r, declared, none⟩)
    else
      let boxes := if r.inspected then declared.blackBoxes else []
      let (outcome, connected) := Connect.run declared r.top boxes r.ordered
      (outcome, ⟨r, declared, some connected⟩)

end RtlFlow.Design
