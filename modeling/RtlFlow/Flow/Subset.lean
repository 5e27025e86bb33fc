import RtlFlow.Flow.Merge

/-!
# Subsets of a design

The part of a design that some signals depend on, sorted by the statements in which it is written.
-/

namespace RtlFlow

attribute [local instance (2000)] instPowNat

/-- The clock and the reset of a design. -/
structure Drivers where
  clock : String := "CLK"
  clockEdge : String := "posedge"
  reset : String := "RST_X"
  resetEdge : String := "negedge"
deriving Repr, Inhabited

/-- A part of a design, sorted by statements. -/
structure Subset where
  terms : Terms := {}
  parameters : Table Path Binding := {}
  assigns : Bindings := {}
  clocked : Bindings := {}
  combinational : Bindings := {}
deriving Inhabited

namespace Netlist

variable (n : Netlist) (d : Drivers)

/-- What a search has reached. -/
structure Reach where
  binds : Bindings := {}
  sources : List Path := []
deriving Inhabited

def appendBinding (table : Bindings) (name : Path) (b : Binding) : Bindings :=
  table.put name ((table.get? name).getD [] ++ [b])

def appendNew (held new : List Binding) : List Binding :=
  new.foldl (fun held b => if held.any (·.same b) then held else held ++ [b]) held

def joinLists (held : Option (List Binding)) (new : List Binding) : List Binding :=
  match held with
  | some held => appendNew held new
  | none => new

def joinTables (table other : Bindings) : Bindings :=
  other.entries.foldl (fun table e => table.put e.1 (joinLists (table.get? e.1) e.2)) table

def Reach.join (r found : Reach) : Reach :=
  ⟨joinTables r.binds found.binds, distinctPaths (r.sources ++ found.sources)⟩

def otherClock? (b : Binding) : Option Ast :=
  match b.always with
  | none => none
  | some s =>
    if s.isClockEdge && s.clock.name != .path (Path.ofNames [n.top, d.clock]) then
      some s.clock.name
    else none

/-- Takes a binding of a name along, and what its clock depends on; `go` searches from a signal on. -/
def followBinding (go : List Path → Path → Result Reach) (name : Path) (r : Reach)
    (b : Binding) : Result Reach := do
  let r : Reach := { r with binds := appendBinding r.binds name b }
  match n.otherClock? d b with
  | none => return r
  | some (.path c) => return r.join (← go r.sources c)
  | some _ => throw (.definition "No such signal")

/-- Takes a source along that was not visited before, and what it depends on. -/
def followSource (go : List Path → Path → Result Reach) (visited : List Path) (r : Reach)
    (p : Path) : Result Reach := do
  if visited.contains p then return r
  let sources := distinctPaths (r.sources ++ [p])
  return Reach.join { r with sources } (← go sources p)

/-- What a signal depends on, found depth first. The sources that were `visited` before are left
out, and those that are found are visited; clocks are followed each time. The sources of a name are
taken in the order that `order` brings them into. -/
def search (order : Path → List Path → List Path) : Nat → List Path → Path → Result Reach
  | 0, _, _ => throw .tooDeep
  | fuel + 1, visited, name => do
    if !n.terms.contains name then throw (.definition "No such signal")
    let r ← (n.bindings name).foldlM (n.followBinding d (search order fuel) name)
      { sources := visited }
    let sources ← n.bindSources name
    (order name sources).foldlM (followSource (search order fuel) visited) r

/-- What some signals depend on. A search goes through each term once, and between two of them
through chains of clocks, which are not longer than the terms are many. -/
def searchAll (order : Path → List Path → List Path) (targets : List Path) : Result Reach :=
  targets.foldlM (fun r name => do
    return r.join (← n.search d order ((n.terms.size + 1) ^ (2 : Nat)) r.sources name)) {}

/-- A binding put to others that differ from it. Bindings with delays cannot be told apart. -/
def insertBinding (bs : List Binding) (b : Binding) : Result (List Binding) := do
  for t in [b.tree, b.msb, b.lsb, b.ptr] do
    let _ ← t.hashKey
  for c in bs do
    if ← c.equal b then return bs
  return bs ++ [b]

def addBinding (table : Bindings) (name : Path) (b : Binding) : Result Bindings := do
  return table.put name (← insertBinding ((table.get? name).getD []) b)

def declare (s : Subset) (name : Path) : Result Subset := do
  if s.terms.contains name then return s
  return { s with terms := s.terms.put name (← n.optimizer.term name) }

def sortBinding (s : Subset) (name : Path) (b : Binding) : Result Subset := do
  match ← n.assignType name b with
  | "clockedge" => n.declare { s with clocked := ← addBinding s.clocked name b } name
  | "combination" => n.declare { s with combinational := ← addBinding s.combinational name b } name
  | "assign" => n.declare { s with assigns := ← addBinding s.assigns name b } name
  | "parameter" | "localparam" => return { s with parameters := s.parameters.put name b }
  | _ => n.declare s name

def sorted (binds : Bindings) (sources : List Path) : Result Subset := do
  let s ← sources.foldlM (fun (s : Subset) name => do
    if SignalKind.isParameter (← n.kinds name) then return s
    return { s with terms := s.terms.put name (← n.optimizer.term name) }) {}
  binds.entries.foldlM (fun s (name, bs) => bs.foldlM (fun s b => n.sortBinding s name b) s) s

def subset (targets : List Path) : Result Subset := do
  let r ← n.searchAll d (fun _ sources => sources) targets
  n.sorted r.binds r.sources

/-- The whole design. -/
def entire : Result Subset := n.sorted n.resolvedBinds n.terms.keys

end Netlist

end RtlFlow
