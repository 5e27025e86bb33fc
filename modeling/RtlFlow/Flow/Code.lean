import RtlFlow.Flow.Subset

/-!
# Flat code of a part of a design

A part of a design as one Verilog module.
-/

namespace RtlFlow

structure CodeStyle where
  moduleName : String := "Subset"
  enable : String := "HT_enable"
  indent : Nat := 2
  flat : Bool := true
deriving Repr, Inhabited

namespace Subset

variable (n : Netlist) (d : Drivers) (style : CodeStyle)

def isDriver (name : Path) (kinds : List String) : Bool :=
  kinds.contains "Input" && (name == Path.ofNames [n.top, d.reset] ||
    name == Path.ofNames [n.top, d.clock])

def port? (name : Path) (kinds : List String) : Option String :=
  if name.length = 2 && !isDriver n d name kinds &&
      (kinds.contains "Input" || kinds.contains "Inout" || kinds.contains "Output") then
    some name.code
  else none

def head (s : Subset) : Result String := do
  let start := "\n" ++ Text.fill style.indent ' '
  let ports ← s.terms.keys.mapM fun name =>
    if name.length = 2 then do return port? n d name (← n.kinds name) else pure none
  return Text.dropEnd 2 ("\x60default_nettype none\nmodule " ++ style.moduleName ++ "(" ++ start ++
    d.clock ++ ", " ++ d.reset ++ ", " ++ style.enable ++ ", " ++ start ++
    String.join (ports.filterMap id |>.map (· ++ ", "))) ++ ");\n\n"

def systemPorts : String :=
  let flat (name : String) := (Path.ofNames [n.top, name]).code
  String.join ([d.clock, d.reset, style.enable].map fun p => "input " ++ p ++ ";\n") ++
    String.join ([d.clock, d.reset].map fun p => "wire " ++ flat p ++ ";\n") ++
    String.join ([d.clock, d.reset].map fun p => "assign " ++ flat p ++ " = " ++ p ++ ";\n") ++ "\n"

def declaration (name : Path) (t : Term) : Result String := do
  if isDriver n d name (← n.kinds name) then return ""
  t.toCode

def code (s : Subset) : Result String := do
  let head ← s.head n d style
  let terms ← s.terms.entries.mapM fun (name, t) => declaration n d name t
  let bindings := s.parameters.values ++ s.assigns.values.flatten ++ s.clocked.values.flatten ++
    s.combinational.values.flatten
  let statements ← bindings.mapM Binding.toCode
  let text := head ++ systemPorts n d style ++ String.join terms ++ String.join statements ++
    "\nendmodule\n"
  return if style.flat then Text.replace "." "_" text else text

def byName {α : Type} (t : Table Path α) : Table Path α :=
  ⟨t.entries.mergeSort fun a b => compare a.1.dotted.toList b.1.dotted.toList != .gt⟩

def byCode (bs : List Binding) : Result (List Binding) := do
  let keyed ← bs.mapM fun b => do return (← b.toCode, b)
  return (keyed.mergeSort fun a b => compare a.1.toList b.1.toList != .gt).map Prod.snd

def bindingsByCode (t : Bindings) : Result Bindings := do
  return ⟨← t.entries.mapM fun (name, bs) => do return (name, ← byCode bs)⟩

def inOrder (s : Subset) : Result Subset := do
  return {
    terms := byName s.terms
    parameters := byName s.parameters
    assigns := ← bindingsByCode (byName s.assigns)
    clocked := ← bindingsByCode (byName s.clocked)
    combinational := ← bindingsByCode (byName s.combinational) }

end Subset

end RtlFlow
