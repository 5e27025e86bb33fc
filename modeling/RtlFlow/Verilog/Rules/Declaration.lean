import RtlFlow.Verilog.Rules.Module

/-!
# Declarations

The rules for the declaration of signals, with and without an assignment, of integers, reals and
parameters, and for continuous assignments.
-/

namespace RtlFlow.Verilog

def varsOf (types : Ast) (kinds : List (String × Ast.Kind)) (line : Int) (name width : Ast) :
    Maker (List Ast) :=
  let signed := hasWord types "signed"
  (kinds.filter fun (word, _) => hasWord types word).mapM fun (_, k) =>
    makeVar k line name width signed

def netOf (types : Ast) (word : String) (single array : Ast.Kind) (line : Int)
    (name width length : Ast) : Maker (List Ast) :=
  let signed := hasWord types "signed"
  if hasWord types word then do
    if length.isPresent then
      return [← make array line [name, width, length, .atom (.bool signed)]]
    else return [← makeVar single line name width signed]
  else pure []

def supplyOf (types : Ast) (word digit : String) (line : Int) (name width : Ast) :
    Maker (List Ast) :=
  let signed := hasWord types "signed"
  if hasWord types word then do
    let value ← make .intConst line [.text digit]
    return [← make .supply line [name, value, width, .atom (.bool signed)]]
  else pure []

def onlySigned (types : Ast) : Bool := (members types).length = 1 && hasWord types "signed"

def declare (types name width length : Ast) (line : Int) : Maker (List Ast) := do
  let has := hasWord types
  if length.isPresent && (has "input" || has "output" || has "inout") then throw illFormed
  if onlySigned types || contradictory types || tristatePort types then throw illFormed
  let ports ← varsOf types [("input", .input), ("output", .output), ("inout", .inout)]
    line name width
  let wires ← netOf types "wire" .wire .wireArray line name width length
  let regs ← netOf types "reg" .reg .regArray line name width length
  let tris ← varsOf types [("tri", .tri)] line name width
  let low ← supplyOf types "supply0" "0" line name width
  let high ← supplyOf types "supply1" "1" line name width
  return ports ++ wires ++ regs ++ tris ++ low ++ high

def declareAll (types names width : Ast) (line : Int) : Maker (List Ast) := do
  let lists ← (members names).mapM fun entry =>
    match entry with
    | .seq [name, length] => declare types name width length line
    | _ => throw .badValue
  return lists.flatten

def declareAssigned (types name assign width : Ast) (line : Int) : Maker (List Ast) := do
  let has := hasWord types
  if onlySigned types || !(has "reg" || has "wire") || contradictory types then throw illFormed
  if (has "supply0" || has "supply1") && (members types).length ≠ 1 then throw illFormed
  let vars ← varsOf types [("input", .input), ("output", .output), ("inout", .inout),
    ("wire", .wire), ("reg", .reg)] line name width
  return vars ++ [assign]

def elementOf (element : Ast) : Maker (Ast × Ast) :=
  match element with
  | .seq [name, assign] => pure (name, assign)
  | _ => throw .badValue

def wordRange (line : Int) : Maker Ast := do
  make .width line [← make .intConst line [.text "31"], ← make .intConst line [.text "0"]]

def integers (names : Ast) (line : Int) : Maker (List Ast) :=
  (elements names).mapM fun r => do
    make .integer line [r, ← wordRange line, .atom (.bool true)]

def signalRules : List Production :=
  [⟨.decl, [.sigtypes, .declnamelist, .SEMICOLON], some 1, fun p => do
      make .decl (p.line 1) [.seq (← declareAll (p 1) (p 2) .absent (p.line 2))]⟩,
   ⟨.decl, [.sigtypes, .width, .declnamelist, .SEMICOLON], some 1, fun p => do
      make .decl (p.line 1) [.seq (← declareAll (p 1) (p 3) (p 2) (p.line 3))]⟩,
   further .declnamelist [.declnamelist, .COMMA, .declname] 3,
   first .declnamelist [.declname],
   ⟨.declname, [.ID], some 1, fun p => pure (.seq [p 1, .absent])⟩,
   ⟨.declname, [.ID, .length], some 1, fun p => pure (.seq [p 1, p 2])⟩,
   ⟨.declassign, [.sigtypes, .declassignElement, .SEMICOLON], some 1, fun p => do
      let (name, assign) ← elementOf (p 2)
      make .decl (p.line 1) [.seq (← declareAssigned (p 1) name assign .absent (p.line 2))]⟩,
   ⟨.declassign, [.sigtypes, .width, .declassignElement, .SEMICOLON], some 1, fun p => do
      let (name, assign) ← elementOf (p 3)
      make .decl (p.line 1) [.seq (← declareAssigned (p 1) name assign (p 2) (p.line 3))]⟩,
   ⟨.declassignElement, [.ID, .EQUALS, .rvalue], some 1, fun p => do
      let id ← make .identifier (p.line 1) [p 1, .absent]
      let left ← make .lvalue (p.line 1) [id]
      return .seq [p 1, ← make .assign (p.line 1) [left, p 3, .absent, .absent]]⟩,
   ⟨.declassignElement, [.delays, .ID, .EQUALS, .delays, .rvalue], some 2, fun p => do
      let id ← make .identifier (p.line 1) [p 2, .absent]
      let left ← make .lvalue (p.line 2) [id]
      return .seq [p 1, ← make .assign (p.line 2) [left, p 5, p 1, p 4]]⟩]

def numberRules : List Production :=
  [⟨.integerdecl, [.INTEGER, .integernamelist, .SEMICOLON], some 1, fun p => do
      make .decl (p.line 1) [.seq (← integers (p 2) (p.line 2))]⟩,
   ⟨.integerdecl, [.INTEGER, .SIGNED, .integernamelist, .SEMICOLON], some 1, fun p => do
      make .decl (p.line 1) [.seq (← integers (p 2) (p.line 3))]⟩,
   further .integernamelist [.integernamelist, .COMMA, .integername] 3,
   first .integernamelist [.integername],
   pass .integername [.ID],
   ⟨.realdecl, [.REAL, .realnamelist, .SEMICOLON], some 1, fun p => do
      let reals ← (elements (p 2)).mapM fun _ => do
        make .real (p.line 2) [p 1, ← wordRange (p.line 2), .atom (.bool false)]
      make .decl (p.line 1) [.seq reals]⟩,
   further .realnamelist [.realnamelist, .COMMA, .realname] 3,
   first .realnamelist [.realname],
   pass .realname [.ID]]

def parameterRules : List Production :=
  [paramRule .parameterdecl [.PARAMETER, .paramSubstitutionList, .SEMICOLON] .parameter 2 none,
   paramRule .parameterdecl [.PARAMETER, .width, .paramSubstitutionList, .SEMICOLON] .parameter 3
     (some 2),
   paramRule .parameterdecl [.PARAMETER, .INTEGER, .paramSubstitutionList, .SEMICOLON] .parameter 3
     none,
   paramRule .localparamdecl [.LOCALPARAM, .paramSubstitutionList, .SEMICOLON] .localparam 2 none,
   paramRule .localparamdecl [.LOCALPARAM, .width, .paramSubstitutionList, .SEMICOLON] .localparam 3
     (some 2),
   paramRule .localparamdecl [.LOCALPARAM, .INTEGER, .paramSubstitutionList, .SEMICOLON] .localparam
     3 none,
   further .paramSubstitutionList [.paramSubstitutionList, .COMMA, .paramSubstitution] 3,
   first .paramSubstitutionList [.paramSubstitution],
   ⟨.paramSubstitution, [.ID, .EQUALS, .rvalue], some 1, fun p => pure (.seq [p 1, p 3])⟩,
   build .assignment [.ASSIGN, .lvalue, .EQUALS, .rvalue, .SEMICOLON] .assign
     (fun p => [p 2, p 4, .absent, .absent]),
   build .assignment [.ASSIGN, .delays, .lvalue, .EQUALS, .delays, .rvalue, .SEMICOLON] .assign
     (fun p => [p 3, p 6, p 2, p 5])]

end RtlFlow.Verilog
