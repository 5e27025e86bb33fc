import RtlFlow.Verilog.Action

/-!
# Modules and their ports

The rules for the source text, modules, parameters and ports.
-/

namespace RtlFlow.Verilog

/-! ## Source text -/

def sourceRules : List Production :=
  [build .sourceText [.description] .source (fun p => [.text "", p 1]),
   build .description [.definitions] .description (fun p => [p 1]),
   further .definitions [.definitions, .definition] 2,
   first .definitions [.definition],
   pass .definition [.moduledef],
   pass .definition [.pragma],
   ⟨.pragma, [.LPAREN, .TIMES, .ID, .EQUALS, .expression, .TIMES, .RPAREN], some 1, fun p => do
      make .pragma (p.line 1) [← make .pragmaEntry (p.line 1) [p 3, p 5]]⟩,
   ⟨.pragma, [.LPAREN, .TIMES, .ID, .TIMES, .RPAREN], some 1, fun p => do
      make .pragma (p.line 1) [← make .pragmaEntry (p.line 1) [p 3, .absent]]⟩]

/-! ## Parameters -/

def declareParams (k : Ast.Kind) (pairs width : Ast) (line : Int) : Maker (List Ast) :=
  (members pairs).mapM fun pair =>
    match pair with
    | .seq [name, value] => make k line [name, value, width, .atom (.bool false)]
    | _ => throw .badValue

/-- A production that declares parameters. `pairs` is the symbol of the names and values, and
`width` the one of their width. -/
def paramRule (left : Sym) (right : List Sym) (k : Ast.Kind) (pairs : Nat)
    (width : Option Nat) : Production :=
  ⟨left, right, some 1, fun p => do
    let w := match width with
      | some i => p i
      | none => .absent
    make .decl (p.line 1) [.seq (← declareParams k (p pairs) w (p.line pairs))]⟩

def moduleRules : List Production :=
  [⟨.moduledef, [.MODULE, .modulename, .paramlist, .portlist, .items, .ENDMODULE], some 1,
    fun p => do
      let nettype := (← get).lexer.nettype
      make .moduleDef (p.line 1) [p 2, p 3, p 4, p 5, .text nettype]⟩,
   pass .modulename [.ID],
   pass .modulename [.SENS_OR],
   build .paramlist [.DELAY, .LPAREN, .params, .RPAREN] .paramlist (fun p => [p 3]),
   ⟨.paramlist, [.empty], none, fun _ => make .paramlist 0 [.seq []]⟩,
   further .params [.paramsBegin, .paramEnd] 2,
   further .paramsBegin [.paramsBegin, .param] 2,
   first .paramsBegin [.param],
   first .params [.paramEnd],
   paramRule .param [.PARAMETER, .paramSubstitutionList, .COMMA] .parameter 2 none,
   paramRule .param [.PARAMETER, .width, .paramSubstitutionList, .COMMA] .parameter 3 (some 2),
   paramRule .param [.PARAMETER, .INTEGER, .paramSubstitutionList, .COMMA] .parameter 3 none,
   paramRule .paramEnd [.PARAMETER, .paramSubstitutionList] .parameter 2 none,
   paramRule .paramEnd [.PARAMETER, .width, .paramSubstitutionList] .parameter 3 (some 2),
   paramRule .paramEnd [.PARAMETER, .INTEGER, .paramSubstitutionList] .parameter 3 none]

/-! ## Ports -/

def barePort (name : Ast) (line : Int) : Maker Ast := make .port line [name, .absent, .absent]

def portRules : List Production :=
  [build .portlist [.LPAREN, .ports, .RPAREN, .SEMICOLON] .portlist (fun p => [p 2]),
   build .portlist [.LPAREN, .ioports, .RPAREN, .SEMICOLON] .portlist (fun p => [p 2]),
   build .portlist [.LPAREN, .RPAREN, .SEMICOLON] .portlist (fun _ => [.seq []]),
   build .portlist [.SEMICOLON] .portlist (fun _ => [.seq []]),
   ⟨.ports, [.ports, .COMMA, .portname], some 1, fun p => do
      return snoc (p 1) (← barePort (p 3) (p.line 1))⟩,
   ⟨.ports, [.portname], some 1, fun p => do return .seq [← barePort (p 1) (p.line 1)]⟩,
   pass .portname [.ID],
   further .sigtypes [.sigtypes, .sigtype] 2,
   first .sigtypes [.sigtype],
   pass .sigtype [.INPUT],
   pass .sigtype [.OUTPUT],
   pass .sigtype [.INOUT],
   pass .sigtype [.TRI],
   pass .sigtype [.REG],
   pass .sigtype [.WIRE],
   pass .sigtype [.SIGNED],
   pass .sigtype [.SUPPLY0],
   pass .sigtype [.SUPPLY1]]

def hasWord (types : Ast) (word : String) : Bool :=
  (members types).any fun t => match t with
    | .atom (.text s) => s == word
    | _ => false

/-- Whether signal types contradict each other: two directions, or an input or an inout that is a
register. -/
def contradictory (types : Ast) : Bool :=
  let has := hasWord types
  (has "input" && has "output") || (has "inout" && has "output") || (has "inout" && has "input") ||
    (has "input" && has "reg") || (has "inout" && has "reg")

def tristatePort (types : Ast) : Bool :=
  let has := hasWord types
  (has "input" && has "tri") || (has "output" && has "tri")

def makeVar (k : Ast.Kind) (line : Int) (name width : Ast) (signed : Bool) : Maker Ast :=
  make k line [name, width, .atom (.bool signed)]

/-- The last of the kinds whose word is among the signal types, made into a variable. -/
def lastVar (types : Ast) (kinds : List (String × Ast.Kind)) (line : Int) (name width : Ast) :
    Maker Ast :=
  let signed := hasWord types "signed"
  kinds.foldlM (fun acc (word, k) =>
    if hasWord types word then makeVar k line name width signed else pure acc) .absent

/-- The port that a declaration with signal types makes: its direction, and its net type if one
is given. -/
def portOf (types name width : Ast) (line : Int) : Maker Ast := do
  let has := hasWord types
  unless has "input" || has "output" || has "inout" do throw illFormed
  if contradictory types || tristatePort types then throw illFormed
  let direction ← lastVar types [("input", .input), ("output", .output), ("inout", .inout)]
    line name width
  let net ← lastVar types [("wire", .wire), ("reg", .reg), ("tri", .tri)] line name width
  make .ioport line [direction, net]

/-- The port of a bare name that takes its direction from a port before it; none if that port is
an output of another net type than a register. The new port is unsigned, and only a register is
taken over as net type. -/
def takeOver (before name : Ast) (line : Int) : Maker (Option Ast) := do
  let direction ← partOf "first" before
  let net ← partOf "second" before
  let alike (k : Ast.Kind) : Maker Ast := do
    makeVar k line name (← partOf "width" direction) false
  match direction.kind? with
  | some .input => return some (← make .ioport line [← alike .input, .absent])
  | some .output =>
    if net.isAbsent then return some (← make .ioport line [← alike .output, .absent])
    else if net.is .reg then
      return some (← make .ioport line [← alike .output, ← alike .reg])
    else return none
  | some .inout => return some (← make .ioport line [← alike .inout, .absent])
  | _ => return none

/-- The port of a bare name: the first that can be taken over from the ports before it, latest
first; absent if there is none. -/
def inheritPort (name : Ast) (line : Int) : (before : List Ast) → Maker Ast
  | [] => pure .absent
  | port :: ports => do
    match ← takeOver port name line with
    | some t => pure t
    | none => inheritPort name line ports

def ioportRules : List Production :=
  [⟨.ioports, [.ioports, .COMMA, .ioport], some 1, fun p => do
      match p 3 with
      | .atom (.text _) =>
        return snoc (p 1) (← inheritPort (p 3) (p.line 3) (members (p 1)).reverse)
      | port => return snoc (p 1) port⟩,
   first .ioports [.ioportHead],
   ⟨.ioport, [.sigtypes, .portname], some 1, fun p => portOf (p 1) (p 2) .absent (p.line 2)⟩,
   ⟨.ioport, [.sigtypes, .width, .portname], some 1,
      fun p => portOf (p 1) (p 3) (p 2) (p.line 3)⟩,
   ⟨.ioportHead, [.sigtypes, .portname], some 1,
      fun p => portOf (p 1) (p 2) .absent (p.line 2)⟩,
   ⟨.ioportHead, [.sigtypes, .width, .portname], some 1,
      fun p => portOf (p 1) (p 3) (p 2) (p.line 3)⟩,
   pass .ioport [.portname],
   build .width [.LBRACKET, .expression, .COLON, .expression, .RBRACKET] .width
     (fun p => [p 2, p 4]),
   build .length [.LBRACKET, .expression, .COLON, .expression, .RBRACKET] .length
     (fun p => [p 2, p 4]),
   further .items [.items, .item] 2,
   first .items [.item],
   nothing .items [.empty]] ++
  choice .item [.standardItem, .generate] ++
  choice .standardItem [.decl, .integerdecl, .realdecl, .declassign, .parameterdecl,
    .localparamdecl, .genvardecl, .assignment, .always, .initial, .instantiation, .function,
    .task, .pragma]

end RtlFlow.Verilog
