import RtlFlow.Verilog.Rules.Statement

/-!
# Instances, generate blocks, functions and tasks

The rules for instances of modules, generate blocks, system calls, functions and tasks, and for
identifiers with scopes.
-/

namespace RtlFlow.Verilog

def instancesOf (moduleName params bodies : Ast) (line : Int) : Maker Ast := do
  let instances ← (members bodies).mapM fun body =>
    match body with
    | .seq [name, ports, array] => make .inst line [moduleName, name, ports, params, array]
    | _ => throw .badValue
  make .instanceList line [moduleName, params, .seq instances]

def instanceRule (left : Sym) (right : List Sym) (params : Option Nat) (bodies : Nat) :
    Production :=
  ⟨left, right, some 1, fun p =>
    let given := match params with
      | some i => p i
      | none => .seq []
    instancesOf (p 1) given (p bodies) (p.line 1)⟩

def instanceRules : List Production :=
  [instanceRule .instantiation [.ID, .parameterlist, .instanceBodylist, .SEMICOLON] (some 2) 3,
   instanceRule .instantiation [.SENS_OR, .parameterlist, .instanceBodylist, .SEMICOLON] (some 2) 3,
   further .instanceBodylist [.instanceBodylist, .COMMA, .instanceBody] 3,
   first .instanceBodylist [.instanceBody],
   ⟨.instanceBody, [.ID, .LPAREN, .instancePorts, .RPAREN], some 1,
      fun p => pure (.seq [p 1, p 3, .absent])⟩,
   ⟨.instanceBody, [.ID, .width, .LPAREN, .instancePorts, .RPAREN], some 1,
      fun p => pure (.seq [p 1, p 4, p 2])⟩,
   instanceRule .instantiation [.ID, .instanceBodylistNoname, .SEMICOLON] none 2,
   instanceRule .instantiation [.SENS_OR, .instanceBodylistNoname, .SEMICOLON] none 2,
   further .instanceBodylistNoname [.instanceBodylistNoname, .COMMA, .instanceBodyNoname] 3,
   first .instanceBodylistNoname [.instanceBodyNoname],
   ⟨.instanceBodyNoname, [.LPAREN, .instancePorts, .RPAREN], some 1,
      fun p => pure (.seq [.text "", p 2, .absent])⟩,
   ⟨.parameterlist, [.DELAY, .LPAREN, .paramArgs, .RPAREN], some 1, fun p => pure (p 3)⟩,
   ⟨.parameterlist, [.DELAY, .LPAREN, .paramArgsNoname, .RPAREN], some 1, fun p => pure (p 3)⟩,
   nothing .parameterlist [.empty],
   further .paramArgsNoname [.paramArgsNoname, .COMMA, .paramArgNoname] 3,
   first .paramArgsNoname [.paramArgNoname],
   further .paramArgs [.paramArgs, .COMMA, .paramArg] 3,
   first .paramArgs [.paramArg],
   build .paramArgNoname [.expression] .paramArg (fun p => [.absent, p 1]),
   build .paramArg [.DOT, .ID, .LPAREN, .expression, .RPAREN] .paramArg (fun p => [p 2, p 4])] ++
  choice .instancePorts [.instancePortsList, .instancePortsArg] ++
  [further .instancePortsList [.instancePortsList, .COMMA, .instancePortList] 3,
   first .instancePortsList [.instancePortList],
   build .instancePortList [.expression] .portArg (fun p => [.absent, p 1]),
   further .instancePortsArg [.instancePortsArg, .COMMA, .instancePortArg] 3,
   first .instancePortsArg [.instancePortArg],
   build .instancePortArg [.DOT, .ID, .LPAREN, .identifier, .RPAREN] .portArg (fun p => [p 2, p 4]),
   build .instancePortArg [.DOT, .ID, .LPAREN, .expression, .RPAREN] .portArg (fun p => [p 2, p 4]),
   build .instancePortArg [.DOT, .ID, .LPAREN, .RPAREN] .portArg (fun p => [p 2, .absent])]

def constRange (msb lsb : String) (line : Int) : Maker Ast := do
  make .width line [← make .intConst line [.text msb], ← make .intConst line [.text lsb]]

def generateRules : List Production :=
  [build .genvardecl [.GENVAR, .genvarlist, .SEMICOLON] .decl (fun p => [p 2]),
   further .genvarlist [.genvarlist, .COMMA, .genvar] 3,
   first .genvarlist [.genvar],
   ⟨.genvar, [.ID], some 1, fun p => do
      make .genvar (p.line 1) [p 1, ← constRange "31" "0" (p.line 1), .atom (.bool false)]⟩,
   build .generate [.GENERATE, .generateItems, .ENDGENERATE] .generateStatement (fun p => [p 2]),
   ⟨.generateItems, [.empty], some 1, fun _ => pure (.seq [])⟩,
   further .generateItems [.generateItems, .generateItem] 2,
   first .generateItems [.generateItem]] ++
  choice .generateItem [.standardItem, .generateIf, .generateFor] ++
  [build .generateBlock [.BEGIN, .generateItems, .END] .block (fun p => [p 2, .absent]),
   build .generateBlock [.BEGIN, .COLON, .ID, .generateItems, .END] .block (fun p => [p 4, p 3]),
   build .generateIf [.IF, .LPAREN, .cond, .RPAREN, .gifTrueItem, .ELSE, .gifFalseItem] .ifStatement
     (fun p => [p 3, p 5, p 7]),
   build .generateIf [.IF, .LPAREN, .cond, .RPAREN, .gifTrueItem] .ifStatement
     (fun p => [p 3, p 5, .absent])] ++
  choice .gifTrueItem [.generateItem, .generateBlock] ++
  choice .gifFalseItem [.generateItem, .generateBlock] ++
  [build .generateFor [.FOR, .LPAREN, .forpre, .forcond, .forpost, .RPAREN, .generateForcontent]
     .forStatement (fun p => [p 3, p 4, p 5, p 7])] ++
  choice .generateForcontent [.generateItem, .generateBlock]

def systemCallRules : List Production :=
  [build .systemcall [.DOLLER, .ID] .systemCall (fun p => [p 2, .seq []]),
   build .systemcall [.DOLLER, .ID, .LPAREN, .sysargs, .RPAREN] .systemCall (fun p => [p 2, p 4]),
   build .systemcall [.DOLLER, .SIGNED, .LPAREN, .sysargs, .RPAREN] .systemCall
     (fun p => [p 2, p 4]),
   further .sysargs [.sysargs, .COMMA, .sysarg] 3,
   first .sysargs [.sysarg],
   nothing .sysargs [.empty],
   pass .sysarg [.expression]]

def functionRules : List Production :=
  [build .function [.FUNCTION, .width, .ID, .SEMICOLON, .functionStatement, .ENDFUNCTION] .function
     (fun p => [p 3, p 2, p 5]),
   ⟨.function, [.FUNCTION, .ID, .SEMICOLON, .functionStatement, .ENDFUNCTION], some 1, fun p => do
      make .function (p.line 1) [p 2, ← constRange "0" "0" (p.line 1), p 4]⟩,
   further .functionStatement [.funcvardecls, .functionCalc] 2,
   further .funcvardecls [.funcvardecls, .funcvardecl] 2,
   first .funcvardecls [.funcvardecl]] ++
  limited .funcvardecl [.decl, .integerdecl] [.input, .reg, .integer] ++
  choice .functionCalc [.blockingSubstitution, .ifStatement, .forStatement, .whileStatement,
    .caseStatement, .casexStatement, .block, .namedblock] ++
  [build .functioncall [.identifier, .LPAREN, .funcArgs, .RPAREN] .functionCall
     (fun p => [p 1, p 3]),
   further .funcArgs [.funcArgs, .COMMA, .expression] 3,
   first .funcArgs [.expression],
   nothing .funcArgs [.empty]]

def taskRules : List Production :=
  [build .task [.TASK, .ID, .SEMICOLON, .taskStatement, .ENDTASK] .task (fun p => [p 2, p 4]),
   further .taskStatement [.taskvardecls, .taskCalc] 2,
   further .taskvardecls [.taskvardecls, .taskvardecl] 2,
   first .taskvardecls [.taskvardecl],
   nothing .taskvardecls [.empty]] ++
  limited .taskvardecl [.decl, .integerdecl] [.input, .reg, .integer] ++
  choice .taskCalc [.blockingSubstitution, .ifStatement, .forStatement, .whileStatement,
    .caseStatement, .casexStatement, .casezStatement, .block, .namedblock]

def scopeLabels (id : Ast) : Maker (List Ast) := do
  let scope ← partOf "scope" id
  if scope.isAbsent then return []
  else return members (← partOf "labellist" scope)

/-- A scope that goes one label further than the scope of an identifier. -/
def scopeBelow (id loop : Ast) (line : Int) : Maker Ast := do
  let labels ← scopeLabels id
  let label ← make .identifierScopeLabel line [← partOf "name" id, loop]
  make .identifierScope line [.seq (labels ++ [label])]

def identifierRules : List Production :=
  [build .identifier [.ID] .identifier (fun p => [p 1, .absent]),
   build .identifier [.scope, .ID] .identifier (fun p => [p 2, p 1]),
   ⟨.scope, [.identifier, .DOT], some 1, fun p => scopeBelow (p 1) .absent (p.line 1)⟩,
   ⟨.scope, [.pointer, .DOT], some 1, fun p => do
      scopeBelow (← partOf "var" (p 1)) (← partOf "ptr" (p 1)) (p.line 1)⟩,
   build .disable [.DISABLE, .ID] .disable (fun p => [p 2]),
   ⟨.singleStatement, [.DELAY, .expression, .SEMICOLON], some 1, fun p => do
      make .singleStatement (p.line 1) [← make .delayStatement (p.line 1) [p 2]]⟩,
   build .singleStatement [.systemcall, .SEMICOLON] .singleStatement (fun p => [p 1]),
   build .singleStatement [.disable, .SEMICOLON] .singleStatement (fun p => [p 1]),
   missing .empty []]

end RtlFlow.Verilog
