import RtlFlow.Verilog.Action

/-!
# Statements

The rules for sensitivity lists, always and initial blocks, assignments in them, and the other
statements.
-/

namespace RtlFlow.Verilog

def senseAll (line : Int) : Maker Ast := do
  make .sensList line [.seq [← make .sens line [.absent, .text "all"]]]

def senseRules : List Production :=
  [build .always [.ALWAYS, .senslist, .alwaysStatement] .always (fun p => [p 2, p 3]),
   build .senslist [.AT, .LPAREN, .edgesigs, .RPAREN] .sensList (fun p => [p 3]),
   build .edgesig [.POSEDGE, .edgesigBase] .sens (fun p => [p 2, .text "posedge"]),
   build .edgesig [.NEGEDGE, .edgesigBase] .sens (fun p => [p 2, .text "negedge"]),
   pass .edgesigBase [.identifier],
   pass .edgesigBase [.pointer],
   further .edgesigs [.edgesigs, .SENS_OR, .edgesig] 3,
   first .edgesigs [.edgesig],
   ⟨.senslist, [.empty], some 1, fun p => senseAll (p.line 1)⟩,
   build .senslist [.AT, .levelsig] .sensList (fun p => [.seq [p 2]]),
   build .senslist [.AT, .LPAREN, .levelsigs, .RPAREN] .sensList (fun p => [p 3]),
   build .levelsig [.levelsigBase] .sens (fun p => [p 1, .text "level"]),
   pass .levelsigBase [.identifier],
   pass .levelsigBase [.pointer],
   pass .levelsigBase [.partselect],
   further .levelsigs [.levelsigs, .SENS_OR, .levelsig] 3,
   further .levelsigs [.levelsigs, .COMMA, .levelsig] 3,
   first .levelsigs [.levelsig],
   ⟨.senslist, [.AT, .TIMES], some 1, fun p => senseAll (p.line 1)⟩,
   ⟨.senslist, [.AT, .LPAREN, .TIMES, .RPAREN], some 1, fun p => senseAll (p.line 1)⟩]

def substitution (left : Sym) (right : List Sym) (k : Ast.Kind) : Production :=
  build left right k (fun p => [p 2, p 5, p 1, p 4]) 2

def assignRules : List Production :=
  choice .basicStatement [.ifStatement, .caseStatement, .casexStatement, .casezStatement,
    .forStatement, .whileStatement, .eventStatement, .waitStatement, .foreverStatement, .block,
    .namedblock, .parallelblock, .blockingSubstitution, .nonblockingSubstitution,
    .singleStatement] ++
  [pass .alwaysStatement [.basicStatement],
   substitution .blockingSubstitution [.delays, .lvalue, .EQUALS, .delays, .rvalue, .SEMICOLON]
     .blockingSubstitution,
   substitution .blockingSubstitutionBase [.delays, .lvalue, .EQUALS, .delays, .rvalue]
     .blockingSubstitution,
   substitution .nonblockingSubstitution [.delays, .lvalue, .LE, .delays, .rvalue, .SEMICOLON]
     .nonblockingSubstitution,
   build .delays [.DELAY, .LPAREN, .expression, .RPAREN] .delayStatement (fun p => [p 3]),
   build .delays [.DELAY, .identifier] .delayStatement (fun p => [p 2]),
   ⟨.delays, [.DELAY, .intnumber], some 1, fun p => do
      make .delayStatement (p.line 1) [← make .intConst (p.line 1) [p 2]]⟩,
   ⟨.delays, [.DELAY, .floatnumber], some 1, fun p => do
      make .delayStatement (p.line 1) [← make .floatConst (p.line 1) [p 2]]⟩,
   missing .delays [.empty]]

def declaresOnly (kinds : List Ast.Kind) (t : Ast) : Bool :=
  match t with
  | .node .decl _ [.seq items] => items.all fun r =>
      match r.kind? with
      | some k => kinds.contains k
      | none => false
  | _ => true

def limited (left : Sym) (symbols : List Sym) (kinds : List Ast.Kind) : List Production :=
  symbols.map fun s => ⟨left, [s], some 1, fun p =>
    if declaresOnly kinds (p 1) then pure (p 1) else throw illFormed⟩

def blockRules : List Production :=
  [build .block [.BEGIN, .blockStatements, .END] .block (fun p => [p 2, .absent]),
   build .block [.BEGIN, .END] .block (fun _ => [.seq [], .absent]),
   further .blockStatements [.blockStatements, .blockStatement] 2,
   first .blockStatements [.blockStatement],
   pass .blockStatement [.basicStatement],
   build .namedblock [.BEGIN, .COLON, .ID, .namedblockStatements, .END] .block
     (fun p => [p 4, p 3]),
   build .namedblock [.BEGIN, .COLON, .ID, .END] .block (fun p => [.seq [], p 3]),
   further .namedblockStatements [.namedblockStatements, .namedblockStatement] 2,
   first .namedblockStatements [.namedblockStatement]] ++
  limited .namedblockStatement [.basicStatement, .decl, .integerdecl, .realdecl, .parameterdecl,
    .localparamdecl]
    [.reg, .wire, .integer, .real, .parameter, .localparam, .supply] ++
  [build .parallelblock [.FORK, .blockStatements, .JOIN] .parallelBlock (fun p => [p 2, .absent]),
   build .parallelblock [.FORK, .JOIN] .parallelBlock (fun _ => [.seq [], .absent])]

def flowRules : List Production :=
  [build .ifStatement [.IF, .LPAREN, .cond, .RPAREN, .trueStatement, .ELSE, .elseStatement]
     .ifStatement (fun p => [p 3, p 5, p 7]),
   build .ifStatement [.IF, .LPAREN, .cond, .RPAREN, .trueStatement] .ifStatement
     (fun p => [p 3, p 5, .absent]),
   build .ifStatement [.delays, .IF, .LPAREN, .cond, .RPAREN, .trueStatement, .ELSE, .elseStatement]
     .ifStatement (fun p => [p 4, p 6, p 8]) 2,
   build .ifStatement [.delays, .IF, .LPAREN, .cond, .RPAREN, .trueStatement] .ifStatement
     (fun p => [p 4, p 6, .absent]) 2,
   pass .cond [.expression],
   pass .ifcontentStatement [.basicStatement],
   pass .trueStatement [.ifcontentStatement],
   pass .elseStatement [.ifcontentStatement],
   build .forStatement [.FOR, .LPAREN, .forpre, .forcond, .forpost, .RPAREN, .forcontentStatement]
     .forStatement (fun p => [p 3, p 4, p 5, p 7]),
   pass .forpre [.blockingSubstitution],
   missing .forpre [.SEMICOLON] (some 1),
   pass .forcond [.cond, .SEMICOLON],
   missing .forcond [.SEMICOLON] (some 1),
   pass .forpost [.blockingSubstitutionBase],
   missing .forpost [.empty],
   pass .forcontentStatement [.basicStatement],
   build .whileStatement [.WHILE, .LPAREN, .cond, .RPAREN, .whilecontentStatement] .whileStatement
     (fun p => [p 3, p 5]),
   pass .whilecontentStatement [.basicStatement],
   build .caseStatement [.CASE, .LPAREN, .caseComp, .RPAREN, .casecontentStatements, .ENDCASE]
     .caseStatement (fun p => [p 3, p 5]),
   build .casexStatement [.CASEX, .LPAREN, .caseComp, .RPAREN, .casecontentStatements, .ENDCASE]
     .casexStatement (fun p => [p 3, p 5]),
   build .casezStatement [.CASEZ, .LPAREN, .caseComp, .RPAREN, .casecontentStatements, .ENDCASE]
     .casezStatement (fun p => [p 3, p 5]),
   pass .caseComp [.expression],
   further .casecontentStatements [.casecontentStatements, .casecontentStatement] 2,
   first .casecontentStatements [.casecontentStatement],
   build .casecontentStatement [.casecontentCondition, .COLON, .basicStatement] .caseItem
     (fun p => [p 1, p 3]),
   further .casecontentCondition [.casecontentCondition, .COMMA, .expression] 3,
   first .casecontentCondition [.expression],
   build .casecontentStatement [.DEFAULT, .COLON, .basicStatement] .caseItem
     (fun p => [.absent, p 3])]

def eventRules : List Production :=
  [build .initial [.INITIAL, .initialStatement] .initial (fun p => [p 2]),
   pass .initialStatement [.basicStatement],
   build .eventStatement [.senslist, .SEMICOLON] .eventStatement (fun p => [p 1]),
   build .waitStatement [.WAIT, .LPAREN, .cond, .RPAREN, .waitcontentStatement] .waitStatement
     (fun p => [p 3, p 5]),
   pass .waitcontentStatement [.basicStatement],
   missing .waitcontentStatement [.SEMICOLON] (some 1),
   build .foreverStatement [.FOREVER, .basicStatement] .foreverStatement (fun p => [p 2])]

end RtlFlow.Verilog
