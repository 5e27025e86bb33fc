import Mathlib
import RtlFlow.Proofs.Verilog.Contexts

/-!
# Reading expressions

The tokens of an expression are read as that expression, in every state where expressions are read
and in front of every token that ends it. What is read is known by the spelling: each of its rules is
the production that the machine reduces by.
-/

namespace RtlFlow.Verilog

open List

variable {p : Production} {k : Ast.Kind} {m : List Char} {s : Sym}

open Grammar

/-! ## What productions make -/

/-- The scope that a name, or an element of it, stands for. -/
abbrev scopeWith (scope : Ast) (x : String) (loop : Ast) : Ast :=
  .node .identifierScope {} [.seq (labelsOf scope ++
    [.node .identifierScopeLabel {} [.text x, loop]])]

namespace Production

variable {left : Sym} {right : List Sym} {k : Ast.Kind} {parts : Parts → List Ast} {i : Nat}
  {vs es : List Ast} {e : Ast}
variable {scope : Ast} {x : String} {id : Ast}

theorem unplaced_value (parts : List Ast) (lines : Array Int) (j : Nat) :
    ((⟨parts.toArray, lines⟩ : Parts) j).unplaced =
      (parts.map Ast.unplaced).getD (j - 1) .absent := by
  simp only [Parts.value, Array.getD_eq_getD_getElem?, List.getElem?_toArray,
    getD_eq_getElem?_getD, List.getElem?_map]
  cases parts[j - 1]? <;> rfl

theorem makes_build (h : ∀ p : Parts, (∀ j, (p j).unplaced = vs.getD (j - 1) .absent) →
    (parts p).map Ast.unplaced = es := by simp +contextual) :
    (build left right k parts i).Makes vs (.node k {} es) := by
  intro ps lines ws hps
  refine ⟨_, { ws with made := ws.made + 1 }, rfl, rfl, ?_⟩
  rw [Ast.unplaced_node, h _ fun j => by rw [unplaced_value, hps]]

theorem makes_of_pure {p : Production} {f : Parts → Ast} (haction : p.action = fun ps => pure (f ps))
    (h : ∀ p : Parts, (∀ j, (p j).unplaced = vs.getD (j - 1) .absent) → (f p).unplaced = e) :
    p.Makes vs e := by
  intro ps lines ws hps
  refine ⟨_, ws, by rw [haction]; rfl, rfl, ?_⟩
  rw [h _ fun j => by rw [unplaced_value, hps]]

theorem makes_pass (h : vs.getD (i - 1) .absent = e) : (pass left right i).Makes vs e :=
  makes_of_pure rfl fun p hp => by rw [hp, h]

theorem makes_first : (first left right).Makes (e :: vs) (.seq [e]) :=
  makes_of_pure rfl fun p hp => by simp [hp]

theorem makes_further (hlist : vs.getD 0 .absent = .seq es) (h : vs.getD (i - 1) .absent = e) :
    (further left right i).Makes vs (.seq (es ++ [e])) := by
  refine makes_of_pure rfl fun p hp => ?_
  obtain ⟨items, hitems, rfl⟩ := Ast.exists_seq_of_unplaced ((hp 1).trans hlist)
  rw [hitems, snoc, Ast.unplaced_seq, map_append, map_singleton, hp, h]

theorem scopeLabels_eq (hid : id.unplaced = .node .identifier {} [.text x, scope])
    (hscope : IsScope scope) (ws : Workspace) :
    ∃ labels, scopeLabels id ws = .ok labels ws ∧ labels.map Ast.unplaced = labelsOf scope := by
  obtain ⟨place, n, o, rfl, -, ho⟩ := Ast.exists_node_of_unplaced₂ hid
  cases hscope with
  | absent =>
    obtain rfl := Ast.eq_absent_of_unplaced ho
    exact ⟨[], rfl, rfl⟩
  | labels =>
    obtain ⟨place', list, rfl, hlist⟩ := Ast.exists_node_of_unplaced₁ ho
    obtain ⟨items, rfl, rfl⟩ := Ast.exists_seq_of_unplaced hlist
    exact ⟨items, rfl, rfl⟩

theorem scopeBelow_eq {loop : Ast} (hid : id.unplaced = .node .identifier {} [.text x, scope])
    (hscope : IsScope scope) (line : Int) (ws : Workspace) :
    ∃ v ws', scopeBelow id loop line ws = .ok v ws' ∧ ws'.lexer = ws.lexer ∧
      v.unplaced = scopeWith scope x loop.unplaced := by
  obtain ⟨labels, hlabels, hunplaced⟩ := scopeLabels_eq hid hscope ws
  obtain ⟨place, n, o, rfl, hn, -⟩ := Ast.exists_node_of_unplaced₂ hid
  obtain rfl := Ast.eq_text_of_unplaced hn
  refine ⟨.node .identifierScope ⟨line, ws.made + 1 + 1⟩ [.seq (labels ++
    [.node .identifierScopeLabel ⟨line, ws.made + 1⟩ [.text x, loop]])],
    { ws with made := ws.made + 1 + 1 }, ?_, rfl, ?_⟩
  · simp only [scopeBelow, bind, EStateM.bind, hlabels]
    rfl
  · simp [hunplaced]

theorem makes_scopeName (hscope : IsScope scope) (p : Production)
    (hp : p.action = fun ps => scopeBelow (ps 1) .absent (ps.line 1)) :
    p.Makes (.node .identifier {} [.text x, scope] :: vs)
      (scopeWith scope x .absent) := by
  intro ps lines ws hps
  rw [hp]
  exact scopeBelow_eq (by rw [unplaced_value, hps]; rfl) hscope _ ws

theorem makes_scopePointer (hscope : IsScope scope) (p : Production) (hp : p.action = fun ps => do
      scopeBelow (← partOf "var" (ps 1)) (← partOf "ptr" (ps 1)) (ps.line 1)) :
    p.Makes (.node .pointer {} [.node .identifier {} [.text x, scope], e] :: vs)
      (scopeWith scope x e) := by
  intro ps lines ws hps
  have hfirst := unplaced_value ps lines 1
  rw [hps] at hfirst
  obtain ⟨place, id, loop, hpointer, hid, rfl⟩ := Ast.exists_node_of_unplaced₂ hfirst
  simp only [hp, hpointer]
  exact scopeBelow_eq hid hscope _ ws

end Production

/-! ## Rules -/

def ruleGroups : List (List Production) :=
  [sourceRules, moduleRules, portRules, ioportRules, signalRules, numberRules, parameterRules,
   sideRules, operatorRules, operandRules, senseRules, assignRules, blockRules, flowRules,
   eventRules, instanceRules, generateRules, systemCallRules, functionRules, taskRules,
   identifierRules]

theorem productions_eq_flatten : productions = ruleGroups.flatten := by
  delta productions ruleGroups
  simp

theorem mem_productions (g i : Nat) {rs : List Production} (hrs : ruleGroups[g]? = some rs)
    (hp : rs[i]? = some p) : p ∈ productions := by
  rw [productions_eq_flatten]
  exact mem_flatten_of_mem (mem_of_getElem? hrs) (mem_of_getElem? hp)

theorem exists_group (is : List Nat) (P : Production → Bool) (hp : p ∈ productions) (hP : P p = true)
    (h : (ruleGroups.zipIdx.all fun g => is.contains g.2 || g.1.all fun p => !P p) = true) :
    ∃ i ∈ is, p ∈ ruleGroups.getD i [] := by
  rw [productions_eq_flatten] at hp
  obtain ⟨rs, hrs, hp⟩ := mem_flatten.mp hp
  obtain ⟨i, hi⟩ := List.getElem?_of_mem hrs
  have hgroup := all_eq_true.mp h (rs, i) (mem_zipIdx_iff_getElem?.mpr hi)
  rcases Bool.or_eq_true_iff.mp hgroup with hmem | hall
  · exact ⟨i, by simpa using hmem, by simp [hi, hp]⟩
  · simpa [hP] using all_eq_true.mp hall p hp

theorem mem_of_operatorRules (h : p ∈ operatorRules) : p ∈ productions := by
  obtain ⟨i, hi⟩ := List.getElem?_of_mem h
  exact mem_productions 8 i rfl hi

theorem unaryRule_mem (h : (k, s, m) ∈ unaryOperators) : unaryRule s k ∈ productions := by
  have hsub : (unaryOperators.map fun x => unaryRule x.2.1 x.1) ⊆ operatorRules := by
    simp [unaryOperators, operatorRules]
  exact mem_of_operatorRules (hsub (mem_map_of_mem (f := fun x => unaryRule x.2.1 x.1) h))

theorem binaryRule_mem (h : (k, s, m) ∈ binaryOperators) : binaryRule s k ∈ productions := by
  have hsub : (binaryOperators.map fun x => binaryRule x.2.1 x.1) ⊆ operatorRules := by
    simp [binaryOperators, operatorRules]
  exact mem_of_operatorRules
    (hsub (mem_map_of_mem (f := fun x => binaryRule x.2.1 x.1) h))

theorem integerRule_mem (h : s ∈ integerSyms) : pass .intnumber [s] ∈ productions := by
  have hsub : integerSyms.map (fun s => pass .intnumber [s]) ⊆ operandRules := by
    simp [integerSyms, operandRules, choice]
  obtain ⟨i, hi⟩ := List.getElem?_of_mem
    (hsub (mem_map_of_mem (f := fun s => pass .intnumber [s]) h))
  exact mem_productions 9 i rfl hi

/-- The rules of a list of expressions with commas between them. -/
structure ListRules (list member : Sym) : Prop where
  first : first list [member] ∈ productions
  further : further list [list, .COMMA, member] 3 ∈ productions
  isList : list.isTerminal = false
  nonterminal : member.isTerminal = false
  ofExpression : member = .expression ∨ pass member [.expression] ∈ productions

theorem listRules_concatlist : ListRules .concatlist .expression where
  first := mem_productions 9 2 rfl rfl
  further := mem_productions 9 1 rfl rfl
  isList := rfl
  nonterminal := rfl
  ofExpression := .inl rfl

theorem listRules_funcArgs : ListRules .funcArgs .expression where
  first := mem_productions 18 17 rfl rfl
  further := mem_productions 18 16 rfl rfl
  isList := rfl
  nonterminal := rfl
  ofExpression := .inl rfl

theorem listRules_sysargs : ListRules .sysargs .sysarg where
  first := mem_productions 17 4 rfl rfl
  further := mem_productions 17 3 rfl rfl
  isList := rfl
  nonterminal := rfl
  ofExpression := .inr (mem_productions 17 6 rfl rfl)

/-! ## Reading one symbol -/

section

attribute [local irreducible] tablesFrom grammarFrom productions

variable {p t n n' : Nat} {I : List Item} {pr : Production} {s : Sym} {v e : Ast} {x : String}
  {w : Wording}

theorem Stands.reads_part (h : Stands p I pr.left t) (hpr : pr ∈ productions)
    (hright : pr.right = [s]) (hterm : s.isTerminal = false)
    (hread : Stands p I s t → Reads p s v w t n)
    (hsettled : Settled exprGrammar (along I [s]) t) (hmakes : pr.Makes [v] e)
    (hn : n + 1 ≤ n' := by grind) : Reads p pr.left e w t n' := by
  have hin := h.begin hpr
  have hin' := hin
  rw [hright] at hin'
  exact hin.reads (hin'.last (hread (hin'.stands_last hterm))) (by rwa [hright]) hright.symm hmakes

theorem Stands.reads_token (h : Stands p I pr.left t) (hpr : pr ∈ productions)
    (hright : pr.right = [s]) (hterm : s.isTerminal = true)
    (hshifts : shifts (along I []) s = true) (hsettled : Settled exprGrammar (along I [s]) t)
    (hmakes : pr.Makes [.text x] e) : Reads p pr.left e [(s, x)] t 2 := by
  have hin := h.begin hpr
  have hin' := hin
  rw [hright] at hin'
  have hall : ReadsTo p [(s, .text x)] [(s, x)] t (along I pr.right) (1 + 0) :=
    hin'.token hterm hshifts fun q hq => hq.done
  exact hin.reads hall (by rwa [hright]) hright.symm hmakes

end

/-! ## Phrases -/

/-- A part of a name is read, in every state where expressions are read. -/
def ReadsInName (s : Sym) (e : Ast) (w : Wording) : Prop :=
  ∀ p I c t, Stands p I s t → IsContext I c → Reads p s e w t (8 * w.length - 6)

/-- An operand is read as a symbol, in front of what ends an operand. -/
def ReadsOperand (s : Sym) (e : Ast) (w : Wording) (n : Nat) : Prop :=
  ∀ p I c t, Stands p I s t → IsContext I c → Ends tight t → Reads p s e w t n

/-- How the parts of expressions are read. The bounds leave room for the productions of one symbol
around a part. -/
def Phrase.IsRead : Phrase → Ast → Wording → Prop
  | .expr b, e, w => ∀ p I c t, Stands p I .expression t → IsContext I c → (c = 0 ∨ c < b) →
      Ends b t → Reads p .expression e w t (8 * w.length - 4)
  | .operand, e, w => ReadsOperand .expression e w (8 * w.length - 4)
  | .name, e, w => ReadsInName .identifier e w
  | .pointer, e, w => ReadsInName .pointer e w
  | .scope, e, w => ReadsInName .scope e w
  | .list, e, w => ∀ p I list member last t, Stands p I list t →
      IsListContext I list member last → ListRules list member →
      (∃ s ∈ [Sym.COMMA, last], t = s.id) → t ∈ closers → Reads p list e w t (8 * w.length - 2)

section

attribute [local irreducible] tablesFrom grammarFrom productions exprItems shifts settles

variable {x : String} {s : Sym} {m : List Char} {k : Ast.Kind} {b b' a : Nat} {ph : Phrase}
  {e e' v f c scope : Ast} {es : List Ast} {w w' w'' : Wording}

variable {y : String} {p t : Nat} {I : List Item}

/-! ### Names -/

theorem isRead_name : Phrase.name.IsRead (.node .identifier {} [.text x, .absent]) [(.ID, x)] := by
  intro p I c t hat hI
  have hpr : build .identifier [.ID] .identifier (fun p => [p 1, .absent]) ∈ productions :=
    mem_productions 20 0 rfl rfl
  exact hat.reads_token hpr rfl rfl (hI.shifts_operand (by decide) rfl)
    (hI.settled_alone (by decide) t) Production.makes_build

theorem readsInName_token {pr : Production} {left base mark : Sym} (hpr : pr ∈ productions)
    (hleft : pr.left = left) (hright : pr.right = [base, mark])
    (hsyms : base.isTerminal = false ∧ mark.isTerminal = true ∧
      ([base], mark) ∈ tokensInExpression ∧ [base, mark] ∈ rulesInExpression)
    (h : ReadsInName base v w) (hmakes : pr.Makes [v, .text y] e) :
    ReadsInName left e (w ++ [(mark, y)]) := by
  intro p I c t hat hI
  obtain ⟨_, right, prec, action⟩ := pr
  obtain rfl : _ = left := hleft
  obtain rfl : right = [base, mark] := hright
  obtain ⟨hbase, hmark, hshifts, hrule⟩ := hsyms
  have hin := hat.begin hpr
  exact hin.reads
    (hin.part (h p I c mark.id (hin.stands_next hbase hmark) hI) fun q hq =>
      hq.token hmark (hI.shifts_inside hshifts) fun q hq => hq.done)
    (hI.settled_alone hrule t) rfl hmakes

theorem isRead_inScope (h : Phrase.scope.IsRead scope w) :
    Phrase.name.IsRead (.node .identifier {} [.text x, scope]) (w ++ [(.ID, x)]) :=
  readsInName_token (mem_productions 20 1 rfl rfl) rfl rfl (by decide) h Production.makes_build

theorem isRead_scopeName (hscope : IsScope scope)
    (h : Phrase.name.IsRead (.node .identifier {} [.text x, scope]) w) :
    Phrase.scope.IsRead (scopeWith scope x .absent) (w ++ [(.DOT, ".")]) :=
  readsInName_token (mem_productions 20 2 rfl rfl) rfl rfl (by decide) h
    (Production.makes_scopeName hscope _ rfl)

theorem isRead_scopePointer (hscope : IsScope scope)
    (h : Phrase.pointer.IsRead (.node .pointer {} [.node .identifier {} [.text x, scope], e]) w) :
    Phrase.scope.IsRead (scopeWith scope x e) (w ++ [(.DOT, ".")]) :=
  readsInName_token (mem_productions 20 3 rfl rfl) rfl rfl (by decide) h
    (Production.makes_scopePointer hscope _ rfl)

theorem isRead_element {base : Sym} (hbase : base ∈ [Sym.identifier, .pointer])
    (h : ReadsInName base v w)
    (hpr : build .pointer [base, .LBRACKET, .expression, .RBRACKET] .pointer (fun p => [p 1, p 3]) ∈
      productions)
    (he : (Phrase.expr b).IsRead e w') :
    Phrase.pointer.IsRead (.node .pointer {} [v, e])
      (w ++ ((.LBRACKET, "[") :: w' ++ [(.RBRACKET, "]")])) := by
  intro p I c t hat hI
  have hall : ∀ base ∈ [Sym.identifier, .pointer], base.isTerminal = false ∧
      ([base], Sym.LBRACKET) ∈ tokensInExpression ∧
      ([base, .LBRACKET], 0) ∈ expressionContexts ∧
      ([base, .LBRACKET, .expression], Sym.RBRACKET) ∈ tokensInExpression ∧
      [base, .LBRACKET, .expression, .RBRACKET] ∈ rulesInExpression := by decide
  obtain ⟨hterm, hopen, hinside, hclose, hrule⟩ := hall base hbase
  have hin := hat.begin hpr
  exact hin.reads
    (hin.part (h p I c Sym.LBRACKET.id (hin.stands_next hterm rfl) hI) fun q hq =>
      hq.token rfl (hI.shifts_inside hopen) fun q hq =>
        hq.part (he q _ 0 Sym.RBRACKET.id (hq.stands_next rfl rfl) (hI.inside hinside)
          (.inl rfl) (.of_closer (by decide))) fun q hq =>
          hq.token rfl (hI.shifts_inside hclose) fun q hq => hq.done)
    (hI.settled_alone hrule t) rfl Production.makes_build

/-! ### Operands -/

theorem isRead_operand {s : Sym} (hpr : pass .expression [s] ∈ productions)
    (hterm : s.isTerminal = false) (hw : w ≠ [])
    (hsettled : ∀ I c t, IsContext I c → Ends tight t → Settled exprGrammar (along I [s]) t)
    (h : ReadsOperand s e w (8 * w.length - 5)) : Phrase.operand.IsRead e w := by
  intro p I c t hat hI hends
  have hlen := length_pos_of_ne_nil hw
  exact hat.reads_part hpr rfl hterm (fun hat => h p I c t hat hI hends) (hsettled I c t hI hends)
    (Production.makes_pass rfl)

theorem isRead_operand_alone {s : Sym} (hpr : pass .expression [s] ∈ productions)
    (hsym : s.isTerminal = false ∧ [s] ∈ rulesInExpression) (hw : w ≠ [])
    (h : ReadsOperand s e w (8 * w.length - 5)) : Phrase.operand.IsRead e w :=
  isRead_operand hpr hsym.1 hw (fun _ _ t hI _ => hI.settled_alone hsym.2 t) h

theorem isRead_ofName (hw : w ≠ []) (h : Phrase.name.IsRead e w) : Phrase.operand.IsRead e w :=
  isRead_operand (mem_productions 8 42 rfl rfl) rfl hw
    (fun I c t hI ht => hI.settled_operand (by decide) ht)
    fun p I c t hat hI _ => (h p I c t hat hI).mono (by omega)

theorem isRead_ofPointer (hw : w ≠ []) (h : Phrase.pointer.IsRead e w) :
    Phrase.operand.IsRead e w :=
  isRead_operand (mem_productions 8 39 rfl rfl) rfl hw
    (fun I c t hI ht => hI.settled_operand (by decide) ht)
    fun p I c t hat hI _ => (h p I c t hat hI).mono (by omega)

theorem isRead_constant {r : Production} {n s : Sym} (hr : r ∈ productions) (hright : r.right = [s])
    (hleft : r.left = n) (hpr : build .constExpression [n] k (fun p => [p 1]) ∈ productions)
    (hsym : s.isTerminal = true ∧ s ∈ operandSyms ∧ [s] ∈ rulesInExpression)
    (hn : n.isTerminal = false ∧ [n] ∈ rulesInExpression)
    (hmakes : r.Makes [.text x] (.text y)) :
    Phrase.operand.IsRead (.node k {} [.text y]) [(s, x)] := by
  subst hleft
  refine isRead_operand_alone (mem_productions 8 43 rfl rfl) (by decide) (by simp)
    fun p I c t hat hI ht => ?_
  exact hat.reads_part hpr rfl hn.1 (fun hat => hat.reads_token hr hright hsym.1
    (hI.shifts_operand hsym.2.1 hsym.1) (hI.settled_alone hsym.2.2 t) hmakes)
    (hI.settled_alone hn.2 t) Production.makes_build

theorem isRead_integer (hsym : s ∈ integerSyms) :
    Phrase.operand.IsRead (.node .intConst {} [.text x]) [(s, x)] := by
  have hfacts : ∀ s ∈ integerSyms, s.isTerminal = true ∧ s ∈ operandSyms ∧
      [s] ∈ rulesInExpression := by decide
  exact isRead_constant (n := .intnumber) (integerRule_mem hsym) rfl rfl (mem_productions 9 12 rfl rfl)
    (hfacts s hsym) (by decide) (Production.makes_pass rfl)

theorem isRead_float : Phrase.operand.IsRead (.node .floatConst {} [.text x]) [(.FLOATNUMBER, x)] :=
  isRead_constant (mem_productions 9 15 rfl rfl) rfl rfl (mem_productions 9 13 rfl rfl) (by decide)
    (by decide) (Production.makes_pass rfl)

theorem isRead_string (hy : x.toList = '"' :: (y.toList ++ ['"'])) :
    Phrase.operand.IsRead (.node .stringConst {} [.text y]) [(.STRING_LITERAL, x)] := by
  refine isRead_constant (mem_productions 9 24 rfl rfl) rfl rfl (mem_productions 9 14 rfl rfl)
    (by decide) (by decide) (Production.makes_of_pure rfl fun p hp => ?_)
  rw [Ast.eq_text_of_unplaced (hp 1)]
  change Ast.text (String.ofList (x.toList.drop 1).dropLast) = _
  simp [hy]

theorem isRead_paren (h : (Phrase.expr b).IsRead e w) :
    Phrase.operand.IsRead e ((.LPAREN, "(") :: w ++ [(.RPAREN, ")")]) := by
  intro p I c t hat hI hends
  have hpr : pass .expression [.LPAREN, .expression, .RPAREN] 2 ∈ productions :=
    mem_productions 8 35 rfl rfl
  have hin := hat.begin hpr
  exact hin.reads
    (hin.token rfl (hI.shifts_operand (by decide) rfl) fun q hq =>
      hq.part (h q _ 0 Sym.RPAREN.id (hq.stands_next rfl rfl) (hI.inside (by decide)) (.inl rfl)
        (.of_closer (by decide))) fun q hq =>
        hq.token rfl (hI.shifts_inside (by decide)) fun q hq => hq.done)
    (hI.settled_alone (by decide) t) rfl (Production.makes_pass rfl)

theorem reads_concat (hat : Stands p I .concat t) (hopen : shifts (along I []) .LBRACE = true)
    (hlist : IsListContext (along I [.LBRACE]) .concatlist .expression .RBRACE)
    (hclose : shifts (along I [.LBRACE, .concatlist]) .RBRACE = true)
    (hsettled : Settled exprGrammar (along I [.LBRACE, .concatlist, .RBRACE]) t)
    (h : Phrase.list.IsRead (.seq es) w) :
    Reads p .concat (.node .concat {} [.seq es]) ((.LBRACE, "\x7b") :: w ++ [(.RBRACE, "\x7d")]) t
      (8 * w.length - 2 + 3) := by
  have hpr : build .concat [.LBRACE, .concatlist, .RBRACE] .concat (fun p => [p 2]) ∈ productions :=
    mem_productions 9 0 rfl rfl
  have hin := hat.begin hpr
  exact hin.reads
    (hin.token rfl hopen fun q hq =>
      hq.part (h q _ _ _ _ Sym.RBRACE.id (hq.stands_next rfl rfl) hlist listRules_concatlist
        ⟨.RBRACE, by decide, rfl⟩ (by decide)) fun q hq =>
        hq.token rfl hclose fun q hq => hq.done)
    hsettled rfl Production.makes_build

theorem isRead_concat (h : Phrase.list.IsRead (.seq es) w) :
    Phrase.operand.IsRead (.node .concat {} [.seq es])
      ((.LBRACE, "\x7b") :: w ++ [(.RBRACE, "\x7d")]) := by
  refine isRead_operand_alone (mem_productions 8 36 rfl rfl) (by decide) (by simp)
    fun p I c t hat hI ht => ?_
  refine (reads_concat hat (hI.shifts_operand (by decide) rfl) (hI.list_inside (by decide))
    (hI.shifts_inside (by decide)) (hI.settled_alone (by decide) t) h).mono ?_
  grind

theorem isRead_replicate (h : (Phrase.expr b).IsRead e w) (hes : Phrase.list.IsRead (.seq es) w') :
    Phrase.operand.IsRead (.node .replicate {} [.node .concat {} [.seq es], e])
      ((.LBRACE, "\x7b") :: w ++
        ((.LBRACE, "\x7b") :: w' ++ [(.RBRACE, "\x7d"), (.RBRACE, "\x7d")])) := by
  refine isRead_operand_alone (mem_productions 8 37 rfl rfl) (by decide) (by simp)
    fun p I c t hat hI ht => ?_
  have hpr : build .replication [.LBRACE, .expression, .concat, .RBRACE] .replicate
      (fun p => [p 3, p 2]) ∈ productions := mem_productions 9 3 rfl rfl
  have hin := hat.begin hpr
  have hword : (Sym.LBRACE, "\x7b") :: w' ++ [(.RBRACE, "\x7d"), (.RBRACE, "\x7d")] =
      ((.LBRACE, "\x7b") :: w' ++ [(.RBRACE, "\x7d")]) ++ [(.RBRACE, "\x7d")] := by simp
  rw [hword]
  -- The concatenation is read behind the number, where no expression is read.
  have hconcat : ∀ q, Stands q (along I [.LBRACE, .expression]) .concat Sym.RBRACE.id →
      Reads q .concat (.node .concat {} [.seq es])
        ((.LBRACE, "\x7b") :: w' ++ [(.RBRACE, "\x7d")]) Sym.RBRACE.id (8 * w'.length - 2 + 3) :=
    fun q hq => reads_concat hq (by rw [along_along]; exact hI.shifts_inside (by decide))
      (by rw [along_along]; exact hI.list_inside (by decide))
      (by rw [along_along]; exact hI.shifts_inside (by decide))
      (by rw [along_along]; exact hI.settled_alone (by decide) _) hes
  exact hin.reads
    (hin.token rfl (hI.shifts_operand (by decide) rfl) fun q hq =>
      hq.part (h q _ 0 Sym.LBRACE.id (hq.stands_before rfl rfl
        (exists_next_of_shifts (hI.shifts_inside (by decide))))
        (hI.inside (by decide)) (.inl rfl) (.of_closer (by decide))) fun q hq =>
        hq.part (hconcat q (hq.stands_next rfl rfl)) fun q hq =>
          hq.token rfl (hI.shifts_inside (by decide)) fun q hq => hq.done)
    (hI.settled_alone (by decide) t) rfl Production.makes_build

theorem isRead_callOf (hf : Phrase.name.IsRead f w)
    (hargs : ∀ q I c, IsContext I c → Stands q (along I [.identifier, .LPAREN]) .funcArgs
      Sym.RPAREN.id → Reads q .funcArgs (.seq es) w' Sym.RPAREN.id (8 * w'.length + 2)) :
    Phrase.operand.IsRead (.node .functionCall {} [f, .seq es])
      (w ++ ((.LPAREN, "(") :: w' ++ [(.RPAREN, ")")])) := by
  refine isRead_operand_alone (mem_productions 8 40 rfl rfl) (by decide) (by simp)
    fun p I c t hat hI ht => ?_
  have hpr : build .functioncall [.identifier, .LPAREN, .funcArgs, .RPAREN] .functionCall
      (fun p => [p 1, p 3]) ∈ productions := mem_productions 18 15 rfl rfl
  have hin := hat.begin hpr
  exact hin.reads
    (hin.part (hf p I c Sym.LPAREN.id (hin.stands_next rfl rfl) hI) fun q hq =>
      hq.token rfl (hI.shifts_inside (by decide)) fun q hq =>
        hq.part (hargs q I c hI (hq.stands_next rfl rfl)) fun q hq =>
          hq.token rfl (hI.shifts_inside (by decide)) fun q hq => hq.done)
    (hI.settled_alone (by decide) t) rfl Production.makes_build

theorem isRead_call (hf : Phrase.name.IsRead f w) :
    Phrase.operand.IsRead (.node .functionCall {} [f, .seq []])
      (w ++ [(.LPAREN, "("), (.RPAREN, ")")]) := by
  change Phrase.operand.IsRead _ (w ++ ((.LPAREN, "(") :: [] ++ [(.RPAREN, ")")]))
  refine isRead_callOf hf fun q I c hI hat => ?_
  have hempty : missing .empty [] ∈ productions := mem_productions 20 8 rfl rfl
  have hnothing : nothing .funcArgs [.empty] ∈ productions := mem_productions 18 18 rfl rfl
  refine hat.reads_part hnothing rfl rfl (v := .absent) (n := 1) (fun hat => ?_) ?_
    (Production.makes_of_pure rfl fun p hp => rfl)
  · have hin := hat.begin hempty
    exact hin.reads hin.done (by rw [along_along]; exact hI.settled_empty) rfl
      (Production.makes_of_pure rfl fun p hp => rfl)
  · rw [along_along]
    exact hI.settled_alone (by decide) _

theorem isRead_callWith (hf : Phrase.name.IsRead f w) (h : Phrase.list.IsRead (.seq es) w') :
    Phrase.operand.IsRead (.node .functionCall {} [f, .seq es])
      (w ++ ((.LPAREN, "(") :: w' ++ [(.RPAREN, ")")])) :=
  isRead_callOf hf fun q I c hI hat => (h q _ _ _ .RPAREN Sym.RPAREN.id hat (hI.list_inside (by decide))
    listRules_funcArgs ⟨.RPAREN, by decide, rfl⟩ (by decide)).mono (by omega)

theorem isRead_systemCall : Phrase.operand.IsRead (.node .systemCall {} [.text x, .seq []])
    [(.DOLLER, "$"), (.ID, x)] := by
  refine isRead_operand_alone (mem_productions 8 41 rfl rfl) (by decide) (by simp)
    fun p I c t hat hI ht => ?_
  have hpr : build .systemcall [.DOLLER, .ID] .systemCall (fun p => [p 2, .seq []]) ∈ productions :=
    mem_productions 17 0 rfl rfl
  have hin := hat.begin hpr
  exact hin.reads
    (hin.token rfl (hI.shifts_operand (by decide) rfl) fun q hq =>
      hq.token rfl (hI.shifts_inside (by decide)) fun q hq => hq.done)
    (hI.settled_operand (by decide) ht) rfl Production.makes_build

theorem isRead_systemCallWith (hname : s = .ID ∨ s = .SIGNED)
    (h : Phrase.list.IsRead (.seq es) w) :
    Phrase.operand.IsRead (.node .systemCall {} [.text x, .seq es])
      ((.DOLLER, "$") :: (s, x) :: (.LPAREN, "(") :: w ++ [(.RPAREN, ")")]) := by
  refine isRead_operand_alone (mem_productions 8 41 rfl rfl) (by decide) (by simp)
    fun p I c t hat hI ht => ?_
  have hpr : build .systemcall [.DOLLER, s, .LPAREN, .sysargs, .RPAREN] .systemCall
      (fun p => [p 2, p 4]) ∈ productions := by
    rcases hname with rfl | rfl
    · exact mem_productions 17 1 rfl rfl
    · exact mem_productions 17 2 rfl rfl
  have hfacts : ∀ s ∈ [Sym.ID, .SIGNED], s.isTerminal = true ∧
      ([.DOLLER], s) ∈ tokensInExpression ∧ ([.DOLLER, s], .LPAREN) ∈ tokensInExpression ∧
      ([.DOLLER, s, .LPAREN], .sysargs, .sysarg, .RPAREN) ∈ expressionLists ∧
      ([.DOLLER, s, .LPAREN, .sysargs], .RPAREN) ∈ tokensInExpression ∧
      [.DOLLER, s, .LPAREN, .sysargs, .RPAREN] ∈ rulesInExpression := by decide
  obtain ⟨hterm, hword, hopen, hlist, hclose, hrule⟩ := hfacts s (by simpa using hname)
  have hin := hat.begin hpr
  exact hin.reads
    (hin.token rfl (hI.shifts_operand (by decide) rfl) fun q hq =>
      hq.token hterm (hI.shifts_inside hword) fun q hq =>
        hq.token rfl (hI.shifts_inside hopen) fun q hq =>
          hq.part (h q _ _ _ _ Sym.RPAREN.id (hq.stands_next rfl rfl) (hI.list_inside hlist)
            listRules_sysargs ⟨.RPAREN, by decide, rfl⟩ (by decide)) fun q hq =>
            hq.token rfl (hI.shifts_inside hclose) fun q hq => hq.done)
    (hI.settled_alone hrule t) rfl Production.makes_build

/-! ### Operations -/

theorem isRead_unary (hk : (k, s, m) ∈ unaryOperators) (h : Phrase.operand.IsRead e w) :
    (Phrase.expr tight).IsRead (.node k {} [e]) ((s, String.ofList m) :: w) := by
  intro p I c t hat hI _ hends
  have hs : s ∈ unaryMarks := mem_map_of_mem (f := fun x => x.2.1) hk
  have hfacts : ∀ s ∈ unaryMarks, s.isTerminal = true ∧ s ∈ operandSyms ∧
      ([s], precedences.length + 1) ∈ expressionContexts := by decide
  obtain ⟨hterm, hmem, hcontext⟩ := hfacts s hs
  have hin := hat.begin (unaryRule_mem hk)
  exact hin.reads
    (hin.token hterm (hI.shifts_operand hmem hterm) fun q hq =>
      hq.last (h q _ _ t (hq.stands_last rfl) (hI.inside hcontext) hends))
    (hI.settled_unary hs hends) rfl Production.makes_build

theorem isRead_binary (hk : (k, s, m) ∈ binaryOperators) (h : (Phrase.expr b).IsRead e w)
    (h' : (Phrase.expr b').IsRead e' w') (hb : s.prec.level ≤ b) (hb' : s.prec.level < b') :
    (Phrase.expr s.prec.level).IsRead (.node k {} [e, e']) (w ++ ((s, String.ofList m) :: w')) := by
  intro p I c t hat hI hc hends
  have hs : s ∈ binaryMarks := mem_map_of_mem (f := fun x => x.2.1) hk
  have hmem : s ∈ operatorMarks := mem_cons_of_mem _ hs
  have hfacts : ∀ s ∈ binaryMarks, s.isTerminal = true ∧ s ≠ .COND ∧ 0 < s.prec.level ∧
      ([.expression, s], s.prec.level) ∈ expressionContexts := by decide
  obtain ⟨hterm, hne, hpos, hcontext⟩ := hfacts s hs
  have hc' : c < s.prec.level := by omega
  have hin := hat.begin (binaryRule_mem hk)
  exact hin.reads
    (hin.part (h p I c s.id (hin.stands_next rfl hterm) hI (.inr (by omega))
      (.inr ⟨s, hmem, rfl, hb, fun h => absurd h hne⟩)) fun q hq =>
      hq.token hterm (hI.shifts_operator hmem (by simp [admits, hne, hc'])) fun q hq =>
        hq.last (h' q _ _ t (hq.stands_last rfl) (hI.inside hcontext) (.inr hb')
          (hends.mono hb'.le)))
    (hI.settled_binary hs hends) rfl Production.makes_build

theorem isRead_cond (hc : Phrase.operand.IsRead c w) (h : (Phrase.expr b).IsRead e w')
    (h' : (Phrase.expr b').IsRead e' w'') :
    (Phrase.expr 0).IsRead (.node .cond {} [c, e, e'])
      (w ++ ((.COND, "?") :: w' ++ ((.COLON, ":") :: w''))) := by
  intro p I c t hat hI hzero hends
  obtain rfl : c = 0 := by omega
  have hpr : build .expression [.expression, .COND, .expression, .COLON, .expression] .cond
      (fun p => [p 1, p 3, p 5]) ∈ productions := mem_productions 8 34 rfl rfl
  have hin := hat.begin hpr
  exact hin.reads
    (hin.part (hc p I 0 Sym.COND.id (hin.stands_next rfl rfl) hI
      (.inr ⟨.COND, by decide, rfl, by decide, by decide⟩)) fun q hq =>
      hq.token rfl (hI.shifts_operator (by decide) rfl) fun q hq =>
        hq.part (h q _ 0 Sym.COLON.id (hq.stands_next rfl rfl) (hI.inside (by decide)) (.inl rfl)
          (.of_closer (by decide))) fun q hq =>
          hq.token rfl (hI.shifts_inside (by decide)) fun q hq =>
            hq.last (h' q _ 0 t (hq.stands_last rfl) (hI.inside (by decide)) (.inl rfl)
              (.of_closer hends.closer)))
    (hI.settled_cond hends) rfl Production.makes_build

/-! ### Lists -/

theorem reads_member {list member : Sym} (hat : Stands p I member t) (hI : IsContext I 0)
    (hrules : ListRules list member) (ht : t ∈ closers)
    (hsettled : settles (along I [.expression]) t = true) (hw : w ≠ [])
    (h : (Phrase.expr b).IsRead e w) : Reads p member e w t (8 * w.length - 3) := by
  have hlen := length_pos_of_ne_nil hw
  rcases hrules.ofExpression with rfl | hpass
  · exact (h p I 0 t hat hI (.inl rfl) (.of_closer ht)).mono (by omega)
  · exact hat.reads_part hpass rfl rfl (fun hat => h p I 0 t hat hI (.inl rfl) (.of_closer ht))
      (settled_of_settles hsettled) (Production.makes_pass rfl)

theorem isRead_one (hw : w ≠ []) (h : (Phrase.expr b).IsRead e w) :
    Phrase.list.IsRead (.seq [e]) w := by
  rintro p I list member last _ hat hI hrules ⟨t, ht, rfl⟩ hclose
  have hlen := length_pos_of_ne_nil hw
  have hin := hat.begin hrules.first
  exact hin.reads
    (hin.last (reads_member (hin.stands_last hrules.nonterminal) hI.here hrules hclose
      (hI.settles [.expression] (by simp) t ht) hw h))
    (settled_of_settles (hI.settles [member] (by simp) t ht)) rfl Production.makes_first

theorem isRead_more (hw : w' ≠ []) (hes : Phrase.list.IsRead (.seq es) w)
    (h : (Phrase.expr b).IsRead e w') :
    Phrase.list.IsRead (.seq (es ++ [e])) (w ++ ((.COMMA, ",") :: w')) := by
  rintro p I list member last _ hat hI hrules ⟨t, ht, rfl⟩ hclose
  have hin := hat.begin hrules.further
  exact hin.reads
    (hin.part (hes p I list member last Sym.COMMA.id (hin.stands_next hrules.isList rfl) hI hrules
      ⟨.COMMA, by simp, rfl⟩ (by decide)) fun q hq =>
      hq.token rfl hI.shifts fun q hq =>
        hq.last (reads_member (hq.stands_last hrules.nonterminal) hI.next hrules hclose
          (by rw [along_along]; exact hI.settles [list, .COMMA, .expression] (by simp) t ht) hw h))
    (settled_of_settles (hI.settles [list, .COMMA, member] (by simp) t ht)) rfl
    (Production.makes_further rfl rfl)

/-! ## Spellings -/

theorem IsScope.labelsOf_unplaced (h : IsScope scope) :
    labelsOf scope.unplaced = (labelsOf scope).map Ast.unplaced := by
  cases h <;> simp [labelsOf]

theorem IsScope.unplaced (h : IsScope scope) : IsScope scope.unplaced := by
  cases h with
  | absent => exact .absent
  | labels =>
    rw [Ast.unplaced_node]
    exact .labels _ _

theorem Spelling.isRead (h : Spelling ph e w) : ph.IsRead e.unplaced w := by
  induction h with
  | name hx => simpa using isRead_name
  | inScope _ hx ih => simpa using isRead_inScope ih
  | scopeName hn ih =>
    have hscope := hn.isScope_of_name
    simpa [scopeWith, hscope.labelsOf_unplaced] using
      isRead_scopeName hscope.unplaced (by simpa using ih)
  | scopePointer hn ih =>
    have hscope := hn.isScope_of_pointer
    simpa [scopeWith, hscope.labelsOf_unplaced] using
      isRead_scopePointer hscope.unplaced (by simpa using ih)
  | pointer hbase hv he ihv ihe =>
    rw [Ast.unplaced_node]
    rcases hbase with rfl | rfl
    · exact isRead_element (by decide) ihv (mem_productions 9 10 rfl rfl) ihe
    · exact isRead_element (by decide) ihv (mem_productions 9 11 rfl rfl) ihe
  | ofName h ih => exact isRead_ofName h.ne_nil ih
  | ofPointer h ih => exact isRead_ofPointer h.ne_nil ih
  | integer hsym hx => simpa using isRead_integer hsym
  | float hx => simpa using isRead_float
  | string hx hy => simpa using isRead_string hy
  | paren h ih => exact isRead_paren ih
  | concat h ih => simpa using isRead_concat (by simpa using ih)
  | replicate h hes ih ihes => simpa using isRead_replicate ih (by simpa using ihes)
  | call hf ih => simpa using isRead_call ih
  | callWith hf h ihf ih => simpa using isRead_callWith ihf (by simpa using ih)
  | systemCall hx => simpa using isRead_systemCall
  | systemCallWith hname hx h ih => simpa using isRead_systemCallWith hname (by simpa using ih)
  | ofOperand h ih => exact fun p I c t hat hI _ hends => ih p I c t hat hI hends
  | unary hk h ih => simpa using isRead_unary hk ih
  | binary hk h h' hb hb' ih ih' => simpa using isRead_binary hk ih ih' hb hb'
  | cond hc h h' ihc ih ih' => simpa using isRead_cond (isRead_paren ihc) ih ih'
  | one h ih => simpa using isRead_one h.ne_nil ih
  | more hes h ihes ih => simpa using isRead_more h.ne_nil (by simpa using ihes) ih

end

end RtlFlow.Verilog
