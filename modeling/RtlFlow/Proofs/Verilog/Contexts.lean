import Mathlib
import RtlFlow.Proofs.Verilog.Reading
import RtlFlow.Proofs.Verilog.Spelling

/-!
# Where expressions stand

Expressions are read in many states of the automaton. What these have in common is found out by going
through their items: behind a symbol that begins an operand they all lead to the same states, and
behind an expression they shift the operators that bind more strongly than what stands before it.
-/

namespace RtlFlow.Verilog

open List

open Grammar

variable {I J : List Item} {s : Sym}

/-- The items where an expression is read on its own. -/
def exprItems : List Item := firstItems .expression

def unaryMarks : List Sym := unaryOperators.map fun x => x.2.1

def binaryMarks : List Sym := binaryOperators.map fun x => x.2.1

def operatorMarks : List Sym := .COND :: binaryMarks

/-- The symbols that an operand begins with, and those of which it consists. -/
def operandSyms : List Sym :=
  unaryMarks ++ integerSyms ++ ([.LPAREN, .LBRACE, .DOLLER, .ID, .FLOATNUMBER, .STRING_LITERAL,
    .concat, .replication, .pointer, .functioncall, .systemcall, .identifier, .constExpression,
    .intnumber, .floatnumber, .stringliteral, .scope] : List Sym)

/-- Whether an operator is read behind something of strength `c` and an expression. -/
def admits (c : Nat) (s : Sym) : Bool := if s = .COND then c == 0 else c < s.prec.level

def sameBehind (I J : List Item) (s : Sym) : Bool := successors s.id I == successors s.id J

/-- Whether symbols begin an operand, or go on behind one with an operator. -/
def begins : List Sym → Bool
  | [] => false
  | s :: γ => s ∈ operandSyms || (s = .expression && γ.head?.any (· ∈ operatorMarks))

/-- Whether a state has nothing but a complete item. -/
def isAlone (I : List Item) : Bool :=
  match I with
  | [d] => d.isComplete && d.left != Indexed.startId
  | _ => false

/-! ## Contexts -/

/-- Expressions are read in states with the items `I`, behind something of strength `c`. -/
def IsContext (I : List Item) (c : Nat) : Prop :=
  ((operandSyms.all fun s => sameBehind I exprItems s && (!s.isTerminal || shifts I s)) &&
    (operatorMarks.all fun s =>
      sameBehind (itemsAfter I .expression) (itemsAfter exprItems .expression) s &&
        (!admits c s || shifts (itemsAfter I .expression) s))) = true

instance (I : List Item) (c : Nat) : Decidable (IsContext I c) :=
  inferInstanceAs (Decidable (_ = true))

/-- Expressions with commas between them are read as `list`, each of them as `member`, in states with
the items `I` and in front of `last`. -/
structure IsListContext (I : List Item) (list member last : Sym) : Prop where
  here : IsContext I 0
  next : IsContext (along I [list, .COMMA]) 0
  shifts : shifts (along I [list]) .COMMA = true
  settles : ∀ γ ∈ [[.expression], [member], [list, .COMMA, .expression], [list, .COMMA, member]],
    ∀ t ∈ [.COMMA, last], settles (along I γ) t.id = true

/-- The symbols that are read up to a state inside of an expression where an expression is read, with
the strength of what stands before it there. -/
def expressionContexts : List (List Sym × Nat) :=
  ([([.LPAREN], 0), ([.LBRACE], 0), ([.LBRACE, .concatlist, .COMMA], 0),
   ([.LBRACE, .expression, .LBRACE], 0), ([.LBRACE, .expression, .LBRACE, .concatlist, .COMMA], 0),
   ([.identifier, .LBRACKET], 0), ([.pointer, .LBRACKET], 0),
   ([.identifier, .LPAREN], 0), ([.identifier, .LPAREN, .funcArgs, .COMMA], 0),
   ([.DOLLER, .ID, .LPAREN], 0), ([.DOLLER, .SIGNED, .LPAREN], 0),
   ([.DOLLER, .ID, .LPAREN, .sysargs, .COMMA], 0),
   ([.DOLLER, .SIGNED, .LPAREN, .sysargs, .COMMA], 0), ([.expression, .COND], 0),
   ([.expression, .COND, .expression, .COLON], 0)] : List (List Sym × Nat)) ++
  unaryMarks.map (fun s => ([s], precedences.length + 1)) ++
  binaryMarks.map fun s => ([.expression, s], s.prec.level)

/-- The symbols that are read up to a list of expressions inside of an expression, the symbols of the
list and of its members, and what comes behind the list. -/
def expressionLists : List (List Sym × Sym × Sym × Sym) :=
  [([.LBRACE], .concatlist, .expression, .RBRACE),
   ([.LBRACE, .expression, .LBRACE], .concatlist, .expression, .RBRACE),
   ([.identifier, .LPAREN], .funcArgs, .expression, .RPAREN),
   ([.DOLLER, .ID, .LPAREN], .sysargs, .sysarg, .RPAREN),
   ([.DOLLER, .SIGNED, .LPAREN], .sysargs, .sysarg, .RPAREN)]

def closers : List Nat :=
  Indexed.endId :: ([.RPAREN, .RBRACKET, .COLON, .COMMA, .RBRACE, .LBRACE, .SEMICOLON] : List Sym).map
    Sym.id

/-- The rules inside of expressions that end in states of their own. -/
def rulesInExpression : List (List Sym) :=
  ([[.ID], [.scope, .ID], [.identifier, .DOT], [.pointer, .DOT],
   [.identifier, .LBRACKET, .expression, .RBRACKET], [.pointer, .LBRACKET, .expression, .RBRACKET],
   [.LPAREN, .expression, .RPAREN], [.LBRACE, .concatlist, .RBRACE],
   [.LBRACE, .expression, .concat, .RBRACE],
   [.LBRACE, .expression, .LBRACE, .concatlist, .RBRACE], [.concat], [.replication],
   [.functioncall], [.systemcall], [.constExpression], [.intnumber], [.floatnumber],
   [.stringliteral], [.FLOATNUMBER], [.STRING_LITERAL],
   [.identifier, .LPAREN, .funcArgs, .RPAREN], [.identifier, .LPAREN, .empty],
   [.DOLLER, .ID, .LPAREN, .sysargs, .RPAREN], [.DOLLER, .SIGNED, .LPAREN, .sysargs, .RPAREN]] :
    List (List Sym)) ++ integerSyms.map ([·])

/-- The tokens inside of the rules of expressions, with the symbols that are read before them. -/
def tokensInExpression : List (List Sym × Sym) :=
  [([.scope], .ID), ([.identifier], .DOT), ([.pointer], .DOT),
   ([.identifier], .LBRACKET), ([.identifier, .LBRACKET, .expression], .RBRACKET),
   ([.pointer], .LBRACKET), ([.pointer, .LBRACKET, .expression], .RBRACKET),
   ([.LPAREN, .expression], .RPAREN), ([.LBRACE, .concatlist], .RBRACE),
   ([.LBRACE, .expression], .LBRACE), ([.LBRACE, .expression, .concat], .RBRACE),
   ([.LBRACE, .expression, .LBRACE, .concatlist], .RBRACE),
   ([.identifier], .LPAREN), ([.identifier, .LPAREN, .funcArgs], .RPAREN),
   ([.DOLLER], .ID), ([.DOLLER], .SIGNED), ([.DOLLER, .ID], .LPAREN), ([.DOLLER, .SIGNED], .LPAREN),
   ([.DOLLER, .ID, .LPAREN, .sysargs], .RPAREN), ([.DOLLER, .SIGNED, .LPAREN, .sysargs], .RPAREN),
   ([.expression, .COND, .expression], .COLON)]

theorem contexts_expression : IsContext exprItems 0 ∧
    ∀ x ∈ expressionContexts, begins x.1 = true ∧ IsContext (along exprItems x.1) x.2 := by
  decide +kernel

/-- What the states inside of expressions do, found out in one go through their items. -/
theorem states_expression :
    (∀ x ∈ expressionLists, begins x.1 = true ∧
      shifts (along (along exprItems x.1) [x.2.1]) .COMMA = true ∧
      ∀ γ ∈ [[.expression], [x.2.2.1], [x.2.1, .COMMA, .expression], [x.2.1, .COMMA, x.2.2.1]],
        ∀ t ∈ [.COMMA, x.2.2.2], settles (along (along exprItems x.1) γ) t.id = true) ∧
    (∀ γ ∈ rulesInExpression, begins γ = true ∧ isAlone (along exprItems γ) = true) ∧
    (∀ x ∈ tokensInExpression, begins x.1 = true ∧ shifts (along exprItems x.1) x.2 = true) ∧
    (∀ γ ∈ ([[.identifier], [.pointer], [.DOLLER, .ID]] : List (List Sym)), begins γ = true ∧
      ∀ t ∈ closers ++ operatorMarks.map Sym.id, settles (along exprItems γ) t = true) ∧
    settles (along exprItems [.identifier, .LPAREN]) Sym.RPAREN.id = true ∧
    (∀ s ∈ unaryMarks,
      (∀ t ∈ closers, settles (along exprItems [s, .expression]) t = true) ∧
        ∀ t ∈ operatorMarks, settlesOver (along exprItems [s, .expression]) t = true) ∧
    (∀ s ∈ binaryMarks,
      (∀ t ∈ closers, settles (along exprItems [.expression, s, .expression]) t = true) ∧
        ∀ t ∈ operatorMarks, t.prec.level ≤ s.prec.level →
          settlesOver (along exprItems [.expression, s, .expression]) t = true) ∧
    ∀ t ∈ closers,
      settles (along exprItems [.expression, .COND, .expression, .COLON, .expression]) t = true := by
  decide +kernel

theorem lists_expression (x : List Sym × Sym × Sym × Sym) (hx : x ∈ expressionLists) :
    IsListContext (along exprItems x.1) x.2.1 x.2.2.1 x.2.2.2 where
  here := (contexts_expression.2 (x.1, 0) (by revert x; decide)).2
  next := by
    have := (contexts_expression.2 (x.1 ++ [x.2.1, .COMMA], 0) (by revert x; decide)).2
    rwa [along, foldl_append] at this
  shifts := (states_expression.1 x hx).2.1
  settles := (states_expression.1 x hx).2.2

/-! ## What follows -/

/-- A token that ends an expression whose loosest operator binds with strength `b`. -/
def Ends (b t : Nat) : Prop :=
  t ∈ closers ∨ ∃ s ∈ operatorMarks, t = s.id ∧ s.prec.level ≤ b ∧ (s = .COND → b ≠ 0)

theorem settled_of_isAlone (h : isAlone I = true) (t : Nat) : Settled exprGrammar I t := by
  match I, h with
  | [d], h =>
    simp only [isAlone, Bool.and_eq_true] at h
    refine settled_of_settles ?_
    have hnext : d.next? = none := isComplete_iff.mp h.1
    simp [settles, h.1, hnext]
    simpa using h.2

namespace Ends

variable {b b' t : Nat}

theorem of_closer (h : t ∈ closers) : Ends b t := .inl h

theorem mono (h : Ends b t) (hb : b ≤ b') : Ends b' t := by
  rcases h with h | ⟨s, hs, rfl, hlevel, hcond⟩
  · exact .inl h
  · exact .inr ⟨s, hs, rfl, hlevel.trans hb, fun hs => by have := hcond hs; omega⟩

theorem mem (h : Ends b t) : t ∈ closers ++ operatorMarks.map Sym.id := by
  rcases h with h | ⟨s, hs, rfl, -⟩
  · exact mem_append_left _ h
  · exact mem_append_right _ (mem_map_of_mem hs)

theorem closer (h : Ends 0 t) : t ∈ closers := by
  rcases h with h | ⟨s, hs, rfl, hlevel, hcond⟩
  · exact h
  · have : ∀ s ∈ operatorMarks, s.prec.level ≤ 0 → s = .COND := by decide
    exact absurd rfl (hcond (this s hs hlevel))

end Ends

/-! ## Inside of an expression -/

theorem itemsAfter_eq_of_sameBehind (h : sameBehind I J s = true) :
    itemsAfter I s = itemsAfter J s := by
  rw [itemsAfter, itemsAfter, eq_of_beq h]

namespace IsContext

attribute [local irreducible] exprItems shifts

variable {I : List Item} {b c c' t : Nat} {s s' list member last : Sym} {γ : List Sym}

theorem along_eq (h : IsContext I c) (hγ : begins γ = true) : along I γ = along exprItems γ := by
  simp only [IsContext, Bool.and_eq_true, all_eq_true] at h
  cases γ with
  | nil => cases hγ
  | cons s γ =>
    rcases Bool.or_eq_true_iff.mp hγ with hs | hs
    · simp [along, itemsAfter_eq_of_sameBehind (h.1 s (of_decide_eq_true hs)).1]
    · obtain ⟨hs, hγ⟩ := Bool.and_eq_true_iff.mp hs
      obtain rfl := of_decide_eq_true hs
      cases γ with
      | nil => cases hγ
      | cons s γ => simp [along, itemsAfter_eq_of_sameBehind (h.2 s (of_decide_eq_true hγ)).1]

theorem shifts_operand (h : IsContext I c) (hs : s ∈ operandSyms) (hterm : s.isTerminal = true) :
    shifts (along I []) s = true := by
  simp only [IsContext, Bool.and_eq_true, all_eq_true] at h
  have := (h.1 s hs).2
  rwa [hterm, Bool.not_true, Bool.false_or] at this

theorem shifts_operator (h : IsContext I c) (hs : s ∈ operatorMarks) (hadmits : admits c s = true) :
    shifts (along I [.expression]) s = true := by
  simp only [IsContext, Bool.and_eq_true, all_eq_true] at h
  have := (h.2 s hs).2
  rw [hadmits, Bool.not_true, Bool.false_or] at this
  simpa only [along, foldl_cons, foldl_nil] using this

attribute [local irreducible] along

theorem shifts_inside (h : IsContext I c) (hx : (γ, s) ∈ tokensInExpression) :
    shifts (along I γ) s = true := by
  obtain ⟨hγ, hshifts⟩ := states_expression.2.2.1 _ hx
  rwa [h.along_eq hγ]

theorem inside (h : IsContext I c) (hx : (γ, c') ∈ expressionContexts) :
    IsContext (along I γ) c' := by
  obtain ⟨hγ, hcontext⟩ := contexts_expression.2 _ hx
  rwa [h.along_eq hγ]

theorem list_inside (h : IsContext I c) (hx : (γ, list, member, last) ∈ expressionLists) :
    IsListContext (along I γ) list member last := by
  rw [h.along_eq (states_expression.1 _ hx).1]
  exact lists_expression _ hx

theorem settled_alone (h : IsContext I c) (hγ : γ ∈ rulesInExpression) (t : Nat) :
    Settled exprGrammar (along I γ) t := by
  obtain ⟨hbegins, halone⟩ := states_expression.2.1 γ hγ
  rw [h.along_eq hbegins]
  exact settled_of_isAlone halone t

theorem settled_operand (h : IsContext I c)
    (hγ : γ ∈ ([[.identifier], [.pointer], [.DOLLER, .ID]] : List (List Sym))) (ht : Ends b t) :
    Settled exprGrammar (along I γ) t := by
  obtain ⟨hbegins, hsettles⟩ := states_expression.2.2.2.1 γ hγ
  rw [h.along_eq hbegins]
  exact settled_of_settles (hsettles t ht.mem)

theorem settled_empty (h : IsContext I c) :
    Settled exprGrammar (along I [.identifier, .LPAREN]) Sym.RPAREN.id := by
  rw [h.along_eq (by decide)]
  exact settled_of_settles states_expression.2.2.2.2.1

theorem isTerminal_of_operatorMarks : ∀ s ∈ operatorMarks, s.isTerminal = true := by decide

theorem settled_unary (h : IsContext I c) (hs : s ∈ unaryMarks) (ht : Ends b t) :
    Settled exprGrammar (along I [s, .expression]) t := by
  have hbegins : ∀ s ∈ unaryMarks, begins [s, .expression] = true := by decide
  have hsettles := states_expression.2.2.2.2.2.1 s hs
  rw [h.along_eq (hbegins s hs)]
  rcases ht with ht | ⟨o, ho, rfl, -⟩
  · exact settled_of_settles (hsettles.1 t ht)
  · exact settled_of_settlesOver (isTerminal_of_operatorMarks o ho) (hsettles.2 o ho)

theorem settled_binary (h : IsContext I c) (hs : s ∈ binaryMarks) (ht : Ends s.prec.level t) :
    Settled exprGrammar (along I [.expression, s, .expression]) t := by
  have hbegins : ∀ s ∈ binaryMarks, begins [.expression, s, .expression] = true := by decide
  have hsettles := states_expression.2.2.2.2.2.2.1 s hs
  rw [h.along_eq (hbegins s hs)]
  rcases ht with ht | ⟨o, ho, rfl, hlevel, -⟩
  · exact settled_of_settles (hsettles.1 t ht)
  · exact settled_of_settlesOver (isTerminal_of_operatorMarks o ho) (hsettles.2 o ho hlevel)

theorem settled_cond (h : IsContext I c) (ht : Ends 0 t) :
    Settled exprGrammar (along I [.expression, .COND, .expression, .COLON, .expression]) t := by
  rw [h.along_eq (by decide)]
  exact settled_of_settles (states_expression.2.2.2.2.2.2.2 t ht.closer)

end IsContext

end RtlFlow.Verilog
