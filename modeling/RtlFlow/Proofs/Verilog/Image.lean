import Mathlib
import RtlFlow.Proofs.Verilog.Expressions

/-!
# Expressions that come out of the parser

Every expression that the parser makes can be spelled, if it has no selection of bits and no call of
`$signed` without arguments. The productions of expressions are those of their spellings, so each of
them keeps this.
-/

namespace RtlFlow.Verilog

open List

open Grammar

variable {id v : Ast} {line : Int} {ws ws' : Workspace} {s : Sym} {e loop : Ast}

/-- A node that is no selection of bits and no call of `$signed` without arguments. -/
def isSpellable (k : Ast.Kind) (parts : List Ast) : Bool :=
  match k, parts with
  | .partselect, _ => false
  | .systemCall, [.atom (.text name), .seq []] => name ≠ "signed"
  | _, _ => true

def Spelled (ph : Phrase) (v : Ast) : Prop :=
  v.everywhere isSpellable = true → ∃ w, Spelling ph v w

inductive IsName : Ast → Prop
  | node (place : Ast.Place) (x : String) {scope : Ast} (h : IsScope scope) :
      IsName (.node .identifier place [.text x, scope])

/-- A node of an element of an array. -/
inductive IsPointer : Ast → Prop
  | ofName (place : Ast.Place) {v : Ast} (h : IsName v) (e : Ast) : IsPointer (.node .pointer place [v, e])
  | ofPointer (place : Ast.Place) {v : Ast} (h : IsPointer v) (e : Ast) :
      IsPointer (.node .pointer place [v, e])

/-! ## Values -/

inductive Class where
  | token
  | operand
  | name
  | pointer
  | scope
  | list
  | arguments
  | concat
  | integer
  | float
  | string
  | other
deriving DecidableEq

def classes : List (Sym × Class) :=
  [(.expression, .operand), (.sysarg, .operand), (.replication, .operand), (.partselect, .operand),
   (.functioncall, .operand), (.systemcall, .operand), (.constExpression, .operand),
   (.identifier, .name), (.pointer, .pointer), (.scope, .scope), (.concatlist, .list),
   (.funcArgs, .arguments), (.sysargs, .arguments), (.concat, .concat), (.intnumber, .integer),
   (.floatnumber, .float), (.stringliteral, .string)]

def classOf (s : Sym) : Class :=
  (classes.lookup s).getD (if s.isTerminal then .token else .other)

def Class.Holds (c : Class) (s : Sym) (v : Ast) : Prop :=
  match c with
  | .token => ∃ x, v = .text x ∧ Lexeme s x
  | .operand => Spelled .operand v
  | .name => IsName v ∧ Spelled .name v
  | .pointer => IsPointer v ∧ Spelled .pointer v
  | .scope => IsScope v ∧ Spelled .scope v
  | .list => Spelled .list v
  | .arguments => v = .seq [] ∨ Spelled .list v
  | .concat => ∃ place es, v = .node .concat place [es] ∧ Spelled .list es
  | .integer => ∃ s ∈ integerSyms, ∃ x, v = .text x ∧ Lexeme s x
  | .float => ∃ x, v = .text x ∧ Lexeme .FLOATNUMBER x
  | .string => ∃ x y, v = .text y ∧ Lexeme .STRING_LITERAL x ∧ x.toList = '"' :: (y.toList ++ ['"'])
  | .other => True

def ExprValue (s : Sym) (v : Ast) : Prop := (classOf s).Holds s v

theorem exprValue_iff {c : Class} (h : classOf s = c) : ExprValue s v ↔ c.Holds s v := by
  rw [ExprValue, h]

def Production.Keeps (p : Production) : Prop :=
  ∀ parts lines ws v ws', List.Forall₂ ExprValue p.right parts →
    p.action ⟨parts.toArray, lines⟩ ws = .ok v ws' → ExprValue p.left v

/-! ## Nodes -/

theorem everywhere_node {k : Ast.Kind} {p : Ast.Place} {parts : List Ast}
    (h : (Ast.node k p parts).everywhere isSpellable = true) :
    isSpellable k parts = true ∧ ∀ t ∈ parts, t.everywhere isSpellable = true := by
  simpa [Ast.everywhere] using h

theorem everywhere_seq {items : List Ast} (h : (Ast.seq items).everywhere isSpellable = true) :
    ∀ t ∈ items, t.everywhere isSpellable = true := by
  simpa [Ast.everywhere] using h

theorem Spelling.exists_seq {w : Wording} (h : Spelling .list e w) :
    ∃ es, e = .seq es := by
  cases h <;> exact ⟨_, rfl⟩

theorem eq_signed {x : String} (h : Lexeme .SIGNED x) : x = "signed" := by
  have hkind := (h.word (by decide) (by decide)).1
  have hkeywords : ∀ p ∈ keywords, p.2 = "SIGNED" → p.1 = "signed" := by decide
  rw [wordKind] at hkind
  cases hlookup : keywords.lookup x with
  | none =>
    rw [hlookup] at hkind
    exact absurd hkind (by decide)
  | some k =>
    rw [hlookup] at hkind
    exact hkeywords (x, k) (mem_of_lookup hlookup) hkind

namespace Spelled

variable {k : Ast.Kind} {place : Ast.Place} {t u v l : Ast} {x : String} {s : Sym}

theorem unary (hk : k ∈ unaryOperators.map Prod.fst) (h : Spelled .operand v) :
    Spelled .operand (.node k place [v]) := by
  intro hall
  obtain ⟨⟨k, s, m⟩, hmem, rfl⟩ := mem_map.mp hk
  obtain ⟨w, hw⟩ := h ((everywhere_node hall).2 v (by simp))
  exact ⟨_, .paren (.unary hmem hw)⟩

theorem binary (hk : k ∈ binaryOperators.map Prod.fst) (h : Spelled .operand u)
    (h' : Spelled .operand v) : Spelled .operand (.node k place [u, v]) := by
  intro hall
  obtain ⟨⟨k, s, m⟩, hmem, rfl⟩ := mem_map.mp hk
  have hparts := (everywhere_node hall).2
  obtain ⟨w, hw⟩ := h (hparts u (by simp))
  obtain ⟨w', hw'⟩ := h' (hparts v (by simp))
  have hlevel : ∀ x ∈ binaryOperators, x.2.1.prec.level < tight := by decide
  have hlt := hlevel _ hmem
  exact ⟨_, .paren (.binary hmem (.ofOperand hw) (.ofOperand hw') hlt.le hlt)⟩

theorem cond (h : Spelled .operand t) (h' : Spelled .operand u) (h'' : Spelled .operand v) :
    Spelled .operand (.node .cond place [t, u, v]) := by
  intro hall
  have hparts := (everywhere_node hall).2
  obtain ⟨w, hw⟩ := h (hparts t (by simp))
  obtain ⟨w', hw'⟩ := h' (hparts u (by simp))
  obtain ⟨w'', hw''⟩ := h'' (hparts v (by simp))
  exact ⟨_, .paren (.cond (.ofOperand hw) (.ofOperand hw') (.ofOperand hw''))⟩

theorem one (h : Spelled .operand v) : Spelled .list (.seq [v]) := by
  intro hall
  obtain ⟨w, hw⟩ := h (everywhere_seq hall v (by simp))
  exact ⟨_, .one (.ofOperand hw)⟩

theorem more (hl : Spelled .list l) (h : Spelled .operand v) : Spelled .list (snoc l v) := by
  match l, hl with
  | .seq items, hl =>
    intro hall
    have hitems := everywhere_seq hall
    obtain ⟨w, hw⟩ := hl (by simpa [Ast.everywhere] using fun t ht => hitems t (by simp [ht]))
    obtain ⟨w', hw'⟩ := h (hitems v (by simp))
    exact ⟨_, .more hw (.ofOperand hw')⟩
  | .atom a, hl => exact hl
  | .path p, hl => exact hl
  | .node k p parts, hl => exact hl

theorem concat (h : Spelled .list l) : Spelled .operand (.node .concat place [l]) := by
  intro hall
  obtain ⟨w, hw⟩ := h ((everywhere_node hall).2 l (by simp))
  obtain ⟨es, rfl⟩ := hw.exists_seq
  exact ⟨_, .concat hw⟩

theorem replicate {place' : Ast.Place} (h : Spelled .operand v) (hl : Spelled .list l) :
    Spelled .operand (.node .replicate place [.node .concat place' [l], v]) := by
  intro hall
  have hparts := (everywhere_node hall).2
  obtain ⟨w, hw⟩ := h (hparts v (by simp))
  obtain ⟨w', hw'⟩ := hl ((everywhere_node (hparts _ (.head _))).2 l (by simp))
  obtain ⟨es, rfl⟩ := hw'.exists_seq
  exact ⟨_, .replicate (.ofOperand hw) hw'⟩

theorem call (h : Spelled .name v) (hl : l = .seq [] ∨ Spelled .list l) :
    Spelled .operand (.node .functionCall place [v, l]) := by
  intro hall
  have hparts := (everywhere_node hall).2
  obtain ⟨w, hw⟩ := h (hparts v (by simp))
  rcases hl with rfl | hl
  · exact ⟨_, .call hw⟩
  · obtain ⟨w', hw'⟩ := hl (hparts l (by simp))
    obtain ⟨es, rfl⟩ := hw'.exists_seq
    exact ⟨_, .callWith hw hw'⟩

theorem systemCall (hs : s = .ID ∨ s = .SIGNED) (hx : Lexeme s x)
    (hl : l = .seq [] ∨ Spelled .list l) :
    Spelled .operand (.node .systemCall place [.text x, l]) := by
  intro hall
  obtain ⟨hnode, hparts⟩ := everywhere_node hall
  rcases hl with rfl | hl
  · rcases hs with rfl | rfl
    · exact ⟨_, .systemCall hx⟩
    · rw [eq_signed hx] at hnode
      exact absurd hnode (by decide)
  · obtain ⟨w, hw⟩ := hl (hparts l (by simp))
    obtain ⟨es, rfl⟩ := hw.exists_seq
    exact ⟨_, .systemCallWith hs hx hw⟩

theorem pointer {base : Phrase} (hbase : base = .name ∨ base = .pointer) (h : Spelled base u)
    (h' : Spelled .operand v) : Spelled .pointer (.node .pointer place [u, v]) := by
  intro hall
  have hparts := (everywhere_node hall).2
  obtain ⟨w, hw⟩ := h (hparts u (by simp))
  obtain ⟨w', hw'⟩ := h' (hparts v (by simp))
  exact ⟨_, .pointer hbase hw (.ofOperand hw')⟩

theorem ofName (h : Spelled .name v) : Spelled .operand v := fun hall =>
  (h hall).imp fun _ hw => .ofName hw

theorem ofPointer (h : Spelled .pointer v) : Spelled .operand v := fun hall =>
  (h hall).imp fun _ hw => .ofPointer hw

theorem name (hx : Lexeme .ID x) : Spelled .name (.node .identifier place [.text x, .absent]) :=
  fun _ => ⟨_, .name hx⟩

theorem inScope (hx : Lexeme .ID x) (h : Spelled .scope v) :
    Spelled .name (.node .identifier place [.text x, v]) := by
  intro hall
  obtain ⟨w, hw⟩ := h ((everywhere_node hall).2 v (by simp))
  exact ⟨_, .inScope hw hx⟩

end Spelled

/-! ## Scopes -/

theorem scopeBelow_eq_ok (hid : IsName id) (h : scopeBelow id loop line ws = .ok v ws') :
    ∃ place q r x scope, id = .node .identifier place [.text x, scope] ∧
      v = .node .identifierScope q [.seq (labelsOf scope ++
        [.node .identifierScopeLabel r [.text x, loop]])] ∧
      (v.everywhere isSpellable = true →
        id.everywhere isSpellable = true ∧ loop.everywhere isSpellable = true) := by
  obtain ⟨place, x, hscope⟩ := hid
  cases hscope with
  | absent =>
    cases h
    refine ⟨place, _, _, x, .absent, rfl, rfl, ?_⟩
    simp [Ast.everywhere, isSpellable]
  | labels place' labels =>
    cases h
    refine ⟨place, _, _, x, _, rfl, rfl, fun hall => ?_⟩
    simpa [Ast.everywhere, isSpellable, members, or_imp, forall_and] using hall

theorem Spelled.scopeName (hid : IsName id) (hspelled : Spelled .name id)
    (h : scopeBelow id .absent line ws = .ok v ws') : IsScope v ∧ Spelled .scope v := by
  obtain ⟨place, q, r, x, scope, rfl, rfl, hparts⟩ := scopeBelow_eq_ok hid h
  refine ⟨.labels _ _, fun hall => ?_⟩
  obtain ⟨w, hw⟩ := hspelled (hparts hall).1
  exact ⟨_, .scopeName hw⟩

theorem Spelled.scopePointer {place : Ast.Place} (hid : IsName id)
    (hspelled : Spelled .pointer (.node .pointer place [id, loop]))
    (h : scopeBelow id loop line ws = .ok v ws') : IsScope v ∧ Spelled .scope v := by
  obtain ⟨place, q, r, x, scope, rfl, rfl, hparts⟩ := scopeBelow_eq_ok hid h
  refine ⟨.labels _ _, fun hall => ?_⟩
  obtain ⟨w, hw⟩ := hspelled (by simpa [Ast.everywhere, isSpellable] using hparts hall)
  exact ⟨_, .scopePointer hw⟩

/-! ## Productions -/

namespace Production

variable {left : Sym} {right : List Sym} {k : Ast.Kind} {f : Parts → List Ast} {i : Nat}
variable {base mark s : Sym} {p : Production}

theorem keeps_of_other (h : classOf p.left = .other) : p.Keeps := by
  intro parts lines ws v ws' _ _
  rw [ExprValue, h]
  trivial

theorem keeps_of_pure {f : Parts → Ast} (haction : p.action = fun ps => pure (f ps))
    (h : ∀ parts lines, List.Forall₂ ExprValue p.right parts →
      ExprValue p.left (f ⟨parts.toArray, lines⟩)) : p.Keeps := by
  intro parts lines ws v ws' hparts hv
  rw [haction] at hv
  cases hv
  exact h parts lines hparts

theorem keeps_build (h : ∀ parts lines place, List.Forall₂ ExprValue right parts →
    ExprValue left (.node k place (f ⟨parts.toArray, lines⟩))) :
    (build left right k f i).Keeps := by
  intro parts lines ws v ws' hparts hv
  cases hv
  exact h parts lines _ hparts

theorem keeps_pass (h : ∀ v, ExprValue s v → ExprValue left v) : (pass left [s]).Keeps := by
  refine keeps_of_pure rfl ?_
  rintro _ lines (_ | ⟨hv, _ | _⟩)
  exact h _ hv

theorem keeps_unary (hk : k ∈ unaryOperators.map Prod.fst) : (unaryRule mark k).Keeps := by
  refine keeps_build ?_
  rintro _ lines place (_ | ⟨_, _ | ⟨hv, _ | _⟩⟩)
  exact Spelled.unary hk hv

theorem keeps_binary (hk : k ∈ binaryOperators.map Prod.fst) : (binaryRule mark k).Keeps := by
  refine keeps_build ?_
  rintro _ lines place (_ | ⟨hu, _ | ⟨_, _ | ⟨hv, _ | _⟩⟩⟩)
  exact Spelled.binary hk hu hv

theorem keeps_range : (rangeRule .partselect base).Keeps := by
  refine keeps_build fun parts lines place hparts hall => ?_
  exact Bool.noConfusion (everywhere_node hall).1

theorem keeps_indexed {opLine : Bool} : (indexedRule .partselect base mark k opLine).Keeps := by
  intro parts lines ws v ws' hparts hv
  cases hv
  intro hall
  exact Bool.noConfusion (everywhere_node hall).1

theorem keeps_first (hs : classOf s = .operand)
    (hleft : classOf left = .list ∨ classOf left = .arguments) : (first left [s]).Keeps := by
  refine keeps_of_pure rfl ?_
  rintro _ lines (_ | ⟨hv, _ | _⟩)
  have hone := Spelled.one ((exprValue_iff hs).mp hv)
  exact hleft.elim (fun h => (exprValue_iff h).mpr hone) fun h => (exprValue_iff h).mpr (.inr hone)

theorem keeps_further (hs : classOf s = .operand)
    (hleft : classOf left = .list ∨ classOf left = .arguments) :
    (further left [left, .COMMA, s] 3).Keeps := by
  refine keeps_of_pure rfl ?_
  rintro _ lines (_ | ⟨hl, _ | ⟨_, _ | ⟨hv, _ | _⟩⟩⟩)
  have hmember := (exprValue_iff hs).mp hv
  rcases hleft with hleft | hleft
  · exact (exprValue_iff hleft).mpr (Spelled.more ((exprValue_iff hleft).mp hl) hmember)
  · rcases (exprValue_iff hleft).mp hl with rfl | hl
    · exact (exprValue_iff hleft).mpr (.inr (Spelled.one hmember))
    · exact (exprValue_iff hleft).mpr (.inr (Spelled.more hl hmember))

/-! ### All productions -/

theorem keeps_operatorRules : ∀ p ∈ operatorRules, p.Keeps := by
  simp only [operatorRules, forall_mem_cons]
  constructorm* _ ∧ _
  all_goals try first | exact keeps_unary (by decide) | exact keeps_binary (by decide)
  · refine keeps_of_pure rfl ?_
    rintro _ lines (_ | ⟨_, _ | ⟨hv, _ | _⟩⟩)
    exact hv
  · refine keeps_build ?_
    rintro _ lines place (_ | ⟨ht, _ | ⟨_, _ | ⟨hu, _ | ⟨_, _ | ⟨hv, _ | _⟩⟩⟩⟩⟩)
    exact Spelled.cond ht hu hv
  · refine keeps_of_pure rfl ?_
    rintro _ lines (_ | ⟨_, _ | ⟨hv, _ | ⟨_, _ | _⟩⟩⟩)
    exact hv
  · refine keeps_pass ?_
    rintro v ⟨place, l, hv, hl⟩
    exact hv ▸ Spelled.concat hl
  · exact keeps_pass fun v hv => hv
  · exact keeps_pass fun v hv => hv
  · exact keeps_pass fun v hv => hv.2.ofPointer
  · exact keeps_pass fun v hv => hv
  · exact keeps_pass fun v hv => hv
  · exact keeps_pass fun v hv => hv.2.ofName
  · exact keeps_pass fun v hv => hv
  · simp

theorem keeps_constant
    (h : ∀ v, ExprValue s v → ∃ x, v = .text x ∧
      ∀ p, ∃ w, Spelling .operand (.node k p [.text x]) w) :
    (build .constExpression [s] k (fun p => [p 1])).Keeps := by
  refine keeps_build fun parts lines place hparts _ => ?_
  rcases hparts with _ | ⟨hv, _ | _⟩
  obtain ⟨x, rfl, hx⟩ := h _ hv
  exact hx place

theorem keeps_pointer {ph : Phrase} (hph : ph = .name ∨ ph = .pointer)
    (hbase : ∀ v, ExprValue base v → Spelled ph v ∧
      ∀ place e, IsPointer (.node .pointer place [v, e])) :
    (build .pointer [base, .LBRACKET, .expression, .RBRACKET] .pointer
      (fun p => [p 1, p 3])).Keeps := by
  refine keeps_build ?_
  rintro _ lines place (_ | ⟨hu, _ | ⟨_, _ | ⟨hv, _ | ⟨_, _ | _⟩⟩⟩⟩)
  obtain ⟨hspelled, hpointer⟩ := hbase _ hu
  exact ⟨hpointer _ _, hspelled.pointer hph hv⟩

theorem keeps_operandRules : ∀ p ∈ operandRules, p.Keeps := by
  simp only [operandRules, choice, map_cons, map_nil, forall_mem_append,
    forall_mem_cons]
  constructorm* _ ∧ _
  all_goals try first | exact keeps_range | exact keeps_indexed
  · refine keeps_build ?_
    rintro _ lines place (_ | ⟨_, _ | ⟨hl, _ | ⟨_, _ | _⟩⟩⟩)
    exact ⟨place, _, rfl, hl⟩
  · exact keeps_further rfl (.inl rfl)
  · exact keeps_first rfl (.inl rfl)
  · refine keeps_build ?_
    rintro _ lines place (_ | ⟨_, _ | ⟨hv, _ | ⟨⟨place', l, rfl, hl⟩, _ | ⟨_, _ | _⟩⟩⟩⟩)
    exact Spelled.replicate hv hl
  · exact keeps_pointer (.inl rfl) fun v hv => ⟨hv.2, fun place e => .ofName place hv.1 e⟩
  · exact keeps_pointer (.inr rfl) fun v hv => ⟨hv.2, fun place e => .ofPointer place hv.1 e⟩
  · refine keeps_constant ?_
    rintro v ⟨s, hs, x, hv, hx⟩
    exact ⟨x, hv, fun _ => ⟨_, .integer hs hx⟩⟩
  · refine keeps_constant ?_
    rintro v ⟨x, hv, hx⟩
    exact ⟨x, hv, fun _ => ⟨_, .float hx⟩⟩
  · refine keeps_constant ?_
    rintro v ⟨x, y, hv, hx, hy⟩
    exact ⟨y, hv, fun _ => ⟨_, .string hx hy⟩⟩
  · exact keeps_pass fun v hv => hv
  all_goals try exact keeps_pass fun v h => ⟨_, by decide, h⟩
  all_goals try simp
  refine keeps_of_pure rfl ?_
  rintro _ lines (_ | ⟨⟨x, rfl, hx⟩, _ | _⟩)
  obtain ⟨ds, hds⟩ := hx.string.1
  refine ⟨x, String.ofList ds, ?_, hx, by rw [hds, String.toList_ofList]⟩
  change Ast.text (String.ofList (x.toList.drop 1).dropLast) = _
  simp [hds]

theorem keeps_systemCallRules : ∀ p ∈ systemCallRules, p.Keeps := by
  simp only [systemCallRules, forall_mem_cons]
  refine ⟨?_, ?_, ?_, keeps_further rfl (.inr rfl), keeps_first rfl (.inr rfl), ?_,
    keeps_pass fun v hv => hv, by simp⟩
  · refine keeps_build ?_
    rintro _ lines place (_ | ⟨_, _ | ⟨⟨x, rfl, hx⟩, _ | _⟩⟩)
    exact Spelled.systemCall (.inl rfl) hx (.inl rfl)
  · refine keeps_build ?_
    rintro _ lines place (_ | ⟨_, _ | ⟨⟨x, rfl, hx⟩, _ | ⟨_, _ | ⟨hl, _ | ⟨_, _ | _⟩⟩⟩⟩⟩)
    exact Spelled.systemCall (.inl rfl) hx hl
  · refine keeps_build ?_
    rintro _ lines place (_ | ⟨_, _ | ⟨⟨x, rfl, hx⟩, _ | ⟨_, _ | ⟨hl, _ | ⟨_, _ | _⟩⟩⟩⟩⟩)
    exact Spelled.systemCall (.inr rfl) hx hl
  · exact keeps_of_pure rfl fun parts lines hparts => .inl rfl

theorem keeps_functionRules : ∀ p ∈ functionRules, p.Keeps := by
  have hothers : ∀ p ∈ functionRules.take 15, classOf p.left = .other := by decide
  have hcalls : ∀ p ∈ functionRules.drop 15, p.Keeps := by
    have hdrop : functionRules.drop 15 = [build .functioncall [.identifier, .LPAREN, .funcArgs, .RPAREN]
        .functionCall (fun p => [p 1, p 3]), further .funcArgs [.funcArgs, .COMMA, .expression] 3,
        first .funcArgs [.expression], nothing .funcArgs [.empty]] := rfl
    simp only [hdrop, forall_mem_cons]
    refine ⟨keeps_build fun parts lines place hparts => ?_, keeps_further rfl (.inr rfl),
      keeps_first rfl (.inr rfl), keeps_of_pure rfl fun parts lines hparts => .inl rfl, by simp⟩
    rcases hparts with _ | ⟨hf, _ | ⟨_, _ | ⟨hl, _ | ⟨_, _ | _⟩⟩⟩⟩
    exact Spelled.call hf.2 hl
  intro p hp
  rw [← take_append_drop 15 functionRules, mem_append] at hp
  exact hp.elim (fun hp => keeps_of_other (hothers p hp)) (hcalls p)

theorem keeps_identifierRules : ∀ p ∈ identifierRules, p.Keeps := by
  simp only [identifierRules, forall_mem_cons]
  refine ⟨?_, ?_, ?_, ?_, keeps_of_other rfl, keeps_of_other rfl, keeps_of_other rfl,
    keeps_of_other rfl, keeps_of_other rfl, by simp⟩
  · refine keeps_build ?_
    rintro _ lines place (_ | ⟨⟨x, rfl, hx⟩, _ | _⟩)
    exact ⟨.node _ _ .absent, Spelled.name hx⟩
  · refine keeps_build ?_
    rintro _ lines place (_ | ⟨hscope, _ | ⟨⟨x, rfl, hx⟩, _ | _⟩⟩)
    exact ⟨.node _ _ hscope.1, Spelled.inScope hx hscope.2⟩
  · intro parts lines ws v ws' hparts hv
    rcases hparts with _ | ⟨hid, _ | ⟨_, _ | _⟩⟩
    exact Spelled.scopeName hid.1 hid.2 hv
  · intro parts lines ws v ws' hparts hv
    rcases hparts with _ | ⟨⟨hpointer, hspelled⟩, _ | ⟨_, _ | _⟩⟩
    cases hpointer with
    | ofName place hid e => exact Spelled.scopePointer hid hspelled hv
    | ofPointer place hid e =>
      -- An element of an element has no name.
      cases hid <;> cases hv

theorem keeps_of_others {g : List Production} (h : (g.all fun p => classOf p.left = .other) = true) :
    ∀ p ∈ g, p.Keeps := fun p hp => keeps_of_other (by simpa using all_eq_true.mp h p hp)

theorem keeps_productions : ∀ p ∈ productions, p.Keeps := by
  have hgroups : ∀ g ∈ ruleGroups, ∀ p ∈ g, p.Keeps := by
    simp only [ruleGroups, forall_mem_cons (p := fun g => ∀ p ∈ g, Production.Keeps p)]
    constructorm* _ ∧ _
    all_goals try exact keeps_of_others (by decide)
    · exact keeps_operatorRules
    · exact keeps_operandRules
    · exact keeps_systemCallRules
    · exact keeps_functionRules
    · exact keeps_identifierRules
    · simp
  intro p hp
  rw [productions_eq_flatten] at hp
  obtain ⟨g, hg, hp⟩ := mem_flatten.mp hp
  exact hgroups g hg p hp

end Production

/-! ## Values of the parser -/

/-- The values of symbols: tokens have their texts, and the productions make values of values. -/
inductive Made : Sym → Ast → Prop
  | token {s : Sym} {x : String} (hs : s.isTerminal = true) (hx : Lexeme s x) : Made s (.text x)
  | production {p : Production} (hp : p ∈ productions) {parts : List Ast} {lines : Array Int}
      {ws ws' : Workspace} {v : Ast} (hlen : parts.length = p.right.length)
      (hparts : ∀ (i : Nat) (s : Sym) (u : Ast), p.right[i]? = some s → parts[i]? = some u → Made s u)
      (h : p.action ⟨parts.toArray, lines⟩ ws = .ok v ws') : Made p.left v

theorem classOf_of_isTerminal : ∀ s ∈ Sym.all, s.isTerminal = true → classOf s = .token := by
  rintro ⟨⟩ - h <;> first | rfl | cases h

theorem Made.exprValue (h : Made s v) : ExprValue s v := by
  induction h with
  | @token s x hs hx => exact (exprValue_iff (classOf_of_isTerminal s (Sym.mem_all s) hs)).mpr ⟨x, rfl, hx⟩
  | @production p hp parts lines ws ws' v hlen _ h ih =>
    refine Production.keeps_productions p hp parts lines ws v ws' ?_ h
    exact List.forall₂_iff_get.mpr ⟨hlen.symm, fun i hi hi' =>
      ih i _ _ (List.getElem?_eq_getElem hi) (List.getElem?_eq_getElem hi')⟩

theorem Made.exists_spelling (h : Made .expression e) (he : e.everywhere isSpellable = true) :
    ∃ w, Spelling .operand e w :=
  h.exprValue he

end RtlFlow.Verilog
