import Mathlib
import RtlFlow.Proofs.Recursion
import RtlFlow.Proofs.Verilog.Layout
import RtlFlow.Proofs.Verilog.Spelling

/-!
# The printed text of an expression

What is printed for an expression that has a spelling is laid out as the tokens of another spelling
of it. The parentheses that the printer leaves out are those that a spelling does not need.
-/

namespace RtlFlow.Verilog

open List

open Printer

/-! ## Nodes and their parts -/

section

variable {margin : String} {parts : List Ast} {i : Nat} {t : Ast} {x : String} {β : Type}

def contextOf (margin : String) (parts : List Ast) : Context :=
  ⟨parts, Ast.foldParts (fun _ => ⟨throw .noMember, throw .noMember⟩) (fun k _ parts found =>
    ⟨nodeCode k ⟨parts, found, margin⟩, rangeCode k ⟨parts, found, margin⟩⟩) parts, margin⟩

theorem code_node (k : Ast.Kind) (p : Ast.Place) :
    code margin (.node k p parts) = nodeCode k (contextOf margin parts) := rfl

theorem part_contextOf (h : parts[i]? = some t) : (contextOf margin parts).part i = t := by
  simp [contextOf, Context.part, h]

theorem code_contextOf (h : parts[i]? = some t) :
    (contextOf margin parts).code i = code margin t := by
  rw [Context.code, contextOf, Ast.foldParts_eq_map, List.getElem?_map, h]
  rfl

theorem codes_contextOf {items : List Ast} (h : parts[i]? = some (.seq items)) :
    (contextOf margin parts).codes i = items.mapM (code margin) := by
  rw [Context.codes, contextOf, Ast.foldParts_eq_map, List.getElem?_map, h, Option.map_some]
  change (items.map (Ast.fold _ _)).mapM Printed.whole = _
  rw [mapM_map]
  rfl

def codeOr (margin : String) (t : Ast) : Result String :=
  if t.isAbsent then pure "" else code margin t

theorem codeOr_eq (h : code margin t = .ok x) : codeOr margin t = .ok x := by
  rw [codeOr]
  split
  · rename_i habsent
    cases t with
    | node => cases habsent
    | _ => cases h
  · exact h

theorem codeOr_contextOf (h : parts[i]? = some t) :
    (contextOf margin parts).codeOr i = codeOr margin t := by
  rw [Context.codeOr, part_contextOf h, code_contextOf h, codeOr]

theorem bare_contextOf (h : parts[i]? = some t) (hx : code margin t = .ok x) :
    (contextOf margin parts).bare i = .ok (withoutParens x) := by
  rw [Context.bare, code_contextOf h, hx]
  rfl

theorem name_contextOf (h : parts[i]? = some (.text x)) :
    (contextOf margin parts).name i = .ok (escape x) := by
  rw [Context.name, part_contextOf h]
  rfl

end

/-! ## Parentheses -/

theorem withoutParens_parens (x : String) : withoutParens ("(" ++ x ++ ")") = x := by
  have hstart : Text.startsWith "(" ("(" ++ x ++ ")") = true := by
    simp [Text.startsWith, Text.startsChars]
  have hend : Text.endsWith ")" ("(" ++ x ++ ")") = true := by
    simp [Text.endsWith, Text.startsChars]
  rw [withoutParens, hstart, hend]
  simp

theorem withoutParens_of_front {x : String} (h : Front (· ≠ '(') x.toList) : withoutParens x = x := by
  obtain ⟨c, ds, hx, hc⟩ := h
  have hstart : Text.startsWith "(" x = false := by
    simp [Text.startsWith, hx, Text.startsChars, hc.symm]
  rw [withoutParens, hstart]
  rfl

/-- A text for an expression whose loosest operator has a strength. -/
def Spells (b : Nat) (t : Ast) (x : String) : Prop :=
  ∃ w, Spelling (.expr b) t w ∧ Lays (· ∈ stops) x.toList w

/-- The printed text of an expression: that of an operand, or one with parentheses around it. -/
inductive IsPrinted (margin : String) (t : Ast) : String → Prop
  | operand {x : String} {w : Wording} (hcode : code margin t = .ok x)
      (h : Spelling .operand t w) (hx : Lays (· ∈ stops) x.toList w)
      (hfront : Front (· ∉ '(' :: furtherChars) x.toList)
      (horder : Operator.order? t.kindWord = none) : IsPrinted margin t x
  | parens {x : String} {b : Nat} (hcode : code margin t = .ok ("(" ++ x ++ ")"))
      (h : Spells b t x)
      (hb : ∀ o, Operator.order? t.kindWord = some o → precedences.length + 1 ≤ b + o) :
      IsPrinted margin t ("(" ++ x ++ ")")

namespace IsPrinted

variable {margin : String} {t : Ast} {x : String}

theorem code_eq (h : IsPrinted margin t x) : code margin t = .ok x := by
  cases h with
  | operand hcode => exact hcode
  | parens hcode => exact hcode

theorem exists_operand (h : IsPrinted margin t x) :
    ∃ w, Spelling .operand t w ∧ Lays (· ∈ stops) x.toList w ∧
      Front (· ∉ furtherChars) x.toList := by
  cases h with
  | operand _ h hx hfront =>
    exact ⟨_, h, hx, hfront.imp fun c hc hmem => hc (mem_cons_of_mem _ hmem)⟩
  | @parens x b _ h =>
    obtain ⟨w, hw, hx⟩ := h
    refine ⟨_, .paren hw, ?_, '(', x.toList ++ [')'], by simp, by decide⟩
    have hclose : Lays (fun _ => True) _ (w ++ [(.RPAREN, ")")]) :=
      hx.append_glue ")" ⟨')', [], rfl, by decide⟩ rfl
    have hall : Lays (· ∈ stops) _ ([(.LPAREN, "(")] ++ _) := .glue_append "(" rfl hclose.any
    simpa using hall

theorem ne_empty (h : IsPrinted margin t x) : x ≠ "" := by
  obtain ⟨-, -, -, c, ds, hx, -⟩ := h.exists_operand
  rintro rfl
  cases hx

theorem spells (h : IsPrinted margin t x) : Spells tight t x := by
  obtain ⟨w, hw, hx, -⟩ := h.exists_operand
  exact ⟨w, .ofOperand hw, hx⟩

theorem spells_bare (h : IsPrinted margin t x) : ∃ b, Spells b t (withoutParens x) ∧
    ∀ o, Operator.order? t.kindWord = some o → precedences.length + 1 ≤ b + o := by
  cases h with
  | operand _ h hx hfront horder =>
    rw [withoutParens_of_front (hfront.imp fun c hc hparen => hc (by simp [hparen]))]
    exact ⟨tight, ⟨_, .ofOperand h, hx⟩, fun o ho => by rw [horder] at ho; cases ho⟩
  | parens _ h hb =>
    rw [withoutParens_parens]
    exact ⟨_, h, hb⟩

end IsPrinted

/-! ## Operations -/

section

variable {margin : String} {k : Ast.Kind} {s : Sym} {m : List Char} {p : Ast.Place} {t u v : Ast}
  {x y z : String}
variable {ts : List Ast} {w : Wording} {c : Char}
variable {xs : List String} {q : Ast.Place} {ph : Phrase} {ls : List Ast}

theorem nodeCode_unary (hk : (k, s, m) ∈ unaryOperators) (c : Context) :
    nodeCode k c = do return "(" ++ String.ofList m ++ (← c.code 0) ++ ")" := by
  fin_cases hk <;> rfl

theorem isPrinted_unary (hk : (k, s, m) ∈ unaryOperators) (h : IsPrinted margin t x) :
    IsPrinted margin (.node k p [t]) ("(" ++ (String.ofList m ++ x) ++ ")") := by
  have hmarks : ∀ q ∈ unaryOperators, IsPlainMark q.2.1 (String.ofList q.2.2) ∧ q.2.2 ≠ [] := by
    decide
  obtain ⟨hmark, hne⟩ := hmarks _ hk
  obtain ⟨w, hw, hx, hfront⟩ := h.exists_operand
  refine .parens ?_ ⟨_, .unary hk hw, ?_⟩ fun o _ => ?_
  · rw [code_node, nodeCode_unary hk, code_contextOf rfl, h.code_eq]
    simp [String.append_assoc]
  · have hlays := (lays_mark hmark).append hx (hfront.imp fun c hc => free_of_not_mem (by simpa using hne) hc)
    simpa using hlays
  · rw [tight]
    omega

theorem nodeCode_binary (hk : (k, s, m) ∈ binaryOperators) (c : Context) :
    nodeCode k c = binaryCode k c := by
  have hall : ∀ q ∈ binaryOperators, nodeCode q.1 c = binaryCode q.1 c := by
    simp only [binaryOperators, forall_mem_cons]
    and_intros
    iterate 23 rfl
    simp
  exact hall _ hk

/-- Whether the parentheses of an operand are left out, by a test of its order. -/
def leavesOut (t : Ast) (test : Nat → Bool) : Bool :=
  !keepsParens t && (Operator.order? t.kindWord).any test

def operandText (t : Ast) (test : Nat → Bool) (x : String) : String :=
  if leavesOut t test then withoutParens x else x

theorem binaryCode_eq {n : Nat} (hn : Operator.order? k.word = some n) (hx : code margin t = .ok x)
    (hy : code margin u = .ok y) :
    binaryCode k (contextOf margin [t, u]) =
      .ok ("(" ++ operandText t (· ≤ n) x ++ " " ++ (Operator.mark? k.word).getD "None" ++ " " ++
        operandText u (· < n) y ++ ")") := by
  rw [binaryCode, hn, code_contextOf rfl, code_contextOf rfl, hx, hy, part_contextOf rfl,
    part_contextOf rfl, operandText, operandText, leavesOut, leavesOut]
  dsimp only
  cases keepsParens t <;> cases Operator.order? t.kindWord <;>
    cases keepsParens u <;> cases Operator.order? u.kindWord <;> rfl

theorem IsPrinted.spells_operandText (h : IsPrinted margin t x) {test : Nat → Bool} {l : Nat}
    (hl : l ≤ tight) (htest : ∀ o, test o = true → l + o ≤ precedences.length + 1) :
    ∃ b, l ≤ b ∧ Spells b t (operandText t test x) := by
  rw [operandText]
  split
  · rename_i hout
    rw [leavesOut, Bool.and_eq_true] at hout
    obtain ⟨o, ho, hlt⟩ := (Option.any_eq_true _ _).mp hout.2
    obtain ⟨b, hspells, hb⟩ := h.spells_bare
    have hl := htest o hlt
    have hb := hb o ho
    exact ⟨b, by omega, hspells⟩
  · exact ⟨tight, hl, h.spells⟩

theorem lays_binaryMark (hk : (k, s, m) ∈ binaryOperators) :
    Lays (· = ' ') (String.ofList m).toList [(s, String.ofList m)] := by
  have hmarks : ∀ q ∈ binaryOperators, (q.2.1 = .DIVIDE ∧ q.2.2 = ['/']) ∨
      (IsPlainMark q.2.1 (String.ofList q.2.2) ∧ free q.2.2 ' ' = true) := by
    decide
  rcases hmarks _ hk with ⟨rfl, rfl⟩ | ⟨hplain, hfree⟩
  · exact lays_divide
  · refine (lays_mark hplain).imp ?_
    rintro c rfl
    simpa using hfree

theorem isPrinted_binary (hk : (k, s, m) ∈ binaryOperators) (h : IsPrinted margin t x)
    (h' : IsPrinted margin u y) : ∃ z, IsPrinted margin (.node k p [t, u]) z := by
  have horders : ∀ q ∈ binaryOperators, Operator.mark? q.1.word = some (String.ofList q.2.2) ∧
      q.2.1.prec.level ≤ precedences.length ∧
      Operator.order? q.1.word = some (precedences.length + 1 - q.2.1.prec.level) := by
    decide
  obtain ⟨hmark, hlevel, horder⟩ := horders _ hk
  dsimp only at hmark hlevel horder
  have htight : tight = precedences.length + 2 := rfl
  obtain ⟨b, hb, w, hw, hx⟩ : ∃ b, s.prec.level ≤ b ∧
      Spells b t (operandText t (· ≤ precedences.length + 1 - s.prec.level) x) :=
    h.spells_operandText (by omega) (by simp only [decide_eq_true_eq]; omega)
  obtain ⟨b', hb', w', hw', hy⟩ : ∃ b, s.prec.level + 1 ≤ b ∧
      Spells b u (operandText u (· < precedences.length + 1 - s.prec.level) y) :=
    h'.spells_operandText (by omega) (by simp only [decide_eq_true_eq]; omega)
  have hcode := binaryCode_eq horder h.code_eq h'.code_eq
  revert hx hy hcode
  generalize operandText t _ x = left
  generalize operandText u _ y = right
  intro hx hy hcode
  refine ⟨_, @IsPrinted.parens _ _ (left ++ (" " ++ (String.ofList m ++ (" " ++ right)))) _ ?_
    ⟨_, .binary hk hw hw' hb hb', ?_⟩ fun o ho => ?_⟩
  · rw [code_node, nodeCode_binary hk, hcode, hmark]
    simp [String.append_assoc]
  · have hright := Lays.blank.append_of_any hy
    have hmid := (lays_binaryMark hk).append hright ⟨' ', _, rfl, rfl⟩
    have hleft := Lays.blank.append_of_any hmid
    simpa using hx.append hleft ⟨' ', _, rfl, by decide⟩
  · have hn := horder.symm.trans ho
    obtain rfl := Option.some.inj hn
    omega

theorem isPrinted_cond (h : IsPrinted margin t x) (h' : IsPrinted margin u y)
    (h'' : IsPrinted margin v z) : ∃ text, IsPrinted margin (.node .cond p [t, u, v]) text := by
  obtain ⟨b, ⟨w, hw, hx⟩, -⟩ := h.spells_bare
  obtain ⟨b', ⟨w', hw', hy⟩, -⟩ := h'.spells_bare
  obtain ⟨b'', ⟨w'', hw'', hz⟩, -⟩ := h''.spells_bare
  let no := if v.is .cond then "\n" ++ withoutParens z else withoutParens z
  have hno : Lays (· ∈ stops) no.toList w'' := by
    dsimp only [no]
    split
    · rw [String.toList_append]
      exact Lays.feed.append_of_any hz
    · exact hz
  refine ⟨_, @IsPrinted.parens _ _ ("(" ++ (withoutParens x ++ (")? " ++ (withoutParens y ++
    (" : " ++ no))))) _ ?_ ⟨_, .cond hw hw' hw'', ?_⟩ fun o ho => ?_⟩
  · change condCode (contextOf margin [t, u, v]) = _
    rw [condCode, bare_contextOf rfl h'.code_eq, bare_contextOf rfl h''.code_eq,
      bare_contextOf rfl h.code_eq, part_contextOf rfl]
    simp [← String.toList_inj, no]
  · have hcolon : Lays (· ∈ stops) _ (w' ++ ([(.COLON, ":")] ++ w'')) :=
      hy.join " : " ⟨' ', _, rfl, by decide⟩ rfl hno
    have hquestion : Lays (· ∈ stops) _ (w ++ ([(.RPAREN, ")"), (.COND, "?")] ++ _)) :=
      hx.join ")? " ⟨')', _, rfl, by decide⟩ rfl hcolon
    have hall : Lays (· ∈ stops) _ ([(.LPAREN, "(")] ++ _) := .glue_append "(" rfl hquestion
    simpa using hall
  · cases ho

/-! ## Lists -/

theorem toList_joinWith_cons (sep x : String) (xs : List String) :
    (Text.joinWith sep (x :: xs)).toList =
      x.toList ++ xs.flatMap fun y => sep.toList ++ y.toList := by
  induction xs generalizing x with
  | nil => simp [Text.joinWith]
  | cons y xs ih =>
    simp only [Text.joinWith] at ih ⊢
    rw [String.intercalate_cons_cons, String.toList_append, ih]
    simp

theorem exists_list_append (h : List.Forall₂ (fun t x => ∃ b, Spells b t x) ts xs) {es : List Ast}
    {y : List Char} (hes : Spelling .list (.seq es) w) (hy : Lays (· ∈ stops) y w) :
    ∃ w', Spelling .list (.seq (es ++ ts)) w' ∧
      Lays (· ∈ stops) (y ++ xs.flatMap fun x => ", ".toList ++ x.toList) w' := by
  induction h generalizing es y w with
  | nil => exact ⟨w, by simpa using hes, by simpa using hy⟩
  | @cons t x ts xs hx _ ih =>
    obtain ⟨b, wx, hwx, hx⟩ := hx
    have hcomma : Lays (· ∈ stops) _ (w ++ ([(.COMMA, ",")] ++ wx)) :=
      hy.join ", " ⟨',', _, rfl, by decide⟩ rfl hx
    obtain ⟨w', hw', hlays⟩ := ih (.more hes hwx) hcomma
    exact ⟨w', by simpa using hw', by simpa using hlays⟩

theorem exists_list (hne : ts ≠ []) (h : List.Forall₂ (fun t x => ∃ b, Spells b t x) ts xs) :
    ∃ w, Spelling .list (.seq ts) w ∧
      Lays (· ∈ stops) (Text.joinWith ", " xs).toList w := by
  cases h with
  | nil => exact absurd rfl hne
  | @cons t x ts xs hx hs =>
    obtain ⟨b, w, hw, hx⟩ := hx
    rw [toList_joinWith_cons]
    exact exists_list_append hs (.one hw) hx

theorem exists_codes (h : ∀ t ∈ ts, ∃ x, IsPrinted margin t x) :
    ∃ xs, ts.mapM (code margin) = .ok xs ∧ List.Forall₂ (IsPrinted margin) ts xs :=
  exists_mapM_forall₂ fun t ht => (h t ht).imp fun _ hx => ⟨hx.code_eq, hx⟩

theorem lays_between {x : String} {v v' : Wording} (hx : Lays (· ∈ stops) x.toList w)
    (g g' : String) (hg : glue? g.toList = some v) (hg' : glue? g'.toList = some v')
    (hfront : Front (· ∈ stops) g'.toList) :
    Lays (fun _ => True) (g ++ x ++ g').toList (v ++ w ++ v') := by
  have hall := Lays.glue_append g hg (hx.append_glue g' hfront hg')
  simpa using hall

theorem exists_concat (hne : ts ≠ []) (h : ∀ t ∈ ts, ∃ x, IsPrinted margin t x) :
    ∃ x w, code margin (.node .concat p [.seq ts]) = .ok ("\x7b " ++ x ++ " \x7d") ∧
      Spelling .list (.seq ts) w ∧ Lays (· ∈ stops) x.toList w := by
  obtain ⟨xs, hxs, hprinted⟩ := exists_codes h
  have hspells : List.Forall₂ (fun t x => ∃ b, Spells b t x) ts (xs.map withoutParens) := by
    rw [List.forall₂_map_right_iff]
    exact hprinted.imp fun t x hx => hx.spells_bare.imp fun _ hb => hb.1
  obtain ⟨w, hw, hlays⟩ := exists_list hne hspells
  refine ⟨_, w, ?_, hw, hlays⟩
  rw [code_node, nodeCode, codes_contextOf rfl, hxs]
  rfl

theorem isPrinted_concat (hne : ts ≠ []) (h : ∀ t ∈ ts, ∃ x, IsPrinted margin t x) :
    ∃ x, IsPrinted margin (.node .concat p [.seq ts]) x := by
  obtain ⟨x, w, hcode, hw, hx⟩ := exists_concat hne h
  have hall : Lays (fun _ => True) ("\x7b " ++ x ++ " \x7d").toList
      ([(.LBRACE, "\x7b")] ++ w ++ [(.RBRACE, "\x7d")]) :=
    lays_between hx _ _ rfl rfl ⟨' ', _, rfl, by decide⟩
  have hfront : Front (· ∉ '(' :: furtherChars) "\x7b ".toList := ⟨'{', _, rfl, by decide⟩
  exact ⟨_, .operand hcode (.concat hw) (by simpa using hall.any)
    ((hfront.toList_append x).toList_append _) rfl⟩

theorem isPrinted_replicate (h : IsPrinted margin t y) (hne : ts ≠ [])
    (hs : ∀ t ∈ ts, ∃ x, IsPrinted margin t x) :
    ∃ x, IsPrinted margin (.node .replicate p [.node .concat q [.seq ts], t]) x := by
  obtain ⟨x, w, hcode, hw, hx⟩ := exists_concat hne hs (p := q)
  obtain ⟨b, ⟨w', hw', hy⟩, -⟩ := h.spells_bare
  have hfront : Front (· ∉ '(' :: furtherChars) "\x7b ".toList := ⟨'{', _, rfl, by decide⟩
  have hvalue : withoutParens ("\x7b " ++ x ++ " \x7d") = "\x7b " ++ x ++ " \x7d" := by
    refine withoutParens_of_front (((hfront.toList_append x).toList_append _).imp fun c hc hparen => ?_)
    exact hc (by simp [hparen])
  have hinner : Lays (fun _ => True) _ (w' ++ ([(.LBRACE, "\x7b")] ++
      (w ++ [(.RBRACE, "\x7d"), (.RBRACE, "\x7d")]))) :=
    hy.join "\x7b " ⟨'{', _, rfl, by decide⟩ rfl
      (hx.append_glue " \x7d \x7d" ⟨' ', _, rfl, by decide⟩ rfl)
  have hall : Lays (fun _ => True) _ ([(.LBRACE, "\x7b")] ++ _) := .glue_append "\x7b " rfl hinner
  refine ⟨"\x7b " ++ (withoutParens y ++ ("\x7b " ++ x ++ " \x7d") ++ " \x7d"),
    .operand ?_ (Spelling.replicate hw' hw) (by simpa using hall.any) (hfront.toList_append _) rfl⟩
  rw [code_node, nodeCode, bare_contextOf rfl hcode, bare_contextOf rfl h.code_eq, hvalue]
  simp [← String.toList_inj]

/-! ## Constants -/

theorem not_mem_of_isNumberStart (hc : isNumberStart c = true) : c ∉ '(' :: furtherChars := by
  intro hmem
  fin_cases hmem <;> revert hc <;> decide

theorem isPrinted_integer (hs : s ∈ integerSyms) (hx : Lexeme s x) :
    IsPrinted margin (.node .intConst p [.text x]) x :=
  have hmem : s ∈ Sym.FLOATNUMBER :: integerSyms := mem_cons_of_mem _ hs
  .operand rfl (.integer hs hx) (lays_number hx hmem)
    (Front.imp (hx.numberStart hmem) fun _ => not_mem_of_isNumberStart) rfl

theorem isPrinted_float (hx : Lexeme .FLOATNUMBER x) :
    IsPrinted margin (.node .floatConst p [.text x]) x :=
  have hmem : Sym.FLOATNUMBER ∈ Sym.FLOATNUMBER :: integerSyms := mem_cons_self
  .operand rfl (.float hx) (lays_number hx hmem)
    (Front.imp (hx.numberStart hmem) fun _ => not_mem_of_isNumberStart) rfl

theorem isPrinted_string (hx : Lexeme .STRING_LITERAL x) (hy : x.toList = '"' :: (y.toList ++ ['"'])) :
    IsPrinted margin (.node .stringConst p [.text y]) x := by
  have htext : "\"" ++ y ++ "\"" = x := by
    rw [← String.toList_inj, hy]
    simp
  refine .operand ?_ (.string hx hy) (lays_string hx).any ⟨'"', _, hy, by decide⟩ rfl
  rw [← htext]
  rfl

/-! ## Names -/

/-- The printed text of a name or of an element of an array. -/
structure IsPrintedName (margin : String) (ph : Phrase) (t : Ast) (x : String) : Prop where
  code_eq : code margin t = .ok x
  spells : ∃ w, Spelling ph t w ∧ Lays (isNameChar · = false) x.toList w
  front : Front WordStart x.toList

theorem not_mem_of_wordStart (hc : WordStart c) :
    c ∉ '(' :: furtherChars := by
  intro hmem
  fin_cases hmem <;> revert hc <;> decide

theorem goes_isNameChar : Goes isNameChar := by decide

theorem IsPrintedName.isPrinted (h : IsPrintedName margin ph t x)
    (hph : ∀ w, Spelling ph t w → Spelling .operand t w)
    (horder : Operator.order? t.kindWord = none) : IsPrinted margin t x := by
  obtain ⟨w, hw, hx⟩ := h.spells
  exact .operand h.code_eq (hph w hw) (hx.imp fun c hc => goes_isNameChar c hc)
    (h.front.imp fun _ => not_mem_of_wordStart) horder

theorem isPrintedName_name (hx : Lexeme .ID x) :
    IsPrintedName margin .name (.node .identifier p [.text x, .absent]) (escape x) where
  code_eq := by
    rw [code_node, nodeCode, name_contextOf rfl, codeOr_contextOf rfl]
    simp [codeOr, Ast.isAbsent]
  spells := ⟨_, .name hx, lays_word hx (by decide) (by decide)⟩
  front := hx.wordStart (by decide) (by decide)

theorem isPrintedName_pointer (hph : ph = .name ∨ ph = .pointer) (h : IsPrintedName margin ph t x)
    (hy : IsPrinted margin u y) :
    IsPrintedName margin .pointer (.node .pointer p [t, u]) (x ++ "[" ++ withoutParens y ++ "]") := by
  obtain ⟨w, hw, hx⟩ := h.spells
  obtain ⟨b, ⟨w', hw', hlays⟩, -⟩ := hy.spells_bare
  have hall : Lays (fun _ => True) _ (w ++ ([(.LBRACKET, "[")] ++ (w' ++ [(.RBRACKET, "]")]))) :=
    hx.join "[" ⟨'[', _, rfl, by decide⟩ rfl (hlays.append_glue "]" ⟨']', _, rfl, by decide⟩ rfl)
  refine ⟨?_, ⟨_, .pointer hph hw hw', by simpa using hall.any⟩,
    ((h.front.toList_append _).toList_append _).toList_append _⟩
  rw [code_node, nodeCode, code_contextOf rfl, h.code_eq, bare_contextOf rfl hy.code_eq]
  rfl

structure IsPrintedScope (margin : String) (t : Ast) (x : String) : Prop where
  code_eq : code margin t = .ok x
  spells : ∃ w, Spelling .scope t w ∧ Lays (·.isDigit = false) x.toList w
  front : Front WordStart x.toList

theorem isDigit_of_wordStart (hc : WordStart c) :
    c.isDigit = false := by
  have hnumber := isNumberStart_eq_false hc
  simp only [isNumberStart, Bool.or_eq_false_iff] at hnumber
  exact hnumber.1.1

theorem isPrintedName_inScope (hx : Lexeme .ID x) (h : IsPrintedScope margin t y) :
    IsPrintedName margin .name (.node .identifier p [.text x, t]) (y ++ escape x) := by
  obtain ⟨w, hw, hy⟩ := h.spells
  have hfront := (hx.wordStart (by decide) (by decide)).imp fun _ => isDigit_of_wordStart
  have hall := hy.append (lays_word hx (by decide) (by decide)) hfront
  refine ⟨?_, ⟨_, .inScope hw hx, by simpa using hall⟩, h.front.toList_append _⟩
  rw [code_node, nodeCode, name_contextOf rfl, codeOr_contextOf rfl, codeOr_eq h.code_eq]
  rfl

/-! ## Scopes -/

theorem code_identifierScope {l : Ast}
    (hu : codeOr margin u = String.join <$> ls.mapM (code margin))
    (hname : code margin (.node .identifier q [.text x, u]) = .ok y)
    (hl : code margin l = .ok (escape x ++ z)) :
    code margin (.node .identifierScope p [.seq (ls ++ [l])]) = .ok (y ++ z) := by
  rw [code_node, nodeCode, name_contextOf rfl, codeOr_contextOf rfl, hu] at hname
  cases hls : ls.mapM (code margin) with
  | error e =>
    rw [hls] at hname
    cases hname
  | ok xs =>
    rw [hls] at hname
    obtain rfl := Except.ok.inj hname
    rw [code_node, nodeCode, codes_contextOf rfl, mapM_append, hls, mapM_cons, hl]
    simp [← String.toList_inj]

theorem codeOr_scope (h : IsScope u) :
    codeOr margin u = String.join <$> (labelsOf u).mapM (code margin) := by
  cases h with
  | absent => rfl
  | labels place ls =>
    change code margin _ = _
    rw [code_node, nodeCode, codes_contextOf rfl, map_eq_pure_bind]
    rfl

section

variable {q q' : Ast.Place}

theorem isPrintedScope_name (hu : IsScope u)
    (h : IsPrintedName margin .name (.node .identifier q' [.text x, u]) y) :
    IsPrintedScope margin (.node .identifierScope p [.seq (labelsOf u ++
      [.node .identifierScopeLabel q [.text x, .absent]])]) (y ++ ".") := by
  obtain ⟨w, hw, hy⟩ := h.spells
  have hall := hy.append lays_dot ⟨'.', _, rfl, by decide⟩
  refine ⟨code_identifierScope (codeOr_scope hu) h.code_eq ?_,
    ⟨_, .scopeName hw, by simpa using hall⟩, h.front.toList_append _⟩
  rw [code_node, nodeCode, name_contextOf rfl, codeOr_contextOf rfl]
  simp [codeOr, Ast.isAbsent]

theorem isPrintedScope_pointer (hu : IsScope u) (hph : ph = .name ∨ ph = .pointer)
    (h : IsPrintedName margin ph (.node .identifier q' [.text x, u]) y) (hv : IsPrinted margin v z) :
    IsPrintedScope margin (.node .identifierScope p [.seq (labelsOf u ++
      [.node .identifierScopeLabel q [.text x, v]])]) (y ++ ("[" ++ z ++ "].")) := by
  obtain ⟨w, hw, hy⟩ := h.spells
  obtain ⟨w', hw', hz⟩ := hv.spells
  have hdot : Lays (·.isDigit = false) _ ([(.RBRACKET, "]")] ++ _) := .glue_append "]" rfl lays_dot
  have hclose := hz.append hdot ⟨']', _, rfl, by decide⟩
  have hall : Lays (·.isDigit = false) _ (w ++ ([(.LBRACKET, "[")] ++ _)) :=
    hy.join "[" ⟨'[', _, rfl, by decide⟩ rfl hclose
  refine ⟨code_identifierScope (codeOr_scope hu) h.code_eq ?_,
    ⟨_, .scopePointer (p := {}) (.pointer hph hw hw'), by simpa using hall⟩,
    h.front.toList_append _⟩
  rw [code_node, nodeCode, name_contextOf rfl, codeOr_contextOf rfl, codeOr_eq hv.code_eq]
  simp [hv.ne_empty, String.append_assoc]

end

/-! ## Calls -/

theorem exists_arguments (hne : ts ≠ []) (h : ∀ t ∈ ts, ∃ x, IsPrinted margin t x) :
    ∃ xs w, ts.mapM (code margin) = .ok xs ∧ xs ≠ [] ∧ Spelling .list (.seq ts) w ∧
      Lays (· ∈ stops) (Text.joinWith ", " xs).toList w := by
  obtain ⟨xs, hxs, hprinted⟩ := exists_codes h
  obtain ⟨w, hw, hlays⟩ := exists_list hne (hprinted.imp fun t x hx => ⟨tight, hx.spells⟩)
  refine ⟨xs, w, hxs, ?_, hw, hlays⟩
  rintro rfl
  cases hprinted
  exact hne rfl

theorem isPrinted_call (h : IsPrintedName margin .name t x) :
    IsPrinted margin (.node .functionCall p [t, .seq []]) (x ++ "(" ++ ")") := by
  obtain ⟨w, hw, hx⟩ := h.spells
  have hall : Lays (fun _ => True) _ (w ++ [(.LPAREN, "("), (.RPAREN, ")")]) :=
    hx.append_glue "()" ⟨'(', _, rfl, by decide⟩ rfl
  refine .operand ?_ (.call hw) (by simpa using hall.any)
    ((h.front.imp fun _ => not_mem_of_wordStart).toList_append _ |>.toList_append _) rfl
  rw [code_node, nodeCode, codes_contextOf rfl, code_contextOf rfl, h.code_eq]
  simp [Text.joinWith]

theorem isPrinted_callWith (h : IsPrintedName margin .name t x) (hne : ts ≠ [])
    (hs : ∀ t ∈ ts, ∃ x, IsPrinted margin t x) :
    ∃ y, IsPrinted margin (.node .functionCall p [t, .seq ts]) y := by
  obtain ⟨w, hw, hx⟩ := h.spells
  obtain ⟨xs, w', hxs, -, hw', hlays⟩ := exists_arguments hne hs
  have hall : Lays (fun _ => True) _ (w ++ ([(.LPAREN, "(")] ++ (w' ++ [(.RPAREN, ")")]))) :=
    hx.join "(" ⟨'(', _, rfl, by decide⟩ rfl (hlays.append_glue ")" ⟨')', _, rfl, by decide⟩ rfl)
  refine ⟨x ++ ("(" ++ Text.joinWith ", " xs ++ ")"), .operand ?_ (.callWith hw hw')
    (by simpa using hall.any) ((h.front.imp fun _ => not_mem_of_wordStart).toList_append _) rfl⟩
  rw [code_node, nodeCode, codes_contextOf rfl, code_contextOf rfl, h.code_eq, hxs]
  simp [String.append_assoc]

theorem isPrinted_systemCall (hx : Lexeme .ID x) :
    IsPrinted margin (.node .systemCall p [.text x, .seq []]) ("$" ++ escape x) := by
  have hall : Lays (isNameChar · = false) _ ([(.DOLLER, "$")] ++ [(.ID, x)]) :=
    .glue_append "$" rfl (lays_word hx (by decide) (by decide))
  have hfront : Front (· ∉ '(' :: furtherChars) "$".toList := ⟨'$', _, rfl, by decide⟩
  refine .operand ?_ (.systemCall hx) (by simpa using hall.imp fun c hc => goes_isNameChar c hc)
    (hfront.toList_append _) rfl
  rw [code_node, nodeCode, codes_contextOf rfl, name_contextOf rfl]
  simp

theorem isPrinted_systemCallWith (hs : s = .ID ∨ s = .SIGNED) (hx : Lexeme s x) (hne : ts ≠ [])
    (hts : ∀ t ∈ ts, ∃ x, IsPrinted margin t x) :
    ∃ y, IsPrinted margin (.node .systemCall p [.text x, .seq ts]) y := by
  obtain ⟨xs, w, hxs, hne', hw, hlays⟩ := exists_arguments hne hts
  have hword : Lays (isNameChar · = false) (escape x).toList [(s, x)] := by
    rcases hs with rfl | rfl <;> exact lays_word hx (by decide) (by decide)
  have hcall : Lays (fun _ => True) _ ([(s, x)] ++ ([(.LPAREN, "(")] ++ (w ++ [(.RPAREN, ")")]))) :=
    hword.join "(" ⟨'(', _, rfl, by decide⟩ rfl (hlays.append_glue ")" ⟨')', _, rfl, by decide⟩ rfl)
  have hall : Lays (fun _ => True) _ ([(.DOLLER, "$")] ++ _) := .glue_append "$" rfl hcall
  have hfront : Front (· ∉ '(' :: furtherChars) "$".toList := ⟨'$', _, rfl, by decide⟩
  refine ⟨"$" ++ (escape x ++ ("(" ++ Text.joinWith ", " xs ++ ")")), .operand ?_
    (.systemCallWith hs hx hw) (by simpa using hall.any) (hfront.toList_append _) rfl⟩
  rw [code_node, nodeCode, codes_contextOf rfl, name_contextOf rfl, hxs]
  simp [hne', String.append_assoc]

end

/-! ## All expressions -/

def Phrase.Prints (margin : String) (ph : Phrase) (e : Ast) : Prop :=
  match ph with
  | .expr _ => ∃ x, IsPrinted margin e x
  | .operand => ∃ x, IsPrinted margin e x
  | .name => ∃ x, IsPrintedName margin .name e x
  | .pointer => ∃ p u v base x y, e = .node .pointer p [u, v] ∧
      (base = .name ∨ base = .pointer) ∧ IsPrintedName margin base u x ∧ IsPrinted margin v y
  | .scope => ∃ x, IsPrintedScope margin e x
  | .list => ∃ ts, e = .seq ts ∧ ts ≠ [] ∧ ∀ t ∈ ts, ∃ x, IsPrinted margin t x

theorem Spelling.prints {margin : String} {ph : Phrase} {e : Ast} {w : Wording}
    (h : Spelling ph e w) : ph.Prints margin e := by
  induction h with
  | name hx => exact ⟨_, isPrintedName_name hx⟩
  | inScope hs hx ih =>
    obtain ⟨y, hy⟩ := ih
    exact ⟨_, isPrintedName_inScope hx hy⟩
  | scopeName hn ih =>
    obtain ⟨y, hy⟩ := ih
    exact ⟨_, isPrintedScope_name hn.isScope_of_name hy⟩
  | scopePointer hn ih =>
    obtain ⟨_, _, _, base, y, z, heq, hbase, hy, hz⟩ := ih
    cases heq
    exact ⟨_, isPrintedScope_pointer hn.isScope_of_pointer hbase hy hz⟩
  | @pointer p base v e b w w' hbase _ _ ih ih' =>
    obtain ⟨y, hy⟩ := ih'
    have hname : ∃ x, IsPrintedName margin base v x := by
      rcases hbase with rfl | rfl
      · exact ih
      · obtain ⟨_, _, _, base, _, _, rfl, hbase, hx, hy⟩ := ih
        exact ⟨_, isPrintedName_pointer hbase hx hy⟩
    obtain ⟨x, hx⟩ := hname
    exact ⟨p, v, e, base, x, y, rfl, hbase, hx, hy⟩
  | ofName h ih =>
    obtain ⟨x, hx⟩ := ih
    exact ⟨x, hx.isPrinted (fun _ => .ofName) (by cases h <;> rfl)⟩
  | ofPointer h ih =>
    obtain ⟨_, _, _, base, _, _, rfl, hbase, hx, hy⟩ := ih
    exact ⟨_, (isPrintedName_pointer hbase hx hy).isPrinted (fun _ => .ofPointer) rfl⟩
  | integer hs hx => exact ⟨_, isPrinted_integer hs hx⟩
  | float hx => exact ⟨_, isPrinted_float hx⟩
  | string hx hy => exact ⟨_, isPrinted_string hx hy⟩
  | paren _ ih => exact ih
  | concat _ ih =>
    obtain ⟨ts, ⟨⟩, hne, hts⟩ := ih
    exact isPrinted_concat hne hts
  | replicate _ _ ih ih' =>
    obtain ⟨y, hy⟩ := ih
    obtain ⟨ts, ⟨⟩, hne, hts⟩ := ih'
    exact isPrinted_replicate hy hne hts
  | call _ ih =>
    obtain ⟨x, hx⟩ := ih
    exact ⟨_, isPrinted_call hx⟩
  | callWith _ _ ih ih' =>
    obtain ⟨x, hx⟩ := ih
    obtain ⟨ts, ⟨⟩, hne, hts⟩ := ih'
    exact isPrinted_callWith hx hne hts
  | systemCall hx => exact ⟨_, isPrinted_systemCall hx⟩
  | systemCallWith hs hx _ ih =>
    obtain ⟨ts, ⟨⟩, hne, hts⟩ := ih
    exact isPrinted_systemCallWith hs hx hne hts
  | ofOperand _ ih => exact ih
  | unary hk _ ih =>
    obtain ⟨x, hx⟩ := ih
    exact ⟨_, isPrinted_unary hk hx⟩
  | binary hk _ _ _ _ ih ih' =>
    obtain ⟨x, hx⟩ := ih
    obtain ⟨y, hy⟩ := ih'
    exact isPrinted_binary hk hx hy
  | cond _ _ _ ih ih' ih'' =>
    obtain ⟨x, hx⟩ := ih
    obtain ⟨y, hy⟩ := ih'
    obtain ⟨z, hz⟩ := ih''
    exact isPrinted_cond hx hy hz
  | one _ ih => exact ⟨_, rfl, cons_ne_nil _ _, forall_mem_singleton.mpr ih⟩
  | more _ _ ih ih' =>
    obtain ⟨ts, ⟨⟩, -, hts⟩ := ih
    refine ⟨_, rfl, by simp, fun u hu => ?_⟩
    rcases mem_append.mp hu with hu | hu
    · exact hts u hu
    · obtain rfl := mem_singleton.mp hu
      exact ih'

end RtlFlow.Verilog
