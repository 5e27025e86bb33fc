import Mathlib
import RtlFlow.Proofs.Verilog.Image
import RtlFlow.Proofs.Verilog.Printing

/-!
# Printed texts are parsed back
-/

namespace RtlFlow.Verilog

open Grammar

/-- The text of an expression is parsed as the same expression. -/
theorem parseFrom_code_expression {e : Ast} (h : Made .expression e)
    (he : e.everywhere isSpellable = true) (margin : String) (ws : Workspace) :
    ∃ text e' ws', code margin e = .ok text ∧
      ws.parseFrom .expression text = (.ok (some e'), ws') ∧ e'.unplaced = e.unplaced := by
  obtain ⟨w, hw⟩ := h.exists_spelling he
  obtain ⟨text, htext⟩ := (hw.prints : Phrase.Prints margin _ _)
  obtain ⟨w', hw', hlays, -⟩ := htext.exists_operand
  have hread := hw'.isRead 0 _ 0 _ stands_first contexts_expression.1 (.inl List.mem_cons_self)
  obtain ⟨e', ws', hparse, he'⟩ := hlays.laid.parseFrom hread (by omega) ws
  exact ⟨text, e', ws', htext.code_eq, hparse, he'⟩

theorem Made.of_forall₂ {p : Production} (hp : p ∈ productions) {parts : List Ast}
    (hparts : List.Forall₂ Made p.right parts) {lines : Array Int} {ws ws' : Workspace} {v : Ast}
    (h : p.action ⟨parts.toArray, lines⟩ ws = .ok v ws') : Made p.left v := by
  refine .production hp hparts.length_eq.symm (fun i s u hs hu => ?_) h
  obtain ⟨hi, rfl⟩ := List.getElem?_eq_some_iff.mp hs
  obtain ⟨hi', rfl⟩ := List.getElem?_eq_some_iff.mp hu
  exact (List.forall₂_iff_get.mp hparts).2 i hi hi'

theorem made_name {x : String} (hx : Lexeme .ID x) (line : Int) (n : Nat) :
    Made .expression (.node .identifier ⟨line, n + 1⟩ [.text x, .absent]) := by
  have hname : build .identifier [.ID] .identifier (fun p => [p 1, .absent]) ∈ productions :=
    mem_productions 20 0 rfl rfl
  have hpass : pass .expression [.identifier] ∈ productions := mem_productions 8 42 rfl rfl
  have hid := @Made.of_forall₂ _ hname _ (.cons (.token rfl hx) .nil) #[line] { made := n } _ _ rfl
  exact @Made.of_forall₂ _ hpass _ (.cons hid .nil) #[line] {} _ _ rfl

theorem made_binary {k : Ast.Kind} {s : Sym} {m : List Char} (hk : (k, s, m) ∈ binaryOperators)
    {x : String} (hs : s.isTerminal = true) (hx : Lexeme s x) {t u : Ast} (ht : Made .expression t)
    (hu : Made .expression u) (line : Int) (n : Nat) :
    Made .expression (.node k ⟨line, n + 1⟩ [t, u]) :=
  @Made.of_forall₂ _ (binaryRule_mem hk) _ (.cons ht (.cons (.token hs hx) (.cons hu .nil)))
    #[line] { made := n } _ _ rfl

/-- Subtraction does not associate to the right, so parentheses have to be kept. -/
theorem parseFrom_code_difference :
    let e : Ast := .node .minus ⟨1, 5⟩ [.node .identifier ⟨1, 1⟩ [.text "a", .absent],
      .node .minus ⟨1, 4⟩ [.node .identifier ⟨1, 2⟩ [.text "b", .absent],
        .node .identifier ⟨1, 3⟩ [.text "c", .absent]]]
    Made .expression e ∧ e.everywhere isSpellable = true ∧ code "  " e = .ok "(a - (b - c))" ∧
      ∃ text e' ws', code "  " e = .ok text ∧
        ({} : Workspace).parseFrom .expression text = (.ok (some e'), ws') ∧
        e'.unplaced = e.unplaced := by
  have hid : ∀ x ∈ ["a", "b", "c"], firstMatch x.toList = some (.word, x.toList.length) ∧
      wordKind x = "ID" ∧ x ≠ "" := by decide
  have hname : ∀ x ∈ ["a", "b", "c"], Lexeme .ID x := fun x hx =>
    ⟨(hid x hx).2.2, [], .word, by rw [List.append_nil]; exact (hid x hx).1,
      congrArg some (hid x hx).2.1⟩
  have hminus : Lexeme .MINUS "-" := ⟨by decide, [], .token "MINUS", by decide, rfl⟩
  have hop : (Ast.Kind.minus, Sym.MINUS, ['-']) ∈ binaryOperators := by decide
  have hbc := made_binary hop rfl hminus (made_name (hname "b" (by simp)) 1 1)
    (made_name (hname "c" (by simp)) 1 2) 1 3
  have he := made_binary hop rfl hminus (made_name (hname "a" (by simp)) 1 0) hbc 1 4
  exact ⟨he, by decide, by decide, parseFrom_code_expression he (by decide) _ _⟩

/-- The margin of a block goes into a string that has a form feed, as if a line began there. -/
theorem code_block_form_feed :
    let name : Ast := .node .lvalue ⟨1, 2⟩ [.node .identifier ⟨1, 1⟩ [.text "x", .absent]]
    let const : Ast := .node .rvalue ⟨1, 4⟩ [.node .stringConst ⟨1, 3⟩ [.text "a\x0cb"]]
    let assign : Ast := .node .blockingSubstitution ⟨1, 5⟩ [name, const, .absent, .absent]
    code "  " assign = .ok "x = \"a\x0cb\";" ∧
      code "  " (.node .block ⟨1, 6⟩ [.seq [assign], .absent]) =
        .ok "begin\n  x = \"a\x0c  b\";\nend" := by
  decide

end RtlFlow.Verilog
