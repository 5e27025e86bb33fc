import Mathlib
import RtlFlow.Design.Declare
import RtlFlow.Proofs.Flow.Conditions
import RtlFlow.Proofs.Recursion
import RtlFlow.Proofs.Verilog.Expressions

/-!
# Selections with a base and a width

The selection `x[b +: w]` is made into a range from `b` to `b + w`, and `x[b -: w]` into one from `b`
to `b - w`. Both ranges have one place more than the width says, and the first has its ends in the
order that selects nothing.
-/

namespace RtlFlow.Verilog

open List

open Design

/-- An expression of constants has an integer as its value, in a scope. -/
def Evaluates (fs : Frames) (o : Optimizer) (scope : Path) (t : Ast) (n : Int) : Prop :=
  ∃ tree width real text, Declare.tree fs o scope t = .ok tree ∧ tree.isBranch = false ∧
    o.fold tree = .ok (.value (.int n) (.int width) real text)

/-- The marks between base and width, and what they stand for. -/
def indexMarks : List (Sym × Ast.Kind × (Int → Int → Int)) :=
  [(.PLUSCOLON, .plus, (· + ·)), (.MINUSCOLON, .minus, (· - ·))]

variable {fs : Frames} {o : Optimizer} {scope : Path} {b w : Ast} {m n : Int} {mark : Sym}
  {k : Ast.Kind} {f : Int → Int → Int} {p : Production}

theorem isHole_of_fold {t : Tree} {v width : Scalar} {real text : Bool}
    (h : o.fold t = .ok (.value v width real text)) : t.isHole = false := by
  cases t <;> first | rfl | cases h

theorem Evaluates.operation (hk : (mark, k, f) ∈ indexMarks) (hb : Evaluates fs o scope b m)
    (hw : Evaluates fs o scope w n) (place : Ast.Place) :
    Evaluates fs o scope (.node k place [b, w]) (f m n) := by
  obtain ⟨tb, wb, rb, sb, htb, hbranch, hfold⟩ := hb
  obtain ⟨tw, ww, rw, sw, htw, hbranch', hfold'⟩ := hw
  have htree : Declare.tree fs o scope (.node k place [b, w]) = .ok (.op k.word [tb, tw]) := by
    rw [Declare.tree] at htb htw ⊢
    rw [Ast.fold, Ast.foldParts_eq_map]
    simp only [map_cons, map_nil, htb, htw]
    have hop : Tree.mkOp k.word [tb, tw] = .ok (.op k.word [tb, tw]) := by
      simp [Tree.mkOp, isHole_of_fold hfold, isHole_of_fold hfold']
    fin_cases hk
    all_goals
      change (if tb.isBranch || tw.isBranch then _ else raise (Tree.mkOp _ [tb, tw])) = Except.ok _
      rw [hbranch, hbranch']
      exact congrArg raise hop
  have hmax : ∀ a c : Int, (if decide (a < c) = true then Scalar.int c else .int a) = .int (max a c) := by
    intro a c
    split <;> congr 1 <;> simp_all [le_of_lt]
  refine ⟨.op k.word [tb, tw], max (max 0 wb) ww, false, false, htree, rfl, ?_⟩
  rw [Optimizer.fold, Optimizer.foldBounded] at hfold hfold' ⊢
  rw [Optimizer.foldWith]
  simp only [Optimizer.foldAll, hfold, hfold', Optimizer.evaluated?, Option.map_some,
    Optimizer.evalOperator, foldlM_cons, foldlM_nil, Scalar.gt_int, hmax, ok_bind,
    pure_eq]
  fin_cases hk <;> rfl

theorem exists_indexedRule (hk : (mark, k, f) ∈ indexMarks) (hp : p ∈ productions)
    (hright : mark ∈ p.right) :
    ∃ left ∈ [Sym.lpartselect, .partselect], ∃ base ∈ [Sym.identifier, .pointer], ∃ line,
      p = indexedRule left base mark k line := by
  have hrules : ∀ p ∈ sideRules ++ operandRules, mark ∈ p.right →
      ∃ left ∈ [Sym.lpartselect, .partselect], ∃ base ∈ [Sym.identifier, .pointer], ∃ line,
        p = indexedRule left base mark k line := by
    fin_cases hk <;> simp [sideRules, operandRules, choice, build, further, first, pass, rangeRule,
      indexedRule, selecting]
  refine hrules p ?_ hright
  have hP : p.right.contains mark = true := contains_iff_mem.mpr hright
  obtain ⟨i, hi, hp⟩ := exists_group [7, 9] (fun p => p.right.contains mark) hp hP
    (by fin_cases hk <;> decide)
  fin_cases hi
  · exact mem_append_left _ hp
  · exact mem_append_right _ hp

/-- Every production with such a mark is one of a selection from a name or an element, on the left or
the right side. It makes a range whose ends evaluate to the base, and to the base plus or minus the
width. -/
theorem indexed_bounds (hk : (mark, k, f) ∈ indexMarks) (hp : p ∈ productions)
    (hright : mark ∈ p.right) (v : Parts) (ws : Workspace) :
    (p.left ∈ [Sym.lpartselect, .partselect] ∧ ∃ base ∈ [Sym.identifier, .pointer],
      p.right = selecting base [.expression, mark, .expression]) ∧
    ∃ place e ws', p.action v ws = .ok (.node .partselect place [v 1, v 3, e]) ws' ∧
      ∀ fs o scope m n, Evaluates fs o scope (v 3) m → Evaluates fs o scope (v 5) n →
        Evaluates fs o scope e (f m n) := by
  obtain ⟨left, hleft, base, hbase, line, rfl⟩ := exists_indexedRule hk hp hright
  exact ⟨⟨hleft, base, hbase, rfl⟩, _, _, _, rfl, fun fs o scope m n hm hn => hm.operation hk hn _⟩

/-- `x[2 +: 4]` is made into `x[2 : 6]`. -/
theorem indexed_bounds_four :
    let const (n : String) : Ast := .node .intConst {} [.text n]
    let name : Ast := .node .identifier {} [.text "x", .absent]
    ∃ p ∈ productions, ∃ place e ws',
      p.action ⟨#[name, .text "[", const "2", .text "+:", const "4", .text "]"], #[]⟩ {} =
        .ok (.node .partselect place [name, const "2", e]) ws' ∧
      Evaluates {} {} ⟨[]⟩ e 6 := by
  intro const name
  have hp : indexedRule .partselect .identifier .PLUSCOLON .plus true ∈ productions :=
    mem_productions 9 5 rfl rfl
  obtain ⟨-, place, e, ws', h, hvalue⟩ := indexed_bounds mem_cons_self hp (by decide)
    ⟨#[name, .text "[", const "2", .text "+:", const "4", .text "]"], #[]⟩ {}
  have hconst : ∀ n ∈ [2, 4], Evaluates {} {} ⟨[]⟩ (const (Text.ofInt n)) n := by
    intro n hn
    fin_cases hn <;> exact ⟨.const .int _, 32, false, false, rfl, rfl, rfl⟩
  exact ⟨_, hp, place, e, ws', h, hvalue {} {} ⟨[]⟩ 2 4 (hconst 2 (by simp)) (hconst 4 (by simp))⟩

end RtlFlow.Verilog
