import Mathlib
import RtlFlow.Ast.Basic

/-!
# Syntax trees without places

* `Ast.unplaced`: a tree without lines and numbers of nodes.
* `Ast.everywhere`: a condition on all nodes of a tree.
-/

namespace RtlFlow.Ast

mutual

def unplaced : Ast → Ast
  | .atom a => .atom a
  | .path p => .path p
  | .seq items => .seq (unplacedAll items)
  | .node k _ parts => .node k {} (unplacedAll parts)

def unplacedAll : List Ast → List Ast
  | [] => []
  | t :: ts => unplaced t :: unplacedAll ts

end

section

attribute [local simp] unplaced unplacedAll

@[simp] theorem unplacedAll_eq_map : ∀ ts : List Ast, unplacedAll ts = ts.map unplaced
  | [] => rfl
  | t :: ts => by simp [unplacedAll_eq_map ts]

@[simp] theorem unplaced_seq (items : List Ast) :
    unplaced (.seq items) = .seq (items.map unplaced) := by
  rw [unplaced, unplacedAll_eq_map]

@[simp] theorem unplaced_node (k : Kind) (p : Place) (parts : List Ast) :
    unplaced (.node k p parts) = .node k {} (parts.map unplaced) := by
  rw [unplaced, unplacedAll_eq_map]

@[simp] theorem unplaced_text (s : String) : unplaced (.text s) = .text s := rfl

@[simp] theorem unplaced_absent : unplaced .absent = .absent := rfl

variable {t : Ast} {k : Kind} {p : Place} {a b : Ast}

theorem eq_atom_of_unplaced {a : Scalar} (h : t.unplaced = .atom a) : t = .atom a := by
  cases t <;> simp_all

theorem eq_text_of_unplaced {s : String} (h : t.unplaced = .text s) : t = .text s :=
  eq_atom_of_unplaced h

theorem eq_absent_of_unplaced (h : t.unplaced = .absent) : t = .absent := eq_atom_of_unplaced h

theorem exists_seq_of_unplaced {items : List Ast} (h : t.unplaced = .seq items) :
    ∃ items', t = .seq items' ∧ items'.map unplaced = items := by
  cases t <;> simp_all

theorem exists_node_of_unplaced {parts : List Ast} (h : t.unplaced = .node k p parts) :
    ∃ p' parts', t = .node k p' parts' ∧ parts'.map unplaced = parts ∧ p = {} := by
  cases t with
  | node k' p' parts' =>
    rw [unplaced_node] at h
    obtain ⟨rfl, rfl, rfl⟩ := Ast.node.inj h
    exact ⟨p', parts', rfl, rfl, rfl⟩
  | _ => simp at h

theorem exists_node_of_unplaced₁ (h : t.unplaced = .node k p [a]) :
    ∃ p' x, t = .node k p' [x] ∧ x.unplaced = a := by
  obtain ⟨p', parts, rfl, hparts, -⟩ := exists_node_of_unplaced h
  simp only [List.map_eq_cons_iff, List.map_eq_nil_iff] at hparts
  obtain ⟨x, _, rfl, hx, rfl⟩ := hparts
  exact ⟨p', x, rfl, hx⟩

theorem exists_node_of_unplaced₂ (h : t.unplaced = .node k p [a, b]) :
    ∃ p' x y, t = .node k p' [x, y] ∧ x.unplaced = a ∧ y.unplaced = b := by
  obtain ⟨p', parts, rfl, hparts, -⟩ := exists_node_of_unplaced h
  simp only [List.map_eq_cons_iff, List.map_eq_nil_iff] at hparts
  obtain ⟨x, _, rfl, hx, y, _, rfl, hy, rfl⟩ := hparts
  exact ⟨p', x, y, rfl, hx, hy⟩

end

mutual

def everywhere (c : Kind → List Ast → Bool) : Ast → Bool
  | .atom _ => true
  | .path _ => true
  | .seq items => everywhereAll c items
  | .node k _ parts => c k parts && everywhereAll c parts

def everywhereAll (c : Kind → List Ast → Bool) : List Ast → Bool
  | [] => true
  | t :: ts => everywhere c t && everywhereAll c ts

end

@[simp] theorem everywhereAll_iff {c : Kind → List Ast → Bool} : ∀ {ts : List Ast},
    everywhereAll c ts = true ↔ ∀ t ∈ ts, everywhere c t = true
  | [] => by simp [everywhereAll]
  | t :: ts => by simp [everywhereAll, everywhereAll_iff]

end RtlFlow.Ast
