import Mathlib
import RtlFlow.Flow.Merge
import RtlFlow.Proofs.Control.Split

/-!
# Merging two definitions

Two trees for the same bits are merged into one. Where their first conditions come out equal the
arms are merged in turn; otherwise one tree is put into the missing leaves of the other. However the
conditions come out, the merged tree selects what one of the two selects, and nothing only where
both select nothing.
-/

namespace RtlFlow

namespace Tree

/-- The conditions of the branches of a tree. -/
def conditions : Tree → List Tree
  | .branch cond yes no => cond :: (conditions yes ++ conditions no)
  | _ => []

/-- A tree, or another one where it is missing. -/
def orElse (t u : Tree) : Tree := if t.isHole then u else t

/-- A leaf that stands for two: it is one of them, and missing only if both are. -/
structure Chosen (s t u : Tree) : Prop where
  present : u ≠ .hole ↔ s ≠ .hole ∨ t ≠ .hole
  mem : u = s ∨ u = t

theorem eq_hole_of_isHole {t : Tree} (h : t.isHole = true) : t = .hole := by
  cases t <;> first | rfl | simp [isHole] at h

theorem orElse_of_ne {t : Tree} (u : Tree) (h : t ≠ .hole) : orElse t u = t :=
  if_neg fun hhole => h (eq_hole_of_isHole hhole)

theorem chosen_orElse (s t : Tree) : Chosen s t (orElse s t) := by
  by_cases hs : s = .hole
  · subst hs
    exact ⟨by simp [orElse, isHole], .inr rfl⟩
  · rw [orElse_of_ne t hs]
    exact ⟨by simp [hs], .inl rfl⟩

theorem Chosen.swap {s t u : Tree} (h : Chosen s t u) : Chosen t s u :=
  ⟨h.present.trans or_comm, h.mem.symm⟩

theorem select_appendTail (truth : Tree → Bool) (tail t : Tree) :
    select truth (Netlist.appendTail tail t) = orElse (select truth t) (select truth tail) := by
  fun_induction select truth t with
  | case1 cond yes no htrue ih => rw [Netlist.appendTail, select, if_pos htrue, ih]
  | case2 cond yes no hfalse ih => rw [Netlist.appendTail, select, if_neg hfalse, ih]
  | case3 t hbranch =>
    cases t with
    | branch => exact absurd rfl (hbranch _ _ _)
    | _ => rfl

end Tree

namespace Netlist

open Tree

variable {n : Netlist} {truth : Tree → Bool}

/-- A condition that the optimizer turns into one of the same truth, without delays. -/
def Settles (n : Netlist) (truth : Tree → Bool) (cond : Tree) : Prop :=
  Yields (fun c => c.delayFree = true ∧ truth c = truth cond) (n.optimizer.optimize cond)

/-- Conditions of two trees that come out equal are true together. -/
def Agree (n : Netlist) (truth : Tree → Bool) (cond cond' : Tree) : Prop :=
  ∀ c c', n.optimizer.optimize cond = .ok c → n.optimizer.optimize cond' = .ok c' →
    c.equal c' = .ok true → truth c = truth c'

/-- What merging asks of the truth of conditions. -/
structure Mergeable (n : Netlist) (truth : Tree → Bool) (first second : Tree) : Prop where
  settles : ∀ cond ∈ first.conditions ++ second.conditions, n.Settles truth cond
  agree : ∀ cond ∈ first.conditions, ∀ cond' ∈ second.conditions, n.Agree truth cond cond'

theorem Mergeable.of_subset {first second first' second' : Tree}
    (h : n.Mergeable truth first second) (hfirst : first'.conditions ⊆ first.conditions)
    (hsecond : second'.conditions ⊆ second.conditions) : n.Mergeable truth first' second' where
  settles cond hcond := h.settles cond <| List.mem_append.mpr <|
    (List.mem_append.mp hcond).imp (hfirst ·) (hsecond ·)
  agree cond hcond cond' hcond' := h.agree cond (hfirst hcond) cond' (hsecond hcond')

theorem yes_subset (cond yes no : Tree) : yes.conditions ⊆ (branch cond yes no).conditions :=
  fun _ h => .tail _ (List.mem_append_left _ h)

theorem no_subset (cond yes no : Tree) : no.conditions ⊆ (branch cond yes no).conditions :=
  fun _ h => .tail _ (List.mem_append_right _ h)

theorem select_filled {cond cond' : Tree} (yes no first : Tree) (h : truth cond' = truth cond) :
    select truth (.branch cond' (appendTail first yes) (appendTail first no)) =
      orElse (select truth (.branch cond yes no)) (select truth first) := by
  simp only [select, select_appendTail, h]
  split <;> rfl

/-- What a merged tree selects. -/
structure Merged (n : Netlist) (truth : Tree → Bool) (first second u : Tree) : Prop where
  chosen : Chosen (select truth first) (select truth second) (select truth u)
  second_wins : ∀ {cond yes no cond' yes' no' c c'}, first = .branch cond yes no →
    second = .branch cond' yes' no' → n.optimizer.optimize cond = .ok c →
    n.optimizer.optimize cond' = .ok c' → c.equal c' = .ok false →
    select truth second ≠ .hole → select truth u = select truth second

theorem Merged.of_leaf {first second u : Tree}
    (hleaf : first.isBranch = false ∨ second.isBranch = false)
    (h : Chosen (select truth first) (select truth second) (select truth u)) :
    n.Merged truth first second u := by
  refine ⟨h, ?_⟩
  rintro _ _ _ _ _ _ _ _ rfl rfl
  rcases hleaf with hleaf | hleaf <;> cases hleaf

/-- However the conditions of two trees come out, the merged tree selects a leaf exactly if one of
the two does, and it is the leaf of one of them. If both are branches whose conditions come out
different then the leaf of the second is taken wherever it has one. -/
theorem mergeTree_selects {first second : Tree} (h : n.Mergeable truth first second) :
    Yields (n.Merged truth first second) (n.mergeTree first second) := by
  induction first, second using mergeTree.induct with
  | case1 cond yes no cond' yes' no' ihyes ihno =>
    obtain ⟨c, hc, hfree, hctruth⟩ := h.settles cond (by simp [conditions])
    obtain ⟨c', hc', -, hctruth'⟩ := h.settles cond' (by simp [conditions])
    obtain ⟨b, hb⟩ := exists_equal c' hfree
    rw [mergeTree, hc, hc']
    cases b with
    | true =>
      have htruth : truth cond = truth cond' := by
        rw [← hctruth, ← hctruth']
        exact h.agree cond (by simp [conditions]) cond' (by simp [conditions]) c c' hc hc' hb
      obtain ⟨yes'', hyes, hy⟩ := ihyes (h.of_subset (yes_subset ..) (yes_subset ..))
      obtain ⟨no'', hno, hn⟩ := ihno (h.of_subset (no_subset ..) (no_subset ..))
      refine ⟨.branch c yes'' no'', ?_, ?_, ?_⟩
      · simp only [hb, hyes, hno, ok_bind]
        rfl
      · simp only [select, hctruth, ← htruth]
        split
        · exact hy.chosen
        · exact hn.chosen
      · rintro _ _ _ _ _ _ a a' ⟨⟩ ⟨⟩ ha ha' hne
        rw [hc] at ha
        rw [hc'] at ha'
        cases ha
        cases ha'
        rw [hb] at hne
        cases hne
    | false =>
      have hselect := select_filled yes' no' (.branch cond yes no) hctruth'
      refine ⟨_, by simp only [hb, ok_bind]; rfl, ?_, ?_⟩
      · rw [hselect]
        exact (chosen_orElse _ _).swap
      · rintro _ _ _ _ _ _ _ _ ⟨⟩ ⟨⟩ - - - hpresent
        rw [hselect, orElse_of_ne _ hpresent]
  | case2 t =>
    rw [mergeTree]
    exact .pure (.of_leaf (.inl rfl) (chosen_orElse _ _))
  | case3 t ht =>
    rw [mergeTree]
    · exact .pure (.of_leaf (.inr rfl) (chosen_orElse _ _).swap)
    · exact ht
  | case4 cond yes no t hbranch hhole =>
    obtain ⟨c, hc, -, hctruth⟩ := h.settles cond (by simp [conditions])
    have hleaf : t.isBranch = false := isBranch_eq_false hbranch
    rw [mergeTree]
    · rw [hc]
      refine .pure (.of_leaf (.inr hleaf) ?_)
      rw [select_filled yes no t hctruth]
      exact chosen_orElse _ _
    · exact hbranch
    · exact hhole
  | case5 t cond yes no hbranch hhole =>
    obtain ⟨c, hc, -, hctruth⟩ := h.settles cond (by simp [conditions])
    have hleaf : t.isBranch = false := isBranch_eq_false hbranch
    rw [mergeTree]
    · rw [hc]
      refine .pure (.of_leaf (.inl hleaf) ?_)
      rw [select_filled yes no t hctruth]
      exact (chosen_orElse _ _).swap
    · exact hbranch
    · exact hhole
  | case6 t u hu hubranch hboth ht htbranch =>
    have hleaf : u.isBranch = false := isBranch_eq_false hubranch
    rw [mergeTree]
    · refine .pure (.of_leaf (.inr hleaf) ?_)
      rw [select_of_leaf hleaf]
      exact ⟨by simp [show u ≠ .hole from hu], .inr rfl⟩
    all_goals assumption

theorem mergeTree_selects_arms :
    let a : Tree := .term ⟨[⟨"a", .signal, .none⟩]⟩
    let b : Tree := .term ⟨[⟨"b", .signal, .none⟩]⟩
    let truth : Tree → Bool := fun t => t.children.isEmpty
    let first : Tree := .branch a b .hole
    let second : Tree := .branch (.op "Ulnot" [a]) .hole a
    Mergeable {} truth first second ∧
      Yields (Merged {} truth first second) (mergeTree {} first second) := by
  intro a b truth first second
  have h : Mergeable {} truth first second := by
    constructor
    · show ∀ cond ∈ [a, .op "Ulnot" [a]], Settles {} truth cond
      simp only [List.forall_mem_cons]
      exact ⟨⟨_, rfl, rfl, rfl⟩, ⟨_, rfl, rfl, rfl⟩, nofun⟩
    · show ∀ cond ∈ [a], ∀ cond' ∈ [.op "Ulnot" [a]], Agree {} truth cond cond'
      simp only [List.mem_singleton, forall_eq]
      rintro _ _ ⟨⟩ ⟨⟩ ⟨⟩
  exact ⟨h, mergeTree_selects h⟩

end Netlist

end RtlFlow
