import Mathlib
import RtlFlow.Proofs.Flow.BitStrings
import RtlFlow.Proofs.Flow.Meaning
import RtlFlow.Proofs.Flow.SideBySide

/-!
# Dividing a slice in two

A binding of a slice is divided at a place by selecting bits from its tree, above and below the
place. The selections are made at the leaves of the tree, and optimizing leaves them as they are. So
the lower part has the lower bits. For the upper part the places of the signal are taken for places
in the tree; these are the same only for a slice that begins at place zero.
-/

namespace RtlFlow

namespace Optimizer

variable {o : Optimizer} {t u : Tree} {m l : Int}

/-- A tree that is no value, and that folding and simplifying leave as it is. -/
structure Kept (o : Optimizer) (t : Tree) : Prop where
  fold : o.fold t = .ok t
  simplify : o.simplify t = .ok t
  isValue : t.isValue = false

theorem Kept.optimize (h : Kept o t) : o.optimize t = .ok t := by
  have htimes (k : Nat) : o.optimizeTimes k t = .ok t := by
    induction k with
    | zero => rfl
    | succ k ih =>
      rw [optimizeTimes, h.fold]
      show (o.simplify t >>= _) = _
      rw [h.simplify]
      exact ih
  exact htimes o.level

/-- The bits from `m` down to `l` of the leaves of a tree; a missing leaf stays. -/
def selected (m l : Int) : Tree → Tree
  | .branch cond yes no => .branch cond (selected m l yes) (selected m l no)
  | .hole => .hole
  | t => .part t (.ofInt m) (.ofInt l)

/-- Branches between different trees of `k` bits that optimizing leaves as they are. -/
inductive Muxed (o : Optimizer) (k : Int) : Tree → Prop
  | hole : Muxed o k .hole
  | leaf {t : Tree} (h : Kept o t) (hbranch : t.isBranch = false)
      (hconcat : ∀ items, t ≠ .concat items) (hwidth : o.width t = .ok (.int k)) : Muxed o k t
  | branch {cond yes no : Tree} (hcond : Kept o cond) (hyes : Muxed o k yes) (hno : Muxed o k no)
      (hne : yes.equal no = .ok false) : Muxed o k (.branch cond yes no)

theorem Kept.part (h : Kept o t) (hconcat : ∀ items, t ≠ .concat items) {k : Int}
    (hwidth : o.width t = .ok (.int k)) (hk : l = 0 → m + 1 ≠ k) :
    Kept o (.part t (.ofInt m) (.ofInt l)) := by
  refine ⟨?_, ?_, rfl⟩
  · show (o.fold t >>= _) = _
    rw [h.fold]
    have hvalue := h.isValue
    cases t <;> first | rfl | cases hvalue
  · have hsimplify : o.simplifyPart t (.ofInt m) (.ofInt l) = do
        if (Scalar.int l == .int 0) = true then
          if (← o.width t) == (← (Scalar.int m).add (.int 1)) then return t
        return .part t (.ofInt m) (.ofInt l) := by
      cases t with
      | concat items => exact absurd rfl (hconcat items)
      | _ => rfl
    show (o.simplify t >>= fun t => o.simplifyPart t (.ofInt m) (.ofInt l)) = _
    rw [h.simplify, show (Except.ok t >>= _) = o.simplifyPart t (.ofInt m) (.ofInt l) from rfl,
      hsimplify, hwidth]
    by_cases hl : l = 0
    · have hne : (Scalar.int k == .int (m + 1)) = false := by
        rw [Bool.eq_false_iff, Ne, Scalar.int_same_iff]
        exact fun h => hk hl h.symm
      subst hl
      show (if (Scalar.int k == .int (m + 1)) = true then _ else _) = _
      rw [hne]
      rfl
    · have hne : (Scalar.int l == .int 0) = false := by
        rw [Bool.eq_false_iff, Ne, Scalar.int_same_iff]
        exact hl
      rw [hne]
      rfl

theorem Kept.branch {cond yes no : Tree} (hcond : Kept o cond) (hyes : Kept o yes) (hno : Kept o no)
    (hne : yes.equal no = .ok false) : Kept o (.branch cond yes no) := by
  have hvalue := hcond.isValue
  refine ⟨?_, ?_, rfl⟩
  · refine bind_eq_ok.mpr ⟨_, hcond.fold, bind_eq_ok.mpr ⟨_, hyes.fold, bind_eq_ok.mpr
      ⟨_, hno.fold, ?_⟩⟩⟩
    cases cond <;> first | rfl | cases hvalue
  · have hsimplify : simplifyBranch cond yes no = .ok (.branch cond yes no) := by
      unfold simplifyBranch
      rw [hne]
      cases cond <;> first | rfl | cases hvalue
    rw [Optimizer.simplify, hcond.simplify, hyes.simplify, hno.simplify]
    exact hsimplify

theorem equal_selected (m l : Int) (t u : Tree) :
    (selected m l t).equal (selected m l u) = t.equal u := by
  have hpart (t u : Tree) :
      (Tree.part t (.ofInt m) (.ofInt l)).equal (.part u (.ofInt m) (.ofInt l)) = t.equal u := by
    have hend (k : Int) : (Tree.ofInt k).equal (.ofInt k) = .ok true := by
      simp [Tree.ofInt, Tree.num, Tree.equal, Scalar.int_same_iff]
    rw [Tree.equal, hend, hend]
    cases t.equal u with
    | error => rfl
    | ok b => cases b <;> rfl
  fun_induction selected m l t generalizing u with
  | case1 cond yes no ihyes ihno =>
    cases u with
    | branch cond' yes' no' => rw [selected, Tree.equal, Tree.equal, ihyes, ihno]
    | _ => simp [selected, Tree.equal]
  | case2 => cases u <;> simp [selected, Tree.equal]
  | case3 t hbranch hhole =>
    cases u with
    | hole | branch =>
      cases t with
      | branch cond yes no => exact absurd rfl (hbranch cond yes no)
      | hole => exact absurd rfl hhole
      | _ => simp [selected, Tree.equal]
    | _ => exact hpart t _

theorem Muxed.kept {k : Int} (h : Muxed o k t) (hk : l = 0 → m + 1 ≠ k) :
    Kept o (selected m l t) := by
  induction h with
  | hole => exact ⟨rfl, rfl, rfl⟩
  | @leaf t h hbranch hconcat hwidth =>
    cases t with
    | hole => exact h
    | branch => cases hbranch
    | _ => exact h.part hconcat hwidth hk
  | branch hcond _ _ hne ihyes ihno =>
    exact hcond.branch ihyes ihno (by rw [equal_selected, hne])

end Optimizer

/-- A part of a slice, with a tree of its own. -/
def Slice.narrow (x : Slice) (tree : Tree) (high low : Int) (h : low ≤ high) : Slice :=
  ⟨{ x.base with tree }, high, low, h⟩

namespace Netlist

open Optimizer Tree

variable {n : Netlist} {x : Slice} {p : Int}

theorem selectBits_eq {t u : Tree} (m l : Int) (hu : t.reorder = .ok u) (hhole : u.isHole = false) :
    selectBits t m l = .ok (selected m l u) := by
  have hend (k : Int) : (Tree.ofInt k).reorder = .ok (.ofInt k) := rfl
  have hinsert : u.insertPart (.ofInt m) (.ofInt l) = .ok (selected m l u) := by
    unfold Tree.insertPart
    clear hu hhole
    fun_induction selected m l u with
    | case1 cond yes no ihyes ihno =>
      rw [Tree.spread, ihyes, ihno]
      rfl
    | case2 => rfl
    | case3 t hbranch hhole =>
      cases t with
      | branch cond yes no => exact absurd rfl (hbranch cond yes no)
      | hole => exact absurd rfl hhole
      | _ => rfl
  rw [selectBits, Tree.reorder, hend, hend, hu]
  cases u with
  | branch => exact hinsert
  | hole => cases hhole
  | _ => rfl

theorem splitBinding_outside (h : ¬ (x.low < p ∧ p ≤ x.high)) :
    n.splitBinding x.binding p = .ok (x.binding, none) := by
  show (if !(p > x.low) then _ else if !(p ≤ x.high) then _ else _) = _
  by_cases hlow : x.low < p
  · have hhigh : ¬ p ≤ x.high := fun hp => h ⟨hlow, hp⟩
    simp [hlow, hhigh]
  · simp [hlow]

theorem splitBinding_inside (hlow : x.low < p) (hhigh : p ≤ x.high) :
    n.splitBinding x.binding p = (do
      let right ← selectBits x.base.tree (p - x.low - 1) 0
      let left ← selectBits x.base.tree x.high p
      let right ← n.optimizer.optimize right
      let left ← n.optimizer.optimize left
      return ((x.narrow left x.high p hhigh).binding,
        some (x.narrow right (p - 1) x.low (by omega)).binding)) := by
  show (if !(p > x.low) then _ else if !(p ≤ x.high) then _ else _) = _
  rw [if_neg (by simp [hlow]), if_neg (by simp [hhigh])]
  rfl

/-- A slice whose tree has as many bits, divided at a place inside it. The lower part means the
lower bits of the tree. The upper part means the bits of the tree at the places that it takes among
those of the signal. -/
theorem splitBinding_meaning (hlow : x.low < p) (hhigh : p ≤ x.high) {u : Tree}
    (hu : x.base.tree.reorder = .ok u) (hhole : u.isHole = false)
    (hmuxed : Muxed n.optimizer (x.high - x.low + 1) u) :
    ∃ left right, n.splitBinding x.binding p = .ok ((x.narrow left x.high p hhigh).binding,
        some (x.narrow right (p - 1) x.low (by omega)).binding) ∧
      ∀ (V : Type) (I : Tree.Interp V),
        I.meaning right = I.meaning (.part x.base.tree (.ofInt (p - x.low - 1)) (.ofInt 0)) ∧
        I.meaning left = I.meaning (.part x.base.tree (.ofInt x.high) (.ofInt p)) := by
  have hlower := selectBits_eq (p - x.low - 1) 0 hu hhole
  have hupper := selectBits_eq x.high p hu hhole
  have hright : Kept n.optimizer (selected (p - x.low - 1) 0 u) := hmuxed.kept (by omega)
  have hleft : Kept n.optimizer (selected x.high p u) := hmuxed.kept (by omega)
  refine ⟨_, _, ?_, fun V I => ⟨meaning_eq_of_reorder hlower, meaning_eq_of_reorder hupper⟩⟩
  rw [splitBinding_inside hlow hhigh, hlower, hupper]
  show (n.optimizer.optimize _ >>= _) = _
  rw [hright.optimize]
  show (n.optimizer.optimize _ >>= _) = _
  rw [hleft.optimize]
  rfl

/-- Four bits from place two on, divided at place four; the upper part selects from places that the
tree does not have. -/
theorem splitBinding_meaning_shifted :
    let a : Path := ⟨[⟨"a", .signal, .none⟩]⟩
    let n : Netlist := { terms := ⟨[(a, { name := a, msb := .ofInt 3, lsb := .ofInt 0 })]⟩ }
    let x : Slice := ⟨{ tree := .term a, dest := a }, 5, 2, by decide⟩
    ∃ (left right : Tree) (I : Tree.Interp Nat),
      n.splitBinding x.binding 4 = .ok ((x.narrow left 5 4 (by decide)).binding,
        some (x.narrow right 3 2 (by decide)).binding) ∧
      I.meaning (.part (.term a) (.ofInt 3) (.ofInt 2)) = some 2 ∧ I.meaning left = some 0 := by
  intro a n x
  have hmuxed : Muxed n.optimizer 4 (.term a) := .leaf ⟨rfl, rfl, rfl⟩ rfl nofun rfl
  obtain ⟨left, right, hsplit, hmeaning⟩ :=
    @splitBinding_meaning n x 4 (by decide) (by decide) _ rfl rfl hmuxed
  let I : Tree.Interp Nat := .ofFields (fun _ => some 10) fun _ => none
  refine ⟨left, right, I, hsplit, rfl, ?_⟩
  rw [(hmeaning Nat I).2]
  rfl

end Netlist

end RtlFlow
