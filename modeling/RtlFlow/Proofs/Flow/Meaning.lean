import Mathlib
import RtlFlow.Flow.Reorder
import RtlFlow.Proofs.Computation

/-!
# What a dataflow tree means

A tree is interpreted over a type of values. Its meaning is a value, or nothing where the
destination holds what it has: a missing tree holds, and so does every operation, concatenation
or selection with an operand that holds. A branch goes by the truth of its condition; if the
condition itself holds, all branches of an interpretation do the same thing.
-/

namespace RtlFlow.Tree

/-- What a branch can do: take one of its arms, or hold. -/
inductive Outcome where
  | yes | no | hold
deriving DecidableEq, Repr

/-- An interpretation of trees over values. The functions get values only, so that what they
stand for holds as soon as an operand does; what is left out always holds. -/
structure Interp (V : Type) where
  signal : Path → Option V
  atom : Tree → Option V
  op : String → List V → Option V
  concat : List V → Option V := fun _ => none
  part : V → V → V → Option V := fun _ _ _ => none
  item : V → V → Option V := fun _ _ => none
  delay : V → Option V := fun _ => none
  call : String → List V → Option V := fun _ _ => none
  truth : V → Bool
  /-- What a branch does whose condition holds. -/
  undecided : Outcome := .no

namespace Interp

/-- Numbers as values of signals and constants, with their fields of digits. -/
def ofFields (signal : Path → Option Nat) (const : String → Option Nat) : Interp Nat where
  signal := signal
  atom
    | .const _ text => const text
    | .value (.int v) _ _ _ => some v.toNat
    | _ => none
  op _ _ := none
  part v msb lsb := some (v / 2 ^ lsb % 2 ^ (msb + 1 - lsb))
  truth v := v != 0

variable {V : Type} (I : Interp V)

/-- What a branch does, by the meaning of its condition. -/
def outcome : Option V → Outcome
  | some v => if I.truth v then .yes else .no
  | none => I.undecided

/-- The meaning of a branch, by the meanings of its condition and its arms. -/
def choose (cond yes no : Option V) : Option V :=
  match I.outcome cond with
  | .yes => yes
  | .no => no
  | .hold => none

mutual

def meaning : Tree → Option V
  | .hole => none
  | .term p => I.signal p
  | .op name args => (meanings args).bind (I.op name)
  | .concat items => (meanings items).bind I.concat
  | .part var msb lsb =>
    (meaning var).bind fun v => (meaning msb).bind fun m => (meaning lsb).bind fun l => I.part v m l
  | .item var ptr => (meaning var).bind fun v => (meaning ptr).bind fun p => I.item v p
  | .branch cond yes no => I.choose (meaning cond) (meaning yes) (meaning no)
  | .delay next => (meaning next).bind I.delay
  | .call name args => (meanings args).bind (I.call name)
  | t => I.atom t

/-- The meanings of the trees of a list; none if one of them holds. -/
def meanings : List Tree → Option (List V)
  | [] => some []
  | t :: ts => (meaning t).bind fun v => (meanings ts).map (v :: ·)

end

attribute [local simp] meaning meanings

theorem meanings_append (ts us : List Tree) :
    I.meanings (ts ++ us) = (I.meanings ts).bind fun vs => (I.meanings us).map (vs ++ ·) := by
  induction ts with
  | nil => cases h : I.meanings us <;> simp [h]
  | cons t ts ih =>
    cases ht : I.meaning t <;> cases hts : I.meanings ts <;> cases hus : I.meanings us <;>
      simp [ih, ht, hts, hus]

theorem meanings_middle (ts us : List Tree) (t : Tree) :
    I.meanings (ts ++ t :: us) = (I.meaning t).bind fun v =>
      (I.meanings ts).bind fun vs => (I.meanings us).map fun ws => vs ++ v :: ws := by
  rw [meanings_append]
  cases ht : I.meaning t <;> cases hts : I.meanings ts <;> cases hus : I.meanings us <;>
    simp [ht, hus]

end Interp

variable {V : Type} {I : Interp V}
variable {ptr u var : Tree} {F : Option V → Option V} {name : String} {args : List Tree}

/-! ## Branches inside and outside -/

theorem Interp.undecided_of_outcome_hold {cond : Option V} (h : I.outcome cond = .hold) :
    I.undecided = .hold := by
  cases cond with
  | none => exact h
  | some v =>
    simp only [Interp.outcome] at h
    split at h <;> cases h

theorem Interp.choose_map (hF : I.undecided = .hold → F none = none) (cond yes no : Option V) :
    I.choose cond (F yes) (F no) = F (I.choose cond yes no) := by
  unfold Interp.choose
  cases h : I.outcome cond with
  | yes => rfl
  | no => rfl
  | hold => exact (hF (I.undecided_of_outcome_hold h)).symm

/-- If `k` acts on the trees without branches as `F` does on their meanings, then `spread k` does
so on all trees. -/
theorem spread_meaning {k : Tree → Result Tree} (hF : I.undecided = .hold → F none = none)
    (hk : ∀ t u, k t = .ok u → I.meaning u = F (I.meaning t)) {t u : Tree}
    (h : spread k t = .ok u) : I.meaning u = F (I.meaning t) := by
  fun_induction spread k t generalizing u with
  | case1 cond yes no ihyes ihno =>
    simp only [bind_eq_ok, pure_eq_ok] at h
    obtain ⟨yes', hyes, no', hno, rfl⟩ := h
    simp only [Interp.meaning, ihyes hyes, ihno hno]
    exact Interp.choose_map hF _ _ _
  | case2 t => exact hk t u h

theorem spreadList_meaning {build : List Tree → Result Tree} {f : List V → Option V}
    (hb : ∀ ts u, build ts = .ok u → I.meaning u = (I.meanings ts).bind f) :
    ∀ {ts done : List Tree} {u : Tree}, spreadList build done ts = .ok u →
      I.meaning u = (I.meanings (done.reverse ++ ts)).bind f
  | [], done, u, h => by
    rw [List.append_nil]
    exact hb _ _ h
  | t :: ts, done, u, h => by
    rw [Interp.meanings_middle]
    let F : Option V → Option V := fun m => (m.bind fun v => (I.meanings done.reverse).bind fun vs =>
      (I.meanings ts).map fun ws => vs ++ v :: ws).bind f
    refine spread_meaning (F := F) (fun _ => rfl) ?_ h
    intro leaf v hleaf
    have ih := spreadList_meaning hb hleaf
    rw [List.reverse_cons, List.append_assoc, List.singleton_append,
      Interp.meanings_middle] at ih
    exact ih

/-! ## The functions that move branches outwards -/

theorem insertBranch_meaning {base yes no : Tree} (h : insertBranch base yes no = .ok u) :
    I.meaning u = I.choose (I.meaning base) (I.meaning yes) (I.meaning no) := by
  refine spread_meaning (F := fun c => I.choose c (I.meaning yes) (I.meaning no)) ?_ ?_ h
  · intro hold
    simp [Interp.choose, Interp.outcome, hold]
  · intro t u hu
    rw [pure_eq_ok] at hu
    rw [← hu, Interp.meaning]

theorem mkOp_eq_ok (h : mkOp name args = .ok u) : u = .op name args := by
  unfold mkOp at h
  split at h
  · exact absurd h throw_ne_ok
  · exact (pure_eq_ok.mp h).symm

theorem insertOp_meaning (h : insertOp args name = .ok u) :
    I.meaning u = I.meaning (.op name args) := by
  unfold insertOp at h
  rw [Interp.meaning]
  refine spreadList_meaning ?_ h
  intro ts u hu
  rw [mkOp_eq_ok hu, Interp.meaning]

theorem insertConcat_meaning {items : List Tree} (h : insertConcat items = .ok u) :
    I.meaning u = I.meaning (.concat items) := by
  unfold insertConcat at h
  rw [Interp.meaning]
  refine spreadList_meaning ?_ h
  intro ts u hu
  rw [← pure_eq_ok.mp hu, Interp.meaning]

theorem insertPart_meaning {msb lsb : Tree} (h : insertPart var msb lsb = .ok u) :
    I.meaning u = I.meaning (.part var msb lsb) := by
  rw [Interp.meaning]
  refine spread_meaning (F := fun v => v.bind fun v => (I.meaning msb).bind fun m =>
    (I.meaning lsb).bind fun l => I.part v m l) (fun _ => rfl) ?_ h
  intro v u hu
  rw [← pure_eq_ok.mp hu]
  cases v <;> simp [isHole, Interp.meaning]

theorem insertItem_meaning (h : insertItem var ptr = .ok u) :
    I.meaning u = I.meaning (.item var ptr) := by
  rw [Interp.meaning]
  refine spread_meaning (F := fun v => v.bind fun v => (I.meaning ptr).bind fun p => I.item v p)
    (fun _ => rfl) ?_ h
  intro v u hu
  rw [← pure_eq_ok.mp hu]
  cases v <;> simp [isHole, Interp.meaning]

/-- Both places of the selection of an element can branch; the branches of the index come to
stand outside those of the array. -/
theorem spread_item_meaning
    (h : spread (fun p => if var.isBranch then insertItem var p else pure (.item var p)) ptr =
      .ok u) : I.meaning u = I.meaning (.item var ptr) := by
  rw [Interp.meaning]
  refine spread_meaning (F := fun p => (I.meaning var).bind fun v => p.bind fun p => I.item v p)
    ?_ ?_ h
  · intro _
    cases I.meaning var <;> rfl
  · intro p u hu
    split at hu
    · rw [insertItem_meaning hu, Interp.meaning]
    · rw [← pure_eq_ok.mp hu, Interp.meaning]

/-! ## The ordered form -/

mutual

theorem meaning_eq_of_reorder : ∀ {t u : Tree}, reorder t = .ok u → I.meaning u = I.meaning t
  | .branch cond yes no, u, h => by
    simp only [reorder, bind_eq_ok] at h
    obtain ⟨yes', hyes, no', hno, cond', hcond, hu⟩ := h
    rw [insertBranch_meaning hu, meaning_eq_of_reorder hcond, meaning_eq_of_reorder hyes,
      meaning_eq_of_reorder hno, Interp.meaning]
  | .op name args, u, h => by
    simp only [reorder, bind_eq_ok] at h
    obtain ⟨args', hargs, hu⟩ := h
    rw [insertOp_meaning hu, Interp.meaning, Interp.meaning, meanings_eq_of_reorderAll hargs]
  | .concat items, u, h => by
    simp only [reorder, bind_eq_ok] at h
    obtain ⟨items', hitems, hu⟩ := h
    rw [insertConcat_meaning hu, Interp.meaning, Interp.meaning, meanings_eq_of_reorderAll hitems]
  | .part var msb lsb, u, h => by
    simp only [reorder, bind_eq_ok] at h
    obtain ⟨msb', hmsb, lsb', hlsb, var', hvar, hu⟩ := h
    have hpart : I.meaning (.part var' msb' lsb') = I.meaning (.part var msb lsb) := by
      simp only [Interp.meaning, meaning_eq_of_reorder hmsb, meaning_eq_of_reorder hlsb,
        meaning_eq_of_reorder hvar]
    split at hu
    · obtain ⟨_, hfault, _⟩ := bind_eq_ok.mp hu
      exact absurd hfault throw_ne_ok
    · split at hu
      · rw [insertPart_meaning hu, hpart]
      · rw [← pure_eq_ok.mp hu, hpart]
  | .item var ptr, u, h => by
    simp only [reorder, bind_eq_ok] at h
    obtain ⟨ptr', hptr, var', hvar, hu⟩ := h
    rw [spread_item_meaning hu, Interp.meaning, Interp.meaning, meaning_eq_of_reorder hptr,
      meaning_eq_of_reorder hvar]
  | .delay next, u, h => by
    simp only [reorder, bind_eq_ok, pure_eq_ok] at h
    obtain ⟨next', hnext, rfl⟩ := h
    rw [Interp.meaning, Interp.meaning, meaning_eq_of_reorder hnext]
  | .call name args, u, h => absurd h throw_ne_ok
  | .hole, u, h | .term _, u, h | .unbound, u, h | .const _ _, u, h | .value _ _ _ _, u, h
  | .unknown _, u, h | .floating _, u, h => by
    simp only [reorder, pure_eq_ok] at h
    rw [h]

theorem meanings_eq_of_reorderAll :
    ∀ {ts us : List Tree}, reorderAll ts = .ok us → I.meanings us = I.meanings ts
  | [], us, h => by
    simp only [reorderAll, pure_eq_ok] at h
    rw [h]
  | t :: ts, us, h => by
    simp only [reorderAll, bind_eq_ok, pure_eq_ok] at h
    obtain ⟨t', ht, ts', hts, rfl⟩ := h
    rw [Interp.meanings, Interp.meanings, meaning_eq_of_reorder ht, meanings_eq_of_reorderAll hts]

end

/-- Moving the branches of a tree outwards changes its meaning under no interpretation: neither the
order of the operands nor the arms are mixed up, and an arm that is missing holds afterwards as it
did before. -/
theorem reorder_meaning {t : Tree} (h : t.reorder = .ok u) {V : Type} (I : Interp V) :
    I.meaning u = I.meaning t :=
  meaning_eq_of_reorder h

/-- An element whose array branches on a branch without a second arm, and whose index branches
too. -/
theorem reorder_meaning_item_of_branches :
    let k (s : String) : Tree := .const .int s
    let element (s : String) : Tree := .item (k "x") (k s)
    let arm (s : String) : Tree := .branch (k "c") (.branch (k "d") (element s) .hole)
      (.branch .hole (element s) .hole)
    let t := Tree.item (.branch (.branch (k "c") (k "d") .hole) (k "x") .hole)
      (.branch (k "e") (k "1") (k "2"))
    let u := Tree.branch (k "e") (arm "1") (arm "2")
    t.reorder = .ok u ∧ ∀ (V : Type) (I : Interp V), I.meaning u = I.meaning t :=
  ⟨rfl, fun _ I => reorder_meaning rfl I⟩

end RtlFlow.Tree
