import Mathlib
import RtlFlow.Proofs.Flow.OrderedForm

/-!
# Trees that can be compared

Only two delays cannot be compared. So a tree without delays can be compared with every tree. Labels
that leave their kind open match labels of different kinds; a tree without them is tame.
-/

namespace RtlFlow.Tree

mutual

def every (test : Tree → Bool) : Tree → Bool
  | .op name args => test (.op name args) && everyAll test args
  | .concat items => test (.concat items) && everyAll test items
  | .call name args => test (.call name args) && everyAll test args
  | .part var msb lsb =>
    test (.part var msb lsb) && every test var && every test msb && every test lsb
  | .item var ptr => test (.item var ptr) && every test var && every test ptr
  | .branch cond yes no =>
    test (.branch cond yes no) && every test cond && every test yes && every test no
  | .delay next => test (.delay next) && every test next
  | t => test t

def everyAll (test : Tree → Bool) : List Tree → Bool
  | [] => true
  | t :: ts => every test t && everyAll test ts

end

/-- Whether a tree is no signal with a label that leaves its kind open. -/
def closed : Tree → Bool
  | .term p => p.labels.all fun l => l.kind != .any
  | _ => true

/-- Whether no label in a tree leaves its kind open. -/
def tame (t : Tree) : Bool := t.every closed

theorem ite_eq_ok_true {x y : Result Bool} :
    (do if ← x then y else pure false) = .ok true ↔ x = .ok true ∧ y = .ok true := by
  rcases x with e | b
  · simp
  · cases b <;> simp

theorem exists_ite {x y : Result Bool} (hx : ∃ b, x = .ok b) (hy : ∃ b, y = .ok b) :
    ∃ b, (do if ← x then y else pure false) = .ok b := by
  obtain ⟨b, rfl⟩ := hx
  cases b with
  | true => exact hy
  | false => exact ⟨false, rfl⟩

theorem exists_equals : (∀ t u : Tree, delayFree t = true → ∃ b, equal t u = .ok b) ∧
    ∀ ts us : List Tree, delayFreeAll ts = true → ∃ b, equalAll ts us = .ok b := by
  refine equal.mutual_induct (fun t u => delayFree t = true → ∃ b, equal t u = .ok b)
    (fun ts us => delayFreeAll ts = true → ∃ b, equalAll ts us = .ok b) ?hole ?term ?unbound
    ?const ?value ?unknown ?floating ?op ?otherOp ?part ?item ?concat ?branch ?delay ?call
    ?otherCall ?otherKind ?nil ?cons ?otherLength
  case op | call =>
    intro n args n' args' hn ih h
    rw [equal, if_pos hn]
    exact ih h
  case otherOp | otherCall =>
    intro n args n' args' hn _
    rw [equal, if_neg hn]
    exact ⟨false, rfl⟩
  case part | branch =>
    intro a b c a' b' c' ha hb hc h
    simp only [delayFree, Bool.and_eq_true] at h
    rw [equal]
    exact exists_ite (ha h.1.1) (exists_ite (hb h.1.2) (hc h.2))
  case item =>
    intro v p v' p' hv hp h
    simp only [delayFree, Bool.and_eq_true] at h
    rw [equal]
    exact exists_ite (hv h.1) (hp h.2)
  case concat =>
    intro args args' ih h
    exact ih h
  case delay =>
    intro next next' h
    simp [delayFree] at h
  case cons =>
    intro t ts u us ht hts h
    simp only [delayFreeAll, Bool.and_eq_true] at h
    rw [equalAll]
    exact exists_ite (ht h.1) (hts h.2)
  case otherKind =>
    intro t u
    intros
    exact ⟨false, by simp_all [equal]⟩
  case otherLength =>
    intros
    exact ⟨false, by simp_all [equalAll]⟩
  all_goals
    intros
    exact ⟨_, rfl⟩

theorem exists_equal {t : Tree} (u : Tree) (h : delayFree t = true) : ∃ b, equal t u = .ok b :=
  exists_equals.1 t u h

end RtlFlow.Tree
