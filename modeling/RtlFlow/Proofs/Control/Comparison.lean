import Mathlib
import RtlFlow.Proofs.Control.StateAlgebra

/-!
# Comparisons of a state with a constant

From the comparison of a signal with a constant, a range of states is inferred, or the comparison
stays the condition of a set with any state. In both cases the states found are those in which the
comparison is true, with two exceptions. "Below 0" is taken for no constraint, so that all states are
found instead of none. And "at least", with the signal on the right, is exchanged for a word that the
inference does not know.
-/

namespace RtlFlow

namespace Comparator

def all : List Comparator :=
  [lessThan, greaterThan, lessEq, greaterEq, eq, notEq, eql, notEql]

def ofWord? (s : String) : Option Comparator := all.find? fun o => o.word == s

@[simp] theorem ofWord?_word (o : Comparator) : ofWord? o.word = some o := by
  cases o <;> decide

def mirror : Comparator → Comparator
  | lessThan => greaterThan
  | greaterThan => lessThan
  | lessEq => greaterEq
  | greaterEq => lessEq
  | o => o

theorem holds_mirror (o : Comparator) (a b : Int) : o.mirror.holds a b = o.holds b a := by
  cases o <;> simp only [mirror, holds, eq_comm, ne_comm]

theorem exchanged_word (o : Comparator) : exchanged o.word = o.mirror.word := by
  cases o <;> decide

end Comparator

/-- The side of a comparison on which the signal stands. -/
inductive Side where
  | left | right
deriving DecidableEq, Repr

namespace Side

def comparison (side : Side) (op : Comparator) (signal constant : Tree) : Tree :=
  match side with
  | left => .op op.word [signal, constant]
  | right => .op op.word [constant, signal]

def holds (side : Side) (op : Comparator) (n c : Int) : Bool :=
  match side with
  | left => op.holds n c
  | right => op.holds c n

end Side

/-- The meaning of comparisons where the signal `name` has the value `n`. -/
def comparisonsAt (name : Path) (n : Int) : Tree.Interp Int where
  signal p := if p == name then some n else none
  atom
    | .value (.int v) _ _ _ => some v
    | _ => none
  op word args :=
    match Comparator.ofWord? word, args with
    | some o, [a, b] => some (o.holds a b).toInt
    | _, _ => none
  truth v := v != 0

/-- A condition is true where the signal `name` has the value `n`. -/
def TrueAt (name : Path) (n : Int) (t : Tree) : Prop :=
  (comparisonsAt name n).outcome ((comparisonsAt name n).meaning t) = .yes

/-- The state `n` is in one of the sets, and the condition of the set is true in it. -/
def StateSets.Admits (name : Path) (ss : StateSets) (n : Int) : Prop :=
  ∃ m ∈ ss.members, m.Accepts n (TrueAt name n)

def Side.AsksBelowZero (side : Side) (op : Comparator) (c : Int) : Prop :=
  c = 0 ∧ (side = .left ∧ op = .lessThan ∨ side = .right ∧ op = .greaterThan)

section

variable {name p : Path} {op : Comparator} {side : Side} {n c : Int} {width : Scalar}
  {isReal isText : Bool}

theorem trueAt_comparison (hp : (p == name) = true) :
    TrueAt name n (side.comparison op (.term p) (.value (.int c) width isReal isText)) ↔
      side.holds op n c = true := by
  have hmeaning : (comparisonsAt name n).meaning
      (side.comparison op (.term p) (.value (.int c) width isReal isText)) =
        some (side.holds op n c).toInt := by
    cases side <;>
      simp [Side.comparison, Side.holds, Tree.Interp.meaning, Tree.Interp.meanings, comparisonsAt,
        hp, Comparator.ofWord?_word]
  rw [TrueAt, hmeaning, Tree.Interp.outcome]
  cases side.holds op n c <;> simp [comparisonsAt]

end

namespace StateSets

open StateSet

variable {w : Nat} {name p : Path} {op : Comparator} {side : Side} {c : Int} {width : Scalar}
  {isReal isText : Bool}

/-! ## Sets for ranges -/

theorem admits_rangeSet {low high n : Int} :
    Admits name (.one (rangeSet w low high)) n ↔ low ≤ n ∧ n ≤ high := by
  simp [Admits, members, Accepts, rangeSet, HasState]

theorem exists_not_rangeSet (name : Path) (hc : 0 ≤ c) :
    ∃ ss, (rangeSet w c c).not = .ok ss ∧
      ∀ n, 0 ≤ n → n < 2 ^ w → (Admits name ss n ↔ n ≠ c) := by
  let outside : StateSet :=
    { ranges := Ranges.toScalars (Ranges.compl 0 (2 ^ w - 1) [(c, c)]), max := .int (2 ^ w - 1) }
  refine ⟨.one outside, rfl, fun n hlow hhigh => ?_⟩
  have hgaps : Ranges.Mem n (Ranges.compl 0 (2 ^ w - 1) [(c, c)]) ↔ n ≠ c := by
    have hfirst : Ranges.Mem n (if c - 1 ≥ 0 then [(0, c - 1)] else []) ↔ n < c := by
      split
      · simp only [Ranges.mem_cons, Ranges.not_mem_nil, or_false]
        omega
      · simp only [Ranges.not_mem_nil, false_iff]
        omega
    have hlast : Ranges.Mem n (Ranges.gaps (max (c + 1) 0) (2 ^ w - 1) []) ↔ c < n := by
      rw [Ranges.gaps]
      split
      · simp only [Ranges.mem_cons, Ranges.not_mem_nil, or_false]
        omega
      · simp only [Ranges.not_mem_nil, false_iff]
        omega
    rw [Ranges.compl, Ranges.sort, List.mergeSort_singleton, Ranges.gaps, Ranges.mem_append, hfirst,
      hlast]
    omega
  have hstate : outside.HasState n ↔ n ≠ c := by
    rw [hasState_iff rfl, hgaps]
    simp [outside]
  simp [Admits, members, Accepts, hstate, outside]

/-! ## Comparisons -/

theorem exists_ofInferred (name : Path) {i : Inferred} {low high : Int} (hmin : i.min = .int low)
    (hmax : i.max = .int high ∨ i.max = .none ∧ high = 2 ^ w - 1)
    (hinverted : i.inverted = true → 0 ≤ low ∧ high = low) :
    ∃ ss, ofInferred i (.int w) = .ok (some ss) ∧ ∀ n, 0 ≤ n → n < 2 ^ w →
      (Admits name ss n ↔ (i.inverted = false ↔ low ≤ n ∧ n ≤ high)) := by
  rw [ofInferred_eq hmin hmax]
  cases hinv : i.inverted with
  | false => exact ⟨_, rfl, fun n _ _ => by rw [admits_rangeSet]; simp⟩
  | true =>
    obtain ⟨hlow, rfl⟩ := hinverted hinv
    obtain ⟨ss, hss, hmem⟩ := exists_not_rangeSet (w := w) name hlow
    refine ⟨ss, by simp [hss], fun n hlow hhigh => ?_⟩
    rw [hmem n hlow hhigh]
    simp only [Bool.true_eq_false, false_iff]
    omega

/-- What is inferred from a comparison that has the signal on the left: the states in which it is
true, or all states if it asks for one below 0. -/
theorem exists_inferred (name : Path) (hc : 0 ≤ c) (hop : op ≠ .lessEq) :
    ∃ i ss, Inferred.ofCompare op.word (.int c) = .ok i ∧ ofInferred i (.int w) = .ok (some ss) ∧
      ∀ n, 0 ≤ n → n < 2 ^ w →
        (Admits name ss n ↔ op.holds n c = true ∨ op = .lessThan ∧ c = 0) := by
  by_cases hzero : op = .lessThan ∧ c = 0
  · obtain ⟨rfl, rfl⟩ := hzero
    refine ⟨⟨.none, .none, false⟩, .one (rangeSet w 0 (2 ^ w - 1)), rfl, ?_, fun n hlow hhigh => ?_⟩
    · simp only [ofInferred, maxValue_ofNat]
      rfl
    · rw [admits_rangeSet]
      simp only [and_self, or_true, iff_true]
      omega
  obtain ⟨i, low, high, hi, hmin, hmax, hinverted, -, hholds⟩ := exists_range w hc hop hzero
  obtain ⟨ss, hss, hmem⟩ := exists_ofInferred name hmin hmax hinverted
  refine ⟨i, ss, hi, hss, fun n hlow hhigh => ?_⟩
  rw [hmem n hlow hhigh, hholds n hlow hhigh, or_iff_left hzero]

theorem walkCond_eq_compareStates (l r : Tree) (hop : op ≠ .lessEq) :
    walkCond name (.int w) (.op op.word [l, r]) = compareStates name (.int w) op.word l r := by
  rw [walkCond]
  cases op with
  | lessEq => exact absurd rfl hop
  | _ => rfl

theorem compareStates_left (hp : (p == name) = true) :
    compareStates name (.int w) op.word (.term p) (.value (.int c) width isReal isText) =
      Inferred.ofCompare op.word (.int c) >>= fun i => ofInferred i (.int w) := by
  simp only [compareStates, Tree.isSignal, hp, if_true]
  rfl

theorem compareStates_right (hp : (p == name) = true) :
    compareStates name (.int w) op.word (.value (.int c) width isReal isText) (.term p) =
      Inferred.ofCompare op.mirror.word (.int c) >>= fun i => ofInferred i (.int w) := by
  simp only [compareStates, Tree.isSignal, hp, if_true, Comparator.exchanged_word]
  rfl

theorem walkCond_lessEq (name : Path) (l r : Tree) (hl : l.isHole = false) (hr : r.isHole = false) :
    ∃ ss, walkCond name (.int w) (.op "LessEq" [l, r]) = .ok (some ss) ∧
      ∀ n, Admits name ss n ↔ TrueAt name n (.op "LessEq" [l, r]) := by
  refine ⟨.one { max := .int (2 ^ w - 1), cond := .op "LessEq" [l, r], any := true }, ?_, fun n => ?_⟩
  · have hop : Tree.mkOp "LessEq" [l, r] = .ok (.op "LessEq" [l, r]) := by
      simp [Tree.mkOp, hl, hr]
    rw [walkCond, dualStates, if_pos (by decide), hop]
    simp [anyState, maxValue_ofNat]
  · simp [Admits, members, Accepts, HasState]

/-- The states found for the comparison of the signal with a constant. They are those in which the
comparison is true, unless it asks for a state below 0: then all are found. Only for a constant that
is to be at least the state nothing is found, as the exchanged comparison is not known. -/
theorem walkCond_comparison (w : Nat) {name p : Path} (hp : (p == name) = true) (op : Comparator)
    (side : Side) {c : Int} (hc : 0 ≤ c) (width : Scalar) (isReal isText : Bool) :
    let t := side.comparison op (.term p) (.value (.int c) width isReal isText)
    (op = .greaterEq ∧ side = .right →
      walkCond name (.int w) t = .error (.format "Unsupported Comparator")) ∧
    (¬ (op = .greaterEq ∧ side = .right) →
      ∃ ss, walkCond name (.int w) t = .ok (some ss) ∧ ∀ n, 0 ≤ n → n < 2 ^ w →
        (Admits name ss n ↔ TrueAt name n t ∨ side.AsksBelowZero op c)) := by
  intro t
  have htrue : ∀ n, TrueAt name n t ↔ side.holds op n c = true := fun n => trueAt_comparison hp
  constructor
  · rintro ⟨rfl, rfl⟩
    have hop : Comparator.greaterEq ≠ .lessEq := nofun
    exact (walkCond_eq_compareStates _ _ hop).trans (compareStates_right hp)
  · intro hknown
    by_cases hop : op = .lessEq
    · subst hop
      have hzero : ¬ side.AsksBelowZero .lessEq c := by simp [Side.AsksBelowZero]
      simp only [hzero, or_false]
      cases side with
      | left =>
        obtain ⟨ss, hss, hmem⟩ := walkCond_lessEq (w := w) name (.term p)
          (.value (.int c) width isReal isText) rfl rfl
        exact ⟨ss, hss, fun n _ _ => hmem n⟩
      | right =>
        obtain ⟨ss, hss, hmem⟩ := walkCond_lessEq (w := w) name
          (.value (.int c) width isReal isText) (.term p) rfl rfl
        exact ⟨ss, hss, fun n _ _ => hmem n⟩
    · cases side with
      | left =>
        obtain ⟨i, ss, hi, hss, hmem⟩ := exists_inferred (w := w) name hc hop
        refine ⟨ss, ?_, fun n hlow hhigh => ?_⟩
        · exact (walkCond_eq_compareStates _ _ hop).trans
            ((compareStates_left hp).trans (by rw [hi]; exact hss))
        · rw [hmem n hlow hhigh, htrue]
          simp [Side.holds, Side.AsksBelowZero, and_comm]
      | right =>
        have hmirror : op.mirror ≠ .lessEq := by
          cases op <;> simp_all [Comparator.mirror]
        obtain ⟨i, ss, hi, hss, hmem⟩ := exists_inferred (w := w) name hc hmirror
        refine ⟨ss, ?_, fun n hlow hhigh => ?_⟩
        · exact (walkCond_eq_compareStates _ _ hop).trans
            ((compareStates_right hp).trans (by rw [hi]; exact hss))
        · have hless : op.mirror = .lessThan ↔ op = .greaterThan := by
            cases op <;> simp [Comparator.mirror]
          rw [hmem n hlow hhigh, htrue, Comparator.holds_mirror, hless]
          simp [Side.holds, Side.AsksBelowZero, and_comm]

section Examples

/-- The constant on the left: `2 > state`, which is true in the states 0 and 1. -/
theorem walkCond_comparison_right :
    let t := Side.right.comparison .greaterThan (.term (topSignal "state")) (.ofInt 2)
    ((topSignal "state" == topSignal "state") = true ∧ (0 : Int) ≤ 2) ∧
    (Comparator.greaterThan = .greaterEq ∧ Side.right = .right →
      walkCond (topSignal "state") (.int (2 : Nat)) t =
        .error (.format "Unsupported Comparator")) ∧
    (¬ (Comparator.greaterThan = .greaterEq ∧ Side.right = .right) →
      ∃ ss, walkCond (topSignal "state") (.int (2 : Nat)) t = .ok (some ss) ∧
        ∀ n, 0 ≤ n → n < 2 ^ 2 → (Admits (topSignal "state") ss n ↔
          TrueAt (topSignal "state") n t ∨ Side.right.AsksBelowZero .greaterThan 2)) :=
  ⟨⟨by decide, by decide⟩,
    walkCond_comparison 2 (by decide) .greaterThan .right (by decide) (.int 32) false false⟩

/-- The comparison of a state of two bits with a constant can find too much or nothing: `state < 0`
is found for state 0, and `2 >= state` is refused. -/
theorem walkCond_misses_comparison :
    (∃ ss, walkCond (topSignal "state") (.int 2) (compareState "LessThan" 0) = .ok (some ss) ∧
      Admits (topSignal "state") ss 0 ∧ ¬ TrueAt (topSignal "state") 0 (compareState "LessThan" 0)) ∧
    walkCond (topSignal "state") (.int 2) (.op "GreaterEq" [.ofInt 2, .term (topSignal "state")]) =
      .error (.format "Unsupported Comparator") := by
  have hstate : (topSignal "state" == topSignal "state") = true := by decide
  refine ⟨⟨.one (rangeSet 2 0 3), by cbv, ?_, ?_⟩, by cbv⟩
  · rw [admits_rangeSet]
    decide
  · intro h
    have hless : Side.left.holds .lessThan 0 0 = true := (trueAt_comparison hstate).mp h
    exact absurd hless (by decide)

end Examples

end StateSets

end RtlFlow
