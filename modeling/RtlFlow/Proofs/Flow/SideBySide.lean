import Mathlib
import RtlFlow.Flow.Merge
import RtlFlow.Proofs.Flow.Conditions

/-!
# Slices side by side

Bindings of slices of one signal are sorted by their low ends and put side by side, with unknown
bits where the slices leave places out. A slice then stands at its own place if the items below it
are as wide as its low end is high. The unknown bits get a negative width, so that every slice above
a gap stands too low.
-/

namespace RtlFlow

open List

/-- A binding of the bits from `high` down to `low` of a signal that is no array. -/
structure Slice where
  base : Binding
  high : Int
  low : Int
  le : low ≤ high

namespace Slice

def binding (x : Slice) : Binding :=
  { x.base with msb := .ofInt x.high, lsb := .ofInt x.low, ptr := .hole }

def Below (x y : Slice) : Prop := x.high < y.low

def Apart (x y : Slice) : Prop := Below x y ∨ Below y x

/-! ## The order of slices -/

/-- A signal whose declared range has constant ends. -/
def Ranged (o : Optimizer) (declared : Path → Result Term) (p : Path) : Prop :=
  ∃ t m l wm wl rm rl tm tl, declared p = .ok t ∧
    o.optimize t.msb = .ok (.value (.int m) wm rm tm) ∧
    o.optimize t.lsb = .ok (.value (.int l) wl rl tl)

variable {o : Optimizer} {declared : Path → Result Term} {p : Path} {xs : List Slice}

theorem position_eq (hp : Ranged o declared p) {x : Slice} (hdest : x.base.dest = p) :
    x.binding.position o declared = .ok (.int x.low) := by
  obtain ⟨t, m, l, _, _, _, _, _, _, ht, hm, hl⟩ := hp
  have hspan : Optimizer.span (.int m) (.int l) = .ok (.int ((m - l).natAbs + 1)) := rfl
  have hzero (n : Int) : (Scalar.int 0).mul (.int n) = .ok (.int (0 * n)) := rfl
  have hadd (n : Int) : (Scalar.int 0).add (.int n) = .ok (.int (0 + n)) := rfl
  simp [Binding.position, binding, hdest, ht, hm, hl, Tree.isHole, Tree.valueOf, hspan, hzero,
    Tree.ofInt, Tree.num, hadd]

def ascending (xs : List Slice) : List Slice := xs.mergeSort fun x y => x.low ≤ y.low

theorem perm_ascending (xs : List Slice) : (ascending xs).Perm xs := mergeSort_perm ..

theorem pairwise_ascending (h : xs.Pairwise Apart) : (ascending xs).Pairwise Below := by
  have hsorted : (ascending xs).Pairwise fun x y => decide (x.low ≤ y.low) = true :=
    pairwise_mergeSort (fun a b c hab hbc => by simp at hab hbc ⊢; omega)
      (fun a b => by simp; omega) xs
  have hapart := ((perm_ascending xs).pairwise_iff fun hxy => hxy.symm).mpr h
  refine (hsorted.and hapart).imp ?_
  rintro x y ⟨hle, hbelow | hbelow⟩
  · exact hbelow
  · have hx := x.le
    have hy := y.le
    simp only [Below, decide_eq_true_eq] at hle hbelow
    omega

theorem forIn_positions (xs : List Slice) :
    (forIn (xs.map fun x => (x.binding, Scalar.int x.low)) PUnit.unit
      fun (e : Binding × Scalar) _ => do
        let _ ← e.2.lt (.int 0)
        pure (ForInStep.yield PUnit.unit)) = (.ok PUnit.unit : Result PUnit) := by
  induction xs with
  | nil => rfl
  | cons x xs ih =>
    rw [map_cons, forIn_cons, Scalar.lt_int]
    exact ih

theorem sorted_eq (hp : Ranged o declared p) (hdest : ∀ x ∈ xs, x.base.dest = p) :
    Binding.sorted o declared (xs.map binding) = .ok ((ascending xs).map binding) := by
  have hkeyed : (xs.map binding).mapM (fun b => do return (b, ← b.position o declared)) =
      (.ok (xs.map fun x => (x.binding, Scalar.int x.low)) : Result _) := by
    rw [mapM_map]
    refine mapM_eq_ok_map fun x hx => ?_
    rw [Function.comp_apply, position_eq hp (hdest x hx)]
    rfl
  have hresult {le : Binding × Scalar → Binding × Scalar → Bool} (hle : ∀ x y : Slice,
      decide (x.low ≤ y.low) = le (x.binding, .int x.low) (y.binding, .int y.low)) :
      ((xs.map fun x => (x.binding, Scalar.int x.low)).mergeSort le).map Prod.fst =
        (ascending xs).map binding := by
    rw [← map_mergeSort (r := fun x y => x.low ≤ y.low) fun x _ y _ => hle x y, map_map]
    rfl
  unfold Binding.sorted
  rw [hkeyed, ok_bind]
  split
  · rw [forIn_positions xs, ok_bind]
    exact congrArg Except.ok <| hresult fun x y => by
      simp [Scalar.lt_int, ← decide_not]
  · exact congrArg Except.ok <| hresult fun x y => by
      simp [Scalar.lt_int, ← decide_not]

end Slice

/-! ## The items of slices -/

/-- An item of slices side by side: a slice, or unknown bits. -/
inductive Laid where
  | slice (x : Slice)
  | gap (width : Int)

namespace Laid

def tree : Laid → Tree
  | slice x => x.base.tree
  | gap w => .unknown (.int w)

def width : Laid → Int
  | slice x => x.high - x.low + 1
  | gap w => w

/-- The places that an item stands for; unknown bits for `k` places have the width `-k - 2`. -/
def room : Laid → Int
  | slice x => x.high - x.low + 1
  | gap w => -w - 2

def slice? : Laid → Option Slice
  | slice x => some x
  | gap _ => none

/-- Slices with unknown bits in the gaps between them, the lowest one first; `last` is the place
below which all is done. -/
def lay (last : Int) : List Slice → List Laid
  | [] => []
  | y :: ys =>
    (if last + 1 < y.low then [gap (last - y.low - 1)] else []) ++ slice y :: lay y.high ys

theorem filterMap_lay (last : Int) (ys : List Slice) : (lay last ys).filterMap slice? = ys := by
  induction ys generalizing last with
  | nil => rfl
  | cons y ys ih =>
    have hslice : slice? (slice y) = some y := rfl
    rw [lay, filterMap_append, filterMap_cons_some hslice, ih]
    split <;> rfl

theorem gap_lt_of_mem_lay {last w : Int} {ys : List Slice} (h : gap w ∈ lay last ys) : w < -2 := by
  induction ys generalizing last with
  | nil => cases h
  | cons y ys ih =>
    rcases mem_append.mp h with h | h
    · split at h
      · obtain ⟨⟩ := mem_singleton.mp h
        omega
      · cases h
    · exact ih ((mem_cons.mp h).resolve_left nofun)

theorem sideBySide_eq (last : Int) (ys : List Slice) :
    Binding.sideBySide (.int last) (.int (-1)) (ys.map Slice.binding) =
      .ok ((lay last ys).map tree) := by
  induction ys generalizing last with
  | nil => rfl
  | cons y ys ih =>
    have hitem : y.binding.item = .int (-1) := rfl
    have hsame : (Scalar.int (-1) != Scalar.int (-1)) = false := rfl
    have hadd (m n : Int) : (Scalar.int m).add (.int n) = .ok (.int (m + n)) := rfl
    have hsub (m n : Int) : (Scalar.int m).sub (.int n) = .ok (.int (m - n)) := rfl
    rw [map_cons, Binding.sideBySide]
    simp only [hitem, hsame, Bool.false_eq_true, if_false]
    simp only [Slice.binding, Tree.ofInt, Tree.num, Tree.isHole, Tree.valueOf, Bool.false_eq_true,
      if_false, hadd, hsub, Scalar.lt_int, decide_eq_true_eq, ok_bind, pure_eq]
    by_cases hgap : last + 1 < y.low
    · simp [hgap, lay, ih, tree]
    · simp [hgap, lay, ih, tree]

/-! ## What stands below a slice -/

theorem room_below {last : Int} {ys : List Slice} (hlast : ∀ y ∈ ys, last < y.low)
    (hys : ys.Pairwise Slice.Below) {lower upper : List Laid} {x : Slice}
    (h : lay last ys = lower ++ slice x :: upper) : (lower.map room).sum = x.low - last - 1 := by
  induction ys generalizing last lower with
  | nil => exact absurd h (by simp [lay])
  | cons y ys ih =>
    rw [pairwise_cons] at hys
    have hfirst := hlast y (by simp)
    -- From the low end of the first slice on, with or without unknown bits below it.
    have hfrom : ∀ rest, slice y :: lay y.high ys = rest ++ slice x :: upper →
        (rest.map room).sum = x.low - y.low := by
      intro rest hrest
      cases rest with
      | nil =>
        obtain ⟨⟨⟩, -⟩ := List.cons.inj hrest
        simp
      | cons i rest =>
        obtain ⟨rfl, htail⟩ := List.cons.inj hrest
        have := ih (fun z hz => hys.1 z hz) hys.2 htail
        simp only [map_cons, sum_cons, room]
        omega
    rw [lay] at h
    by_cases hgap : last + 1 < y.low
    · rw [if_pos hgap] at h
      cases lower with
      | nil => cases (List.cons.inj h).1
      | cons i rest =>
        obtain ⟨rfl, hrest⟩ := List.cons.inj h
        have := hfrom rest hrest
        simp only [map_cons, sum_cons, room]
        omega
    · rw [if_neg hgap, nil_append] at h
      have := hfrom lower h
      omega

theorem sum_width_eq_iff {items : List Laid} (h : ∀ w, gap w ∈ items → w < -2) :
    (items.map width).sum ≤ (items.map room).sum ∧
      ((items.map width).sum = (items.map room).sum ↔ ∀ w, gap w ∉ items) := by
  induction items with
  | nil => simp
  | cons i items ih =>
    obtain ⟨hle, hiff⟩ := ih fun w hw => h w (mem_cons_of_mem i hw)
    cases i with
    | slice x => simpa [width, room] using ⟨hle, hiff⟩
    | gap w =>
      have := h w (by simp)
      simp only [map_cons, sum_cons, width, room]
      exact ⟨by omega, iff_of_false (by omega) fun hno => hno w (by simp)⟩

end Laid

/-! ## Slices side by side -/

namespace Binding

open Slice Laid

variable {o : Optimizer} {declared : Path → Result Term} {p : Path} {xs : List Slice}

theorem joined_eq (hp : Ranged o declared p) (hdest : ∀ x ∈ xs, x.base.dest = p) :
    joined o declared (xs.map Slice.binding) =
      .ok (.concat ((lay (-1) (ascending xs)).reverse.map Laid.tree)) := by
  rw [joined, sorted_eq hp hdest, map_reverse]
  show (sideBySide _ _ ((ascending xs).map Slice.binding) >>= _) = _
  rw [sideBySide_eq]
  rfl

/-- Bindings of slices of one signal that do not overlap, side by side. Each of them is an item of
the concatenation once, and all other items are unknown bits. The items below a slice stand for all
places below it. Together they are as wide only if there are no unknown bits among them, as these
have a negative width. -/
theorem joined_offsets (hp : Ranged o declared p) (hdest : ∀ x ∈ xs, x.base.dest = p)
    (hapart : xs.Pairwise Apart) (hlow : ∀ x ∈ xs, 0 ≤ x.low) :
    ∃ items : List Laid,
      joined o declared (xs.map Slice.binding) = .ok (.concat (items.map Laid.tree)) ∧
      (items.filterMap slice?).Perm xs ∧ (∀ w, gap w ∈ items → w < -2) ∧
      ∀ above x below, items = above ++ Laid.slice x :: below →
        (below.map room).sum = x.low ∧ ((below.map width).sum = x.low ↔ ∀ w, gap w ∉ below) := by
  have hperm := perm_ascending xs
  have hgaps : ∀ w, gap w ∈ (lay (-1) (ascending xs)).reverse → w < -2 :=
    fun w hw => gap_lt_of_mem_lay (mem_reverse.mp hw)
  refine ⟨_, joined_eq hp hdest, ?_, hgaps, ?_⟩
  · rw [filterMap_reverse, filterMap_lay]
    exact (reverse_perm _).trans hperm
  · intro above x below h
    have hlay : lay (-1) (ascending xs) = below.reverse ++ Laid.slice x :: above.reverse := by
      rw [← reverse_reverse (lay _ _), h]
      simp
    have hlast : ∀ y ∈ ascending xs, -1 < y.low := by
      intro y hy
      have := hlow y (hperm.mem_iff.mp hy)
      omega
    have hroom := room_below hlast (pairwise_ascending hapart) hlay
    rw [map_reverse, sum_reverse] at hroom
    have hsum : (below.map room).sum = x.low := by omega
    have hbelow : ∀ w, gap w ∈ below → w < -2 := fun w hw => hgaps w (by simp [h, hw])
    exact ⟨hsum, hsum ▸ (sum_width_eq_iff hbelow).2⟩

/-- Two places are left out, and the unknown bits for them are minus four bits wide. -/
theorem joined_offsets_gap :
    let x : Path := ⟨[⟨"x", .signal, .none⟩]⟩
    let a : Slice := ⟨{ tree := .const .int "a", dest := x }, 3, 0, by decide⟩
    let b : Slice := ⟨{ tree := .const .int "b", dest := x }, 9, 6, by decide⟩
    let declared : Path → Result Term := fun p =>
      .ok ⟨p, [], .ofInt 15, .ofInt 0, .hole, .hole⟩
    ∃ items : List Laid,
      joined {} declared [a.binding, b.binding] = .ok (.concat (items.map Laid.tree)) ∧
      (items.filterMap slice?).Perm [a, b] ∧
      items.map Laid.tree = [.const .int "b", .unknown (.int (-4)), .const .int "a"] := by
  intro x a b declared
  have hp : Ranged {} declared x := ⟨_, 15, 0, _, _, _, _, _, _, rfl, rfl, rfl⟩
  have hdest : ∀ y ∈ [a, b], y.base.dest = x := by simp [a, b]
  have hapart : [a, b].Pairwise Apart := by simp [a, b, Apart, Below]
  have hsorted : ascending [a, b] = [a, b] := mergeSort_of_pairwise (by simp [a, b])
  have hjoined := joined_eq hp hdest
  rw [hsorted] at hjoined
  obtain ⟨items, hitems, hperm, -⟩ := joined_offsets hp hdest hapart (by simp [a, b])
  exact ⟨items, hitems, hperm, Tree.concat.inj (Except.ok.inj (hitems.symm.trans hjoined))⟩

end Binding

end RtlFlow
