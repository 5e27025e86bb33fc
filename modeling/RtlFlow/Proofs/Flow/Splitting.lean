import Mathlib
import RtlFlow.Proofs.Flow.Dividing

/-!
# Splitting overlapping slices

Bindings of slices that may overlap are split at the ends that slices have inside others, so that
the parts of any two slices are the same bits or have none in common. The places are found slice by
slice: the ends of what a slice has in common with the ranges that were recorded before it. A slice
that reaches beyond both ends of a recorded range is not compared with it, so that its places are
not found.
-/

namespace RtlFlow

open List

/-! ## Sorted places -/

theorem mem_distinct {p : Int} {acc ns : List Int} :
    p ∈ ns.foldl (fun acc n => if acc.contains n then acc else n :: acc) acc ↔
      p ∈ acc ∨ p ∈ ns := by
  induction ns generalizing acc with
  | nil => simp
  | cons n ns ih =>
    rw [foldl_cons, ih, mem_cons]
    split
    · next hmem =>
      have hmem : p = n → p ∈ acc := by rintro rfl; simpa using hmem
      rw [← or_assoc, or_iff_left_of_imp hmem]
    · rw [mem_cons, or_left_comm, or_assoc]

theorem mem_sortedSet {p : Int} {ns : List Int} : p ∈ sortedSet ns ↔ p ∈ ns := by
  rw [sortedSet, mem_mergeSort, mem_distinct]
  simp

theorem pairwise_sortedSet (ns : List Int) : (sortedSet ns).Pairwise (· ≤ ·) :=
  pairwise_mergeSort' (· ≤ ·) _

namespace Slice

variable {p : Int} {ps : List Int} {x y : Slice} {xs ys : List Slice}

/-! ## Slices and places -/

/-- A place that divides a slice in two. -/
def Divided (x : Slice) (p : Int) : Prop := x.low < p ∧ p ≤ x.high

def ends (x : Slice) : List Int := [x.low, x.high + 1]

/-- Slices of the same bits, or of different ones only. -/
def Aligned (x y : Slice) : Prop := x.high = y.high ∧ x.low = y.low ∨ Apart x y

theorem aligned_iff :
    Aligned x y ↔ (∀ p ∈ x.ends, ¬ y.Divided p) ∧ ∀ p ∈ y.ends, ¬ x.Divided p := by
  have hx := x.le
  have hy := y.le
  simp only [Aligned, Apart, Below, Divided, ends, forall_mem_cons, not_mem_nil,
    false_imp_iff, implies_true, and_true]
  omega

def range (x : Slice) : BitRange := { msb := x.high, lsb := x.low }

theorem has_iff {r : BitRange} : r.has p ↔ r.lsb ≤ p ∧ p ≤ r.msb := by
  simp [BitRange.has]

/-- One step of collecting places: the ranges that are recorded so far, and the places. -/
def record (acc : List BitRange × List Int) (x : Slice) : List BitRange × List Int :=
  let found := BitRange.matched acc.1 x.range
  (acc.1 ++ found ++ BitRange.unmatched found x.range,
    acc.2 ++ found.flatMap fun r => [r.lsb, r.msb + 1])

/-- The places at which slices are split. -/
def places (xs : List Slice) : List Int := sortedSet (xs.foldl record ([], [])).2

theorem mem_places_pair : p ∈ places [x, y] ↔
    (x.low ≤ y.low ∧ y.low ≤ x.high ∨ x.low ≤ y.high ∧ y.high ≤ x.high) ∧
      (p = max x.low y.low ∨ p = min x.high y.high + 1) := by
  have hy := y.le
  have hfirst : record ([], []) x = ([x.range], []) := by
    simp [record, BitRange.matched, BitRange.unmatched]
  have hsecond : (record ([x.range], []) y).2 =
      (BitRange.matched [x.range] y.range).flatMap fun r => [r.lsb, r.msb + 1] := rfl
  have hhas (q : Int) : BitRange.has { msb := x.high, lsb := x.low } q =
      decide (x.low ≤ q ∧ q ≤ x.high) := by
    simp [BitRange.has]
  have hnone : (Scalar.none != Scalar.none) = false := rfl
  have hmatched : BitRange.matched [x.range] y.range =
      if x.low ≤ y.low ∧ y.low ≤ x.high ∨ x.low ≤ y.high ∧ y.high ≤ x.high then
        [{ msb := min x.high y.high, lsb := max x.low y.low }] else [] := by
    by_cases hlow : x.low ≤ y.low ∧ y.low ≤ x.high <;>
      by_cases hhigh : x.low ≤ y.high ∧ y.high ≤ x.high <;>
      simp [BitRange.matched, range, hhas, hlow, hhigh, hnone] <;> omega
  rw [places, mem_sortedSet, foldl_cons, hfirst, foldl_cons, foldl_nil, hsecond,
    hmatched]
  split
  · next h => simp [h]
  · next h => simp [h]

/-- Every end of a slice that lies inside another one is among the places. -/
def Complete (ps : List Int) (xs : List Slice) : Prop :=
  ∀ x ∈ xs, ∀ y ∈ xs, ∀ p ∈ x.ends, y.Divided p → p ∈ ps

theorem complete_pair (h : ¬ (y.low < x.low ∧ x.high < y.high)) :
    Complete (places [x, y]) [x, y] := by
  have hx := x.le
  have hy := y.le
  simp only [Complete, forall_mem_cons, ends, Divided, mem_places_pair, not_mem_nil,
    false_imp_iff, implies_true, and_true]
  omega

/-- First slices that are apart from each other, and then others, each within one of the first. -/
structure Nested (outer inner : List Slice) : Prop where
  apart : outer.Pairwise Apart
  within : ∀ y ∈ inner, ∃ x ∈ outer, x.low ≤ y.low ∧ y.high ≤ x.high

theorem foldl_record_apart (h : (xs ++ ys).Pairwise Apart) :
    ys.foldl record (xs.map range, []) = ((xs ++ ys).map range, []) := by
  induction ys generalizing xs with
  | nil => simp
  | cons y ys ih =>
    have hfound : BitRange.matched (xs.map range) y.range = [] := by
      simp only [BitRange.matched, filterMap_eq_nil_iff, mem_map, forall_exists_index, and_imp,
        forall_apply_eq_imp_iff₂]
      intro x hx
      have hapart := (pairwise_append.mp h).2.2 x hx y mem_cons_self
      have hle := y.le
      simp only [Apart, Below] at hapart
      have hmiss : x.range.has y.range.lsb = false ∧ x.range.has y.range.msb = false := by
        simp only [Bool.eq_false_iff, ne_eq, has_iff, range]
        omega
      simp [hmiss]
    have hrecord : record (xs.map range, []) y = ((xs ++ [y]).map range, []) := by
      simp [record, hfound, BitRange.unmatched]
    rw [foldl_cons, hrecord, ih (by simpa using h)]
    simp

/-- A slice within one that is recorded brings its ends. -/
theorem ends_subset_foldl_record {a : List BitRange × List Int}
    (hys : ∀ y ∈ ys, ∃ x : Slice, x.range ∈ a.1 ∧ x.low ≤ y.low ∧ y.high ≤ x.high) :
    a.2 ⊆ (ys.foldl record a).2 ∧ ∀ y ∈ ys, y.ends ⊆ (ys.foldl record a).2 := by
  induction ys generalizing a with
  | nil => simp
  | cons y ys ih =>
    obtain ⟨⟨x, hx, hwithin⟩, hys⟩ := forall_mem_cons.mp hys
    obtain ⟨hmore, hends⟩ := ih (a := record a y) fun z hz =>
      (hys z hz).imp fun x hx => ⟨by simp [record, hx.1], hx.2⟩
    have hfound : y.range ∈ BitRange.matched a.1 y.range := by
      have hle := y.le
      have hhas : x.range.has y.range.lsb ∧ x.range.has y.range.msb := by
        simp only [has_iff, range]
        omega
      refine mem_filterMap.mpr ⟨x.range, hx, ?_⟩
      simp only [hhas]
      rfl
    have hhere : y.ends ⊆ (record a y).2 := fun p hp =>
      mem_append_right _ (mem_flatMap.mpr ⟨y.range, hfound, hp⟩)
    refine ⟨fun p hp => hmore (mem_append_left _ hp), forall_mem_cons.mpr ⟨?_, hends⟩⟩
    exact fun p hp => hmore (hhere hp)

theorem Nested.complete (h : Nested xs ys) : Complete (places (xs ++ ys)) (xs ++ ys) := by
  have hends : ∀ y ∈ ys, ∀ p ∈ y.ends, p ∈ places (xs ++ ys) := by
    intro y hy p hp
    rw [places, mem_sortedSet, foldl_append]
    have hfirst := @foldl_record_apart [] xs (by simpa using h.apart)
    rw [map_nil, nil_append] at hfirst
    rw [hfirst]
    refine (ends_subset_foldl_record fun y hy => ?_).2 y hy hp
    obtain ⟨x, hx, hwithin⟩ := h.within y hy
    exact ⟨x, mem_map_of_mem hx, hwithin⟩
  have houter : ∀ y ∈ xs ++ ys, ∃ z ∈ xs, z.low ≤ y.low ∧ y.high ≤ z.high := by
    intro y hy
    rcases mem_append.mp hy with hy | hy
    · exact ⟨y, hy, le_rfl, le_rfl⟩
    · exact h.within y hy
  intro x hx y hy p hp hdivided
  rcases mem_append.mp hx with hx | hx
  · -- An outer slice and the one around `y` are the same, or they have no bit in common.
    obtain ⟨z, hz, hwithin⟩ := houter y hy
    have hle := x.le
    have : Std.Symm Apart := ⟨fun _ _ => Or.symm⟩
    have hxz := h.apart.forall hx hz
    simp only [ends, mem_cons, not_mem_nil, or_false, Divided, Apart, Below] at *
    by_cases heq : x = z
    · subst heq
      omega
    · have := hxz heq
      omega
  · exact hends x hx p hp

/-! ## Parts of slices -/

/-- A part of a slice between its ends and places, divided by none of the places. -/
structure Part (ps : List Int) (x y : Slice) : Prop where
  within : x.low ≤ y.low ∧ y.high ≤ x.high
  undivided : ∀ p ∈ ps, ¬ y.Divided p
  ends : ∀ p ∈ y.ends, p ∈ ps ∨ p ∈ x.ends

theorem Part.outside (h : Part ps x y) (hp : ¬ y.Divided p) : Part (p :: ps) x y :=
  ⟨h.within, forall_mem_cons.mpr ⟨hp, h.undivided⟩,
    fun q hq => (h.ends q hq).imp_left (mem_cons_of_mem p)⟩

theorem aligned_of_complete (hcomplete : Complete ps xs)
    (h : ∀ y ∈ ys, ∃ x ∈ xs, Part ps x y) : ∀ y ∈ ys, ∀ z ∈ ys, Aligned y z := by
  -- An end of a part is a place, and then divides no part, or an end of the slice.
  have hends : ∀ y ∈ ys, ∀ z ∈ ys, ∀ p ∈ y.ends, ¬ z.Divided p := by
    intro y hy z hz p hp hdivided
    obtain ⟨x, hx, hpart⟩ := h y hy
    obtain ⟨x', hx', hpart'⟩ := h z hz
    have hwithin := hpart'.within
    have hmem : p ∈ ps := by
      rcases hpart.ends p hp with hmem | hend
      · exact hmem
      · refine hcomplete x hx x' hx' p hend ?_
        simp only [Divided] at hdivided ⊢
        omega
    exact hpart'.undivided p hmem hdivided
  exact fun y hy z hz => aligned_iff.mpr ⟨hends y hy z hz, hends z hz y hy⟩

end Slice

namespace Netlist

open Slice

variable {n : Netlist} {xs : List Slice} {bs : List Binding}

/-! ## Splitting bindings -/

theorem splitPositions_eq (xs : List Slice) :
    n.splitPositions (xs.map binding) = .ok (places xs) := by
  have hrun (acc : List BitRange × List Int) :
      (xs.map binding).foldlM n.splitStep acc = .ok (xs.foldl record acc) := by
    induction xs generalizing acc with
    | nil => rfl
    | cons x xs ih => exact ih (record acc x)
  rw [splitPositions, hrun]
  rfl

theorem parts_of_splitAtPlaces {ps : List Int} (hps : ps.Pairwise (· ≤ ·)) {x : Slice}
    (h : n.splitAtPlaces x.binding ps = .ok bs) :
    ∃ ys : List Slice, ys.map binding = bs ∧ ∀ y ∈ ys, Part ps x y := by
  induction ps generalizing x bs with
  | nil =>
    cases h
    refine ⟨[x], rfl, forall_mem_singleton.mpr ⟨?_, forall_mem_nil _, fun p => .inr⟩⟩
    exact ⟨Int.le_refl _, Int.le_refl _⟩
  | cons p ps ih =>
    rw [pairwise_cons] at hps
    simp only [splitAtPlaces, bind_eq_ok, pure_eq_ok] at h
    obtain ⟨parts, hparts, rest, hrest, rfl⟩ := h
    by_cases hp : x.Divided p
    · obtain ⟨hlow, hhigh⟩ := hp
      rw [splitBinding_inside hlow hhigh] at hparts
      simp only [bind_eq_ok, pure_eq_ok] at hparts
      obtain ⟨-, -, -, -, right, -, left, -, rfl⟩ := hparts
      obtain ⟨ys, rfl, hpieces⟩ := ih hps.2 hrest
      refine ⟨x.narrow right (p - 1) x.low (by omega) :: ys, rfl, forall_mem_cons.mpr ⟨?_, ?_⟩⟩
      · refine ⟨⟨Int.le_refl _, by simp only [narrow]; omega⟩, ?_, by simp [ends, narrow]⟩
        intro q hq
        have hle : p ≤ q := (mem_cons.mp hq).elim (fun h => by omega) (hps.1 q)
        simp only [Divided, narrow]
        omega
      · intro y hy
        obtain ⟨⟨hle, hle'⟩, hundivided, hends⟩ := hpieces y hy
        simp only [narrow] at hle hle'
        refine ⟨⟨by omega, hle'⟩, forall_mem_cons.mpr ⟨?_, hundivided⟩, fun q hq => ?_⟩
        · simp only [Divided]
          omega
        · have hq := hends q hq
          simp only [ends, narrow, mem_cons, not_mem_nil, or_false] at hq ⊢
          rcases hq with hq | rfl | rfl
          · exact .inl (.inr hq)
          · exact .inl (.inl rfl)
          · exact .inr (.inr rfl)
    · rw [splitBinding_outside hp] at hparts
      cases hparts
      obtain ⟨ys, rfl, hpieces⟩ := ih hps.2 hrest
      refine ⟨ys, rfl, fun y hy => (hpieces y hy).outside ?_⟩
      have := (hpieces y hy).within
      simp only [Divided] at hp ⊢
      omega

theorem parts_of_splitBindings {ps : List Int} (hps : ps.Pairwise (· ≤ ·))
    (h : n.splitBindings ps (xs.map binding) = .ok bs) :
    ∃ ys : List Slice, ys.map binding = bs ∧ ∀ y ∈ ys, ∃ x ∈ xs, Part ps x y := by
  induction xs generalizing bs with
  | nil =>
    cases h
    exact ⟨[], rfl, forall_mem_nil _⟩
  | cons x xs ih =>
    rw [map_cons] at h
    simp only [splitBindings, bind_eq_ok, pure_eq_ok] at h
    obtain ⟨here, hhere, rest, hrest, rfl⟩ := h
    obtain ⟨zs, rfl, hpieces⟩ := parts_of_splitAtPlaces hps hhere
    obtain ⟨ys, rfl, hparts⟩ := ih hrest
    refine ⟨zs ++ ys, by simp, forall_mem_append.mpr ⟨fun z hz => ?_, fun y hy => ?_⟩⟩
    · exact ⟨x, by simp, hpieces z hz⟩
    · obtain ⟨w, hw, hpart⟩ := hparts y hy
      exact ⟨w, by simp [hw], hpart⟩

/-- Bindings of slices, split at the places found for them. The parts of any two slices are the same
bits or have none in common if no place is missing. Of two slices, none is missing if the second one
does not reach beyond both ends of the first one. Otherwise no place is found at all. Of more slices,
none is missing if those that come first are apart and each other one lies within one of them. -/
theorem splitBindings_aligned (xs : List Slice) :
    ∃ ps, n.splitPositions (xs.map binding) = .ok ps ∧
      (Complete ps xs → ∀ bs, n.splitBindings ps (xs.map binding) = .ok bs →
        ∃ ys : List Slice, ys.map binding = bs ∧ ∀ y ∈ ys, ∀ z ∈ ys, Aligned y z) ∧
      (∀ outer inner, xs = outer ++ inner → Nested outer inner → Complete ps xs) ∧
      ∀ x y, xs = [x, y] → if y.low < x.low ∧ x.high < y.high then
          ps = [] ∧ n.splitBindings ps (xs.map binding) = .ok (xs.map binding) ∧ ¬ Aligned x y
        else Complete ps xs := by
  refine ⟨places xs, splitPositions_eq xs, ?_, ?_, ?_⟩
  · intro hcomplete bs hbs
    obtain ⟨ys, hys, hparts⟩ := parts_of_splitBindings (pairwise_sortedSet _) hbs
    exact ⟨ys, hys, aligned_of_complete hcomplete hparts⟩
  · rintro outer inner rfl hnested
    exact hnested.complete
  · rintro x y rfl
    split
    · next hround =>
      have hx := x.le
      have hnone : places [x, y] = [] := by
        rw [eq_nil_iff_forall_not_mem]
        intro p
        rw [mem_places_pair]
        omega
      rw [hnone]
      refine ⟨rfl, rfl, ?_⟩
      simp only [Aligned, Slice.Apart, Slice.Below]
      omega
    · next hround => exact complete_pair hround

/-- A slice around the one before it is not split. -/
theorem splitBindings_aligned_around :
    let d : Path := ⟨[⟨"d", .signal, .none⟩]⟩
    let n : Netlist := {}
    let x : Slice := ⟨{ tree := .const .int "a", dest := d }, 3, 2, by decide⟩
    let y : Slice := ⟨{ tree := .const .int "b", dest := d }, 7, 0, by decide⟩
    n.splitPositions [x.binding, y.binding] = .ok [] ∧
      n.splitBindings [] [x.binding, y.binding] = .ok [x.binding, y.binding] ∧ ¬ Aligned x y := by
  intro d n x y
  obtain ⟨ps, hps, -, -, hpair⟩ := @splitBindings_aligned n [x, y]
  have hpair := hpair x y rfl
  rw [if_pos (by decide : (0 : Int) < 2 ∧ (3 : Int) < 7)] at hpair
  obtain ⟨rfl, hsplit, haligned⟩ := hpair
  exact ⟨hps, hsplit, haligned⟩

end Netlist

end RtlFlow
