import Mathlib
import RtlFlow.Control.Ranges
import RtlFlow.Proofs.Computation

/-!
# Ranges as sets of integers

The intersection and the complement of lists of ranges are right for lists in which, once they are
sorted, every range ends before the next one begins. Both give such lists again.
-/

namespace RtlFlow.Ranges

variable {high low x : Int} {as bs rs : Spans} {a b r : Int × Int}

def Mem (x : Int) (rs : Spans) : Prop := ∃ r ∈ rs, r.1 ≤ x ∧ x ≤ r.2

@[simp]
theorem not_mem_nil (x : Int) : ¬ Mem x [] := by
  simp [Mem]

theorem mem_cons : Mem x (r :: rs) ↔ (r.1 ≤ x ∧ x ≤ r.2) ∨ Mem x rs := by
  simp [Mem]

theorem mem_append {ts : Spans} : Mem x (rs ++ ts) ↔ Mem x rs ∨ Mem x ts := by
  simp [Mem, or_and_right, exists_or]

/-- Ranges between 0 and `high`, each of which ends before the next one begins. A range without
members is allowed if its low end comes right after its high end. -/
structure Stacked (high : Int) (rs : Spans) : Prop where
  bounds : ∀ r ∈ rs, 0 ≤ r.1 ∧ r.1 ≤ r.2 + 1 ∧ r.2 ≤ high
  ordered : rs.Pairwise fun a b => a.2 < b.1

namespace Stacked

variable {high : Int} {r : Int × Int} {rs ts : Spans}

theorem sublist (h : Stacked high rs) (hsub : ts.Sublist rs) : Stacked high ts :=
  ⟨fun r hr => h.bounds r (hsub.subset hr), h.ordered.sublist hsub⟩

theorem tail (h : Stacked high (r :: rs)) : Stacked high rs :=
  h.sublist (List.sublist_cons_self r rs)

theorem single (h : 0 ≤ r.1 ∧ r.1 ≤ r.2 + 1 ∧ r.2 ≤ high) : Stacked high [r] :=
  ⟨by simpa using h, List.pairwise_singleton _ r⟩

theorem lt_of_mem_tail (h : Stacked high (r :: rs)) {x : Int} (hx : Mem x rs) : r.2 < x := by
  obtain ⟨t, ht, hlow, _⟩ := hx
  have := (List.pairwise_cons.mp h.ordered).1 t ht
  omega

theorem sort_eq (h : Stacked high rs) : sort rs = rs := by
  refine List.mergeSort_of_pairwise ?_
  refine h.ordered.imp_of_mem ?_
  intro a b ha _ hab
  have := h.bounds a ha
  simp only [decide_eq_true_eq]
  omega

theorem sort (h : Stacked high rs) : Stacked high (sort rs) := by
  rwa [h.sort_eq]

end Stacked

theorem mem_sort : Mem x (sort rs) ↔ Mem x rs := by
  simp [Mem, sort]

/-! ## Ranges without repetitions -/

theorem distinct_sublist (rs : Spans) : (distinct rs).Sublist rs := by
  obtain ⟨ts, hts, hsub⟩ := @exists_foldl_append _ List.contains rs []
  rw [distinct, hts]
  exact hsub

theorem mem_distinct : Mem x (distinct rs) ↔ Mem x rs := by
  obtain ⟨ds, hds, hmem⟩ := @exists_foldl_new _ _ _ id (fun _ _ => beq_iff_eq) rs []
  simp only [List.map_id] at hds
  have hdistinct : distinct rs = ds := hds
  simp [Mem, hdistinct, hmem]

/-! ## Intersections -/

theorem mem_overlap : Mem x (overlap a b) ↔ (a.1 ≤ x ∧ x ≤ a.2) ∧ b.1 ≤ x ∧ x ≤ b.2 := by
  unfold overlap
  split
  · rename_i h
    simp only [Bool.or_eq_true, decide_eq_true_eq] at h
    simp only [not_mem_nil, false_iff]
    omega
  · simp only [mem_cons, not_mem_nil, or_false]
    omega

theorem exists_of_mem_meet (h : r ∈ meet as bs) : ∃ a ∈ as, ∃ b ∈ bs, r ∈ overlap a b := by
  fun_induction meet as bs with
  | case1 a as b bs ihB ihA =>
    rcases List.mem_append.mp h with hr | hr
    · exact ⟨a, by simp, b, by simp, hr⟩
    · split at hr
      · obtain ⟨a', ha', b', hb', hr'⟩ := ihB hr
        exact ⟨a', ha', b', List.mem_cons_of_mem _ hb', hr'⟩
      · split at hr
        · obtain ⟨a', ha', b', hb', hr'⟩ := ihA hr
          exact ⟨a', List.mem_cons_of_mem _ ha', b', hb', hr'⟩
        · cases hr
  | case2 => cases h

/-- Of two lists, the first range of the one can be left behind once it has been compared with the
first range of the other, if it does not end later: what else is in the other list lies above it. -/
theorem mem_leave (ha : Stacked high (a :: as)) (hle : b.2 ≤ a.2) :
    Mem x (a :: as) ∧ Mem x (b :: bs) ↔
      ((a.1 ≤ x ∧ x ≤ a.2) ∧ b.1 ≤ x ∧ x ≤ b.2) ∨ Mem x (a :: as) ∧ Mem x bs := by
  constructor
  · rintro ⟨hxa, hxb⟩
    rcases mem_cons.mp hxb with hxb | hxb
    · rcases mem_cons.mp hxa with hxa | hxa
      · exact .inl ⟨hxa, hxb⟩
      · have := ha.lt_of_mem_tail hxa
        omega
    · exact .inr ⟨hxa, hxb⟩
  · rintro (⟨hxa, hxb⟩ | ⟨hxa, hxb⟩)
    · exact ⟨mem_cons.mpr (.inl hxa), mem_cons.mpr (.inl hxb)⟩
    · exact ⟨hxa, mem_cons.mpr (.inr hxb)⟩

/-- The two lists are walked through together, and the one whose first range ends first goes on. -/
theorem mem_meet (ha : Stacked high as) (hb : Stacked high bs) :
    Mem x (meet as bs) ↔ Mem x as ∧ Mem x bs := by
  fun_induction meet as bs with
  | case1 a as b bs ihB ihA =>
    rw [mem_append, mem_overlap]
    split
    · rename_i h
      simp only [ge_iff_le, Bool.and_eq_true, decide_eq_true_eq] at h
      rw [ihB ha hb.tail, mem_leave ha h.1]
    · split
      · rename_i h
        simp only [Bool.and_eq_true, decide_eq_true_eq] at h
        rw [ihA ha.tail hb, and_comm (a := Mem x (a :: as)), mem_leave hb h.1,
          and_comm (a := Mem x as), and_comm (a := a.1 ≤ x ∧ x ≤ a.2)]
      · -- The list whose first range ends first has no other range.
        rename_i hright hleft
        simp only [ge_iff_le, Bool.and_eq_true, decide_eq_true_eq, Bool.not_eq_true', not_and,
          List.isEmpty_eq_false_iff, ne_eq, Decidable.not_not] at hright hleft
        rcases Int.le_total b.2 a.2 with hle | hle
        · rw [hright hle, mem_leave ha hle]
          simp
        · rw [hleft hle, and_comm (a := Mem x [a]), mem_leave hb hle,
            and_comm (a := a.1 ≤ x ∧ x ≤ a.2)]
          simp
  | case2 as bs h =>
    cases as with
    | nil => simp
    | cons a as =>
      cases bs with
      | nil => simp
      | cons b bs => exact absurd rfl (h a as b bs rfl)

theorem bounds_of_mem_overlap (ha : 0 ≤ a.1 ∧ a.1 ≤ a.2 + 1 ∧ a.2 ≤ high)
    (hb : 0 ≤ b.1 ∧ b.1 ≤ b.2 + 1 ∧ b.2 ≤ high) (hr : r ∈ overlap a b) :
    0 ≤ r.1 ∧ r.1 ≤ r.2 + 1 ∧ r.2 ≤ high := by
  unfold overlap at hr
  split at hr
  · cases hr
  · rename_i h
    simp only [Bool.or_eq_true, decide_eq_true_eq] at h
    rw [List.mem_singleton.mp hr]
    omega

theorem ends_of_mem_overlap (hr : r ∈ overlap a b) :
    a.1 ≤ r.1 ∧ b.1 ≤ r.1 ∧ r.2 ≤ a.2 ∧ r.2 ≤ b.2 := by
  unfold overlap at hr
  split at hr
  · cases hr
  · rw [List.mem_singleton.mp hr]
    omega

theorem pairwise_overlap_append (hrs : rs.Pairwise fun a b => a.2 < b.1)
    (habove : ∀ r ∈ rs, a.2 < r.1 ∨ b.2 < r.1) :
    (overlap a b ++ rs).Pairwise fun a b => a.2 < b.1 := by
  refine List.pairwise_append.mpr ⟨?_, hrs, ?_⟩
  · unfold overlap
    split <;> simp
  · intro s hs r hr
    have hends := ends_of_mem_overlap hs
    have := habove r hr
    omega

theorem stacked_meet (ha : Stacked high as) (hb : Stacked high bs) : Stacked high (meet as bs) := by
  constructor
  · intro r hr
    obtain ⟨a, hmemA, b, hmemB, hr⟩ := exists_of_mem_meet hr
    exact bounds_of_mem_overlap (ha.bounds a hmemA) (hb.bounds b hmemB) hr
  · fun_induction meet as bs with
    | case1 a as b bs ihB ihA =>
      split
      · refine pairwise_overlap_append (ihB ha hb.tail) ?_
        intro r hr
        obtain ⟨a', _, b', hb', hr⟩ := exists_of_mem_meet hr
        have := (List.pairwise_cons.mp hb.ordered).1 b' hb'
        have := ends_of_mem_overlap hr
        omega
      · split
        · refine pairwise_overlap_append (ihA ha.tail hb) ?_
          intro r hr
          obtain ⟨a', ha', b', _, hr⟩ := exists_of_mem_meet hr
          have := (List.pairwise_cons.mp ha.ordered).1 a' ha'
          have := ends_of_mem_overlap hr
          omega
        · exact pairwise_overlap_append .nil (by simp)
    | case2 => exact .nil

theorem mem_inter (ha : Stacked high (sort as)) (hb : Stacked high (sort bs)) :
    Mem x (inter as bs) ↔ Mem x as ∧ Mem x bs := by
  rw [inter, mem_distinct, mem_meet ha hb, mem_sort, mem_sort]

theorem stacked_inter (ha : Stacked high (sort as)) (hb : Stacked high (sort bs)) :
    Stacked high (inter as bs) :=
  (stacked_meet ha hb).sublist (distinct_sublist _)

/-! ## Complements -/

theorem mem_gaps (h : Stacked high rs) :
    Mem x (gaps low high rs) ↔ low ≤ x ∧ x ≤ high ∧ ¬ Mem x rs := by
  induction rs generalizing low with
  | nil =>
    unfold gaps
    split
    · simp [mem_cons]
    · simp only [not_mem_nil, false_iff]
      omega
  | cons r rs ih =>
    have hbounds := h.bounds r (by simp)
    have hlater : Mem x rs → r.2 < x := h.lt_of_mem_tail
    have hfirst : Mem x (if r.1 - 1 ≥ low then [(low, r.1 - 1)] else []) ↔ low ≤ x ∧ x < r.1 := by
      split
      · simp only [mem_cons, not_mem_nil, or_false]
        omega
      · simp only [not_mem_nil, false_iff]
        omega
    rw [gaps, mem_append, hfirst, ih h.tail, mem_cons]
    constructor
    · rintro (hx | ⟨hlow, hhigh, hx⟩)
      · refine ⟨hx.1, by omega, ?_⟩
        rintro (hin | hin)
        · omega
        · have := hlater hin
          omega
      · refine ⟨by omega, hhigh, ?_⟩
        rintro (hin | hin)
        · omega
        · exact hx hin
    · rintro ⟨hlow, hhigh, hx⟩
      rcases Int.lt_or_le x r.1 with hlt | hge
      · exact .inl ⟨hlow, hlt⟩
      · have : ¬ x ≤ r.2 := fun hle => hx (.inl ⟨hge, hle⟩)
        exact .inr ⟨by omega, hhigh, fun hin => hx (.inr hin)⟩

theorem bounds_of_mem_gaps {g : Int × Int} (h : Stacked high rs) (hg : g ∈ gaps low high rs) :
    low ≤ g.1 ∧ g.1 ≤ g.2 ∧ g.2 ≤ high := by
  induction rs generalizing low with
  | nil =>
    unfold gaps at hg
    split at hg
    · rw [List.mem_singleton.mp hg]
      omega
    · cases hg
  | cons r rs ih =>
    have hbounds := h.bounds r (by simp)
    rcases List.mem_append.mp hg with hg | hg
    · split at hg
      · rw [List.mem_singleton.mp hg]
        omega
      · cases hg
    · have := ih h.tail hg
      omega

theorem stacked_gaps (h : Stacked high rs) (hlow : 0 ≤ low) : Stacked high (gaps low high rs) := by
  constructor
  · intro g hg
    have := bounds_of_mem_gaps h hg
    omega
  · induction rs generalizing low with
    | nil =>
      unfold gaps
      split <;> simp
    | cons r rs ih =>
      have hbounds := h.bounds r (by simp)
      rw [gaps]
      refine List.pairwise_append.mpr ⟨?_, ih h.tail (by omega), ?_⟩
      · split <;> simp
      · intro a ha g hg
        split at ha
        · have := bounds_of_mem_gaps h.tail hg
          rw [List.mem_singleton.mp ha]
          omega
        · cases ha

theorem mem_compl (h : Stacked high (sort rs)) :
    Mem x (compl 0 high rs) ↔ 0 ≤ x ∧ x ≤ high ∧ ¬ Mem x rs := by
  rw [compl, mem_gaps h, mem_sort]

theorem stacked_compl (h : Stacked high (sort rs)) : Stacked high (compl 0 high rs) :=
  stacked_gaps h (Int.le_refl 0)

/-! ## Ranges of scalars -/

theorem ofScalars_toScalars (rs : Spans) : ofScalars (toScalars rs) = .ok rs := by
  induction rs with
  | nil => rfl
  | cons r rs ih =>
    unfold ofScalars at ih
    rw [toScalars, List.map_cons, ofScalars, List.mapM_cons]
    rw [toScalars] at ih
    rw [ih]
    rfl

theorem mem_toScalars : (Scalar.int low, Scalar.int high) ∈ toScalars rs ↔ (low, high) ∈ rs := by
  simp [toScalars]

end RtlFlow.Ranges
