import Mathlib
import RtlFlow.Proofs.Control.StateSet
import RtlFlow.Proofs.Flow.Conditions

/-!
# Intersections and complements of sets of states

The ranges of a set of states may stand in any order, as long as no two of them have a common state.
Sorting puts each range below the next one, so that the intersection and the complement of such sets
are exact. They are so for every meaning of conditions in which a conjunction is true if both sides
are and a negation if its operand is not. A complement at the root of a condition is taken away like
a negation, which is right only where it is one.
-/

namespace RtlFlow

open List

namespace Ranges

/-- Ranges between 0 and `high`, each with a member, no two of them with a common one. -/
structure Apart (high : Int) (rs : Spans) : Prop where
  bounds : ∀ r ∈ rs, 0 ≤ r.1 ∧ r.1 ≤ r.2 ∧ r.2 ≤ high
  disjoint : rs.Pairwise fun a b => a.2 < b.1 ∨ b.2 < a.1

theorem sort_ordered (rs : Spans) : (sort rs).Pairwise fun a b => a.1 ≤ b.1 := by
  have h := @List.pairwise_mergeSort (Int × Int) (fun a b => decide (a.1 ≤ b.1))
    (fun a b c hab hbc => by simp only [decide_eq_true_eq] at *; omega)
    (fun a b => by simp only [Bool.or_eq_true, decide_eq_true_eq]; omega) rs
  exact h.imp of_decide_eq_true

section

variable {high : Int} {as bs rs : Spans}

theorem Apart.stacked_sort (h : Apart high rs) : Stacked high (sort rs) := by
  have hperm : (sort rs).Perm rs := mergeSort_perm rs _
  have hbounds : ∀ r ∈ sort rs, 0 ≤ r.1 ∧ r.1 ≤ r.2 ∧ r.2 ≤ high :=
    fun r hr => h.bounds r (hperm.mem_iff.mp hr)
  have hdisjoint : (sort rs).Pairwise fun a b => a.2 < b.1 ∨ b.2 < a.1 :=
    hperm.symm.pairwise h.disjoint fun h => h.symm
  refine ⟨fun r hr => ?_, ?_⟩
  · have := hbounds r hr
    omega
  · refine (hdisjoint.and (sort_ordered rs)).imp_of_mem ?_
    rintro a b ha hb ⟨hab, hle⟩
    have := hbounds a ha
    have := hbounds b hb
    omega

theorem Stacked.apart (h : Stacked high rs) (hne : ∀ r ∈ rs, r.1 ≤ r.2) : Apart high rs :=
  ⟨fun r hr => ⟨(h.bounds r hr).1, hne r hr, (h.bounds r hr).2.2⟩, h.ordered.imp .inl⟩

theorem le_of_mem_overlap {a b r : Int × Int} (ha : a.1 ≤ a.2) (hb : b.1 ≤ b.2)
    (hr : r ∈ overlap a b) : r.1 ≤ r.2 := by
  unfold overlap at hr
  split at hr
  · cases hr
  · rename_i h
    simp only [Bool.or_eq_true, decide_eq_true_eq] at h
    rw [mem_singleton.mp hr]
    dsimp only
    omega

theorem Apart.inter (ha : Apart high as) (hb : Apart high bs) :
    Apart high (Ranges.inter as bs) := by
  have hmeet := stacked_meet ha.stacked_sort hb.stacked_sort
  refine (hmeet.sublist (distinct_sublist _)).apart fun r hr => ?_
  obtain ⟨a, hmemA, b, hmemB, hr⟩ := exists_of_mem_meet ((distinct_sublist _).subset hr)
  exact le_of_mem_overlap (ha.bounds a (mem_mergeSort.mp hmemA)).2.1
    (hb.bounds b (mem_mergeSort.mp hmemB)).2.1 hr

end

end Ranges

namespace StateSet

/-- A state, together with the truth of all conditions in it. -/
structure Situation where
  state : Int
  truth : Tree → Bool
  truth_and : ∀ a b, truth (.op "Land" [a, b]) = (truth a && truth b)
  truth_not : ∀ a, truth (.op "Ulnot" [a]) = !truth a

def Denotes (s : StateSet) (x : Situation) : Prop :=
  s.Accepts x.state (x.truth · = true)

/-- A set of states from 0 up to `high`, in ranges without common states. Where any state is allowed
there are no ranges, but a condition. A condition that is a negation or a complement has one
operand. -/
structure Proper (high : Int) (s : StateSet) : Prop where
  min_eq : s.min = .int 0
  max_eq : s.max = .int high
  ranges : ∃ rs, s.ranges = Ranges.toScalars rs ∧ Ranges.Apart high rs
  any : s.any = true → s.ranges = [] ∧ s.cond ≠ .hole
  unary : ∀ op args, s.cond = .op op args → op = "Ulnot" ∨ op = "Unot" →
    ∃ c, args = [c] ∧ c ≠ .hole

/-- A complement at the root of a condition is its negation. It is for an operand of one bit. -/
def Situation.Negates (x : Situation) (cond : Tree) : Prop :=
  ∀ c, cond = .op "Unot" [c] → x.truth cond = !x.truth c

theorem not_unary_land (a b : Tree) : ∀ op args, Tree.op "Land" [a, b] = .op op args →
    op = "Ulnot" ∨ op = "Unot" → ∃ c, args = [c] ∧ c ≠ .hole := by
  rintro op args h hop
  obtain ⟨rfl, -⟩ := Tree.op.inj h
  simp at hop

/-! ## Conditions -/

theorem exists_notCond {c : Tree} (hc : c ≠ .hole)
    (hunary : ∀ op args, c = .op op args → op = "Ulnot" ∨ op = "Unot" →
      ∃ a, args = [a] ∧ a ≠ .hole) :
    ∃ d, notCond c = .ok d ∧ d ≠ .hole ∧
      ∀ x : Situation, x.Negates c → x.truth d = !x.truth c := by
  rcases notCond_cases hc with ⟨op, args, rfl, hop⟩ | hd
  · obtain ⟨a, rfl, ha⟩ := hunary op args rfl hop
    rcases hop with rfl | rfl
    · exact ⟨a, rfl, ha, fun x _ => by rw [x.truth_not, Bool.not_not]⟩
    · exact ⟨a, rfl, ha, fun x hx => by rw [hx a rfl, Bool.not_not]⟩
  · exact ⟨_, hd, by simp, fun x _ => x.truth_not c⟩

/-! ## Intersections -/

section

variable {a b s : StateSet} {high : Int}

theorem Proper.exists_sorted (h : s.Proper high) :
    ∃ rs, s.Sorted high rs ∧ Ranges.Apart high rs := by
  obtain ⟨rs, hrs, hapart⟩ := h.ranges
  exact ⟨rs, ⟨h.min_eq, h.max_eq, hrs, hapart.stacked_sort, fun hany => (h.any hany).2⟩, hapart⟩

theorem Proper.exists_hasState (h : s.Proper high) (hany : s.any = true ∨ s.ranges ≠ []) :
    ∃ n, s.HasState n := by
  obtain ⟨rs, hrs, hapart⟩ := h.ranges
  rcases hany with hany | hne
  · exact ⟨0, .inl hany⟩
  · cases rs with
    | nil => exact absurd hrs hne
    | cons r rs =>
      refine ⟨r.1, (hasState_iff hrs _).mpr (.inr (Ranges.mem_cons.mpr (.inl ⟨Int.le_refl _, ?_⟩)))⟩
      exact (hapart.bounds r (by simp)).2.1

theorem exists_and (ha : a.Proper high) (hb : b.Proper high) :
    ∃ r, a.and b = .ok r ∧ (r = none ↔ ¬ ∃ n, a.HasState n ∧ b.HasState n) ∧
      ∀ s ∈ r, s.Proper high ∧ ∀ x, s.Denotes x ↔ a.Denotes x ∧ b.Denotes x := by
  obtain ⟨as, hsortedA, hapartA⟩ := ha.exists_sorted
  obtain ⟨bs, hsortedB, hapartB⟩ := hb.exists_sorted
  obtain ⟨r, hr, hnone, hsome⟩ := exists_inter hsortedA hsortedB
  have hproper : ∀ s ∈ r, s.Proper high := by
    intro s hs
    obtain ⟨hcond, hany, ⟨rs, hsorted, hrs⟩, -⟩ := hsome s hs
    refine ⟨hsorted.min_eq, hsorted.max_eq, ⟨rs, hsorted.ranges_eq, ?_⟩,
      fun h => ⟨hany.mp h, hsorted.any h⟩, ?_⟩
    · rcases hrs with rfl | rfl | rfl | rfl
      · exact ⟨by simp, .nil⟩
      · exact hapartA
      · exact hapartB
      · exact hapartA.inter hapartB
    · rcases hcond.root with h | h | ⟨-, -, h⟩ <;> rw [h]
      · exact ha.unary
      · exact hb.unary
      · exact not_unary_land _ _
  refine ⟨r, hr, ⟨fun h => not_exists.mpr (hnone h), fun h => ?_⟩, fun s hs => ⟨hproper s hs, ?_⟩⟩
  · refine Option.eq_none_iff_forall_not_mem.mpr fun s hs => h ?_
    obtain ⟨-, hany, -, hstate⟩ := hsome s hs
    obtain ⟨n, hn⟩ := (hproper s hs).exists_hasState (or_iff_not_imp_left.mpr (mt hany.mpr))
    exact ⟨n, (hstate n).mp hn⟩
  · intro x
    obtain ⟨hcond, -, -, hstate⟩ := hsome s hs
    simp only [Denotes, Accepts]
    rw [hstate, and_and_and_comm,
      hcond.truth (fun c => x.truth c = true) fun _ _ => by simp [x.truth_and]]

/-! ## Complements -/

theorem exists_not (hs : s.Proper high) :
    ∃ ss, s.not = .ok ss ∧ ∀ x : Situation, 0 ≤ x.state → x.state ≤ high → x.Negates s.cond →
      ((∃ m ∈ ss.members, m.Denotes x) ↔ ¬ s.Denotes x) := by
  obtain ⟨rs, hsorted, -⟩ := hs.exists_sorted
  obtain ⟨ss, hss, -, -, hmem⟩ := exists_compl hsorted fun hne => exists_notCond hne hs.unary
  refine ⟨ss, hss, fun x hlow hhigh hx => hmem x.state (fun c => x.truth c = true) hlow hhigh ?_⟩
  exact fun d hd => by simp [hd x hx]

end

/-- Intersections and complements are exact. The intersection of two sets is missing exactly if they
have no common state, and otherwise it is a set of the same form that denotes what both denote. The
complement of a set denotes all that the set does not denote, in every situation in which a
complement at the root of its condition is a negation. -/
theorem and_not_exact {a b : StateSet} {high : Int} (ha : a.Proper high) (hb : b.Proper high) :
    (∃ r, a.and b = .ok r ∧ (r = none ↔ ¬ ∃ n, a.HasState n ∧ b.HasState n) ∧
      ∀ s ∈ r, s.Proper high ∧ ∀ x, s.Denotes x ↔ a.Denotes x ∧ b.Denotes x) ∧
    ∃ ss, a.not = .ok ss ∧ ∀ x : Situation, 0 ≤ x.state → x.state ≤ high → x.Negates a.cond →
      ((∃ m ∈ ss.members, m.Denotes x) ↔ ¬ a.Denotes x) :=
  ⟨exists_and ha hb, exists_not ha⟩

section Examples

def signalCond (s : String) : Tree := .term (Path.ofNames ["TOP", s])

/-- A state together with words for the signals. -/
def Situation.ofValuation (ρ : Valuation) (n : Int) : Situation where
  state := n
  truth := ρ.truth
  truth_and := ρ.truth_land
  truth_not := ρ.truth_not

def twoRanges : StateSet :=
  { ranges := [(.int 5, .int 6), (.int 0, .int 2)], max := .int 7, cond := signalCond "busy" }

def idleStates : StateSet := { max := .int 7, cond := .op "Ulnot" [signalCond "idle"], any := true }

theorem and_not_exact_two_ranges :
    twoRanges.Proper 7 ∧ idleStates.Proper 7 ∧
    (∃ r, twoRanges.and idleStates = .ok r ∧
      (r = none ↔ ¬ ∃ n, twoRanges.HasState n ∧ idleStates.HasState n) ∧
      ∀ s ∈ r, s.Proper 7 ∧ ∀ x, s.Denotes x ↔ twoRanges.Denotes x ∧ idleStates.Denotes x) ∧
    ∃ ss, twoRanges.not = .ok ss ∧ ∀ x : Situation, 0 ≤ x.state → x.state ≤ 7 →
      x.Negates twoRanges.cond → ((∃ m ∈ ss.members, m.Denotes x) ↔ ¬ twoRanges.Denotes x) := by
  have htwo : twoRanges.Proper 7 :=
    ⟨rfl, rfl, ⟨[(5, 6), (0, 2)], rfl, by simp, by simp⟩, nofun, nofun⟩
  have hidle : idleStates.Proper 7 := by
    refine ⟨rfl, rfl, ⟨[], rfl, by simp, .nil⟩, fun _ => ⟨rfl, nofun⟩, ?_⟩
    rintro op args h -
    obtain ⟨-, rfl⟩ := Tree.op.inj h
    exact ⟨_, rfl, nofun⟩
  exact ⟨htwo, hidle, and_not_exact htwo hidle⟩

/-- A set under the complement of a signal of two bits, with the value 1. The complement of the
signal is true, and so is the signal itself, so that the situation is in the set and in its
complement. -/
theorem not_meets_complement :
    let s : StateSet :=
      { ranges := [(.int 0, .int 1)], max := .int 3, cond := .op "Unot" [signalCond "a"] }
    let ρ : Valuation := ⟨fun _ => True, fun _ => ⟨2, 1, by decide⟩, fun _ _ _ => rfl⟩
    let x := Situation.ofValuation ρ 0
    s.Proper 3 ∧ ∃ ss, s.not = .ok ss ∧ s.Denotes x ∧ ∃ m ∈ ss.members, m.Denotes x := by
  intro s ρ x
  have hstate : ∃ low high, (Scalar.int low, Scalar.int high) ∈ s.ranges ∧ low ≤ 0 ∧ 0 ≤ high :=
    ⟨0, 1, mem_singleton_self _, by decide, by decide⟩
  refine ⟨⟨rfl, rfl, ⟨[(0, 1)], rfl, by simp, by simp⟩, nofun, ?_⟩, _, rfl,
    ⟨.inr hstate, .inr rfl⟩, _, mem_cons_of_mem _ (mem_singleton_self _),
    .inr hstate, .inr rfl⟩
  rintro op args h -
  obtain ⟨-, rfl⟩ := Tree.op.inj h
  exact ⟨_, rfl, nofun⟩

end Examples

end StateSet

end RtlFlow
