import Mathlib
import RtlFlow.Number.Scalar
import RtlFlow.Proofs.Computation

/-!
# Comparisons of scalars

Scalars are equal if and only if they have the same worth. The worth of a real is its exact number,
so that it can equal an integer; what is not a number has no worth and equals nothing.
-/

namespace RtlFlow

namespace Real

variable {x y : Real}

/-- The exact number, or the sign of an infinite one. -/
def worth (x : Real) : Option (Bool ⊕ ℚ) :=
  match x.decode with
  | .nan => none
  | .infinite negative => some (.inl negative)
  | .finite negative m e => some (.inr (signed negative m * 2 ^ e))

theorem signed_mul {negative : Bool} {m k : Nat} :
    (signed negative (m * k) : ℚ) = signed negative m * k := by
  cases negative <;> simp [signed]

theorem compareInt?_eq_iff {n : Int} : x.compareInt? n = some .eq ↔ x.worth = some (.inr n) := by
  unfold compareInt? worth
  cases x.decode with
  | nan => simp
  | infinite negative => cases negative <;> simp
  | finite negative m e =>
    simp only [Option.some.injEq, Sum.inr.injEq]
    split
    · next he =>
      rw [Std.compare_eq_iff_eq, ← Int.cast_inj (α := ℚ)]
      obtain ⟨k, rfl⟩ : ∃ k : Nat, e = -k := ⟨(-e).toNat, by omega⟩
      simp [← div_eq_mul_inv, div_eq_iff]
    · next he =>
      obtain ⟨k, rfl⟩ : ∃ k : Nat, e = k := ⟨e.toNat, by omega⟩
      rw [Std.compare_eq_iff_eq, ← Int.cast_inj (α := ℚ)]
      simp

theorem compare?_eq_iff : x.compare? y = some .eq ↔ x.worth = y.worth ∧ x.worth ≠ none := by
  unfold compare? worth
  cases x.decode with
  | nan => simp
  | infinite negative =>
    cases y.decode with
    | infinite negative' =>
      rw [Option.some_inj, Std.compare_eq_iff_eq]
      simp [eq_comm]
    | _ => cases negative <;> simp
  | finite negative m e =>
    cases y.decode with
    | nan => simp
    | infinite negative => cases negative <;> simp
    | finite negative' m' e' =>
      -- Both significands are counted in units of the lower power of two.
      have hunit {negative : Bool} {m : Nat} {e low : Int} (h : low ≤ e) :
          (signed negative (m * 2 ^ (e - low).toNat) : ℚ) * 2 ^ low = signed negative m * 2 ^ e := by
        obtain ⟨k, rfl⟩ := Int.le.dest h
        rw [signed_mul, zpow_add₀ two_ne_zero]
        simp
        ring
      have hpow : (2 ^ min e e' : ℚ) ≠ 0 := zpow_ne_zero _ two_ne_zero
      simp only [Option.some.injEq, Sum.inr.injEq, Std.compare_eq_iff_eq, ne_eq, reduceCtorEq,
        not_false_eq_true, and_true]
      rw [← Int.cast_inj (α := ℚ), ← mul_left_inj' hpow, hunit (Int.min_le_left ..),
        hunit (Int.min_le_right ..)]

end Real

namespace Scalar

variable {a b : Scalar}

def worth : Scalar → Option (Option (List Char) ⊕ Bool ⊕ ℚ)
  | .none => some (.inl Option.none)
  | .text s => some (.inl (some s.toList))
  | .real x => x.worth.map .inr
  | a => a.int?.map fun n => .inr (.inr n)

theorem same_iff : (a == b) = true ↔ a.worth = b.worth ∧ a.worth ≠ Option.none := by
  have horder : a.same b = true ↔ a = .none ∧ b = .none ∨ a.order b = .ok (some .eq) := by
    unfold same
    split
    · simp
    · split <;> simp_all
  refine horder.trans ?_
  cases a <;> cases b <;> simp only [order, int?, pure_eq, Except.ok.injEq, Option.some.injEq,
    Std.compare_eq_iff_eq, Real.compareInt?_eq_iff, Real.compare?_eq_iff, worth]
  all_goals simp +contextual [-Int.cast_ite, Real.compareInt?_eq_iff,
    (Option.map_injective Sum.inr_injective).eq_iff]

theorem int_same_iff {m n : Int} : (int m == int n) = true ↔ m = n := by
  simp [same_iff, worth, int?]

/-- Equal scalars are equal to the same scalars. -/
theorem same_congr {c : Scalar} (h : (a == b) = true) : (a == c) = (b == c) := by
  rw [Bool.eq_iff_iff, same_iff, same_iff, (same_iff.mp h).1]

theorem lt_int (m n : Int) : (int m).lt (.int n) = .ok (decide (m < n)) := by
  have hlt : (some (compare m n) == some .lt) = decide (m < n) := by
    rw [Bool.eq_iff_iff, beq_iff_eq, Option.some.injEq, decide_eq_true_eq, Int.compare_eq_lt]
  exact congrArg Except.ok hlt

theorem gt_int (m n : Int) : (int m).gt (.int n) = .ok (decide (n < m)) := by
  have hgt : (some (compare m n) == some .gt) = decide (n < m) := by
    rw [Bool.eq_iff_iff, beq_iff_eq, Option.some.injEq, decide_eq_true_eq, Int.compare_eq_gt]
  exact congrArg Except.ok hgt

theorem ge_int (m n : Int) : (int m).ge (.int n) = .ok (decide (n ≤ m)) := by
  have hge : (some (compare m n) == some .gt || some (compare m n) == some .eq) =
      decide (n ≤ m) := by
    rw [Bool.eq_iff_iff, Bool.or_eq_true, beq_iff_eq, beq_iff_eq, Option.some.injEq,
      Option.some.injEq, decide_eq_true_eq, Int.compare_eq_gt, Std.compare_eq_iff_eq]
    omega
  exact congrArg Except.ok hge

end Scalar

end RtlFlow
