import Mathlib
import RtlFlow.Proofs.Flow.Flattening

/-!
# The truth of simplified conditions

Logical operations only ask for the truth of their operands, and so does simplification: it may put
a wide word in the place of a conjunction, which has one bit. That changes the truth where the
number of bits matters, in a complement or a comparison of a conjunction. So does the rule that a
word and its complement are not both true, which needs one bit. Where neither happens the truth
stays.
-/

namespace RtlFlow

open List

variable {name : String} {d : Bool} {a b : Tree}

/-! ## What a rule keeps -/

def Tree.members : Tree → List Tree
  | .op name [a, b] =>
    if (decisive? name).isSome then members a ++ members b else [.op name [a, b]]
  | t => [t]

theorem members_decisive (h : decisive? name = some d) (a b : Tree) :
    (Tree.op name [a, b]).members = a.members ++ b.members := by
  rw [Tree.members, h]
  rfl

theorem members_left (h : decisive? name = some d) : a.members ⊆ (Tree.op name [a, b]).members := by
  rw [members_decisive h]
  exact subset_append_left _ _

theorem members_right (h : decisive? name = some d) :
    b.members ⊆ (Tree.op name [a, b]).members := by
  rw [members_decisive h]
  exact subset_append_right _ _

theorem members_other {t : Tree} (h : ∀ name a b, t = .op name [a, b] → decisive? name = none) :
    t.members = [t] := by
  unfold Tree.members
  split
  · next name a b =>
    rw [h name a b rfl]
    rfl
  · rfl

namespace IsCond

variable {names : Path → Prop} {t : Tree}

theorem members_eq (h : IsCond names t) :
    t.members = [t] ∨ ∃ name d a b, decisive? name = some d ∧ t = .op name [a, b] ∧
      IsCond names a ∧ IsCond names b := by
  cases h with
  | @binary name a b hname ha hb =>
    cases hd : decisive? name with
    | none => exact .inl (members_other (by rintro _ _ _ ⟨⟩; exact hd))
    | some d => exact .inr ⟨name, d, a, b, hd, rfl, ha, hb⟩
  | signal | constant | unary => exact .inl (members_other (by rintro _ _ _ ⟨⟩))

theorem of_mem_members {t m : Tree} (h : IsCond names t) (hm : m ∈ t.members) :
    IsCond names m := by
  rcases h.members_eq with hone | ⟨name, d, a, b, hd, rfl, ha, hb⟩
  · rw [hone, mem_singleton] at hm
    exact hm ▸ h
  · rw [members_decisive hd, mem_append] at hm
    rcases hm with hm | hm
    · exact of_mem_members ha hm
    · exact of_mem_members hb hm

theorem width_eq_or_mem_members (ρ : Valuation) (h : IsCond names t) :
    ρ.width t = 1 ∨ t ∈ t.members := by
  rcases h.members_eq with hone | ⟨name, d, a, b, hd, rfl, ha, hb⟩
  · exact .inr (hone ▸ mem_singleton_self t)
  · exact .inl (ρ.width_binary (isSome_of_decisive hd))

end IsCond

/-- A tree that stands for a condition where only the truth is asked for: of its members only
those are wide that the condition has too. -/
structure Replaces (ρ : Valuation) (c u : Tree) : Prop where
  cond : IsCond ρ.names u
  truth : ρ.truth u = ρ.truth c
  source : ∀ m ∈ u.members, ρ.width m = 1 ∨ m ∈ c.members

namespace Replaces

variable {ρ : Valuation} {c u v : Tree}

theorem refl (hc : IsCond ρ.names c) : Replaces ρ c c := ⟨hc, rfl, fun _ hm => .inr hm⟩

theorem trans (hu : Replaces ρ c u) (hv : Replaces ρ u v) : Replaces ρ c v where
  cond := hv.cond
  truth := hv.truth.trans hu.truth
  source m hm := by
    rcases hv.source m hm with hwidth | hmem
    · exact .inl hwidth
    · exact hu.source m hmem

theorem bit {b : Bool} (h : ρ.truth c = b) : Replaces ρ c (Optimizer.bit b) where
  cond := .bit b
  truth := by rw [ρ.truth_bit, h]
  source m hm := by
    rw [members_other (by rintro _ _ _ ⟨⟩), mem_singleton] at hm
    exact .inl (hm ▸ ρ.width_bit b)

theorem part (hu : IsCond ρ.names u) (htruth : ρ.truth u = ρ.truth c)
    (hmembers : u.members ⊆ c.members) : Replaces ρ c u :=
  ⟨hu, htruth, fun _ hm => .inr (hmembers hm)⟩

end Replaces

/-- Among the members of a condition, a word that stands beside its complement has one bit. -/
def Apart (ρ : Valuation) (c : Tree) : Prop :=
  ∀ y z, .op "Unot" [y] ∈ c.members → z ∈ c.members → y.equal z = .ok true → ρ.width y = 1

theorem Apart.of_replaces {ρ : Valuation} {c u : Tree} (h : Apart ρ c) (hu : Replaces ρ c u) :
    Apart ρ u := by
  intro y z hy hz hequal
  rcases hu.source _ hy with hwidth | hyc
  · rw [← hwidth, ρ.width_complement]
  · rcases hu.source z hz with hwidth | hzc
    · obtain ⟨_, ⟨⟩, hycond⟩ := (hu.cond.of_mem_members hy).unary_args rfl
      have hword := (equal_yields ρ hycond (hu.cond.of_mem_members hz)).of_eq_ok hequal rfl
      rw [← hwidth, Valuation.width, hword]
      rfl
    · exact h y z hyc hzc hequal

/-! ## The tests of the rules -/

namespace Optimizer

variable {args ls : List Tree} {j : Nat} {v : Tree}

variable {name : String} {a b c u : Tree} {i : Nat} {P : Tree → Prop}

variable (ρ : Valuation) {l r t : Tree}

theorem isZero_yields (h : IsCond ρ.names t) :
    Yields (fun b => b = true → ρ.truth t = false) (isZero t) := by
  cases h with
  | @constant v w hv =>
    refine .pure fun hb => ?_
    obtain rfl : v = 0 := Int.ofNat.inj (Scalar.int_same_iff.mp hb)
    rw [Valuation.truth, ρ.word_constant hv]
    rfl
  | signal | unary | binary => exact .pure_false

theorem isPositive_yields (h : IsCond ρ.names t) :
    Yields (fun b => b = true → ρ.truth t = true) (isPositive t) := by
  cases h with
  | @constant v w hv =>
    refine .pure fun hb => ?_
    rw [Valuation.truth, ρ.word_constant hv]
    cases v with
    | zero => exact absurd hb (by decide)
    | succ v => rfl
  | signal | unary | binary => exact .pure_false

/-- Only where they have one bit are a word and its complement opposed for certain. -/
theorem truth_of_complement {y z : Tree} (hz : IsCond ρ.names z) (hequal : y.equal z = .ok true)
    (hword : ρ.word y = ρ.word z) (hapart : Apart ρ c)
    (hlc : (Tree.op "Unot" [y]).members ⊆ c.members) (hzc : z.members ⊆ c.members) :
    ρ.truth (.op "Unot" [y]) = !ρ.truth z := by
  have hwidth : ρ.width y = 1 := by
    rcases hz.width_eq_or_mem_members ρ with hone | hmem
    · rw [← hone, Valuation.width, hword]
      rfl
    · refine hapart y z (hlc ?_) (hzc hmem) hequal
      rw [members_other (by rintro _ _ _ ⟨⟩)]
      exact mem_singleton_self _
  rw [Valuation.truth, ρ.word_unary rfl, Word.truth_complement hwidth, hword]
  rfl

theorem exists_arguments {P : Tree → Tree → Prop} (hi : i ≤ 1) (hab : P a b) (hba : P b a) :
    ∃ p q, element [a, b] i = .ok p ∧ element [a, b] (1 - i) = .ok q ∧ P p q := by
  obtain rfl | rfl : i = 0 ∨ i = 1 := by omega
  · exact ⟨a, b, rfl, rfl, hab⟩
  · exact ⟨b, a, rfl, rfl, hba⟩

theorem exists_arguments_eq (hl : IsCond ρ.names (.op "Eq" ls)) (hi : i ≤ 1) :
    ∃ p q, element ls i = .ok p ∧ element ls (1 - i) = .ok q ∧ IsCond ρ.names p ∧
      IsCond ρ.names q ∧
      (ρ.truth (.op "Eq" ls) = true → (ρ.word p).value = (ρ.word q).value) := by
  obtain ⟨a, b, rfl, ha, hb⟩ := hl.binary_args rfl
  refine exists_arguments hi ⟨ha, hb, ?_⟩ ⟨hb, ha, ?_⟩
  · exact (ρ.truth_eq a b).mp
  · exact fun h => ((ρ.truth_eq a b).mp h).symm

theorem compareApart_yields {rs : List Tree} (hl : IsCond ρ.names (.op "Eq" ls))
    (hr : IsCond ρ.names (.op "Eq" rs)) (hi : i ≤ 1) (hj : j ≤ 1) :
    Yields (fun b => b = true → (ρ.truth (.op "Eq" ls) && ρ.truth (.op "Eq" rs)) = false)
      (compareApart ls rs i j) := by
  obtain ⟨p, q, hp, hq, hpcond, hqcond, hltruth⟩ := exists_arguments_eq ρ hl hi
  obtain ⟨p', q', hp', hq', hpcond', hqcond', hrtruth⟩ := exists_arguments_eq ρ hr hj
  unfold compareApart
  rw [hp, hq, hp', hq']
  refine (equal_yields ρ hpcond hpcond').bind fun b hb => ?_
  cases b with
  | false => exact .pure_false
  | true =>
    simp only [Bool.not_true, Bool.false_eq_true, if_false, ok_bind]
    split
    · next v w _ _ v' w' _ _ =>
      refine .pure fun hne => Bool.eq_false_iff.mpr fun hboth => ?_
      rw [Bool.and_eq_true] at hboth
      obtain ⟨m, _, _, rfl, hm⟩ := hqcond.value_eq
      obtain ⟨m', _, _, rfl, hm'⟩ := hqcond'.value_eq
      have hvalue : m = m' := by
        have hleft := hltruth hboth.1
        have hright := hrtruth hboth.2
        rw [hm] at hleft
        rw [hm', ← hb rfl, hleft] at hright
        exact hright
      rw [hvalue, bne, Scalar.int_same_iff.mpr rfl] at hne
      cases hne
    · exact .pure_false

section

variable (hl : IsCond ρ.names l) (hr : IsCond ρ.names r)
include hl hr

theorem isNegation_yields (hname : binaryOp? name = none) :
    Yields (fun b => b = true → ∃ y, l = .op name [y] ∧ y.equal r = .ok true ∧
      ρ.word y = ρ.word r) (isNegation name l r) := by
  unfold isNegation
  split
  · next args hargs =>
    obtain rfl := eq_of_argsOf? hargs
    obtain ⟨y, rfl, hy⟩ := hl.unary_args hname
    obtain ⟨b, hb, hword⟩ := equal_yields ρ hy hr
    exact ⟨b, hb, fun htrue => ⟨y, rfl, by rw [hb, htrue], hword htrue⟩⟩
  · exact .pure_false

theorem opposed_yields (hname : binaryOp? name = none)
    (htruth : ∀ y z, (l = .op name [y] ∧ r = z ∨ r = .op name [y] ∧ l = z) →
      y.equal z = .ok true → ρ.word y = ρ.word z → ρ.truth (.op name [y]) = !ρ.truth z) :
    Yields (fun b => b = true → ρ.truth l = !ρ.truth r) (opposed name l r) := by
  refine (isNegation_yields ρ hl hr hname).bind fun b hb => ?_
  cases b with
  | true =>
    refine .pure fun _ => ?_
    obtain ⟨y, rfl, hequal, hword⟩ := hb rfl
    exact htruth y r (.inl ⟨rfl, rfl⟩) hequal hword
  | false =>
    refine (isNegation_yields ρ hr hl hname).mono fun b hb htrue => ?_
    obtain ⟨y, rfl, hequal, hword⟩ := hb htrue
    rw [htruth y l (.inr ⟨rfl, rfl⟩) hequal hword, Bool.not_not]

theorem opposed_complement_yields (hapart : Apart ρ c) (hlc : l.members ⊆ c.members)
    (hrc : r.members ⊆ c.members) :
    Yields (fun b => b = true → ρ.truth l = !ρ.truth r) (opposed "Unot" l r) := by
  refine opposed_yields ρ hl hr rfl ?_
  rintro y z (⟨rfl, rfl⟩ | ⟨rfl, rfl⟩) hequal hword
  · exact truth_of_complement ρ hr hequal hword hapart hlc hrc
  · exact truth_of_complement ρ hl hequal hword hapart hrc hlc

theorem opposed_not_yields :
    Yields (fun b => b = true → ρ.truth l = !ρ.truth r) (opposed "Ulnot" l r) := by
  refine opposed_yields ρ hl hr rfl ?_
  intro y z _ _ hword
  rw [ρ.truth_not, Valuation.truth, hword]
  rfl

theorem exclusive_yields (hi : i ≤ 1) (hj : j ≤ 1) :
    Yields (fun b => b = true → (ρ.truth l && ρ.truth r) = false) (exclusive l r i j) := by
  unfold exclusive
  split
  · next ls rs hls hrs =>
    obtain rfl := eq_of_argsOf? hls
    obtain rfl := eq_of_argsOf? hrs
    exact compareApart_yields ρ hl hr hi hj
  · exact .pure_false

theorem implied_yields (hi : i ≤ 1) :
    Yields (fun b => b = true → (ρ.truth l && ρ.truth r) = ρ.truth r) (implied l r i) := by
  unfold implied
  split
  · next args hargs =>
    obtain rfl := eq_of_argsOf? hargs
    obtain ⟨y, rfl, hy⟩ := hl.unary_args rfl
    refine (exclusive_yields ρ hy hr hi (Nat.zero_le 1)).mono fun b hb htrue => ?_
    have hfalse := hb htrue
    rw [ρ.truth_not]
    revert hfalse
    cases ρ.truth y <;> cases ρ.truth r <;> decide
  · exact .pure_false

theorem common_yields (hi : i ≤ 1) :
    Yields (fun x => ∀ u ∈ x, IsCond ρ.names u ∧ ρ.truth u = (ρ.truth l || ρ.truth r) ∧
      u.members ⊆ l.members) (common l r i) := by
  unfold common
  split
  · next ls rs hls hrs =>
    obtain rfl := eq_of_argsOf? hls
    obtain rfl := eq_of_argsOf? hrs
    obtain ⟨a, b, rfl, ha, hb⟩ := hl.binary_args rfl
    obtain ⟨x, y, rfl, hx, hy⟩ := hr.binary_args rfl
    obtain ⟨p, q, hp, hq, hpcond, hqcond, htruth, hmembers⟩ : ∃ p q, element [a, b] i = .ok p ∧
        element [a, b] (1 - i) = .ok q ∧ IsCond ρ.names p ∧ IsCond ρ.names q ∧
        ρ.truth (.op "Land" [a, b]) = (ρ.truth p && ρ.truth q) ∧
        q.members ⊆ (Tree.op "Land" [a, b]).members := by
      refine exists_arguments hi ⟨ha, hb, ρ.truth_land a b, ?_⟩ ⟨hb, ha, ?_, ?_⟩
      · exact members_right rfl
      · rw [ρ.truth_land, Bool.and_comm]
      · exact members_left rfl
    rw [hp, hq]
    refine (isNegation_yields ρ hpcond hx rfl).bind fun n hn => ?_
    cases n with
    | false => exact .pure_none
    | true =>
      obtain ⟨z, rfl, _, hz⟩ := hn rfl
      refine (equal_yields ρ hqcond hy).bind fun e he => ?_
      cases e with
      | false => exact .pure_none
      | true =>
        refine .pure fun u hu => ?_
        obtain rfl : q = u := Option.some.inj hu
        refine ⟨hqcond, ?_, hmembers⟩
        have hzx : ρ.truth z = ρ.truth x := congrArg Word.truth hz
        have hqy : ρ.truth q = ρ.truth y := congrArg Word.truth (he rfl)
        rw [htruth, ρ.truth_land, ρ.truth_not, hzx, ← hqy]
        cases ρ.truth x <;> cases ρ.truth q <;> rfl
  · exact .pure_none

/-! ## The rules -/

omit hl hr

theorem firstOf_yields {xs : List (Result (Option Tree))}
    (h : xs.Forall (Yields fun x => ∀ u ∈ x, P u)) : Yields (fun x => ∀ u ∈ x, P u) (firstOf xs) := by
  induction xs with
  | nil => exact .pure_none
  | cons x xs ih =>
    rw [forall_cons] at h
    refine h.1.bind fun found hfound => ?_
    cases found with
    | none => exact ih h.2
    | some t => exact .pure hfound

theorem onlyIf_yields {Q : Prop} {test : Result Bool} {t : Tree}
    (htest : Yields (fun b => b = true → Q) test) (hresult : Q → P t) :
    Yields (fun x => ∀ u ∈ x, P u) (onlyIf test (pure t)) := by
  refine htest.bind fun b hb => ?_
  cases b with
  | false => exact .pure_none
  | true => exact .pure fun u hu => Option.some.inj hu ▸ hresult (hb rfl)

variable (o : Optimizer)

include hl hr

theorem staticLand_yields (hapart : Apart ρ (.op "Land" [l, r])) :
    Yields (fun x => ∀ u ∈ x, Replaces ρ (.op "Land" [l, r]) u)
      (o.staticLand (.op "Land" [l, r]) l r) := by
  have hland := ρ.truth_land l r
  have hfalse (h : (ρ.truth l && ρ.truth r) = false) :
      Replaces ρ (.op "Land" [l, r]) (bit false) := .bit (hland.trans h)
  have hleft (h : (ρ.truth l && ρ.truth r) = ρ.truth l) : Replaces ρ (.op "Land" [l, r]) l :=
    .part hl (h.symm.trans hland.symm) (members_left rfl)
  have hright (h : (ρ.truth l && ρ.truth r) = ρ.truth r) : Replaces ρ (.op "Land" [l, r]) r :=
    .part hr (h.symm.trans hland.symm) (members_right rfl)
  have hopposed (h : ρ.truth l = !ρ.truth r) : (ρ.truth l && ρ.truth r) = false := by
    rw [h, Bool.not_and_self]
  have hexclusive {i j : Nat} (hi : i ≤ 1) (hj : j ≤ 1) :=
    onlyIf_yields (exclusive_yields ρ hl hr hi hj) hfalse
  have himplied {i : Nat} (hi : i ≤ 1) := onlyIf_yields (implied_yields ρ hl hr hi) hright
  have himplied' {i : Nat} (hi : i ≤ 1) := onlyIf_yields (implied_yields ρ hr hl hi)
    fun h => hleft ((Bool.and_comm _ _).trans h)
  unfold staticLand
  refine firstOf_yields ⟨?_, ?_, ?_, ?_, ?_, ?_, hexclusive ?_ ?_, hexclusive ?_ ?_, hexclusive ?_ ?_,
    hexclusive ?_ ?_, himplied ?_, himplied ?_, himplied' ?_, himplied' ?_⟩
  · exact onlyIf_yields (isZero_yields ρ hl) fun h => hfalse (by rw [h, Bool.false_and])
  · exact onlyIf_yields (isZero_yields ρ hr) fun h => hfalse (by rw [h, Bool.and_false])
  · exact onlyIf_yields (isPositive_yields ρ hl) fun h => hright (by rw [h, Bool.true_and])
  · exact onlyIf_yields (isPositive_yields ρ hr) fun h => hleft (by rw [h, Bool.and_true])
  · -- The width of the whole is asked for here, but it is 1 for every conjunction.
    exact onlyIf_yields (opposed_complement_yields ρ hl hr hapart (members_left rfl)
      (members_right rfl)) fun h => hfalse (hopposed h)
  · exact onlyIf_yields (opposed_not_yields ρ hl hr) fun h => hfalse (hopposed h)
  all_goals decide

theorem staticLor_yields (hapart : Apart ρ (.op "Lor" [l, r])) :
    Yields (fun x => ∀ u ∈ x, Replaces ρ (.op "Lor" [l, r]) u) (staticLor l r) := by
  have hlor := ρ.truth_lor l r
  have htrue (h : (ρ.truth l || ρ.truth r) = true) :
      Replaces ρ (.op "Lor" [l, r]) (bit true) := .bit (hlor.trans h)
  have hleft (h : ρ.truth r = false) : Replaces ρ (.op "Lor" [l, r]) l :=
    .part hl (by rw [hlor, h, Bool.or_false]) (members_left rfl)
  have hright (h : ρ.truth l = false) : Replaces ρ (.op "Lor" [l, r]) r :=
    .part hr (by rw [hlor, h, Bool.false_or]) (members_right rfl)
  have hopposed (h : ρ.truth l = !ρ.truth r) : (ρ.truth l || ρ.truth r) = true := by
    rw [h, Bool.not_or_self]
  have hcommon {a b : Tree} {i : Nat} (ha : IsCond ρ.names a) (hb : IsCond ρ.names b) (hi : i ≤ 1)
      (hor : (ρ.truth a || ρ.truth b) = ρ.truth (.op "Lor" [l, r]))
      (hmembers : a.members ⊆ (Tree.op "Lor" [l, r]).members) :
      Yields (fun x => ∀ u ∈ x, Replaces ρ (.op "Lor" [l, r]) u) (common a b i) := by
    refine (common_yields ρ ha hb hi).mono fun x hx u hu => ?_
    obtain ⟨hcond, htruth, hsub⟩ := hx u hu
    exact .part hcond (htruth.trans hor) (List.Subset.trans hsub hmembers)
  have hsame {i : Nat} (hi : i ≤ 1) := hcommon hl hr hi hlor.symm (members_left rfl)
  have hturned {i : Nat} (hi : i ≤ 1) :=
    hcommon hr hl hi ((Bool.or_comm _ _).trans hlor.symm) (members_right rfl)
  unfold staticLor
  refine firstOf_yields ⟨?_, ?_, ?_, ?_, ?_, ?_, hsame ?_, hsame ?_, hturned ?_, hturned ?_⟩
  · exact onlyIf_yields (isZero_yields ρ hl) hright
  · exact onlyIf_yields (isZero_yields ρ hr) hleft
  · exact onlyIf_yields (isPositive_yields ρ hl) fun h => htrue (by rw [h, Bool.true_or])
  · exact onlyIf_yields (isPositive_yields ρ hr) fun h => htrue (by rw [h, Bool.or_true])
  · exact onlyIf_yields (opposed_complement_yields ρ hl hr hapart (members_left rfl)
      (members_right rfl)) fun h => htrue (hopposed h)
  · exact onlyIf_yields (opposed_not_yields ρ hl hr) fun h => htrue (hopposed h)
  all_goals decide

end

variable (o : Optimizer)

theorem replaceOperator_eq (h : IsCond ρ.names t) : replaceOperator t = .ok t := by
  have hop {name : String} {args : List Tree} (htimes : name ≠ "Times")
      (hdivide : name ≠ "Divide") : replaceOperator (.op name args) = .ok (.op name args) := by
    simp [replaceOperator, htimes, hdivide]
  cases h with
  | signal | constant => rfl
  | unary hname ha => exact hop (by rintro rfl; cases hname) (by rintro rfl; cases hname)
  | binary hname ha hb => exact hop (by rintro rfl; cases hname) (by rintro rfl; cases hname)

theorem truth_of_word_eq {f : Nat → Nat → Bool} (hname : binaryOp? name = some (compared f))
    (h : ρ.word a = ρ.word b) :
    ρ.truth (.op name [a, b]) = f (ρ.word b).value (ρ.word b).value := by
  rw [Valuation.truth, ρ.word_binary hname, h, compared, Word.truth_ofBool]

theorem onEqual?_replaces (hname : (binaryOp? name).isSome) (ha : IsCond ρ.names a)
    (h : ρ.word a = ρ.word b) :
    Replaces ρ (.op name [a, b]) ((onEqual? name a).getD (.op name [a, b])) := by
  have hdecided {name : String} {f : Nat → Nat → Bool} (r : Bool)
      (hname : binaryOp? name = some (compared f)) (hdiagonal : ∀ n, f n n = r)
      (hequal : onEqual? name a = some (bit r)) :
      Replaces ρ (.op name [a, b]) ((onEqual? name a).getD (.op name [a, b])) := by
    rw [hequal]
    exact .bit (by rw [truth_of_word_eq ρ hname h, hdiagonal])
  have htruth : ρ.truth a = ρ.truth b := congrArg Word.truth h
  unfold binaryOp? at hname
  split at hname
  · rw [show onEqual? "Land" a = some a by simp [onEqual?]]
    exact .part ha (by rw [ρ.truth_land, ← htruth, Bool.and_self]; rfl) (members_left rfl)
  · rw [show onEqual? "Lor" a = some a by simp [onEqual?]]
    exact .part ha (by rw [ρ.truth_lor, ← htruth, Bool.or_self]; rfl) (members_left rfl)
  iterate 2 exact hdecided false rfl (by simp) (by simp [onEqual?])
  iterate 4 exact hdecided true rfl (by simp) (by simp [onEqual?])
  iterate 2 exact hdecided false rfl (by simp) (by simp [onEqual?])
  · cases hname

theorem mergeIdentical_yields (h : IsCond ρ.names t) :
    Yields (Replaces ρ t) (mergeIdentical t) := by
  cases h with
  | signal | constant | unary => exact .pure (.refl (by constructor <;> assumption))
  | binary hname ha hb =>
    refine (equal_yields ρ ha hb).bind fun e he => ?_
    cases e with
    | false => exact .pure (.refl (.binary hname ha hb))
    | true => exact .pure (onEqual?_replaces ρ hname ha (he rfl))

theorem mergeStatic_yields (h : IsCond ρ.names t) (hapart : Apart ρ t) :
    Yields (Replaces ρ t) (o.mergeStatic t) := by
  have hfound {x : Option Tree} (hx : ∀ u ∈ x, Replaces ρ t u) :
      Yields (Replaces ρ t) (pure (x.getD t) : Result Tree) := by
    cases x with
    | none => exact .pure (.refl h)
    | some u => exact .pure (hx u rfl)
  cases h with
  | signal | constant | unary => exact .pure (.refl (by constructor <;> assumption))
  | @binary name a b hname ha hb =>
    by_cases hland : name = "Land"
    · subst hland
      exact (staticLand_yields ρ ha hb o hapart).bind fun _ => hfound
    · by_cases hlor : name = "Lor"
      · subst hlor
        exact (staticLor_yields ρ ha hb hapart).bind fun _ => hfound
      · have hand : name ≠ "And" := by rintro rfl; cases hname
        have hor : name ≠ "Or" := by rintro rfl; cases hname
        have hstays : o.mergeStatic (.op name [a, b]) = .ok (.op name [a, b]) := by
          simp [mergeStatic, element, hland, hlor, hand, hor]
        rw [hstays]
        exact .pure (.refl (.binary hname ha hb))

/-! ## Flat conjunctions and disjunctions -/

theorem negated_yields (h : IsCond ρ.names t) :
    Yields (fun n => IsCond ρ.names n ∧ ρ.truth n = !ρ.truth t) (negated t) := by
  unfold negated
  split
  · next args hargs =>
    obtain rfl := eq_of_argsOf? hargs
    obtain ⟨y, rfl, hy⟩ := h.unary_args rfl
    exact .pure ⟨hy, by rw [ρ.truth_not, Bool.not_not]⟩
  · refine ⟨.op "Ulnot" [t], ?_, .unary rfl h, ρ.truth_not t⟩
    simp [Tree.mkOp, h.isHole_eq]

/-- What flattening keeps of a condition: conditions whose wide members are members of it. -/
def Stems (c u : Tree) : Prop :=
  IsCond ρ.names u ∧ ∀ m ∈ u.members, ρ.width m = 1 ∨ m ∈ c.members

theorem connects (c : Tree) : Connects ρ.truth (IsCond ρ.names) (Stems ρ c) where
  cond_of_kept h := h.1
  present h := h.1.isHole_eq
  equal ht hu := (equal_yields ρ ht hu).mono fun _ hb heq => congrArg Word.truth (hb heq)
  negated h := negated_yields ρ h.1
  code h := toCode_yields h.1
  join hname ha hb := by
    refine ⟨.binary (isSome_of_decisive hname) ha.1 hb.1, fun m hm => ?_⟩
    rw [members_decisive hname, mem_append] at hm
    exact hm.elim (ha.2 m) (hb.2 m)
  decides a b hname := ρ.truth_decisive hname a b
  kept_bit b := by
    refine ⟨.bit b, fun m hm => ?_⟩
    rw [members_other (by rintro _ _ _ ⟨⟩), mem_singleton] at hm
    exact .inl (hm ▸ ρ.width_bit b)
  truth_bit := ρ.truth_bit

theorem mergeLor_yields (h : IsCond ρ.names t) : Yields (Replaces ρ t) (mergeLor t) := by
  have hmerged := (connects ρ t).mergeLor_yields
    (fun u => IsCond ρ.names u ∧ u.members ⊆ t.members)
    (fun hu => ⟨hu.1, fun m hm => .inr (hu.2 hm)⟩) ?_ ⟨h, List.Subset.refl _⟩
  · exact hmerged.mono fun u hu => ⟨hu.1.1, hu.2, hu.1.2⟩
  · intro name d args hname hop
    have hunary : unaryOp? name = none := by
      refine Option.not_isSome_iff_eq_none.mp fun hsome => ?_
      rw [decisive_eq_none_of_unary hsome] at hname
      cases hname
    obtain ⟨a, b, rfl, ha, hb⟩ := hop.1.binary_args hunary
    exact ⟨a, b, rfl, ⟨ha, List.Subset.trans (members_left hname) hop.2⟩, hb,
      List.Subset.trans (members_right hname) hop.2⟩

theorem mkOp_eq (h : IsCond ρ.names (.op name args)) :
    Tree.mkOp name args = .ok (.op name args) := by
  rcases h.args_cases with ⟨a, rfl, _, ha⟩ | ⟨a, b, rfl, _, ha, hb⟩
  · simp [Tree.mkOp, ha.isHole_eq]
  · simp [Tree.mkOp, ha.isHole_eq, hb.isHole_eq]

/-! ## The whole -/

theorem simplifyOp_yields (h : IsCond ρ.names (.op name args)) (hapart : Apart ρ (.op name args)) :
    Yields (Replaces ρ (.op name args)) (o.simplifyOp name args) := by
  unfold simplifyOp
  rw [mkOp_eq ρ h]
  show Yields _ (replaceOperator (.op name args) >>= _)
  rw [replaceOperator_eq ρ h]
  refine (mergeIdentical_yields ρ h).bind fun t ht => ?_
  refine (mergeStatic_yields ρ o ht.cond (hapart.of_replaces ht)).bind fun u hu => ?_
  exact (mergeLor_yields ρ hu.cond).mono fun v hv => (ht.trans hu).trans hv

theorem simplifyOp_unary (hname : (unaryOp? name).isSome) (ha : IsCond ρ.names a) :
    o.simplifyOp name [a] = .ok (.op name [a]) := by
  have h : IsCond ρ.names (.op name [a]) := .unary hname ha
  have hland : name ≠ "Land" := by rintro rfl; cases hname
  have hlor : name ≠ "Lor" := by rintro rfl; cases hname
  have hmerge : mergeLor (.op name [a]) = .ok (.op name [a]) := by
    simp only [mergeLor, lorMembers, hland, hlor, beq_iff_eq, if_false]
    rfl
  unfold simplifyOp
  rw [mkOp_eq ρ h]
  show replaceOperator (.op name [a]) >>= _ = _
  rw [replaceOperator_eq ρ h]
  exact hmerge

/-- A condition in which wide words do no harm: simplification leaves the operands of complements
and comparisons as wide as they are, and no wide word stands beside its complement. -/
structure Careful (c : Tree) : Prop where
  widths : ∀ {name args}, Tree.Within (.op name args) c → name ≠ "Ulnot" → decisive? name = none →
    ∀ a ∈ args, ∀ u, o.simplify a = .ok u → ρ.width u = ρ.width a
  apart : ∀ {t}, Tree.Within t c → Apart ρ t

namespace Careful

variable {ρ o} {args : List Tree}

theorem arg {name : String} {a : Tree} (h : Careful ρ o (.op name args)) (ha : a ∈ args) :
    Careful ρ o a where
  widths hin := h.widths (hin.tail ha)
  apart hin := h.apart (hin.tail ha)

theorem leaf {c : Tree} (hc : c.children = []) (hop : ∀ name args, c ≠ .op name args) :
    Careful ρ o c := by
  have heq {t : Tree} (hin : Tree.Within t c) : t = c := by
    rcases hin.cases_tail with rfl | ⟨b, _, hb⟩
    · rfl
    · rw [hc] at hb
      cases hb
  refine ⟨fun hin => absurd (heq hin).symm (hop _ _), fun hin y z hy => ?_⟩
  rw [heq hin, members_other fun name a b h => absurd h (hop _ _), mem_singleton] at hy
  exact absurd hy.symm (hop _ _)

theorem op {name : String} (hargs : ∀ a ∈ args, Careful ρ o a)
    (hwidths : name ≠ "Ulnot" → decisive? name = none →
      ∀ a ∈ args, ∀ u, o.simplify a = .ok u → ρ.width u = ρ.width a)
    (hapart : Apart ρ (.op name args)) : Careful ρ o (.op name args) where
  widths hin := by
    rcases hin.cases_tail with heq | ⟨b, hb, hmem⟩
    · cases heq
      exact hwidths
    · exact (hargs b hmem).widths hb
  apart hin := by
    rcases hin.cases_tail with heq | ⟨b, hb, hmem⟩
    · exact heq ▸ hapart
    · exact (hargs b hmem).apart hb

end Careful

/-- The word of an operand is the same as before, unless it has become wider. -/
theorem word_eq_of_replaces (h : Replaces ρ a u) (hfixed : ρ.width a ≠ 1 → u = a)
    (hwidth : ρ.width u = ρ.width a) : ρ.word u = ρ.word a := by
  by_cases hone : ρ.width a = 1
  · exact ρ.word_eq_of_width (hwidth.trans hone) hone h.truth
  · rw [hfixed hone]

theorem replaces_unary (hname : (unaryOp? name).isSome) (h : Replaces ρ a u)
    (hword : name ≠ "Ulnot" → ρ.word u = ρ.word a) (hone : ρ.width (.op name [a]) = 1) :
    Replaces ρ (.op name [a]) (.op name [u]) := by
  have hwidth : ρ.width (.op name [u]) = 1 ∧ ρ.truth (.op name [u]) = ρ.truth (.op name [a]) := by
    by_cases hnot : name = "Ulnot"
    · subst hnot
      exact ⟨ρ.width_unary hname (by decide), by rw [ρ.truth_not, ρ.truth_not, h.truth]⟩
    · have heq : ρ.word (.op name [u]) = ρ.word (.op name [a]) :=
        ρ.word_op_congr (by rw [map_singleton, map_singleton, hword hnot])
      exact ⟨(congrArg Word.width heq).trans hone, congrArg Word.truth heq⟩
  refine ⟨.unary hname h.cond, hwidth.2, fun m hm => .inl ?_⟩
  rw [members_other (by rintro _ _ _ ⟨⟩), mem_singleton] at hm
  rw [hm, hwidth.1]

theorem replaces_decisive {d : Bool} (hname : decisive? name = some d) (hu : Replaces ρ a u)
    (hv : Replaces ρ b v) :
    Replaces ρ (.op name [a, b]) (.op name [u, v]) where
  cond := .binary (isSome_of_decisive hname) hu.cond hv.cond
  truth := by
    have hleft := ρ.truth_decisive hname u v
    rw [hu.truth, hv.truth, ← ρ.truth_decisive hname a b] at hleft
    cases d <;> simpa using hleft
  source m hm := by
    rw [members_decisive hname, mem_append] at hm
    rcases hm with hm | hm
    · exact (hu.source m hm).imp_right fun h => members_left hname h
    · exact (hv.source m hm).imp_right fun h => members_right hname h

theorem replaces_compared (hname : (binaryOp? name).isSome) (hd : decisive? name = none)
    (hu : Replaces ρ a u) (hv : Replaces ρ b v) (hau : ρ.word u = ρ.word a)
    (hbv : ρ.word v = ρ.word b) :
    Replaces ρ (.op name [a, b]) (.op name [u, v]) where
  cond := .binary hname hu.cond hv.cond
  truth := congrArg Word.truth (ρ.word_op_congr (by simp [hau, hbv]))
  source m hm := by
    rw [members_other (by rintro _ _ _ ⟨⟩; exact hd), mem_singleton] at hm
    rw [hm]
    exact .inl (ρ.width_binary hname)

theorem simplify_yields (h : IsCond ρ.names c) (hc : Careful ρ o c) :
    Yields (fun u => Replaces ρ c u ∧ (ρ.width c ≠ 1 → u = c)) (o.simplify c) := by
  induction h with
  | signal hp => exact .pure ⟨.refl (.signal hp), fun _ => rfl⟩
  | constant hv => exact .pure ⟨.refl (.constant hv), fun _ => rfl⟩
  | @unary name a hname ha ih =>
    obtain ⟨u, hu, hau, hfixed⟩ := ih (hc.arg (by simp))
    have hall : o.simplifyAll [a] = .ok [u] := by
      rw [simplifyAll, hu]
      rfl
    rw [simplify, hall]
    show Yields _ (o.simplifyOp name [u])
    rw [simplifyOp_unary ρ o hname hau.cond]
    by_cases hone : ρ.width (.op name [a]) = 1
    · refine .pure ⟨replaces_unary ρ hname hau (fun hnot => ?_) hone, fun h => absurd hone h⟩
      refine word_eq_of_replaces ρ hau hfixed ?_
      exact hc.widths .refl hnot (decisive_eq_none_of_unary hname) a (by simp) u hu
    · -- Only the complement of a wide word is wide.
      obtain rfl : name = "Unot" :=
        Decidable.byContradiction fun hnot => hone (ρ.width_unary hname hnot)
      rw [ρ.width_complement] at hone
      rw [hfixed hone]
      exact .pure ⟨.refl (.unary hname ha), fun _ => rfl⟩
  | @binary name a b hname ha hb iha ihb =>
    obtain ⟨u, hu, hau, hufixed⟩ := iha (hc.arg (by simp))
    obtain ⟨v, hv, hbv, hvfixed⟩ := ihb (hc.arg (by simp))
    have hall : o.simplifyAll [a, b] = .ok [u, v] := by
      rw [simplifyAll, hu, simplifyAll, hv]
      rfl
    have hreplaces : Replaces ρ (.op name [a, b]) (.op name [u, v]) := by
      cases hd : decisive? name with
      | some d => exact replaces_decisive ρ hd hau hbv
      | none =>
        have hnot : name ≠ "Ulnot" := by rintro rfl; cases hname
        have hwidths := hc.widths .refl hnot hd
        exact replaces_compared ρ hname hd hau hbv
          (word_eq_of_replaces ρ hau hufixed (hwidths a (by simp) u hu))
          (word_eq_of_replaces ρ hbv hvfixed (hwidths b (by simp) v hv))
    rw [simplify, hall]
    show Yields _ (o.simplifyOp name [u, v])
    have hapart := (hc.apart .refl).of_replaces hreplaces
    refine (simplifyOp_yields ρ o hreplaces.cond hapart).mono fun w hw => ?_
    exact ⟨hreplaces.trans hw, fun hwide => absurd (ρ.width_binary hname) hwide⟩

/-- No wide word is a member of a conjunction or a disjunction that is complemented or compared. -/
def Narrow (c : Tree) : Prop :=
  ∀ {name args}, Tree.Within (.op name args) c → name ≠ "Ulnot" → decisive? name = none →
    ∀ a ∈ args, ρ.width a = 1 → ∀ m ∈ a.members, ρ.width m = 1

variable {ρ o} in
theorem Careful.width_eq (hc : Careful ρ o c) (h : IsCond ρ.names c)
    (hmembers : ρ.width c = 1 → ∀ m ∈ c.members, ρ.width m = 1) (hu : o.simplify c = .ok u) :
    ρ.width u = ρ.width c := by
  obtain ⟨u', hu', hreplaces, hfixed⟩ := simplify_yields ρ o h hc
  cases hu.symm.trans hu'
  by_cases hone : ρ.width c = 1
  · rcases hreplaces.cond.width_eq_or_mem_members ρ with hwidth | hmem
    · exact hwidth.trans hone.symm
    · exact ((hreplaces.source u hmem).elim id (hmembers hone u)).trans hone.symm
  · rw [hfixed hone]

/-- The widths in a condition decide whether simplification may be trusted with it. -/
theorem Careful.of_narrow (h : IsCond ρ.names c) (hnarrow : Narrow ρ c)
    (hapart : ∀ {t}, Tree.Within t c → Apart ρ t) : Careful ρ o c := by
  have hstep {name : String} {args : List Tree} (hnarrow : Narrow ρ (.op name args))
      (hapart : ∀ {t}, Tree.Within t (.op name args) → Apart ρ t)
      (hargs : ∀ a ∈ args, IsCond ρ.names a ∧ Careful ρ o a) : Careful ρ o (.op name args) :=
    .op (fun a ha => (hargs a ha).2) (fun hnot hd a ha u hu =>
      (hargs a ha).2.width_eq (hargs a ha).1 (hnarrow .refl hnot hd a ha) hu) (hapart .refl)
  induction h with
  | signal | constant => exact .leaf rfl (by rintro _ _ ⟨⟩)
  | unary _ ha ih =>
    refine hstep hnarrow hapart (forall_mem_singleton.mpr ⟨ha, ih ?_ ?_⟩)
    · exact fun hin => hnarrow (hin.tail mem_cons_self)
    · exact fun hin => hapart (hin.tail mem_cons_self)
  | @binary name a b _ ha hb iha ihb =>
    have hnarrow' : ∀ d ∈ [a, b], Narrow ρ d := fun d hd _ _ hin => hnarrow (hin.tail hd)
    have hapart' : ∀ d ∈ [a, b], ∀ {t}, Tree.Within t d → Apart ρ t :=
      fun d hd _ hin => hapart (hin.tail hd)
    refine hstep hnarrow hapart (by
      simpa using ⟨⟨ha, iha (hnarrow' a (by simp)) (hapart' a (by simp))⟩,
        hb, ihb (hnarrow' b (by simp)) (hapart' b (by simp))⟩)

/-- A condition in which wide words do no harm has a simplified form, and is true exactly where
this is. -/
theorem simplify_truth (h : IsCond ρ.names c) (hc : Careful ρ o c) :
    ∃ u, o.simplify c = .ok u ∧ IsCond ρ.names u ∧ ρ.truth u = ρ.truth c := by
  obtain ⟨u, hu, hreplaces, _⟩ := simplify_yields ρ o h hc
  exact ⟨u, hu, hreplaces.cond, hreplaces.truth⟩

/-- Two signals of two bits: `a` is 1 and `s` is 2. -/
def sampleSignals : Valuation where
  names p := p = .ofNames ["a"] ∨ p = .ofNames ["s"]
  signal p := if p = .ofNames ["a"] then ⟨2, 1, by decide⟩ else ⟨2, 2, by decide⟩
  congr := by
    rintro p q (rfl | rfl) (rfl | rfl) h
    · rfl
    · exact absurd h (by decide)
    · exact absurd h (by decide)
    · rfl

/-- The condition `~(a && s) || !(s == 1) && s == 2`. -/
def sampleCond : Tree :=
  .op "Lor" [.op "Unot" [.op "Land" [.term (.ofNames ["a"]), .term (.ofNames ["s"])]],
    .op "Land" [.op "Ulnot" [.op "Eq" [.term (.ofNames ["s"]), .num (.int 1) (.int 2)]],
      .op "Eq" [.term (.ofNames ["s"]), .num (.int 2) (.int 2)]]]

theorem simplify_truth_two_bits :
    IsCond sampleSignals.names sampleCond ∧ Careful sampleSignals {} sampleCond ∧
      ∃ u, ({} : Optimizer).simplify sampleCond = .ok u ∧ IsCond sampleSignals.names u ∧
        sampleSignals.truth u = sampleSignals.truth sampleCond := by
  have ha : IsCond sampleSignals.names (.term (.ofNames ["a"])) := .signal (.inl rfl)
  have hs : IsCond sampleSignals.names (.term (.ofNames ["s"])) := .signal (.inr rfl)
  have hcond : IsCond sampleSignals.names sampleCond :=
    .binary rfl (.unary rfl (.binary rfl ha hs)) (.binary rfl
      (.unary rfl (.binary rfl hs (@IsCond.constant _ 1 2 (by decide))))
      (.binary rfl hs (@IsCond.constant _ 2 2 (by decide))))
  have hsignal {p : Path} : Careful sampleSignals {} (.term p) := .leaf rfl (by rintro _ _ ⟨⟩)
  let a : Tree := .term (.ofNames ["a"])
  let s : Tree := .term (.ofNames ["s"])
  let is (n : Int) : Tree := .op "Eq" [s, .num (.int n) (.int 2)]
  have his {n : Int} : Careful sampleSignals {} (is n) := by
    refine .op (by simpa using ⟨hsignal, .leaf rfl (by rintro _ _ ⟨⟩)⟩) ?_
      (by simp [Apart, Tree.members, decisive?])
    rintro _ _ _ (_ | ⟨_, _ | ⟨_, ⟨⟩⟩⟩) _ ⟨⟩ <;> rfl
  have hland : Careful sampleSignals {} (.op "Land" [a, s]) :=
    .op (by simpa using ⟨hsignal, hsignal⟩) (by rintro _ ⟨⟩)
      (by simp [a, s, Apart, Tree.members, decisive?])
  have hcomplement : Careful sampleSignals {} (.op "Unot" [.op "Land" [a, s]]) := by
    refine .op (by simpa using hland) ?_ ?_
    · have hsimple : ({} : Optimizer).simplify (.op "Land" [a, s]) = .ok (.op "Land" [s, a]) := by cbv
      rintro _ _ _ (_ | ⟨_, ⟨⟩⟩) u hu
      cases hsimple.symm.trans hu
      rfl
    · intro y z hy
      simp only [Tree.members, mem_singleton, Tree.op.injEq, true_and, List.cons.injEq,
        and_true] at hy
      exact fun _ _ => hy ▸ rfl
  have hnot {n : Int} : Careful sampleSignals {} (.op "Ulnot" [is n]) :=
    .op (by simpa using his) (absurd rfl) (by simp [Apart, Tree.members])
  have hboth : Careful sampleSignals {} (.op "Land" [.op "Ulnot" [is 1], is 2]) :=
    .op (by simpa using ⟨hnot, his⟩) (by rintro _ ⟨⟩) (by simp [is, Apart, Tree.members, decisive?])
  have hcareful : Careful sampleSignals {} sampleCond := by
    refine .op (forall_mem_cons.mpr ⟨hcomplement, by simpa using hboth⟩) (by rintro _ ⟨⟩) ?_
    intro y z hy
    simp only [Tree.members, decisive?] at hy
    simp at hy
    exact fun _ _ => hy ▸ rfl
  exact ⟨hcond, hcareful, simplify_truth sampleSignals {} hcond hcareful⟩

/-- A wide word and its complement can both be true, and a wide word that stands for a conjunction
has more bits to turn. -/
theorem simplify_loses_truth :
    let o : Optimizer := {}
    let a : Tree := .term (.ofNames ["a"])
    let both : Tree := .op "Land" [.op "Unot" [a], a]
    let turned : Tree := .op "Unot" [.op "Land" [a, .num (.int 1) (.int 1)]]
    (sampleSignals.truth both = true ∧ o.simplify both = .ok (bit false)) ∧
    sampleSignals.truth turned = false ∧ o.simplify turned = .ok (.op "Unot" [a]) ∧
      sampleSignals.truth (.op "Unot" [a]) = true :=
  ⟨⟨rfl, rfl⟩, rfl, rfl, rfl⟩

end Optimizer

end RtlFlow
