import Mathlib
import RtlFlow.Control.StateSet
import RtlFlow.Proofs.Control.Ranges
import RtlFlow.Proofs.Flow.Conditions
import RtlFlow.Proofs.Flow.Meaning

/-!
# The states in which conditions hold

A point is a state of a signal together with values for all other signals. A condition holds at some
points, and a set of states under a condition contains some points. Intersections are exact, and so
are complements of one set. The intersection of several sets is exact as long as those taken so far
have a point in common: an intersection without members is a missing set, and a missing set is no
constraint any more when the next one comes.
-/

namespace RtlFlow

open List

inductive Comparator where
  | lessThan | greaterThan | lessEq | greaterEq | eq | notEq | eql | notEql
deriving DecidableEq, Repr

namespace Comparator

def word : Comparator → String
  | lessThan => "LessThan"
  | greaterThan => "GreaterThan"
  | lessEq => "LessEq"
  | greaterEq => "GreaterEq"
  | eq => "Eq"
  | notEq => "NotEq"
  | eql => "Eql"
  | notEql => "NotEql"

def holds : Comparator → Int → Int → Bool
  | lessThan, a, b => decide (a < b)
  | greaterThan, a, b => decide (b < a)
  | lessEq, a, b => decide (a ≤ b)
  | greaterEq, a, b => decide (b ≤ a)
  | eq, a, b | eql, a, b => decide (a = b)
  | notEq, a, b | notEql, a, b => decide (a ≠ b)

end Comparator

namespace StateSet

/-- A state of `w` bits, with values for the other signals. -/
structure Point (w : Nat) where
  state : Int
  signals : Path → Bool
  state_nonneg : 0 ≤ state
  state_lt : state < 2 ^ w

/-- The operators of conditions on numbers; a number other than 0 is true. -/
def condOp : String → List Int → Option Int
  | "Ulnot", [a] => some (a == 0).toInt
  | "Land", [a, b] => some (a != 0 && b != 0).toInt
  | "Lor", [a, b] => some (a != 0 || b != 0).toInt
  | "Eq", [a, b] => some (a == b).toInt
  | "NotEq", [a, b] => some (a != b).toInt
  | "GreaterThan", [a, b] => some (decide (b < a)).toInt
  | "GreaterEq", [a, b] => some (decide (b ≤ a)).toInt
  | _, _ => none

variable {w : Nat} {name : Path} {rs : Spans} {a b s : StateSet}

/-- The meaning of conditions at a point, where `name` is the signal with the states. -/
def Point.interp (x : Point w) (name : Path) : Tree.Interp Int where
  signal p := some (if p == name then x.state else (x.signals p).toInt)
  atom
    | .value (.int v) _ _ _ => some v
    | _ => none
  op := condOp
  truth v := v != 0

def Holds (name : Path) (x : Point w) (c : Tree) : Prop :=
  (x.interp name).outcome ((x.interp name).meaning c) = .yes

instance (name : Path) (x : Point w) (c : Tree) : Decidable (Holds name x c) :=
  inferInstanceAs (Decidable (_ = _))

def HasState (s : StateSet) (n : Int) : Prop :=
  s.any = true ∨ ∃ low high, (Scalar.int low, Scalar.int high) ∈ s.ranges ∧ low ≤ n ∧ n ≤ high

/-- The set has the state `n`, and its condition is one of those in `T`. -/
def Accepts (s : StateSet) (n : Int) (T : Tree → Prop) : Prop :=
  s.HasState n ∧ (s.cond = .hole ∨ T s.cond)

def Contains (name : Path) (s : StateSet) (x : Point w) : Prop :=
  s.Accepts x.state (Holds name x)

/-! ## Conditions -/

def Decided (w : Nat) (name : Path) (c : Tree) : Prop :=
  ∀ x : Point w, ∃ v, (x.interp name).meaning c = some v

section

variable {a b c : Tree} {x : Point w} {v : Int} {args : List Tree} {u : Int} {op : String}

theorem holds_iff (h : (x.interp name).meaning c = some v) : Holds name x c ↔ v ≠ 0 := by
  rw [Holds, h, Tree.Interp.outcome]
  simp [Point.interp]

theorem meaning_unary (op : String) (h : (x.interp name).meaning c = some v) :
    (x.interp name).meaning (.op op [c]) = condOp op [v] := by
  simp only [Tree.Interp.meaning, Tree.Interp.meanings, h]
  rfl

theorem meaning_binary (op : String) (ha : (x.interp name).meaning a = some u)
    (hb : (x.interp name).meaning b = some v) :
    (x.interp name).meaning (.op op [a, b]) = condOp op [u, v] := by
  simp only [Tree.Interp.meaning, Tree.Interp.meanings, ha, hb]
  rfl

theorem isHole_eq_false (h : c ≠ .hole) : c.isHole = false := by
  cases c with
  | hole => exact absurd rfl h
  | _ => rfl

theorem Decided.ne_hole (h : Decided w name c) : c ≠ .hole := by
  rintro rfl
  obtain ⟨v, hv⟩ := h ⟨0, fun _ => false, Int.le_refl 0, Int.pow_pos (by decide)⟩
  simp [Tree.Interp.meaning] at hv

theorem Decided.not (h : Decided w name c) : Decided w name (.op "Ulnot" [c]) :=
  fun x => (h x).elim fun v hv => ⟨(v == 0).toInt, meaning_unary _ hv⟩

theorem toInt_ne_zero {b : Bool} : b.toInt ≠ 0 ↔ b = true := by
  cases b <;> simp

theorem holds_not (h : Decided w name c) (x : Point w) :
    Holds name x (.op "Ulnot" [c]) ↔ ¬ Holds name x c := by
  obtain ⟨v, hv⟩ := h x
  have hop : (x.interp name).meaning (.op "Ulnot" [c]) = some (v == 0).toInt := meaning_unary _ hv
  rw [holds_iff hop, holds_iff hv, toInt_ne_zero]
  simp

theorem Decided.connect {f : Bool → Bool → Bool} (ha : Decided w name a) (hb : Decided w name b)
    (hop : ∀ u v, condOp op [u, v] = some (f (u != 0) (v != 0)).toInt) :
    Decided w name (.op op [a, b]) ∧ ∀ x : Point w, Holds name x (.op op [a, b]) ↔
      f (decide (Holds name x a)) (decide (Holds name x b)) = true := by
  refine ⟨fun x => ?_, fun x => ?_⟩ <;> obtain ⟨u, hu⟩ := ha x <;> obtain ⟨v, hv⟩ := hb x
  · exact ⟨_, (meaning_binary op hu hv).trans (hop u v)⟩
  · rw [holds_iff ((meaning_binary op hu hv).trans (hop u v)), toInt_ne_zero]
    simp [holds_iff hu, holds_iff hv, bne, Bool.beq_eq_decide_eq]

theorem Decided.and (ha : Decided w name a) (hb : Decided w name b) :
    Decided w name (.op "Land" [a, b]) :=
  (ha.connect (f := Bool.and) hb fun _ _ => rfl).1

theorem Decided.or (ha : Decided w name a) (hb : Decided w name b) :
    Decided w name (.op "Lor" [a, b]) :=
  (ha.connect (f := Bool.or) hb fun _ _ => rfl).1

theorem holds_and (ha : Decided w name a) (hb : Decided w name b) (x : Point w) :
    Holds name x (.op "Land" [a, b]) ↔ Holds name x a ∧ Holds name x b := by
  simpa using (ha.connect (f := Bool.and) hb fun _ _ => rfl).2 x

theorem holds_or (ha : Decided w name a) (hb : Decided w name b) (x : Point w) :
    Holds name x (.op "Lor" [a, b]) ↔ Holds name x a ∨ Holds name x b := by
  simpa using (ha.connect (f := Bool.or) hb fun _ _ => rfl).2 x

theorem exists_args_of_meaning (h : (x.interp name).meaning (.op op args) = some v) :
    ∃ us, (x.interp name).meanings args = some us ∧ condOp op us = some v := by
  rw [Tree.Interp.meaning] at h
  exact Option.bind_eq_some_iff.mp h

theorem exists_arg_of_meanings (h : (x.interp name).meanings args = some [u]) :
    ∃ a, args = [a] ∧ (x.interp name).meaning a = some u := by
  match args with
  | [] => simp [Tree.Interp.meanings] at h
  | a :: as =>
    simp only [Tree.Interp.meanings, Option.bind_eq_some_iff, Option.map_eq_some_iff,
      List.cons.injEq] at h
    obtain ⟨v, hv, us, hus, rfl, rfl⟩ := h
    cases as with
    | nil => exact ⟨a, rfl, hv⟩
    | cons b bs =>
      simp [Tree.Interp.meanings, Option.bind_eq_some_iff] at hus

theorem Decided.of_negation (h : Decided w name (.op op args)) (hop : op = "Ulnot" ∨ op = "Unot") :
    ∃ a, op = "Ulnot" ∧ args = [a] ∧ Decided w name a := by
  have hvalue : ∀ x : Point w, op = "Ulnot" ∧ ∃ a u, args = [a] ∧
      (x.interp name).meaning a = some u := by
    intro x
    obtain ⟨v, hv⟩ := h x
    obtain ⟨us, hus, hval⟩ := exists_args_of_meaning hv
    rcases hop with rfl | rfl
    · match us, hval with
      | [u], _ =>
        obtain ⟨a, ha, hu⟩ := exists_arg_of_meanings hus
        exact ⟨rfl, a, u, ha, hu⟩
    · simp [condOp] at hval
  obtain ⟨rfl, a, -, rfl, -⟩ := hvalue ⟨0, fun _ => false, Int.le_refl 0, Int.pow_pos (by decide)⟩
  refine ⟨a, rfl, rfl, fun x => ?_⟩
  obtain ⟨-, a', u, ha, hu⟩ := hvalue x
  cases ha
  exact ⟨u, hu⟩

theorem notCond_cases (hc : c ≠ .hole) :
    (∃ op args, c = .op op args ∧ (op = "Ulnot" ∨ op = "Unot")) ∨
      notCond c = .ok (.op "Ulnot" [c]) := by
  have hwrap : Tree.mkOp "Ulnot" [c] = .ok (.op "Ulnot" [c]) := by
    simp [Tree.mkOp, isHole_eq_false hc]
  cases c with
  | op op args =>
    by_cases hop : op = "Ulnot" ∨ op = "Unot"
    · exact .inl ⟨op, args, rfl, hop⟩
    · simp [notCond, hop, hwrap]
  | hole => exact absurd rfl hc
  | _ => exact .inr hwrap

theorem notCond_spec (h : Decided w name c) :
    ∃ d, notCond c = .ok d ∧ d ≠ .hole ∧ Decided w name d ∧
      ∀ x : Point w, Holds name x d ↔ ¬ Holds name x c := by
  rcases notCond_cases h.ne_hole with ⟨op, args, rfl, hop⟩ | hd
  · obtain ⟨a, rfl, rfl, ha⟩ := h.of_negation hop
    exact ⟨a, rfl, ha.ne_hole, ha, fun x => by rw [holds_not ha, Classical.not_not]⟩
  · exact ⟨_, hd, by simp, h.not, holds_not h⟩

/-- `d` says that `a` and `b` hold, of which one that is missing does not count. -/
structure Conjunction (a b d : Tree) : Prop where
  hole : d = .hole ↔ a = .hole ∧ b = .hole
  root : d = a ∨ d = b ∨ a ≠ .hole ∧ b ≠ .hole ∧ d = .op "Land" [a, b]
  truth : ∀ T : Tree → Prop,
    (a ≠ .hole → b ≠ .hole → (T (.op "Land" [a, b]) ↔ T a ∧ T b)) →
      ((d = .hole ∨ T d) ↔ (a = .hole ∨ T a) ∧ (b = .hole ∨ T b))

theorem exists_andCond (a b : Tree) : ∃ d, andCond a b = .ok d ∧ Conjunction a b d := by
  by_cases ha : a = .hole
  · subst ha
    exact ⟨b, rfl, by simp, .inr (.inl rfl), by simp⟩
  · by_cases hb : b = .hole
    · subst hb
      exact ⟨a, by simp [andCond, Tree.isHole], by simp, .inl rfl, by simp⟩
    · refine ⟨.op "Land" [a, b], ?_, by simp [ha], .inr (.inr ⟨ha, hb, rfl⟩), fun T hT => ?_⟩
      · simp [andCond, Tree.mkOp, isHole_eq_false ha, isHole_eq_false hb]
      · simp [hT ha hb, ha, hb]

end

/-! ## One set -/

/-- The sets that are found for conditions: from 0 up to the highest state, with ranges one above the
other, and with a condition where any state is allowed. -/
structure Regular (w : Nat) (name : Path) (s : StateSet) : Prop where
  min_eq : s.min = .int 0
  max_eq : s.max = .int (2 ^ w - 1)
  ranges : ∃ rs, s.ranges = Ranges.toScalars rs ∧ Ranges.Stacked (2 ^ w - 1) rs
  cond : s.cond = .hole ∨ Decided w name s.cond
  any : s.any = true → s.cond ≠ .hole

theorem hasState_iff (h : s.ranges = Ranges.toScalars rs) (n : Int) :
    s.HasState n ↔ s.any = true ∨ Ranges.Mem n rs := by
  simp [HasState, h, Ranges.mem_toScalars, Ranges.Mem]

/-- A set of states from 0 up to `high`, with a condition where any state is allowed. Its ranges are
one above the other when they are sorted. -/
structure Sorted (high : Int) (rs : Spans) (s : StateSet) : Prop where
  min_eq : s.min = .int 0
  max_eq : s.max = .int high
  ranges_eq : s.ranges = Ranges.toScalars rs
  stacked : Ranges.Stacked high (Ranges.sort rs)
  any : s.any = true → s.cond ≠ .hole

section

variable {high : Int} {as bs : Spans}

theorem exists_compl {Q : Tree → Prop} (h : s.Sorted high rs)
    (hcond : s.cond ≠ .hole → ∃ d, notCond s.cond = .ok d ∧ d ≠ .hole ∧ Q d) :
    ∃ ss, s.not = .ok ss ∧ ss.members ≠ [] ∧
      (∀ m ∈ ss.members, (m.cond = .hole ∨ Q m.cond) ∧
        ∃ ts, m.Sorted high ts ∧ (ts = [] ∨ ts = rs ∨ ts = Ranges.compl 0 high rs)) ∧
      ∀ n T, 0 ≤ n → n ≤ high → (∀ d, Q d → (T d ↔ ¬ T s.cond)) →
        ((∃ m ∈ ss.members, m.Accepts n T) ↔ ¬ s.Accepts n T) := by
  by_cases hany : s.any = true
  · obtain ⟨d, hd, hne, hQ⟩ := hcond (h.any hany)
    refine ⟨.one { max := s.max, cond := d, any := true }, by simp [StateSet.not, hany, hd],
      by simp [StateSets.members], ?_, fun n T _ _ hT => ?_⟩
    · simp only [StateSets.members, mem_singleton, forall_eq]
      exact ⟨.inr hQ, [], ⟨rfl, h.max_eq, rfl, .sort ⟨by simp, by simp⟩, fun _ => hne⟩, .inl rfl⟩
    · simp [StateSets.members, Accepts, HasState, hany, hne, h.any hany, hT d hQ]
  · let outside : StateSet := { ranges := Ranges.toScalars (Ranges.compl 0 high rs), max := s.max }
    have houtside : outside.Sorted high (Ranges.compl 0 high rs) :=
      ⟨rfl, h.max_eq, rfl, (Ranges.stacked_compl h.stacked).sort, by simp [outside]⟩
    have hmem : ∀ n T, 0 ≤ n → n ≤ high → (outside.Accepts n T ↔ ¬ s.HasState n) := by
      intro n T hlow hhigh
      rw [Accepts, hasState_iff rfl, Ranges.mem_compl h.stacked, hasState_iff h.ranges_eq]
      simp [outside, hany, hlow, hhigh]
    have hrun : s.not = if s.cond.isHole then .ok (.one outside) else do
        return .many [outside, { ranges := s.ranges, cond := ← notCond s.cond, max := s.max }] := by
      simp [StateSet.not, hany, h.min_eq, h.max_eq, h.ranges_eq, Ranges.ofScalars_toScalars,
        Scalar.toInt, Scalar.int?, outside]
    by_cases hhole : s.cond = .hole
    · refine ⟨.one outside, by rw [hrun, hhole]; rfl, by simp [StateSets.members], ?_,
        fun n T hlow hhigh _ => ?_⟩
      · simp only [StateSets.members, mem_singleton, forall_eq]
        exact ⟨.inl rfl, _, houtside, .inr (.inr rfl)⟩
      · simp only [StateSets.members, mem_singleton, exists_eq_left, hmem n T hlow hhigh]
        simp [Accepts, hhole]
    · obtain ⟨d, hd, hne, hQ⟩ := hcond hhole
      let inside : StateSet := { ranges := s.ranges, cond := d, max := s.max }
      have hinside : inside.Sorted high rs :=
        ⟨rfl, h.max_eq, h.ranges_eq, h.stacked, by simp [inside]⟩
      refine ⟨.many [outside, inside], by rw [hrun, isHole_eq_false hhole, hd]; rfl,
        by simp [StateSets.members], ?_, fun n T hlow hhigh hT => ?_⟩
      · exact forall_mem_cons.mpr ⟨⟨.inl rfl, _, houtside, .inr (.inr rfl)⟩,
          forall_mem_singleton.mpr ⟨.inr hQ, _, hinside, .inr (.inl rfl)⟩⟩
      · have hstate : inside.HasState n ↔ s.HasState n := by simp [HasState, inside, hany]
        have hmemIn : inside.Accepts n T ↔ s.HasState n ∧ ¬ T s.cond := by
          simp [Accepts, hstate, inside, hne, hT d hQ]
        simp only [StateSets.members, mem_cons, not_mem_nil, or_false, exists_eq_or_imp,
          exists_eq_left, hmem n T hlow hhigh, hmemIn]
        rw [Accepts, or_iff_right hhole]
        tauto

theorem exists_andRanges (ha : a.Sorted high as) (hb : b.Sorted high bs)
    (hany : (a.any && b.any) = false) :
    ∃ rs, andRanges a b = .ok (Ranges.toScalars rs) ∧
      (rs = [] ∨ rs = as ∨ rs = bs ∨ rs = Ranges.inter as bs) ∧
      ∀ n, Ranges.Mem n rs ↔ a.HasState n ∧ b.HasState n := by
  simp only [hasState_iff ha.ranges_eq, hasState_iff hb.ranges_eq]
  cases haa : a.any with
  | true =>
    have hbb : b.any = false := by simpa [haa] using hany
    exact ⟨bs, by simp [andRanges, haa, hb.ranges_eq], by simp, by simp [hbb]⟩
  | false =>
    cases hbb : b.any with
    | true => exact ⟨as, by simp [andRanges, haa, hbb, ha.ranges_eq], by simp, by simp⟩
    | false =>
      by_cases hempty : as = [] ∨ bs = []
      · refine ⟨[], ?_, .inl rfl, ?_⟩
        · rcases hempty with rfl | rfl <;>
            simp [andRanges, haa, hbb, ha.ranges_eq, hb.ranges_eq, Ranges.toScalars]
        · rcases hempty with rfl | rfl <;> simp
      · have hne : ∀ ts : Spans, ts ≠ [] → (Ranges.toScalars ts).isEmpty = false :=
          fun ts hts => by simpa [Ranges.toScalars] using hts
        obtain ⟨hneA, hneB⟩ := not_or.mp hempty
        refine ⟨Ranges.inter as bs, ?_, by simp, by simp [Ranges.mem_inter ha.stacked hb.stacked]⟩
        simp [andRanges, haa, hbb, ha.ranges_eq, hb.ranges_eq, Ranges.ofScalars_toScalars,
          hne as hneA, hne bs hneB]

theorem gt_self (n : Int) : (Scalar.int n).gt (.int n) = .ok false := by
  simp [Scalar.gt, Scalar.order, Scalar.int?]

/-- The intersection of two sets has the states that both have, under both conditions. It is missing
only if there is no such state. -/
theorem exists_inter (ha : a.Sorted high as) (hb : b.Sorted high bs) :
    ∃ r, a.and b = .ok r ∧ (r = none → ∀ n, ¬ (a.HasState n ∧ b.HasState n)) ∧
      ∀ s ∈ r, Conjunction a.cond b.cond s.cond ∧ (s.any = true ↔ s.ranges = []) ∧
        (∃ rs, s.Sorted high rs ∧ (rs = [] ∨ rs = as ∨ rs = bs ∨ rs = Ranges.inter as bs)) ∧
        ∀ n, s.HasState n ↔ a.HasState n ∧ b.HasState n := by
  obtain ⟨d, hd, hcond⟩ := exists_andCond a.cond b.cond
  cases hany : a.any && b.any with
  | true =>
    obtain ⟨haa, hbb⟩ := Bool.and_eq_true_iff.mp hany
    have hne : d ≠ .hole := fun h => ha.any haa (hcond.hole.mp h).1
    refine ⟨some { max := .int high, cond := d, any := true }, ?_, by simp, ?_⟩
    · simp [StateSet.and, haa, hbb, hd, ha.max_eq, hb.max_eq, gt_self]
    · simp only [Option.mem_def, Option.some.injEq, forall_eq']
      exact ⟨hcond, by simp, ⟨[], ⟨rfl, rfl, rfl, .sort ⟨by simp, by simp⟩, fun _ => hne⟩, .inl rfl⟩,
        by simp [HasState, haa, hbb]⟩
  | false =>
    obtain ⟨rs, hrs, hfrom, hmem⟩ := exists_andRanges ha hb hany
    have hstacked : Ranges.Stacked high (Ranges.sort rs) := by
      rcases hfrom with rfl | rfl | rfl | rfl
      · exact .sort ⟨by simp, by simp⟩
      · exact ha.stacked
      · exact hb.stacked
      · exact (Ranges.stacked_inter ha.stacked hb.stacked).sort
    cases rs with
    | nil =>
      refine ⟨none, by simp only [StateSet.and, hany, hrs]; rfl, fun _ n hn => ?_, by simp⟩
      exact Ranges.not_mem_nil n ((hmem n).mpr hn)
    | cons r rs =>
      refine ⟨some { ranges := Ranges.toScalars (r :: rs), max := .int high, cond := d }, ?_, by simp,
        ?_⟩
      · simp only [StateSet.and, hany, hrs, hd, ha.max_eq, hb.max_eq, gt_self]
        rfl
      · simp only [Option.mem_def, Option.some.injEq, forall_eq']
        refine ⟨hcond, by simp [Ranges.toScalars], ⟨_, ⟨rfl, rfl, rfl, hstacked, by simp⟩, hfrom⟩,
          fun n => ?_⟩
        rw [hasState_iff rfl, ← hmem]
        simp

end

theorem Regular.exists_sorted (h : s.Regular w name) :
    ∃ rs, s.Sorted (2 ^ w - 1) rs ∧ Ranges.Stacked (2 ^ w - 1) rs := by
  obtain ⟨rs, hrs, hstacked⟩ := h.ranges
  exact ⟨rs, ⟨h.min_eq, h.max_eq, hrs, hstacked.sort, h.any⟩, hstacked⟩

theorem not_spec (h : s.Regular w name) :
    ∃ ss, s.not = .ok ss ∧ ss.members ≠ [] ∧ (∀ m ∈ ss.members, m.Regular w name) ∧
      ∀ x : Point w, (∃ m ∈ ss.members, m.Contains name x) ↔ ¬ s.Contains name x := by
  obtain ⟨rs, hsorted, hstacked⟩ := h.exists_sorted
  obtain ⟨ss, hss, hne, hmembers, hmem⟩ := exists_compl hsorted
    fun hne => notCond_spec (h.cond.resolve_left hne)
  refine ⟨ss, hss, hne, fun m hm => ?_, fun x => ?_⟩
  · obtain ⟨hcond, ts, hm, hts⟩ := hmembers m hm
    refine ⟨hm.min_eq, hm.max_eq, ⟨ts, hm.ranges_eq, ?_⟩, hcond.imp_right And.left, hm.any⟩
    rcases hts with rfl | rfl | rfl
    · exact ⟨by simp, by simp⟩
    · exact hstacked
    · exact Ranges.stacked_compl hsorted.stacked
  · have := x.state_lt
    exact hmem x.state (Holds name x) x.state_nonneg (by omega) fun d hd => hd.2 x

theorem and_spec (ha : a.Regular w name) (hb : b.Regular w name) :
    ∃ r, a.and b = .ok r ∧ (∀ m ∈ r, m.Regular w name) ∧
      ∀ x : Point w, (∃ m ∈ r, m.Contains name x) ↔ a.Contains name x ∧ b.Contains name x := by
  obtain ⟨as, hsortedA, hsa⟩ := ha.exists_sorted
  obtain ⟨bs, hsortedB, hsb⟩ := hb.exists_sorted
  obtain ⟨r, hr, hnone, hsome⟩ := exists_inter hsortedA hsortedB
  refine ⟨r, hr, fun m hm => ?_, fun x => ?_⟩
  · obtain ⟨hcond, -, ⟨rs, hm, hrs⟩, -⟩ := hsome m hm
    refine ⟨hm.min_eq, hm.max_eq, ⟨rs, hm.ranges_eq, ?_⟩, ?_, hm.any⟩
    · rcases hrs with rfl | rfl | rfl | rfl
      · exact ⟨by simp, by simp⟩
      · exact hsa
      · exact hsb
      · exact Ranges.stacked_inter hsortedA.stacked hsortedB.stacked
    · rcases hcond.root with h | h | ⟨hneA, hneB, h⟩ <;> rw [h]
      · exact ha.cond
      · exact hb.cond
      · exact .inr ((ha.cond.resolve_left hneA).and (hb.cond.resolve_left hneB))
  · change _ ↔ a.Accepts x.state (Holds name x) ∧ b.Accepts x.state (Holds name x)
    rw [Accepts, Accepts, and_and_and_comm]
    cases r with
    | none => simpa using fun hA hB => absurd ⟨hA, hB⟩ (hnone rfl x.state)
    | some s =>
      obtain ⟨hcond, -, -, hstate⟩ := hsome s rfl
      rw [← hstate, ← hcond.truth (Holds name x) fun hneA hneB =>
        holds_and (ha.cond.resolve_left hneA) (hb.cond.resolve_left hneB) x]
      simp only [Option.mem_def, Option.some.injEq, exists_eq_left']
      rfl

end StateSet

namespace StateSets

open StateSet

variable {w : Nat} {name : Path} {c : Tree} {high low : Int} {x : Point w} {p : Path}
variable {a b ss : StateSets} {bs : List StateSet} {i : Inferred}

/-- A point is in one of the sets of a union; no point is in a missing one. -/
def Contains (name : Path) (s : Option StateSets) (x : Point w) : Prop :=
  ∃ ss ∈ s, ∃ m ∈ ss.members, m.Contains name x

def Regular (w : Nat) (name : Path) (ss : StateSets) : Prop :=
  ss.members ≠ [] ∧ ∀ m ∈ ss.members, m.Regular w name

theorem contains_some : Contains name (some ss) x ↔ ∃ m ∈ ss.members, m.Contains name x := by
  simp [Contains]

theorem not_contains_none : ¬ Contains name none x := by
  simp [Contains]

/-- What is computed are sets of the points of `P`; they may be missing if there is no such point. -/
abbrev Finds (name : Path) (P : Point w → Prop) (run : Result (Option StateSets)) : Prop :=
  ∃ r, run = .ok r ∧ (∀ ss ∈ r, ss.Regular w name) ∧ ∀ x : Point w, Contains name r x ↔ P x

/-- What is computed are sets of the points of `P`, and they are not missing. -/
abbrev FindsSome (name : Path) (P : Point w → Prop) (run : Result (Option StateSets)) : Prop :=
  ∃ ss, run = .ok (some ss) ∧ ss.Regular w name ∧ ∀ x : Point w, Contains name (some ss) x ↔ P x

/-! ## Unions -/

theorem contains_or :
    Contains name (StateSets.or (some a) (some b)) x ↔
      Contains name (some a) x ∨ Contains name (some b) x := by
  simp [StateSets.or, contains_some, members, or_and_right, exists_or]

theorem mapM_and_spec {a : StateSet} (ha : a.Regular w name) (hb : ∀ b ∈ bs, b.Regular w name) :
    ∃ rs, bs.mapM a.and = .ok rs ∧ (∀ m ∈ rs.filterMap id, m.Regular w name) ∧
      ∀ x : Point w, (∃ m ∈ rs.filterMap id, m.Contains name x) ↔
        a.Contains name x ∧ ∃ b ∈ bs, b.Contains name x := by
  obtain ⟨rs, hrs, hleft, hright⟩ := exists_mapM_eq_ok fun b hb' => and_spec ha (hb b hb')
  simp only [mem_filterMap, id, exists_eq_right]
  refine ⟨rs, hrs, fun m hm => ?_, fun x => ⟨?_, ?_⟩⟩
  · obtain ⟨b, -, hregular, -⟩ := hright _ hm
    exact hregular m rfl
  · rintro ⟨m, hm, hx⟩
    obtain ⟨b, hb, -, hmem⟩ := hright _ hm
    exact ((hmem x).mp ⟨m, rfl, hx⟩).imp_right fun hx => ⟨b, hb, hx⟩
  · rintro ⟨hx, b, hb, hx'⟩
    obtain ⟨r, hr, -, hmem⟩ := hleft b hb
    obtain ⟨m, rfl, hm⟩ := (hmem x).mpr ⟨hx, hx'⟩
    exact ⟨m, hr, hm⟩

theorem andMembers_spec {as : List StateSet} (ha : ∀ a ∈ as, a.Regular w name)
    (hb : ∀ b ∈ bs, b.Regular w name) :
    Finds name (fun x : Point w => (∃ a ∈ as, a.Contains name x) ∧ ∃ b ∈ bs, b.Contains name x)
      (andMembers as bs) := by
  have hfound : ∃ found, (as.mapM fun a => do return (← bs.mapM a.and).filterMap id) = .ok found ∧
      (∀ m ∈ found.flatten, m.Regular w name) ∧
      ∀ x : Point w, (∃ m ∈ found.flatten, m.Contains name x) ↔
        (∃ a ∈ as, a.Contains name x) ∧ ∃ b ∈ bs, b.Contains name x := by
    induction as with
    | nil => exact ⟨[], rfl, by simp, by simp⟩
    | cons a as ih =>
      obtain ⟨rs, hrs, hregular, hmem⟩ := mapM_and_spec (ha a (by simp)) hb
      obtain ⟨found, hfound, hregulars, hmems⟩ := ih fun a ha' => ha a (by simp [ha'])
      refine ⟨rs.filterMap id :: found, ?_, ?_, fun x => ?_⟩
      · rw [mapM_cons, hrs, hfound]
        rfl
      · intro m hm
        rcases mem_append.mp hm with hm | hm
        · exact hregular m hm
        · exact hregulars m hm
      · simp only [flatten_cons, mem_append, or_and_right, exists_or, hmem, hmems,
          mem_cons, exists_eq_left]
  obtain ⟨found, hrun, hregular, hmem⟩ := hfound
  have hreturn : andMembers as bs =
      .ok (if found.flatten.isEmpty then none else some (.many found.flatten)) := by
    rw [andMembers, hrun]
    rfl
  cases hempty : found.flatten with
  | nil =>
    refine ⟨none, ?_, by simp, fun x => ?_⟩
    · rw [hreturn, hempty]
      rfl
    · refine Iff.trans ?_ (hmem x)
      simp [hempty, not_contains_none]
  | cons m ms =>
    refine ⟨some (.many found.flatten), by rw [hreturn, hempty]; rfl, ?_, fun x => ?_⟩
    · simp only [Option.mem_def, Option.some.injEq, forall_eq']
      exact ⟨by simp [members, hempty], hregular⟩
    · exact contains_some.trans (hmem x)

theorem and_spec (ha : a.Regular w name) (hb : b.Regular w name) :
    Finds name (fun x : Point w => Contains name (some a) x ∧ Contains name (some b) x)
      (StateSets.and (some a) (some b)) := by
  simp only [contains_some]
  cases a with
  | many as => cases b <;> exact andMembers_spec ha.2 hb.2
  | one a =>
    cases b with
    | many bs => exact andMembers_spec ha.2 hb.2
    | one b =>
      obtain ⟨r, hr, hregular, hmem⟩ := StateSet.and_spec (ha.2 a (by simp [members]))
        (hb.2 b (by simp [members]))
      refine ⟨r.map .one, ?_, ?_, fun x => ?_⟩
      · simp [StateSets.and, hr]
      · cases r with
        | none => simp
        | some m => simpa [Regular, members] using hregular m rfl
      · have := hmem x
        cases r <;> simpa [Contains, members] using this

/-! ## Intersections of several unions -/

/-- Sets that are intersected one after the other. All but the last have a common point, so that no
intersection on the way is missing. -/
theorem foldlM_and_spec {α : Type} (f : Option StateSets → α → Result (Option StateSets))
    (Means : α → Point w → Prop) (as : List α)
    (hf : ∀ a ∈ as, ∃ ss, ss.Regular w name ∧
      (∀ x : Point w, Contains name (some ss) x ↔ Means a x) ∧ f none a = .ok (some ss) ∧
      ∀ acc, f (some acc) a = StateSets.and (some acc) (some ss))
    (hne : as ≠ []) (hcommon : ∃ x : Point w, ∀ a ∈ as.dropLast, Means a x) :
    Finds name (fun x => ∀ a ∈ as, Means a x) (as.foldlM f none) := by
  induction as using List.reverseRecOn with
  | nil => exact absurd rfl hne
  | append_singleton as a ih =>
    obtain ⟨ss, hss, hmeans, hstart, hstep⟩ := hf a (by simp)
    rw [dropLast_concat] at hcommon
    cases as with
    | nil =>
      refine ⟨some ss, ?_, by simpa using hss, by simpa using hmeans⟩
      simp [hstart]
    | cons b bs =>
      obtain ⟨x, hx⟩ := hcommon
      obtain ⟨r, hr, hregular, hmem⟩ := ih (fun a ha => hf a (mem_append_left _ ha)) (by simp)
        ⟨x, fun a ha => hx a (dropLast_subset _ ha)⟩
      obtain ⟨acc, rfl, -⟩ := (hmem x).mpr hx
      obtain ⟨r', hr', hregular', hmem'⟩ := and_spec (hregular acc rfl) hss
      refine ⟨r', ?_, hregular', fun y => ?_⟩
      · rw [foldlM_append, hr]
        simp [hstep, hr']
      · simp only [hmem', hmem, hmeans, mem_append, mem_singleton, or_imp, forall_and, forall_eq]

theorem not_spec (h : ss.Regular w name) (hpoint : ∃ x : Point w, ¬ Contains name (some ss) x) :
    FindsSome name (fun x : Point w => ¬ Contains name (some ss) x) (StateSets.not (some ss)) := by
  cases ss with
  | one s =>
    obtain ⟨r, hr, hne, hregular, hmem⟩ := StateSet.not_spec (h.2 s (by simp [members]))
    refine ⟨r, ?_, ⟨hne, hregular⟩, fun x => ?_⟩
    · simp [StateSets.not, hr]
    · simp only [contains_some, hmem]
      simp [members]
  | many ss =>
    have hnot : ∀ s ∈ ss, ∃ c, s.not = .ok c ∧ c.Regular w name ∧
        ∀ x : Point w, Contains name (some c) x ↔ ¬ s.Contains name x := by
      intro s hs
      obtain ⟨c, hc, hne, hregular, hmem⟩ := StateSet.not_spec (h.2 s hs)
      exact ⟨c, hc, ⟨hne, hregular⟩, fun x => by rw [contains_some, hmem]⟩
    obtain ⟨cs, hcs, hleft, hright⟩ := exists_mapM_eq_ok hnot
    have hall : ∀ x : Point w, (∀ c ∈ cs, Contains name (some c) x) ↔
        ¬ Contains name (some (.many ss)) x := by
      intro x
      rw [contains_some]
      constructor
      · rintro hx ⟨s, hs, hsx⟩
        obtain ⟨c, hc, -, hmem⟩ := hleft s hs
        exact (hmem x).mp (hx c hc) hsx
      · intro hx c hc
        obtain ⟨s, hs, -, hmem⟩ := hright c hc
        exact (hmem x).mpr fun hsx => hx ⟨s, hs, hsx⟩
    have hne : cs ≠ [] := by
      obtain ⟨s, hs⟩ := exists_mem_of_ne_nil ss h.1
      obtain ⟨c, hc, -⟩ := hleft s hs
      exact ne_nil_of_mem hc
    obtain ⟨x, hx⟩ := hpoint
    obtain ⟨r, hr, hregular, hmem⟩ : Finds name (fun x : Point w => ∀ c ∈ cs, Contains name (some c) x)
        (StateSets.not (some (.many ss))) := by
      simp only [StateSets.not, hcs]
      exact foldlM_and_spec _ (fun c (x : Point w) => Contains name (some c) x) cs
        (fun c hc => (hright c hc).elim fun s hs => ⟨c, hs.2.1, fun _ => Iff.rfl, rfl, fun _ => rfl⟩)
        hne ⟨x, fun c hc => (hall x).mpr hx c (dropLast_subset _ hc)⟩
    obtain ⟨ss', rfl, -⟩ := (hmem x).mpr ((hall x).mpr hx)
    exact ⟨ss', hr, hregular ss' rfl, fun y => (hmem y).trans (hall y)⟩

/-! ## Conditions -/

/-- The conditions on the states of a signal: comparisons of the signal with constants and other
signals, with logical operations. -/
inductive IsCond (w : Nat) (name : Path) : Tree → Prop
  | compare {op : String} {p : Path} {v : Int} {width : Scalar} {isReal isText : Bool}
      (hop : op ∈ ["Eq", "NotEq", "GreaterThan", "GreaterEq"]) (hp : (p == name) = true)
      (hlow : 0 ≤ v) (hhigh : v < 2 ^ w) :
      IsCond w name (.op op [.term p, .value (.int v) width isReal isText])
  | signal {p : Path} (hp : (p == name) = false) : IsCond w name (.term p)
  | not {c : Tree} : IsCond w name c → IsCond w name (.op "Ulnot" [c])
  | and {a b : Tree} : IsCond w name a → IsCond w name b → IsCond w name (.op "Land" [a, b])
  | or {a b : Tree} : IsCond w name a → IsCond w name b → IsCond w name (.op "Lor" [a, b])

/-- `Negation c d`: the negation `d` is a part of the condition `c`, or is `c` itself. -/
inductive Negation : Tree → Tree → Prop
  | here (c : Tree) : Negation (.op "Ulnot" [c]) (.op "Ulnot" [c])
  | inside {op : String} {args : List Tree} {c d : Tree} (hc : c ∈ args) (h : Negation c d) :
      Negation (.op op args) d

/-- Conditions hold together at some point. -/
def Satisfiable (w : Nat) (name : Path) (conds : List Tree) : Prop :=
  ∃ x : Point w, ∀ c ∈ conds, Holds name x c

theorem maxValue_ofNat (w : Nat) : maxValue (.int w) = .ok (.int (2 ^ w - 1)) := by
  have hpow : (Scalar.int 2).pow (.int w) = .ok (.int (2 ^ w)) := by
    simp only [Scalar.pow, Scalar.arith, Scalar.int?]
    rw [if_neg (by omega), Int.toNat_natCast]
    rfl
  rw [maxValue, hpow]
  rfl

theorem meaning_state (hp : (p == name) = true) (x : Point w) :
    (x.interp name).meaning (.term p) = some x.state := by
  simp [Tree.Interp.meaning, Point.interp, hp]

theorem meaning_other (hp : (p == name) = false) (x : Point w) :
    (x.interp name).meaning (.term p) = some (x.signals p).toInt := by
  simp [Tree.Interp.meaning, Point.interp, hp]

theorem meaning_constant (v : Int) (width : Scalar) (isReal isText : Bool) (x : Point w) :
    (x.interp name).meaning (.value (.int v) width isReal isText) = some v := by
  simp [Tree.Interp.meaning, Point.interp]

theorem IsCond.decided (h : IsCond w name c) : Decided w name c := by
  induction h with
  | @compare op p v width isReal isText hop hp =>
    intro x
    rw [meaning_binary op (meaning_state hp x) (meaning_constant v width isReal isText x)]
    fin_cases hop <;> exact ⟨_, rfl⟩
  | signal hp => exact fun x => ⟨_, meaning_other hp x⟩
  | not _ ih => exact ih.not
  | and _ _ iha ihb => exact iha.and ihb
  | or _ _ iha ihb => exact iha.or ihb

def rangeSet (w : Nat) (low high : Int) : StateSet :=
  { ranges := [(.int low, .int high)], max := .int (2 ^ w - 1) }

theorem regular_rangeSet (h : 0 ≤ low ∧ low ≤ high + 1 ∧ high ≤ 2 ^ w - 1) :
    (rangeSet w low high).Regular w name :=
  ⟨rfl, rfl, ⟨[(low, high)], rfl, .single h⟩, .inl rfl, by simp [rangeSet]⟩

theorem contains_rangeSet (x : Point w) :
    (rangeSet w low high).Contains name x ↔ low ≤ x.state ∧ x.state ≤ high := by
  simp [rangeSet, StateSet.Contains, Accepts, HasState]

theorem anyState_spec (h : Decided w name c) :
    FindsSome name (fun x : Point w => Holds name x c) (anyState (.int w) c) := by
  refine ⟨.one { max := .int (2 ^ w - 1), cond := c, any := true }, ?_, ⟨by simp [members], ?_⟩,
    fun x => ?_⟩
  · simp [anyState, maxValue_ofNat]
  · simp only [members, mem_singleton, forall_eq]
    exact ⟨rfl, rfl, ⟨[], rfl, by simp, by simp⟩, .inr h, fun _ => h.ne_hole⟩
  · simp [contains_some, members, StateSet.Contains, Accepts, HasState, h.ne_hole]

theorem ofInferred_eq (hmin : i.min = .int low)
    (hmax : i.max = .int high ∨ i.max = .none ∧ high = 2 ^ w - 1) :
    ofInferred i (.int w) = if i.inverted then do return some (← (rangeSet w low high).not)
      else .ok (some (.one (rangeSet w low high))) := by
  obtain ⟨min, max, inverted⟩ := i
  dsimp only at hmin
  subst hmin
  rcases hmax with rfl | ⟨rfl, rfl⟩ <;> simp only [ofInferred, maxValue_ofNat] <;> rfl

theorem ofInferred_spec (name : Path) (hmin : i.min = .int low)
    (hmax : i.max = .int high ∨ i.max = .none ∧ high = 2 ^ w - 1)
    (hbounds : 0 ≤ low ∧ low ≤ high + 1 ∧ high ≤ 2 ^ w - 1) :
    FindsSome name (fun x : Point w => i.inverted = false ↔ low ≤ x.state ∧ x.state ≤ high)
      (ofInferred i (.int w)) := by
  have hregular : (rangeSet w low high).Regular w name := regular_rangeSet hbounds
  rw [ofInferred_eq hmin hmax]
  cases i.inverted with
  | false =>
    refine ⟨.one (rangeSet w low high), rfl, ⟨by simp [members], by simpa [members] using hregular⟩,
      fun x => ?_⟩
    rw [contains_some]
    simp [members, contains_rangeSet]
  | true =>
    obtain ⟨ss, hss, hne, hregulars, hmem⟩ := StateSet.not_spec hregular
    refine ⟨ss, by rw [hss]; rfl, ⟨hne, hregulars⟩, fun x => ?_⟩
    rw [contains_some, hmem, contains_rangeSet]
    simp

theorem exists_range (w : Nat) {op : Comparator} {c : Int} (hc : 0 ≤ c) (hop : op ≠ .lessEq)
    (hzero : ¬ (op = .lessThan ∧ c = 0)) :
    ∃ (i : Inferred) (low high : Int), Inferred.ofCompare op.word (.int c) = .ok i ∧
      i.min = .int low ∧ (i.max = .int high ∨ i.max = .none ∧ high = 2 ^ w - 1) ∧
      (i.inverted = true → 0 ≤ low ∧ high = low) ∧
      (c < 2 ^ w → 0 ≤ low ∧ low ≤ high + 1 ∧ high ≤ 2 ^ w - 1) ∧
      ∀ n, 0 ≤ n → n < 2 ^ w → ((i.inverted = false ↔ low ≤ n ∧ n ≤ high) ↔
        op.holds n c = true) := by
  cases op with
  | lessEq => exact absurd rfl hop
  | lessThan =>
    have hne : c ≠ 0 := fun h => hzero ⟨rfl, h⟩
    refine ⟨⟨.int 0, .int (c - 1), false⟩, 0, c - 1, ?_, rfl, .inl rfl, by rintro ⟨⟩, by omega,
      fun n hlow _ => ?_⟩
    · have hsub : (Scalar.int c).sub (.int 1) = .ok (.int (c - 1)) := rfl
      have hge : ¬ c - 1 < 0 := by omega
      simp only [Comparator.word, Inferred.ofCompare, hsub, Scalar.lt_int, hge, decide_false,
        ok_bind]
      rfl
    · simp only [Comparator.holds, true_iff, decide_eq_true_eq]
      omega
  | greaterThan =>
    refine ⟨⟨.int (c + 1), .none, false⟩, c + 1, 2 ^ w - 1, rfl, rfl, .inr ⟨rfl, rfl⟩, by rintro ⟨⟩, by omega,
      fun n _ hhigh => ?_⟩
    simp only [Comparator.holds, true_iff, decide_eq_true_eq]
    omega
  | greaterEq =>
    refine ⟨⟨.int c, .none, false⟩, c, 2 ^ w - 1, rfl, rfl, .inr ⟨rfl, rfl⟩, by rintro ⟨⟩, by omega,
      fun n _ hhigh => ?_⟩
    simp only [Comparator.holds, true_iff, decide_eq_true_eq]
    omega
  | eq | eql =>
    refine ⟨⟨.int c, .int c, false⟩, c, c, rfl, rfl, .inl rfl, by rintro ⟨⟩, by omega, fun n _ _ => ?_⟩
    simp only [Comparator.holds, true_iff, decide_eq_true_eq]
    omega
  | notEq | notEql =>
    refine ⟨⟨.int c, .int c, true⟩, c, c, rfl, rfl, .inl rfl, fun _ => ⟨hc, rfl⟩, by omega, fun n _ _ => ?_⟩
    simp only [Comparator.holds, Bool.true_eq_false, false_iff, decide_eq_true_eq]
    omega

theorem compareStates_spec {op : String} {v : Int} {width : Scalar} {isReal isText : Bool}
    (hop : op ∈ ["Eq", "NotEq", "GreaterThan", "GreaterEq"]) (hp : (p == name) = true)
    (hlow : 0 ≤ v) (hhigh : v < 2 ^ w) :
    FindsSome name
      (fun x : Point w => Holds name x (.op op [.term p, .value (.int v) width isReal isText]))
      (compareStates name (.int w) op (.term p) (.value (.int v) width isReal isText)) := by
  obtain ⟨o, rfl, hless, hle⟩ : ∃ o : Comparator, o.word = op ∧ o ≠ .lessThan ∧ o ≠ .lessEq := by
    fin_cases hop
    exacts [⟨.eq, by decide⟩, ⟨.notEq, by decide⟩, ⟨.greaterThan, by decide⟩,
      ⟨.greaterEq, by decide⟩]
  obtain ⟨i, low, high, hi, hmin, hmax, -, hbounds, hholds⟩ :=
    exists_range w hlow hle fun h => hless h.1
  obtain ⟨ss, hss, hregular, hmem⟩ := ofInferred_spec name hmin hmax (hbounds hhigh)
  refine ⟨ss, by simpa [compareStates, Tree.isSignal, hp, Inferred.infer, hi] using hss, hregular,
    fun x => ?_⟩
  have hvalue : condOp o.word [x.state, v] = some (o.holds x.state v).toInt := by
    cases o <;> simp_all [condOp, Comparator.word, Comparator.holds, bne, Bool.beq_eq_decide_eq]
  have hmeaning := meaning_binary o.word (meaning_state hp x)
    (meaning_constant v width isReal isText x)
  refine (hmem x).trans ((hholds x.state x.state_nonneg x.state_lt).trans ?_)
  exact toInt_ne_zero.symm.trans (holds_iff (hmeaning.trans hvalue)).symm

section

variable {width : Scalar} {l r : Tree} {left right : Result (Option StateSets)}
variable {ls rs : StateSets}

theorem dualStates_compare {op : String} (hop : op ∈ ["Eq", "NotEq", "GreaterThan", "GreaterEq"]) :
    dualStates name width op l r left right = compareStates name width op l r := by
  fin_cases hop <;> rfl

theorem dualStates_or {ss : StateSets} (hl : left = .ok (some ls)) (hr : right = .ok (some rs))
    (hor : StateSets.or (some ls) (some rs) = some ss) :
    dualStates name width "Lor" l r left right = .ok (some ss) := by
  subst hl hr
  simp only [dualStates, hor, ok_bind]
  rfl

theorem dualStates_and {s : Option StateSets} (hl : left = .ok (some ls))
    (hr : right = .ok (some rs)) (hand : StateSets.and (some ls) (some rs) = .ok s) :
    dualStates name width "Land" l r left right =
      match s with
      | some s => .ok (some s)
      | none => compareStates name width "Land" l r := by
  subst hl hr
  simp only [dualStates, hand, ok_bind]
  cases s <;> rfl

end

theorem IsCond.isSignal_eq (h : IsCond w name c) : c.isSignal name = false := by
  cases h with
  | signal hp => exact hp
  | _ => rfl

/-- The sets found for a condition contain the points where it holds, if each negation in it holds
at some point. -/
theorem walkCond_spec (h : IsCond w name c) (hneg : ∀ d, Negation c d → Satisfiable w name [d]) :
    FindsSome name (fun x : Point w => Holds name x c) (walkCond name (.int w) c) := by
  induction h with
  | compare hop hp hlow hhigh =>
    rw [walkCond, dualStates_compare hop]
    exact compareStates_spec hop hp hlow hhigh
  | @signal p hp =>
    -- The signal is compared with 0, and the comparison is the condition of the set.
    have hmeaning := fun x : Point w => meaning_binary "GreaterThan" (meaning_other hp x)
      (meaning_constant 0 (.int 32) false false x)
    have hdecided : Decided w name (.op "GreaterThan" [.term p, .ofInt 0]) :=
      fun x => ⟨_, hmeaning x⟩
    obtain ⟨ss, hss, hregular, hmem⟩ := anyState_spec hdecided
    refine ⟨ss, ?_, hregular, fun x => ?_⟩
    · rw [walkCond, maxValue_ofNat]
      simp only [compareStates, Tree.isSignal, hp, ok_bind]
      exact hss
    · have hx : (x.interp name).meaning (.op "GreaterThan" [.term p, .ofInt 0]) =
        some (decide (0 < (x.signals p).toInt)).toInt := hmeaning x
      simp only [hmem, holds_iff (meaning_other hp x), holds_iff hx]
      cases x.signals p <;> simp
  | @not c hc ih =>
    obtain ⟨ss, hss, hregular, hmem⟩ := ih fun d hd => hneg d (.inside (by simp) hd)
    obtain ⟨x, hx⟩ := hneg _ (.here c)
    have hxc : ¬ Contains name (some ss) x := by
      rw [hmem, ← holds_not hc.decided]
      exact hx _ (by simp)
    obtain ⟨r, hr, hregular', hmem'⟩ := not_spec hregular ⟨x, hxc⟩
    refine ⟨r, ?_, hregular', fun y => by simp only [hmem', hmem, holds_not hc.decided]⟩
    rw [walkCond, hss]
    exact hr
  | @and a b ha hb iha ihb =>
    obtain ⟨as, has, hregularA, hmemA⟩ := iha fun d hd => hneg d (.inside (by simp) hd)
    obtain ⟨bs, hbs, hregularB, hmemB⟩ := ihb fun d hd => hneg d (.inside (by simp) hd)
    obtain ⟨r, hr, hregular, hmem⟩ := and_spec hregularA hregularB
    have hholds := holds_and ha.decided hb.decided
    rw [walkCond, dualStates_and has hbs hr]
    cases r with
    | some ss => exact ⟨ss, rfl, hregular ss rfl, fun x => by simp only [hmem, hmemA, hmemB, hholds]⟩
    | none =>
      -- The whole condition becomes the condition of a set with any state.
      obtain ⟨ss, hss, hregular', hmem'⟩ := anyState_spec (ha.decided.and hb.decided)
      refine ⟨ss, ?_, hregular', hmem'⟩
      simp [compareStates, ha.isSignal_eq, hb.isSignal_eq, Tree.mkOp, isHole_eq_false ha.decided.ne_hole,
        isHole_eq_false hb.decided.ne_hole, hss]
  | @or a b ha hb iha ihb =>
    obtain ⟨as, has, hregularA, hmemA⟩ := iha fun d hd => hneg d (.inside (by simp) hd)
    obtain ⟨bs, hbs, hregularB, hmemB⟩ := ihb fun d hd => hneg d (.inside (by simp) hd)
    refine ⟨.many (as.members ++ bs.members), ?_, ⟨?_, ?_⟩, fun x => ?_⟩
    · rw [walkCond, dualStates_or has hbs rfl]
    · exact fun h => hregularA.1 (append_eq_nil_iff.mp h).1
    · intro m hm
      rcases mem_append.mp hm with hm | hm
      · exact hregularA.2 m hm
      · exact hregularB.2 m hm
    · simp only [holds_or ha.decided hb.decided, ← hmemA, ← hmemB]
      exact contains_or

/-- The sets that are found for a list of conditions contain exactly the points at which all of the
conditions hold. For this all conditions but the last must hold together at some point, and each
negation inside of a condition must hold at some point. -/
theorem walkConds_contains {conds : List Tree} (hne : conds ≠ [])
    (hconds : ∀ c ∈ conds, IsCond w name c) (hfront : Satisfiable w name conds.dropLast)
    (hneg : ∀ c ∈ conds, ∀ d, Negation c d → Satisfiable w name [d]) :
    ∃ found, walkConds name (.int w) conds = .ok found ∧
      ∀ x : Point w, Contains name found x ↔ ∀ c ∈ conds, Holds name x c := by
  rw [walkConds, if_neg (by simpa using hne)]
  refine (foldlM_and_spec _ (fun c (x : Point w) => Holds name x c) conds
    (fun c hc => ?_) hne hfront).imp fun r hr => ⟨hr.1, hr.2.2⟩
  obtain ⟨ss, hss, hregular, hmem⟩ := walkCond_spec (hconds c hc) (hneg c hc)
  exact ⟨ss, hregular, hmem, by rw [hss]; rfl, fun acc => by rw [hss]; rfl⟩

section Examples

def topSignal (s : String) : Path := Path.ofNames ["TOP", s]

/-- A comparison of the signal `state` with a constant. -/
def compareState (op : String) (v : Int) : Tree := .op op [.term (topSignal "state"), .ofInt v]

/-- State 1 or busy, and not both busy and at least in state 2: state 1, or state 0 and busy. -/
theorem walkConds_contains_two :
    let conds : List Tree := [.op "Lor" [compareState "Eq" 1, .term (topSignal "busy")],
      .op "Ulnot" [.op "Land" [compareState "GreaterEq" 2, .term (topSignal "busy")]]]
    ∃ found, walkConds (topSignal "state") (.int 2) conds = .ok found ∧
      ∀ x : Point 2, Contains (topSignal "state") found x ↔
        ∀ c ∈ conds, Holds (topSignal "state") x c := by
  dsimp only
  have hcompare : ∀ (op : String) (v : Int), op ∈ ["Eq", "NotEq", "GreaterThan", "GreaterEq"] →
      0 ≤ v → v < 2 ^ 2 → IsCond 2 (topSignal "state") (compareState op v) :=
    fun _ _ hop hlow hhigh => .compare hop (by decide) hlow hhigh
  have hbusy : IsCond 2 (topSignal "state") (.term (topSignal "busy")) := .signal (by decide)
  have hplain : ∀ (o op : String) (v : Int) (d : Tree),
      ¬ Negation (.op op [compareState o v, .term (topSignal "busy")]) d := by
    rintro o op v d (_ | ⟨hc, h⟩)
    fin_cases hc
    · rcases h with _ | ⟨hc, h⟩
      fin_cases hc <;> cases h
    · cases h
  refine walkConds_contains (by simp) ?_ ⟨⟨1, fun _ => false, by decide, by decide⟩, ?_⟩ ?_
  · intro c hc
    fin_cases hc
    · exact .or (hcompare _ _ (by simp) (by decide) (by decide)) hbusy
    · exact .not (.and (hcompare _ _ (by simp) (by decide) (by decide)) hbusy)
  · intro c hc
    obtain rfl : c = .op "Lor" [compareState "Eq" 1, .term (topSignal "busy")] := by
      simpa using hc
    rfl
  · intro c hc d hd
    fin_cases hc
    · exact absurd hd (hplain _ _ _ _)
    · rcases hd with _ | ⟨hc, hd⟩
      · exact ⟨⟨0, fun _ => false, by decide, by decide⟩, by simp; decide⟩
      · rw [mem_singleton.mp hc] at hd
        exact absurd hd (hplain _ _ _ _)

/-- Three conditions of which no two hold together: the first two have no common state, but what is
found for all three is the state of the third. -/
theorem walkConds_forgets_conflict :
    ∃ found, walkConds (topSignal "state") (.int 2)
        [compareState "Eq" 1, compareState "Eq" 2, compareState "Eq" 3] = .ok found ∧
      ∃ x : Point 2, Contains (topSignal "state") found x ∧
        ¬ Holds (topSignal "state") x (compareState "Eq" 1) := by
  refine ⟨some (.one (rangeSet 2 3 3)), by cbv, ⟨3, fun _ => false, by decide, by decide⟩, ?_, ?_⟩
  · rw [contains_some]
    exact ⟨_, mem_singleton_self _, (contains_rangeSet _).mpr ⟨Int.le_refl 3, Int.le_refl 3⟩⟩
  · decide

end Examples

end StateSets

end RtlFlow
