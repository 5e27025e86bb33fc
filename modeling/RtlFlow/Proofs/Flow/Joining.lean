import Mathlib
import RtlFlow.Proofs.Flow.BitStrings

/-!
# Joining neighbours in a concatenation

Four passes go through the items of a concatenation. They join values, unknown bits, selections from
one signal that touch, and branches with equal conditions. Each pass holds the items that it is done
with and puts something else in the place of the last of them; the string of all items together
stays the same from step to step.
-/

namespace RtlFlow.Optimizer

open List

variable {o : Optimizer} {ρ : Strings o} {bs : List Bit} {k n v : Nat} {w : Scalar}
variable {a : Nat} {done ts : List Tree} {p : Path} {low : Int} {t : Tree}

/-! ## Strings of concatenations -/

namespace Denotes

variable {t u : Tree} {ts us : List Tree} {bs : List Bit}

theorem of_cons (h : Denotes ρ (.concat (t :: ts)) bs) :
    ∃ as cs, Denotes ρ t as ∧ Denotes ρ (.concat ts) cs ∧ bs = as ++ cs := by
  cases h with
  | cons ht hts => exact ⟨_, _, ht, hts, rfl⟩
  | other hs => cases hs

theorem concat_append : Denotes ρ (.concat (ts ++ us)) bs ↔
    ∃ as cs, Denotes ρ (.concat ts) as ∧ Denotes ρ (.concat us) cs ∧ bs = as ++ cs := by
  induction ts generalizing bs with
  | nil =>
    constructor
    · exact fun h => ⟨[], bs, .nil, h, rfl⟩
    · rintro ⟨as, cs, h, hus, rfl⟩
      cases h with
      | nil => exact hus
      | other hs => cases hs
  | cons t ts ih =>
    constructor
    · intro h
      obtain ⟨as, cs, ht, hrest, rfl⟩ := of_cons h
      obtain ⟨as', cs', hts, hus, rfl⟩ := ih.mp hrest
      exact ⟨as ++ as', cs', .cons ht hts, hus, (append_assoc ..).symm⟩
    · rintro ⟨_, cs, h, hus, rfl⟩
      obtain ⟨as, as', ht, hts, rfl⟩ := of_cons h
      rw [append_assoc]
      exact .cons ht (ih.mpr ⟨as', cs, hts, hus, rfl⟩)

theorem of_singleton (h : Denotes ρ (.concat [t]) bs) : Denotes ρ t bs := by
  obtain ⟨as, cs, ht, hnil, rfl⟩ := of_cons h
  cases hnil with
  | nil => rwa [append_nil]
  | other hs => cases hs

theorem of_pair (h : Denotes ρ (.concat [t, u]) bs) :
    ∃ as cs, Denotes ρ t as ∧ Denotes ρ u cs ∧ bs = as ++ cs := by
  obtain ⟨as, cs, ht, hu, rfl⟩ := of_cons h
  exact ⟨as, cs, ht, of_singleton hu, rfl⟩

theorem pair {as cs : List Bit} (ht : Denotes ρ t as) (hu : Denotes ρ u cs) :
    Denotes ρ (.concat [t, u]) (as ++ cs) := by
  rw [← append_nil cs]
  exact .cons ht (.cons hu .nil)

theorem replace (ts : List Tree) {xs ys : List Tree}
    (h : Denotes ρ (.concat (xs ++ (ts ++ ys))) bs)
    (ht : ∀ cs, Denotes ρ (.concat ts) cs → Denotes ρ t cs) :
    Denotes ρ (.concat (xs ++ t :: ys)) bs := by
  obtain ⟨as, cs, hxs, hrest, rfl⟩ := concat_append.mp h
  obtain ⟨bs, ds, hts, hys, rfl⟩ := concat_append.mp hrest
  exact concat_append.mpr ⟨as, bs ++ ds, hxs, .cons (ht bs hts) hys, rfl⟩

theorem concatOrOne (h : Denotes ρ (.concat ts) bs) : Denotes ρ (concatOrOne ts) bs := by
  unfold Optimizer.concatOrOne
  split
  · exact of_singleton h
  · exact h

end Denotes

/-! ## Values -/

/-- One step of joining values: the value and the width so far, and the next value. -/
def joinStep (o : Optimizer) (acc v : Scalar × Scalar) : Result (Scalar × Scalar) := do
  let width := o.valueWidth v.2
  let total ← acc.2.add width
  return (← (← acc.1.shiftLeft width).bitOr v.1, total)

theorem evalConcat_eq {vs : List (Scalar × Scalar)} {v : Scalar}
    (h : vs.foldlM o.joinStep (.int 0, .int 0) = .ok (v, w)) :
    o.evalConcat vs = .ok (.num v w) := by
  show (vs.foldlM o.joinStep (.int 0, .int 0) >>= _) = _
  rw [h]
  rfl

theorem joinStep_eq (hw : o.valueWidth w = .int k) (hv : v < 2 ^ k) :
    o.joinStep (.int a, .int n) (.int v, w) = .ok (.int ↑(a * 2 ^ k + v), .int ↑(n + k)) := by
  have hshift : (Scalar.int a).shiftLeft (.int k) = .ok (.int ↑(a * 2 ^ k)) := by
    simp [Scalar.shiftLeft, Scalar.twoInts, Scalar.int?]
  have hor : (Scalar.int ↑(a * 2 ^ k)).bitOr (.int v) = .ok (.int ↑(a * 2 ^ k + v)) := by
    rw [← Nat.shiftLeft_eq, Nat.shiftLeft_add_eq_or_of_lt hv]
    rfl
  simp only [joinStep, hw, hshift, hor, ok_bind]
  rfl

/-- The values joined so far stand last among the items that are done. -/
def HoldsRun (o : Optimizer) (run : List (Scalar × Scalar)) (done : List Tree) : Prop :=
  run = [] ∨ run.isEmpty = false ∧ ∃ (a n : Nat) (d : List Tree), a < 2 ^ n ∧
    run.reverse.foldlM o.joinStep (.int 0, .int 0) = .ok (.int a, .int n) ∧
    done = .num (.int a) (.int n) :: d

theorem denotes_num (hv : v < 2 ^ n) :
    Denotes ρ (.num (.int v) (.int n)) (digits n v) := .value rfl hv

theorem joined_lt (ha : a < 2 ^ n) (hv : v < 2 ^ k) : a * 2 ^ k + v < 2 ^ (n + k) := by
  rw [Nat.pow_add]
  have := Nat.mul_le_mul_right (2 ^ k) ha
  rw [Nat.succ_mul] at this
  omega

theorem foldlM_joinStep {run : List (Scalar × Scalar)} {a n v k : Nat} {w : Scalar}
    (h : run.reverse.foldlM o.joinStep (.int 0, .int 0) = .ok (.int a, .int n))
    (hw : o.valueWidth w = .int k) (hv : v < 2 ^ k) :
    ((.int v, w) :: run).reverse.foldlM o.joinStep (.int 0, .int 0) =
      .ok (.int ↑(a * 2 ^ k + v), .int ↑(n + k)) := by
  rw [reverse_cons, foldlM_append, h]
  show List.foldlM o.joinStep (.int a, .int n) [(.int v, w)] = _
  rw [foldlM_cons, joinStep_eq hw hv]
  rfl

theorem denotes_value_iff {r s : Bool} (hw : o.valueWidth w = .int k)
    (h : Denotes ρ (.value (.int v) w r s) bs) : bs = digits k v := by
  cases h with
  | value hw' hv =>
    rw [hw] at hw'
    cases hw'
    rfl
  | other hs => cases hs

theorem joinValues_yields {run : List (Scalar × Scalar)} (hrun : o.HoldsRun run done)
    (h : Denotes ρ (.concat (done.reverse ++ ts)) bs) :
    Yields (fun us => Denotes ρ (.concat us) bs) (o.joinValues run done ts) := by
  induction ts generalizing run done with
  | nil =>
    rw [append_nil] at h
    exact .pure h
  | cons t ts ih =>
    cases t with
    | value v w r s =>
      obtain ⟨_, _, _, hrest, -⟩ := Denotes.concat_append.mp h
      obtain ⟨_, _, ht, -, -⟩ := Denotes.of_cons hrest
      cases ht with
      | other hs => cases hs
      | @value v k _ _ _ hw hv =>
        rw [joinValues]
        rcases hrun with rfl | ⟨hrun, a, n, d, ha, hfold, rfl⟩
        · have hfold := @foldlM_joinStep o [] 0 0 v k w rfl hw hv
          rw [evalConcat_eq hfold]
          refine ih (.inr ⟨rfl, _, _, _, joined_lt (by decide) hv, hfold, rfl⟩) ?_
          rw [reverse_cons, append_assoc]
          refine h.replace [_] fun cs hcs => ?_
          rw [denotes_value_iff hw hcs.of_singleton]
          simpa using denotes_num hv
        · have hfold := foldlM_joinStep hfold hw hv
          rw [evalConcat_eq hfold]
          have hlt := joined_lt ha hv
          refine ih (.inr ⟨rfl, _, _, _, hlt, hfold, rfl⟩) ?_
          rw [reverse_cons, append_assoc] at h ⊢
          simp only [hrun, Bool.false_eq_true, if_false, tail_cons]
          refine h.replace [_, _] fun cs hcs => ?_
          obtain ⟨as, bs, hnum, hvalue, rfl⟩ := hcs.of_pair
          rw [denotes_value_iff rfl hnum, denotes_value_iff hw hvalue, ← digits_append n hv]
          exact denotes_num hlt
    | _ => exact ih (.inl rfl) (by rwa [reverse_cons, append_assoc])

/-! ## Unknown bits -/

theorem denotes_unknown (hw : o.valueWidth w = .int k) (h : Denotes ρ (.unknown w) bs) :
    bs = List.replicate k none := by
  cases h with
  | unknown hw' =>
    rw [hw] at hw'
    cases hw'
    rfl
  | other hs => cases hs

theorem joinUnknowns_yields {sum : Nat} {done ts : List Tree} {bs : List Bit}
    (hsum : sum = 0 ∨ ∃ d, done = .unknown (.int sum) :: d)
    (h : Denotes ρ (.concat (done.reverse ++ ts)) bs) :
    Yields (fun us => Denotes ρ (.concat us) bs) (o.joinUnknowns (.int sum) done ts) := by
  induction ts generalizing sum done with
  | nil =>
    rw [append_nil] at h
    exact .pure h
  | cons t ts ih =>
    cases t with
    | unknown w =>
      obtain ⟨_, _, _, hrest, -⟩ := Denotes.concat_append.mp h
      obtain ⟨_, _, ht, -, -⟩ := Denotes.of_cons hrest
      cases ht with
      | other hs => cases hs
      | @unknown k _ hw =>
        have hadd : (Scalar.int sum).add (.int k) = .ok (.int ↑(sum + k)) := rfl
        rw [joinUnknowns, Scalar.gt_int, hw]
        simp only [hadd, ok_bind]
        refine ih (.inr ⟨_, rfl⟩) ?_
        rw [reverse_cons, append_assoc]
        rcases Nat.eq_zero_or_pos sum with rfl | hpos
        · refine h.replace [_] fun cs hcs => ?_
          rw [denotes_unknown hw hcs.of_singleton, Nat.zero_add]
          exact .unknown rfl
        · obtain ⟨d, rfl⟩ := hsum.resolve_left (by omega)
          simp only [Int.natCast_pos.mpr hpos, decide_true, if_true, tail_cons]
          rw [reverse_cons, append_assoc] at h
          refine h.replace [_, _] fun cs hcs => ?_
          obtain ⟨as, bs, hlast, hnext, rfl⟩ := hcs.of_pair
          rw [denotes_unknown rfl hlast, denotes_unknown hw hnext, replicate_append_replicate]
          exact .unknown rfl
    | _ => exact ih (.inl rfl) (by rwa [reverse_cons, append_assoc])

/-! ## Rules for neighbours -/

/-- A rule whose result, if any, has the strings of both neighbours. -/
def Joins (ρ : Strings o) (rule : Tree → Tree → Result (Option Tree)) : Prop :=
  ∀ {t u as cs}, Denotes ρ t as → Denotes ρ u cs →
    Yields (fun x => ∀ v ∈ x, Denotes ρ v (as ++ cs)) (rule t u)

theorem joinWith_yields {rule : Tree → Tree → Result (Option Tree)} (hrule : Joins ρ rule)
    (h : Denotes ρ (.concat (done.reverse ++ ts)) bs) :
    Yields (fun us => Denotes ρ (.concat us) bs) (joinWith rule done ts) := by
  induction ts generalizing done with
  | nil =>
    rw [append_nil] at h
    cases done <;> exact .pure h
  | cons t ts ih =>
    have hpush : Denotes ρ (.concat ((t :: done).reverse ++ ts)) bs := by
      rwa [reverse_cons, append_assoc]
    cases done with
    | nil => exact ih hpush
    | cons last done =>
      rw [reverse_cons, append_assoc] at h
      obtain ⟨_, _, _, hrest, -⟩ := Denotes.concat_append.mp h
      obtain ⟨as, _, hlast, hrest, -⟩ := Denotes.of_cons hrest
      obtain ⟨cs, _, ht, -, -⟩ := Denotes.of_cons hrest
      obtain ⟨x, hx, -⟩ := hrule hlast ht
      rw [joinWith, hx]
      cases x with
      | none => exact ih hpush
      | some v =>
        refine ih ?_
        rw [reverse_cons, append_assoc]
        refine h.replace [last, t] fun cs hcs => ?_
        obtain ⟨as, bs, has, hbs, rfl⟩ := hcs.of_pair
        exact (hrule has hbs).of_eq_ok hx v rfl

theorem Declared.unique {low' : Int} {n' : Nat} (h : o.Declared p low n)
    (h' : o.Declared p low' n') : low = low' ∧ n = n' := by
  obtain ⟨t, m, l, _, _, _, _, _, _, ht, hm, hl, rfl, rfl⟩ := h
  obtain ⟨t', m', l', _, _, _, _, _, _, ht', hm', hl', rfl, rfl⟩ := h'
  obtain rfl : t = t' := Except.ok.inj (ht.symm.trans ht')
  cases hm.symm.trans hm'
  cases hl.symm.trans hl'
  exact ⟨rfl, rfl⟩

theorem denotes_touching {m l m' l' : Int} {wm wl : Scalar} {rm rl tm tl : Bool}
    (hp : p.plain = true) (hdecl : o.Declared p low n) (hlm : l ≤ m) (hm : m < low + n)
    (hl' : low ≤ l') (hlm' : l' ≤ m') (htouch : l = m' + 1) :
    Denotes ρ (if Scalar.int n == .int (m - l' + 1) then .term p
        else .part (.term p) (.value (.int m) wm rm tm) (.value (.int l') wl rl tl))
      (slice (ρ.string (.term p)) (m - low).toNat (l - low).toNat ++
        slice (ρ.string (.term p)) (m' - low).toNat (l' - low).toNat) := by
  have hlength := ρ.length_eq hdecl.width_eq
  have hstep : (l - low).toNat = (m' - low).toNat + 1 := by omega
  rw [hstep, slice_append_slice (by omega) (by omega) (by omega)]
  split
  · next hsize =>
    have hsize := Scalar.int_same_iff.mp hsize
    have hl : (l' - low).toNat = 0 := by omega
    rw [hl, slice_all (by omega)]
    exact .signal hp hdecl
  · exact .part hp hdecl hl' (by omega) hm

theorem joinParts_joins : Joins ρ o.joinParts := by
  intro t u as cs ht hu
  unfold joinParts
  split
  · next name m l name' m' l' =>
    cases ht with
    | other hs => cases hs
    | cut _ hterm => exact absurd rfl (hterm _)
    | @part _ low m l n _ _ _ _ _ _ hp hdecl hl hlm hm =>
    cases hu with
    | other hs => cases hs
    | cut _ hterm => exact absurd rfl (hterm _)
    | @part _ low' m' l' n' _ _ _ _ _ _ hp' hdecl' hl' hlm' hm' =>
    simp only [Tree.valueOf, ok_bind, pure_eq]
    split
    · exact .pure nofun
    · next hname =>
      obtain rfl : name = name' := Path.eq_of_same hp hp' (by simpa using hname)
      obtain ⟨rfl, rfl⟩ := hdecl.unique hdecl'
      rw [show (Scalar.int m').add (.int 1) = .ok (.int (m' + 1)) from rfl, ok_bind]
      split
      · exact .pure nofun
      · next htouch =>
        have htouch : l = m' + 1 := Scalar.int_same_iff.mp (by simpa using htouch)
        rw [hdecl.width_eq]
        refine ⟨_, rfl, fun v hv => ?_⟩
        cases hv
        exact denotes_touching hp hdecl hlm hm hl' hlm' htouch
  · exact .pure nofun

theorem isHole_of_denotes (h : Denotes ρ t bs) : t.isHole = false := by
  cases h with
  | other hs => cases t <;> first | rfl | cases hs
  | _ => rfl

theorem joinBranches_joins : Joins ρ o.joinBranches := by
  intro t u as cs ht hu
  unfold joinBranches
  split
  · next c y n c' y' n' =>
    cases ht with
    | other hs => cases hs
    | @branch _ _ _ bs bs' hfree htame hyes hno hlength =>
    cases hu with
    | other hs => cases hs
    | @branch _ _ _ ds ds' hfree' htame' hyes' hno' hlength' =>
    obtain ⟨b, hb⟩ := Tree.exists_equal c' hfree
    rw [hb]
    cases b with
    | false => exact .pure nofun
    | true =>
      have htruth := ρ.congr htame htame' hb
      have hyhole := isHole_of_denotes hyes
      have hnhole := isHole_of_denotes hno
      have hyhole' := isHole_of_denotes hyes'
      have hnhole' := isHole_of_denotes hno'
      refine ⟨_, by simp [armOr, hyhole, hnhole, hyhole', hnhole']; rfl, fun v hv => ?_⟩
      cases hv
      have harms : ((if ρ.truth c then bs else bs') ++ if ρ.truth c' then ds else ds') =
          if ρ.truth c then bs ++ ds else bs' ++ ds' := by
        rw [← htruth]
        split <;> rfl
      rw [harms]
      refine .branch hfree htame (.pair hyes hyes') (.pair hno hno') ?_
      rw [length_append, length_append, hlength, hlength']
  · exact .pure nofun

/-! ## The passes together -/

theorem onItems_yields {step : List Tree → Result Tree}
    (hstep : ∀ ts, Denotes ρ (.concat ts) bs → Yields (fun u => Denotes ρ u bs) (step ts))
    (h : Denotes ρ t bs) : Yields (fun u => Denotes ρ u bs) (onItems step t) := by
  unfold onItems
  split
  · exact hstep _ h
  · exact .pure h

/-- Joining neighbours keeps the string of a concatenation, whatever the strings of its items. -/
theorem mergeConcat_denotes {items : List Tree} (h : Denotes ρ (.concat items) bs) :
    Yields (fun u => Denotes ρ u bs) (o.mergeConcat (.concat items)) := by
  unfold mergeConcat
  refine (onItems_yields (fun ts hts => ?_) h).bind fun t ht => ?_
  · exact (joinValues_yields (.inl rfl) hts).bind fun us hus => .pure hus
  refine (onItems_yields (fun ts hts => ?_) ht).bind fun t ht => ?_
  · exact (@joinUnknowns_yields o ρ 0 [] ts bs (.inl rfl) hts).bind fun us hus => .pure hus
  refine (onItems_yields (fun ts hts => ?_) ht).bind fun t ht => ?_
  · exact (joinWith_yields joinParts_joins hts).bind fun us hus => .pure hus.concatOrOne
  refine onItems_yields (fun ts hts => ?_) ht
  exact (joinWith_yields joinBranches_joins hts).bind fun us hus => .pure hus.concatOrOne

def byteSignal (s : String) : Path := ⟨[⟨s, .signal, .none⟩]⟩

/-- There are two signals of eight bits. -/
def twoBytes : Optimizer where
  terms :=
    let byte (s : String) : Path × Term :=
      (byteSignal s, { name := byteSignal s, msb := .ofInt 7, lsb := .ofInt 0 })
    ⟨[byte "a", byte "b"]⟩

theorem declared_twoBytes {s : String} (hs : s = "a" ∨ s = "b") :
    twoBytes.Declared (byteSignal s) 0 8 := by
  rcases hs with rfl | rfl <;> exact ⟨_, 7, 0, _, _, _, _, _, _, rfl, rfl, rfl, rfl, rfl⟩

theorem mergeConcat_denotes_items :
    let a := byteSignal "a"
    let c : Tree := .op "Eq" [.term a, .ofInt 1]
    let items : List Tree := [.num (.int 1) (.int 2), .num (.int 2) (.int 3), .unknown (.int 1),
      .unknown (.int 2), .part (.term a) (.ofInt 7) (.ofInt 4), .part (.term a) (.ofInt 3) (.ofInt 0),
      .branch c (.num (.int 1) (.int 1)) (.unknown (.int 1)), .branch c (.term a) (.term a)]
    ∃ (ρ : Strings twoBytes) (bs : List Bit), bs.length = 25 ∧ Denotes ρ (.concat items) bs ∧
      Yields (fun u => Denotes ρ u bs) (twoBytes.mergeConcat (.concat items)) := by
  intro a c items
  have hdecl : twoBytes.Declared a 0 8 := declared_twoBytes (.inl rfl)
  obtain ⟨bs, h⟩ : ∃ bs, Denotes (default : Strings twoBytes) (.concat items) bs := by
    refine ⟨_, .cons (.value rfl ?_) (.cons (.value rfl ?_) (.cons (.unknown rfl) (.cons (.unknown rfl)
      (.cons (.part rfl hdecl ?_ ?_ ?_) (.cons (.part rfl hdecl ?_ ?_ ?_) (.cons
        (.branch rfl rfl (.value rfl ?_) (.unknown rfl) rfl)
        (.cons (.branch rfl rfl (.signal rfl hdecl) (.signal rfl hdecl) rfl) .nil)))))))⟩
    all_goals decide
  have hwidth : twoBytes.width (.concat items) = .ok (.int 25) := rfl
  have hlength := Scalar.int.inj (Except.ok.inj (h.width_eq.symm.trans hwidth))
  exact ⟨default, bs, by omega, h, mergeConcat_denotes h⟩

/-- Neighbouring slices are joined by their ends alone: of two reversed ones, six bits become two. -/
theorem mergeConcat_reversed :
    let slice (msb lsb : Int) : Tree := .part (.term (byteSignal "a")) (.ofInt msb) (.ofInt lsb)
    twoBytes.mergeConcat (.concat [slice 2 4, slice 3 1]) = .ok (slice 2 1) ∧
      twoBytes.width (.concat [slice 2 4, slice 3 1]) = .ok (.int 6) ∧
      twoBytes.width (slice 2 1) = .ok (.int 2) :=
  ⟨rfl, rfl, rfl⟩

end RtlFlow.Optimizer
