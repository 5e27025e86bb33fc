import Mathlib
import RtlFlow.Proofs.Flow.Flattening

/-!
# The truth of logical trees

Conjunctions, disjunctions and negations have a truth that follows from the truth of what they
connect, and a value is true unless it is zero. Everything else has some truth, the same for trees
that are equal. Flattening keeps the truth of every tree that can be written.
-/

namespace RtlFlow

/-! ## Trees as conditions -/

namespace Tree

variable {dest : Option String} {t : Tree} {s : String}

def fits (name : String) (n : Nat) : Bool :=
  if name = "Ulnot" then n == 1 else if (decisive? name).isSome then n == 2 else n == 1 || n == 2

def shaped : Tree → Bool
  | .op name args => fits name args.length
  | _ => true

/-- Whether negations have one operand, conjunctions and disjunctions two, and other operations one
or two. -/
def regular (t : Tree) : Bool := t.every shaped

/-- The truth of a tree, from the truth of what is neither a logical operation nor a value. -/
def truthOf (atom : Tree → Bool) : Tree → Bool
  | .op name [a, b] =>
    if name = "Land" then truthOf atom a && truthOf atom b
    else if name = "Lor" then truthOf atom a || truthOf atom b
    else atom (.op name [a, b])
  | .op name [a] => if name = "Ulnot" then !truthOf atom a else atom (.op name [a])
  | .value v _ _ _ => Optimizer.isTrue v
  | t => atom t

theorem toCode_of_condCode (h : condCode dest t = .ok s) :
    t = .hole ∨ ∃ s, toCode dest t = .ok s := by
  unfold condCode at h
  split at h
  · exact .inl rfl
  · obtain ⟨s, hs, _⟩ := bind_eq_ok.mp h
    exact .inr ⟨s, hs⟩

theorem toCode_of_armCode (h : armCode dest t = .ok s) :
    t = .hole ∨ ∃ s, toCode dest t = .ok s := by
  unfold armCode at h
  split at h
  · exact .inl rfl
  · exact .inr ⟨s, h⟩

mutual

/-- What can be written has no delays in it. -/
theorem delayFree_of_toCode {dest : Option String} : ∀ {t : Tree} {s : String}, regular t = true →
    toCode dest t = .ok s → delayFree t = true
  | .hole, _, _, _ | .term _, _, _, _ | .unbound, _, _, _ | .const _ _, _, _, _
  | .value _ _ _ _, _, _, _ | .unknown _, _, _, _ | .floating _, _, _, _ => rfl
  | .delay _, _, _, h => absurd h (by simp [toCode, throw_ne_ok])
  | .op name [], _, _, h => by
    simp only [toCode, bind_eq_ok] at h
    obtain ⟨_, _, h⟩ := h
    exact absurd h throw_ne_ok
  | .op name [a], _, hr, h => by
    simp only [regular, every, everyAll, Bool.and_eq_true] at hr
    simp only [toCode, bind_eq_ok] at h
    obtain ⟨_, _, _, ha, _⟩ := h
    simp [delayFree, delayFreeAll, delayFree_of_toCode hr.2.1 ha]
  | .op name [a, b], _, hr, h => by
    simp only [regular, every, everyAll, Bool.and_eq_true] at hr
    simp only [toCode, bind_eq_ok] at h
    obtain ⟨_, ha, _, _, _, hb, _⟩ := h
    simp [delayFree, delayFreeAll, delayFree_of_toCode hr.2.1 ha, delayFree_of_toCode hr.2.2.1 hb]
  | .op name (_ :: _ :: _ :: _), _, hr, _ => by
    simp only [regular, every, Bool.and_eq_true, shaped, fits] at hr
    revert hr
    split
    · simp
    · split <;> simp
  | .part var msb lsb, _, hr, h => by
    simp only [regular, every, Bool.and_eq_true] at hr
    simp only [toCode, bind_eq_ok] at h
    obtain ⟨_, hvar, _, hmsb, _, hlsb, _⟩ := h
    simp [delayFree, delayFree_of_toCode hr.1.1.2 hvar, delayFree_of_toCode hr.1.2 hmsb,
      delayFree_of_toCode hr.2 hlsb]
  | .item var ptr, _, hr, h => by
    simp only [regular, every, Bool.and_eq_true] at hr
    simp only [toCode, bind_eq_ok] at h
    obtain ⟨_, hvar, _, hptr, _⟩ := h
    simp [delayFree, delayFree_of_toCode hr.1.2 hvar, delayFree_of_toCode hr.2 hptr]
  | .concat args, _, hr, h | .call _ args, _, hr, h => by
    simp only [regular, every, Bool.and_eq_true] at hr
    simp only [toCode, bind_eq_ok] at h
    obtain ⟨_, hargs, _⟩ := h
    exact delayFreeAll_of_toCodes hr.2 hargs
  | .branch cond yes no, _, hr, h => by
    simp only [regular, every, Bool.and_eq_true] at hr
    simp only [toCode, bind_eq_ok] at h
    obtain ⟨_, hcond, _, hyes, _, hno, _⟩ := h
    have hcond : delayFree cond = true := by
      rcases toCode_of_condCode hcond with rfl | ⟨_, hcond⟩
      · rfl
      · exact delayFree_of_toCode hr.1.1.2 hcond
    have hyes : delayFree yes = true := by
      rcases toCode_of_armCode hyes with rfl | ⟨_, hyes⟩
      · rfl
      · exact delayFree_of_toCode hr.1.2 hyes
    have hno : delayFree no = true := by
      rcases toCode_of_armCode hno with rfl | ⟨_, hno⟩
      · rfl
      · exact delayFree_of_toCode hr.2 hno
    simp [delayFree, hcond, hyes, hno]

theorem delayFreeAll_of_toCodes {dest : Option String} : ∀ {ts : List Tree} {ss : List String},
    everyAll shaped ts = true → toCodes dest ts = .ok ss → delayFreeAll ts = true
  | [], _, _, _ => rfl
  | t :: ts, _, hr, h => by
    simp only [everyAll, Bool.and_eq_true] at hr
    simp only [toCodes, bind_eq_ok] at h
    obtain ⟨_, ht, _, hts, _⟩ := h
    simp [delayFreeAll, delayFree_of_toCode hr.1 ht, delayFreeAll_of_toCodes hr.2 hts]

end

/-! ## Equal trees have the same truth -/

section

variable {atom : Tree → Bool}

theorem op_of_equal {name : String} {args : List Tree} {u : Tree}
    (h : equal (.op name args) u = .ok true) :
    ∃ args', u = .op name args' ∧ equalAll args args' = .ok true := by
  cases u with
  | op name' args' =>
    rw [equal] at h
    split at h
    · next hname => exact ⟨args', by rw [eq_of_beq hname], h⟩
    · cases h
  | _ => cases h

theorem equalAll_cons {t : Tree} {ts us : List Tree} (h : equalAll (t :: ts) us = .ok true) :
    ∃ u us', us = u :: us' ∧ equal t u = .ok true ∧ equalAll ts us' = .ok true := by
  cases us with
  | nil => cases h
  | cons u us =>
    rw [equalAll, ite_eq_ok_true] at h
    exact ⟨u, us, rfl, h⟩

theorem truthOf_of_equal
    (hatom : ∀ t u, tame t = true → tame u = true → equal t u = .ok true → atom t = atom u) :
    ∀ {t u : Tree}, tame t = true → tame u = true → equal t u = .ok true →
      truthOf atom t = truthOf atom u
  | .op name [a, b], u, ht, hu, h => by
    obtain ⟨args', rfl, hargs⟩ := op_of_equal h
    obtain ⟨a', us, rfl, ha, hrest⟩ := equalAll_cons hargs
    obtain ⟨b', us', rfl, hb, hnil⟩ := equalAll_cons hrest
    obtain rfl : us' = [] := by cases us' <;> first | rfl | cases hnil
    have hleaf := hatom _ _ ht hu h
    simp only [tame, every, everyAll, Bool.and_eq_true] at ht hu
    simp only [truthOf, truthOf_of_equal hatom ht.2.1 hu.2.1 ha,
      truthOf_of_equal hatom ht.2.2.1 hu.2.2.1 hb, hleaf]
  | .op name [a], u, ht, hu, h => by
    obtain ⟨args', rfl, hargs⟩ := op_of_equal h
    obtain ⟨a', us, rfl, ha, hnil⟩ := equalAll_cons hargs
    obtain rfl : us = [] := by cases us <;> first | rfl | cases hnil
    have hleaf := hatom _ _ ht hu h
    simp only [tame, every, everyAll, Bool.and_eq_true] at ht hu
    simp only [truthOf, truthOf_of_equal hatom ht.2.1 hu.2.1 ha, hleaf]
  | .op name [], u, ht, hu, h => by
    obtain ⟨args', rfl, hargs⟩ := op_of_equal h
    obtain rfl : args' = [] := by cases args' <;> first | rfl | cases hargs
    exact hatom _ _ ht hu h
  | .op name (_ :: _ :: _ :: _), u, ht, hu, h => by
    obtain ⟨args', rfl, hargs⟩ := op_of_equal h
    obtain ⟨_, us, rfl, _, hargs⟩ := equalAll_cons hargs
    obtain ⟨_, us, rfl, _, hargs⟩ := equalAll_cons hargs
    obtain ⟨_, us, rfl, _, hargs⟩ := equalAll_cons hargs
    exact hatom _ _ ht hu h
  | .value v w r t, u, ht, hu, h => by
    cases u with
    | value v' w' r' t' =>
      have hall := Except.ok.inj h
      simp only [Bool.and_eq_true] at hall
      simp only [truthOf, Optimizer.isTrue, Scalar.same_congr hall.1.1.1]
    | _ => cases h
  | .hole, u, ht, hu, h | .term _, u, ht, hu, h | .unbound, u, ht, hu, h | .const _ _, u, ht, hu, h
  | .unknown _, u, ht, hu, h | .floating _, u, ht, hu, h | .part _ _ _, u, ht, hu, h
  | .item _ _, u, ht, hu, h | .concat _, u, ht, hu, h | .branch _ _ _, u, ht, hu, h
  | .delay _, u, ht, hu, h | .call _ _, u, ht, hu, h => by
    cases u <;> first | exact hatom _ _ ht hu h | cases h

end

end Tree

/-! ## Flattening -/

namespace Optimizer

open Tree

/-- A tree that can be written, with operators that have their operands and without open labels. -/
structure Written (t : Tree) : Prop where
  regular : t.regular = true
  tame : t.tame = true
  code : ∃ s, t.toCode (some "dest") = .ok s

namespace Written

variable {t : Tree} {name : String} {args : List Tree} {d : Bool}

theorem delayFree (h : Written t) : t.delayFree = true := by
  obtain ⟨s, hs⟩ := h.code
  exact delayFree_of_toCode h.regular hs

theorem isHole_eq (h : Written t) : t.isHole = false := by
  obtain ⟨s, hs⟩ := h.code
  cases t with
  | hole =>
    rw [toCode] at hs
    exact absurd hs throw_ne_ok
  | _ => rfl

theorem fits (h : Written (.op name args)) : fits name args.length = true := by
  have hregular := h.regular
  simp only [Tree.regular, every, Bool.and_eq_true] at hregular
  exact hregular.1

theorem operands (hname : decisive? name = some d) (h : Written (.op name args)) :
    ∃ a b, args = [a, b] ∧ Written a ∧ Written b := by
  have hother : name ≠ "Ulnot" := by
    rintro rfl
    cases hname
  have hlength : args.length = 2 := by simpa [Tree.fits, hother, hname] using h.fits
  obtain ⟨a, b, rfl⟩ : ∃ a b, args = [a, b] := by
    match args, hlength with
    | [a, b], _ => exact ⟨a, b, rfl⟩
  obtain ⟨hregular, htame, s, hs⟩ := h
  simp only [Tree.regular, Tree.tame, every, everyAll, Bool.and_eq_true] at hregular htame
  simp only [toCode, bind_eq_ok] at hs
  obtain ⟨_, ha, _, _, _, hb, _⟩ := hs
  exact ⟨a, b, rfl, ⟨hregular.2.1, htame.2.1, _, ha⟩, hregular.2.2.1, htame.2.2.1, _, hb⟩

theorem join {a b : Tree} (hname : decisive? name = some d) (ha : Written a) (hb : Written b) :
    Written (.op name [a, b]) := by
  obtain ⟨hregular, htame, s, hs⟩ := ha
  obtain ⟨hregular', htame', s', hs'⟩ := hb
  have hother : name ≠ "Ulnot" := by
    rintro rfl
    cases hname
  obtain ⟨mark, hmark, -⟩ := markOf_yields (.inr (isSome_of_decisive hname))
  refine ⟨?_, ?_, "(" ++ s ++ mark ++ s' ++ ")", ?_⟩
  · simp only [Tree.regular] at hregular hregular'
    simp [Tree.regular, every, everyAll, shaped, Tree.fits, hother, hname, hregular, hregular']
  · simp only [Tree.tame] at htame htame'
    simp [Tree.tame, every, everyAll, closed, htame, htame']
  · simp only [toCode, hs, hs', hmark]
    rfl

theorem bit (b : Bool) : Written (bit b) := by
  obtain ⟨s, hs, -⟩ := @toCode_yields (fun _ => False) (some "dest") _ (.bit b)
  exact ⟨rfl, rfl, s, hs⟩

end Written

variable {atom : Tree → Bool} {t : Tree}

theorem negated_truth (h : Written t) :
    Yields (fun n => (n.delayFree = true ∧ n.tame = true) ∧ n.truthOf atom = !t.truthOf atom)
      (negated t) := by
  have hfree := h.delayFree
  have htame := h.tame
  unfold negated
  split
  · next args hargs =>
    obtain rfl := eq_of_argsOf? hargs
    obtain ⟨a, rfl⟩ := List.length_eq_one_iff.mp (by simpa [Tree.fits] using h.fits)
    simp only [Tree.delayFree, delayFreeAll, Tree.tame, every, everyAll, Bool.and_eq_true]
      at hfree htame
    exact .pure ⟨⟨hfree.1, htame.2.1⟩, by simp [truthOf]⟩
  · next hargs =>
    have hnot : Tree.mkOp "Ulnot" [t] = .ok (.op "Ulnot" [t]) := by
      simp [Tree.mkOp, h.isHole_eq]
    simp only [Tree.tame] at htame
    refine ⟨_, hnot, ⟨?_, ?_⟩, ?_⟩
    · simp [Tree.delayFree, delayFreeAll, hfree]
    · simp [Tree.tame, every, everyAll, closed, htame]
    · simp [truthOf]

theorem connects_written
    (hatom : ∀ t u, tame t = true → tame u = true → equal t u = .ok true → atom t = atom u) :
    Connects (truthOf atom) (fun t => t.delayFree = true ∧ t.tame = true) Written where
  cond_of_kept h := ⟨h.delayFree, h.tame⟩
  present h := h.isHole_eq
  equal ht hu := by
    obtain ⟨b, hb⟩ := exists_equal _ ht.1
    exact ⟨b, hb, fun htrue => truthOf_of_equal hatom ht.2 hu.2 (htrue ▸ hb)⟩
  negated := negated_truth
  code h := by
    obtain ⟨s, hs⟩ := h.code
    exact ⟨s, hs, trivial⟩
  join := Written.join
  decides a b hname := by
    unfold decisive? at hname
    split at hname
    · cases hname
      exact Bool.and_eq_false_iff
    · cases hname
      exact Bool.or_eq_true_iff
    · cases hname
  kept_bit := Written.bit
  truth_bit b := by cases b <;> rfl

/-- Flattening the conjunctions and disjunctions of a tree keeps its truth, whatever the truth of
the trees that are connected. -/
theorem mergeLor_truth
    (hatom : ∀ t u, tame t = true → tame u = true → equal t u = .ok true → atom t = atom u)
    {s : String} (hregular : t.regular = true) (htame : t.tame = true)
    (hcode : t.toCode (some "dest") = .ok s) :
    Yields (fun u => u.truthOf atom = t.truthOf atom) (mergeLor t) := by
  have hmerged := (connects_written hatom).mergeLor_yields Written id Written.operands
    ⟨hregular, htame, s, hcode⟩
  exact hmerged.mono fun u hu => hu.2

theorem mergeLor_truth_opposed :
    let a : Tree := .term ⟨[⟨"a", .signal, .none⟩]⟩
    let b : Tree := .op "Plus" [a, .ofInt 1]
    let t : Tree := .op "Lor" [.op "Land" [a, .op "Land" [b, .op "Ulnot" [a]]], .op "Lor" [b, a]]
    let code := "((a&&((a+'d1)&&(!a)))||((a+'d1)||a))"
    t.regular = true ∧ t.tame = true ∧ t.toCode (some "dest") = .ok code ∧
      Yields (fun u => u.truthOf (fun _ => true) = t.truthOf fun _ => true) (mergeLor t) := by
  intro a b t code
  have hcode : t.toCode (some "dest") = .ok code := by cbv
  exact ⟨rfl, rfl, hcode, mergeLor_truth (fun _ _ _ _ _ => rfl) rfl rfl hcode⟩

end Optimizer

end RtlFlow
