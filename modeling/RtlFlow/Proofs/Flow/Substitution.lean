import Mathlib
import RtlFlow.Flow.Walk
import RtlFlow.Proofs.Flow.Literals
import RtlFlow.Proofs.Flow.Meaning

/-!
# Walking is substitution

A walk puts definitions in the places of signals. Under a valuation in which every signal has the
value of its definition, the walked tree then means what the tree means. The one rewriting that this
does not cover is that of a selection from a selection into a single one: it adds up the places, so
it is right only as long as the outer selection stays inside the inner one.
-/

namespace RtlFlow

open List

/-! ## Words of bits -/

namespace Tree

/-- An interpretation over words, the lowest bit first. What the outer functions do is left open, but
constants are numbers, and selections give the bits that they name. -/
structure Interp.IsBitwise {β : Type} (I : Interp (List β)) (index : List β → Option Nat) :
    Prop where
  /-- A constant means a word, which stands for a place if the constant is a natural number. -/
  constant : ∀ {t : Tree} {s : Scalar}, t.eval = .ok s →
    ∃ v, I.atom t = some v ∧ ∀ k : Nat, index v = some k ↔ s = .int k
  /-- A selection inside of a word takes the bits from the low place up to the high one. -/
  part : ∀ {v high low : List β} {i j : Nat}, index high = some i → index low = some j → j ≤ i →
    i < v.length → I.part v high low = some ((v.drop j).take (i - j + 1))
  unknown : ∀ w, I.atom (.unknown w) = none

namespace Interp

variable {β : Type} (I : Interp (List β)) (index : List β → Option Nat)

/-- Whether a selection stays inside of a word, given what the word and its two ends mean: if the low
end is defined, then the high end is so too, not below it, and the word has a bit there. -/
def Selects (word high low : Option (List β)) : Prop :=
  ∀ l, low = some l → ∃ h i j, high = some h ∧ index h = some i ∧ index l = some j ∧ j ≤ i ∧
    ∀ v, word = some v → i < v.length

mutual

/-- Whether all selections in a tree stay inside of what they select from. -/
def Inside : Tree → Prop
  | .part var msb lsb => Inside var ∧ Inside msb ∧ Inside lsb ∧
    Selects index (I.meaning var) (I.meaning msb) (I.meaning lsb)
  | .branch cond yes no => Inside cond ∧ Inside yes ∧ Inside no
  | .op _ args | .concat args | .call _ args => InsideAll args
  | .item var ptr => Inside var ∧ Inside ptr
  | .delay next => Inside next
  | _ => True

@[inherit_doc Inside]
def InsideAll : List Tree → Prop
  | [] => True
  | t :: ts => Inside t ∧ InsideAll ts

end

/-- Whether a tree can stand for another: it means the same, and its selections stay inside. -/
structure StandsFor (u t : Tree) : Prop where
  meaning : I.meaning u = I.meaning t
  inside : I.Inside index u

variable {I index} {v : List β} {i j : Nat}

theorem meaning_of_eval (hI : I.IsBitwise index) {t : Tree} {s : Scalar} (h : t.eval = .ok s) :
    ∃ v, I.meaning t = some v ∧ ∀ k : Nat, index v = some k ↔ s = .int k := by
  obtain ⟨v, hv⟩ := hI.constant h
  refine ⟨v, ?_, hv.2⟩
  unfold eval at h
  split at h <;> first | exact hv.1 | exact absurd h throw_ne_ok

theorem inside_part (hI : I.IsBitwise index) {var msb lsb : Tree} (hvar : I.Inside index var)
    (hv : I.meaning var = some v) (hi : msb.eval = .ok (.int i)) (hj : lsb.eval = .ok (.int j))
    (hle : j ≤ i) (hlt : i < v.length) : I.Inside index (.part var msb lsb) := by
  have hconst : ∀ {t : Tree} {s : Scalar}, t.eval = .ok s → I.Inside index t := by
    intro t s h
    unfold eval at h
    split at h <;> trivial
  obtain ⟨high, hhigh, hplace⟩ := meaning_of_eval hI hi
  obtain ⟨low, hlow, hplace'⟩ := meaning_of_eval hI hj
  refine ⟨hvar, hconst hi, hconst hj, fun l hl => ?_⟩
  obtain rfl := Option.some.inj (hlow.symm.trans hl)
  refine ⟨high, i, j, hhigh, (hplace i).mpr rfl, (hplace' j).mpr rfl, hle, fun v' hv' => ?_⟩
  rwa [Option.some.inj (hv'.symm.trans hv)]

theorem part_part (hI : I.IsBitwise index) {high low high' low' high'' low'' : List β} {i' j' : Nat}
    (hhigh : index high = some i) (hlow : index low = some j) (hle : j ≤ i) (hlt : i < v.length)
    (hhigh' : index high' = some i') (hlow' : index low' = some j') (hle' : j' ≤ i')
    (hinner : ∀ w, I.part v high low = some w → i' < w.length)
    (hhigh'' : index high'' = some (i' + j)) (hlow'' : index low'' = some (j' + j)) :
    i' + j < v.length ∧
      ((I.part v high low).bind fun w => I.part w high' low') = I.part v high'' low'' := by
  have hword := hI.part hhigh hlow hle hlt
  have hbound := hinner _ hword
  have hlength : ((v.drop j).take (i - j + 1)).length = i - j + 1 := by
    rw [length_take, length_drop]
    omega
  rw [hlength] at hbound
  refine ⟨by omega, ?_⟩
  have hcount : min (i' - j' + 1) (i - j + 1 - j') = i' + j - (j' + j) + 1 := by omega
  rw [hword, Option.bind_some, hI.part hhigh' hlow' hle' (by omega),
    hI.part hhigh'' hlow'' (by omega) (by omega), drop_take, take_take, drop_drop,
    hcount, Nat.add_comm j j']

theorem StandsFor.part {var msb lsb var' msb' lsb' : Tree} (hvar : I.StandsFor index var' var)
    (hmsb : I.StandsFor index msb' msb) (hlsb : I.StandsFor index lsb' lsb)
    (h : I.Inside index (.part var msb lsb)) :
    I.StandsFor index (.part var' msb' lsb') (.part var msb lsb) := by
  refine ⟨by simp only [Interp.meaning, hvar.meaning, hmsb.meaning, hlsb.meaning], hvar.inside,
    hmsb.inside, hlsb.inside, ?_⟩
  rw [hvar.meaning, hmsb.meaning, hlsb.meaning]
  exact h.2.2.2

end Interp

end Tree

/-! ## Walking -/

namespace Netlist

open RtlFlow.Tree (Interp)

variable {n : Netlist} {β : Type} {I : Interp (List β)} {index : List β → Option Nat}
  {inner innerLsb lsb msb u var : Tree} {w : Walk} {name : Path}

variable (n) in
/-- Whether a signal is one that walks go through: neither an input of the top module nor a register,
unless that is combinational or an auxiliary name. -/
def IsDefined (name : Path) : Prop :=
  ∃ kinds, n.kinds name = .ok kinds ∧ ¬(name.length = 2 ∧ "Input" ∈ kinds) ∧
    ¬(("Reg" ∈ kinds ∨ "RegArray" ∈ kinds) ∧ n.isCombination name = false ∧ "Rename" ∉ kinds)

variable (n) in
/-- Whether the design has no arrays, and all ranges go down to the place zero. -/
structure HasPlainRanges : Prop where
  noArray : ∀ {name : Path} {kinds : List String}, n.kinds name = .ok kinds →
    SignalKind.isArray kinds = false
  lsb_zero : ∀ e ∈ n.terms.entries, ∀ s, e.2.lsb.eval = .ok s → s = .int 0

variable (n I index) in
/-- Whether the signals have the values of their definitions, and the selections in the definitions
stay inside of what they select from. -/
structure Solves : Prop where
  value : ∀ {name : Path} {t : Tree}, n.IsDefined name → n.tree name = .ok t →
    I.signal name = I.meaning t
  inside : ∀ {name : Path} {t : Tree}, n.IsDefined name → n.tree name = .ok t → I.Inside index t

theorem isDefined_of_turn (hn : n.HasPlainRanges) (hstep : w.step = 0) {ptr : Tree} {step : Int}
    (h : n.turn w name = .ok (.go ptr step)) : n.IsDefined name ∧ ptr = .hole ∧ step = 0 := by
  unfold turn at h
  by_cases hvisited : w.visited.contains name
  · simp only [hvisited, if_true, pure_eq_ok, reduceCtorEq] at h
  rw [if_neg hvisited] at h
  simp only [bind_eq_ok] at h
  obtain ⟨kinds, hkinds, h⟩ := h
  by_cases hinput : name.length = 2 && kinds.contains "Input"
  · simp only [hinput, if_true, pure_eq_ok, reduceCtorEq] at h
  rw [if_neg hinput, hn.noArray hkinds] at h
  simp only [Bool.false_and, Bool.false_eq_true, if_false, hstep, if_true] at h
  split at h
  · exact absurd (pure_eq_ok.mp h) (by simp)
  · rename_i hregister
    obtain ⟨rfl, rfl⟩ := Turn.go.inj (pure_eq_ok.mp h)
    refine ⟨⟨kinds, hkinds, by simpa using hinput, ?_⟩, rfl, rfl⟩
    rintro ⟨hreg, hcomb, hrename⟩
    exact hregister (by simpa [hcomb, hrename] using hreg)

theorem shiftPart_eq_ok (hn : n.HasPlainRanges)
    (h : n.shiftPart var msb lsb inner innerLsb = .ok u) :
    ∃ m l b m' l', msb.eval = .ok m ∧ lsb.eval = .ok l ∧ innerLsb.eval = .ok b ∧
      (m.add b >>= fun s => s.sub (.int 0)) = .ok m' ∧
      (l.add b >>= fun s => s.sub (.int 0)) = .ok l' ∧
      u = .part inner (.const .int m'.toText) (.const .int l'.toText) := by
  simp only [shiftPart, bind_eq_ok] at h
  obtain ⟨name, -, h⟩ := h
  split at h
  · rename_i t hterm
    simp only [bind_eq_ok, pure_eq_ok] at h
    obtain ⟨low, hlow, _, ⟨m, hm, b, hb, sum, hsum, m', hm', rfl⟩, _,
      ⟨l, hl, b', hb', sum', hsum', l', hl', rfl⟩, rfl⟩ := h
    obtain ⟨e, he, rfl⟩ : ∃ e ∈ n.terms.entries, e.2 = t := by
      obtain ⟨e, he, heq⟩ := Option.map_eq_some_iff.mp hterm
      exact ⟨e, mem_of_find?_eq_some he, heq⟩
    obtain rfl := hn.lsb_zero e he low hlow
    obtain rfl : b = b' := Except.ok.inj (hb.symm.trans hb')
    exact ⟨m, l, b, m', l', hm, hl, hb, bind_eq_ok.mpr ⟨sum, hsum, hm'⟩,
      bind_eq_ok.mpr ⟨sum', hsum', hl'⟩, rfl⟩
  · obtain ⟨_, hthrow, -⟩ := bind_eq_ok.mp h
    exact absurd hthrow throw_ne_ok

theorem eval_shifted {i j : Nat} {s : Scalar}
    (h : ((Scalar.int i).add (.int j) >>= fun s => s.sub (.int 0)) = .ok s) :
    (Tree.const .int s.toText).eval = .ok (.int ((i + j : Nat) : Int)) := by
  have hsum : s = .int ((i + j : Nat) : Int) := by
    have : Scalar.int ((i : Int) + (j : Int) - 0) = s := Except.ok.inj h
    rw [← this]
    simp
  rw [hsum]
  exact Literal.value_ofInt (i + j)

theorem shiftPart_standsFor (hI : I.IsBitwise index) (hn : n.HasPlainRanges) {innerMsb : Tree}
    (h : n.shiftPart var msb lsb inner innerLsb = .ok u)
    (hinside : I.Inside index (.part (.part inner innerMsb innerLsb) msb lsb)) :
    I.StandsFor index u (.part (.part inner innerMsb innerLsb) msb lsb) := by
  obtain ⟨m, l, b, m', l', hm, hl, hb, hm', hl', rfl⟩ := shiftPart_eq_ok hn h
  obtain ⟨⟨hin, -, -, hinner⟩, -, -, houter⟩ := hinside
  obtain ⟨vm, hvm, him⟩ := Interp.meaning_of_eval hI hm
  obtain ⟨vl, hvl, hil⟩ := Interp.meaning_of_eval hI hl
  obtain ⟨vb, hvb, hib⟩ := Interp.meaning_of_eval hI hb
  obtain ⟨_, i', j', heq, hi', hj', hle', hinside⟩ := houter vl hvl
  obtain rfl := Option.some.inj (hvm.symm.trans heq)
  obtain ⟨va, i, j, hva, hi, hj, hle, hlt⟩ := hinner vb hvb
  obtain rfl := (him i').mp hi'
  obtain rfl := (hil j').mp hj'
  obtain rfl := (hib j).mp hj
  obtain ⟨vm', hvm', him'⟩ := Interp.meaning_of_eval hI (eval_shifted hm')
  obtain ⟨vl', hvl', hil'⟩ := Interp.meaning_of_eval hI (eval_shifted hl')
  have hpart : ∀ v, I.meaning inner = some v → i' + j < v.length ∧
      ((I.part v va vb).bind fun w => I.part w vm vl) = I.part v vm' vl' := fun v hv =>
    Interp.part_part hI hi hj hle (hlt v hv) hi' hj' hle'
      (fun w hw => hinside w (by simp [Interp.meaning, hv, hva, hvb, hw]))
      ((him' _).mpr rfl) ((hil' _).mpr rfl)
  refine ⟨?_, hin, trivial, trivial, ?_⟩
  · cases hv : I.meaning inner with
    | none => simp [Interp.meaning, hv]
    | some v =>
      simp only [Interp.meaning] at hvm' hvl'
      simp only [Interp.meaning, hv, hva, hvb, hvm, hvl, hvm', hvl', Option.bind_some]
      exact (hpart v hv).2.symm
  · intro low hlow
    obtain rfl := Option.some.inj (hvl'.symm.trans hlow)
    exact ⟨vm', i' + j, j' + j, hvm', (him' _).mpr rfl, (hil' _).mpr rfl, by omega,
      fun v hv => (hpart v hv).1⟩

/-- What goes on with a definition puts a tree in its place that stands for it. -/
def Sound (I : Interp (List β)) (index : List β → Option Nat)
    (expand : Walk → Tree → Result Tree) : Prop :=
  ∀ {w : Walk} {t u : Tree}, expand w t = .ok u → w.step = 0 → I.Inside index t →
    I.StandsFor index u t

theorem replacesItem_eq_false (hn : n.HasPlainRanges) {walked : Tree} {b : Bool}
    (h : n.replacesItem name walked = .ok b) : b = false := by
  simp only [replacesItem, bind_eq_ok] at h
  obtain ⟨kinds, hkinds, h⟩ := h
  rw [hn.noArray hkinds] at h
  exact (pure_eq_ok.mp h).symm

mutual

theorem sound_walkWith (hI : I.IsBitwise index) (hn : n.HasPlainRanges) (hsolves : n.Solves I index)
    {expand : Walk → Tree → Result Tree} (hexpand : Sound I index expand) :
    ∀ {t u : Tree} {w : Walk}, n.walkWith expand w t = .ok u → w.step = 0 → I.Inside index t →
      I.StandsFor index u t
  | .hole, u, w, h, hw, ht => by
    obtain rfl := pure_eq_ok.mp h
    exact ⟨hI.unknown _, trivial⟩
  | .term name, u, w, h, hw, ht => by
    simp only [walkWith, bind_eq_ok] at h
    obtain ⟨next, hturn, h⟩ := h
    split at h
    · obtain rfl := pure_eq_ok.mp h
      exact ⟨rfl, trivial⟩
    · obtain ⟨hdefined, rfl, rfl⟩ := isDefined_of_turn hn hw hturn
      obtain ⟨definition, htree, h⟩ := bind_eq_ok.mp h
      have hstands := hexpand h rfl (hsolves.inside hdefined htree)
      exact ⟨hstands.meaning.trans (hsolves.value hdefined htree).symm, hstands.inside⟩
  | .branch cond yes no, u, w, h, hw, ht => by
    simp only [walkWith, bind_eq_ok, pure_eq_ok] at h
    obtain ⟨cond', hcond, yes', hyes, no', hno, rfl⟩ := h
    have hcond := sound_walkWith hI hn hsolves hexpand hcond hw ht.1
    have hyes := sound_walkWith hI hn hsolves hexpand hyes hw ht.2.1
    have hno := sound_walkWith hI hn hsolves hexpand hno hw ht.2.2
    exact ⟨by simp only [Interp.meaning, hcond.meaning, hyes.meaning, hno.meaning],
      hcond.inside, hyes.inside, hno.inside⟩
  | .op name args, u, w, h, hw, ht => by
    simp only [walkWith, bind_eq_ok] at h
    obtain ⟨args', hargs, h⟩ := h
    obtain rfl := Tree.mkOp_eq_ok h
    obtain ⟨hmeanings, hinside⟩ := sound_walkAll hI hn hsolves hexpand hargs hw ht
    exact ⟨by simp only [Interp.meaning, hmeanings], hinside⟩
  | .concat items, u, w, h, hw, ht => by
    simp only [walkWith, bind_eq_ok, pure_eq_ok] at h
    obtain ⟨items', hitems, rfl⟩ := h
    obtain ⟨hmeanings, hinside⟩ := sound_walkAll hI hn hsolves hexpand hitems hw ht
    exact ⟨by simp only [Interp.meaning, hmeanings], hinside⟩
  | .part var msb lsb, u, w, h, hw, ht => by
    simp only [walkWith, bind_eq_ok] at h
    obtain ⟨msb', hmsb, lsb', hlsb, var', hvar, h⟩ := h
    have hpart := Interp.StandsFor.part (sound_walkWith hI hn hsolves hexpand hvar hw ht.1)
      (sound_walkWith hI hn hsolves hexpand hmsb hw ht.2.1)
      (sound_walkWith hI hn hsolves hexpand hlsb hw ht.2.2.1) ht
    split at h
    · have hshift := shiftPart_standsFor hI hn h hpart.inside
      exact ⟨hshift.meaning.trans hpart.meaning, hshift.inside⟩
    · obtain rfl := pure_eq_ok.mp h
      exact hpart
  | .item var ptr, u, w, h, hw, ht => by
    simp only [walkWith, bind_eq_ok] at h
    obtain ⟨ptr', hptr, var', hvar, h⟩ := h
    have hvar := sound_walkWith hI hn hsolves hexpand hvar hw ht.1
    have hptr := sound_walkWith hI hn hsolves hexpand hptr hw ht.2
    -- The element itself never takes the place of the selection, as nothing is an array.
    obtain rfl : .item var' ptr' = u := by
      split at h
      · simp only [bind_eq_ok] at h
        obtain ⟨replaces, hreplaces, h⟩ := h
        rw [replacesItem_eq_false hn hreplaces] at h
        exact pure_eq_ok.mp h
      · exact pure_eq_ok.mp h
    exact ⟨by simp only [Interp.meaning, hvar.meaning, hptr.meaning], hvar.inside, hptr.inside⟩
  | .delay _, u, w, h, hw, ht | .call _ _, u, w, h, hw, ht | .unbound, u, w, h, hw, ht =>
    absurd h throw_ne_ok
  | .const _ _, u, w, h, hw, ht | .value _ _ _ _, u, w, h, hw, ht | .unknown _, u, w, h, hw, ht
  | .floating _, u, w, h, hw, ht => by
    obtain rfl := pure_eq_ok.mp h
    exact ⟨rfl, trivial⟩

theorem sound_walkAll (hI : I.IsBitwise index) (hn : n.HasPlainRanges) (hsolves : n.Solves I index)
    {expand : Walk → Tree → Result Tree} (hexpand : Sound I index expand) :
    ∀ {ts us : List Tree} {w : Walk}, n.walkAll expand w ts = .ok us → w.step = 0 →
      I.InsideAll index ts → I.meanings us = I.meanings ts ∧ I.InsideAll index us
  | [], us, w, h, hw, hts => by
    obtain rfl := pure_eq_ok.mp h
    exact ⟨rfl, trivial⟩
  | t :: ts, us, w, h, hw, hts => by
    simp only [walkAll, bind_eq_ok, pure_eq_ok] at h
    obtain ⟨t', ht', ts', hts', rfl⟩ := h
    have hhead := sound_walkWith hI hn hsolves hexpand ht' hw hts.1
    obtain ⟨hmeanings, hinside⟩ := sound_walkAll hI hn hsolves hexpand hts' hw hts.2
    exact ⟨by simp only [Interp.meanings, hhead.meaning, hmeanings], hhead.inside, hinside⟩

end

theorem sound_walkBounded (hI : I.IsBitwise index) (hn : n.HasPlainRanges)
    (hsolves : n.Solves I index) (k : Nat) : Sound I index (n.walkBounded k) := by
  induction k with
  | zero =>
    intro w t u h
    exact absurd h throw_ne_ok
  | succ k ih =>
    intro w t u h hw ht
    exact sound_walkWith hI hn hsolves ih h hw ht

/-- Walking through definitions, wherever it starts and whatever was visited, keeps the meaning of a
tree under every interpretation that solves the design. -/
theorem walkTree_meaning (hI : I.IsBitwise index) (hn : n.HasPlainRanges)
    (hsolves : n.Solves I index) (hw : w.step = 0) {t : Tree} (ht : I.Inside index t)
    (h : n.walkTree w t = .ok u) : I.meaning u = I.meaning t :=
  (sound_walkBounded hI hn hsolves _ h hw ht).meaning

end Netlist

/-! ## A module with slices of slices -/

section Examples

/-- A number in binary digits, with a leading zero; no digits for what is no natural number. -/
def binary : Scalar → List Nat
  | .int (.ofNat k) => Nat.digits 2 k ++ [0]
  | _ => []

def binaryPlace : List Nat → Option Nat
  | [] => none
  | digits => some (Nat.ofDigits 2 digits)

theorem binaryPlace_binary (s : Scalar) (k : Nat) :
    binaryPlace (binary s) = some k ↔ s = .int k := by
  match s with
  | .int (.ofNat m) =>
    have hplace : binaryPlace (Nat.digits 2 m ++ [0]) = some m := by
      unfold binaryPlace
      split
      · simp_all
      · rw [Nat.ofDigits_append, Nat.ofDigits_digits]
        simp
    rw [binary, hplace]
    simp
  | .int (.negSucc m) =>
    have hne : Int.negSucc m ≠ (k : Int) := by omega
    simp [binary, binaryPlace, hne]
  | .none | .bool _ | .real _ | .text _ => simp [binary, binaryPlace]

/-- Numbers in binary digits, and selections that find zeros beyond the end of a word. -/
def binaryInterp (signal : Path → Option (List Nat)) : Tree.Interp (List Nat) where
  signal := signal
  atom t := t.eval.toOption.map binary
  op _ _ := none
  concat words := some words.reverse.flatten
  part word high low := do
    let i ← binaryPlace high
    let j ← binaryPlace low
    return ((word.drop j).take (i - j + 1)).rightpad (i - j + 1) 0
  truth word := word.any (· != 0)
  undecided := .hold

theorem isBitwise_binaryInterp (signal : Path → Option (List Nat)) :
    (binaryInterp signal).IsBitwise binaryPlace where
  constant h := ⟨_, by simp [binaryInterp, h, Except.toOption], binaryPlace_binary _⟩
  part {v high low i j} hhigh hlow hle hlt := by
    have hlength : ((v.drop j).take (i - j + 1)).length = i - j + 1 := by
      rw [length_take, length_drop]
      omega
    simp only [binaryInterp, hhigh, hlow, Option.bind_eq_bind, Option.bind_some, List.rightpad,
      hlength, Nat.sub_self, replicate_zero, append_nil]
    rfl
  unknown _ := rfl

theorem binaryInterp_part {signal : Path → Option (List Nat)} {p : Path} {v : List Nat}
    (hv : signal p = some v) {msb lsb : Tree} {i j : Nat} (hi : msb.eval = .ok (.int i))
    (hj : lsb.eval = .ok (.int j)) :
    (binaryInterp signal).meaning (.part (.term p) msb lsb) =
      some (((v.drop j).take (i - j + 1)).rightpad (i - j + 1) 0) := by
  have hsignal : (binaryInterp signal).signal p = some v := hv
  obtain ⟨high, hhigh, hplace⟩ := Tree.Interp.meaning_of_eval (isBitwise_binaryInterp signal) hi
  obtain ⟨low, hlow, hplace'⟩ := Tree.Interp.meaning_of_eval (isBitwise_binaryInterp signal) hj
  simp only [Tree.Interp.meaning, hsignal, hhigh, hlow, Option.bind_some]
  simp only [binaryInterp, (hplace i).mpr rfl, (hplace' j).mpr rfl]
  rfl

namespace Netlist

variable {high : Nat} {name : Path} {t : Tree}

def topSignal (s : String) : Path := Path.ofNames ["TOP", s]

/-- A module whose signal `x` is made of the bits of `y` from 2 on, and `y` of the bits 8 to 15 of the
input `z`. -/
def sliced (high : Nat) : Netlist where
  terms :=
    let vector (s kind : String) (msb : Int) : Path × Term := (topSignal s,
      { name := topSignal s, kinds := [kind], msb := .ofInt msb, lsb := .ofInt 0 })
    ⟨[vector "x" "Wire" (high - 2), vector "y" "Wire" 7, vector "z" "Input" 19]⟩
  resolvedBinds :=
    let slice (s source : String) (msb lsb : Int) : Path × List Binding := (topSignal s,
      [{ tree := .part (.term (topSignal source)) (.ofInt msb) (.ofInt lsb), dest := topSignal s }])
    ⟨[slice "x" "y" high 2, slice "y" "z" 15 8]⟩

theorem hasPlainRanges_sliced (high : Nat) : (sliced high).HasPlainRanges where
  noArray {name kinds} h := by
    unfold Netlist.kinds at h
    split at h
    · rename_i t ht
      obtain ⟨e, he, rfl⟩ := Option.map_eq_some_iff.mp ht
      have hmem := mem_of_find?_eq_some he
      obtain rfl := pure_eq_ok.mp h
      fin_cases hmem <;> rfl
    · exact absurd h throw_ne_ok
  lsb_zero e he s hs := by
    fin_cases he <;> exact (Except.ok.inj hs).symm

theorem tree_congr {n : Netlist} (hn : n.HasPlainRanges) {p q : Path}
    (hbinds : n.resolvedBindings p = n.resolvedBindings q) (hkinds : n.kinds p = n.kinds q) :
    n.tree p = n.tree q := by
  simp only [tree, hbinds, hkinds]
  congr 1
  funext bs
  split
  · rfl
  · cases hq : n.kinds q with
    | error f => rfl
    | ok kinds => simp [hn.noArray hq]

theorem sliced_tree (hhigh : high = 5 ∨ high = 9) (hdefined : (sliced high).IsDefined name)
    (h : (sliced high).tree name = .ok t) :
    (topSignal "x" == name) = true ∧ t = .part (.term (topSignal "y")) (.ofInt high) (.ofInt 2) ∨
    (topSignal "x" == name) = false ∧ (topSignal "y" == name) = true ∧
      t = .part (.term (topSignal "z")) (.ofInt 15) (.ofInt 8) := by
  have hxx : (topSignal "x" == topSignal "x") = true := by decide
  have hxy : (topSignal "x" == topSignal "y") = false := by decide
  have hyy : (topSignal "y" == topSignal "y") = true := by decide
  cases hx : topSignal "x" == name with
  | true =>
    have hcongr := tree_congr (hasPlainRanges_sliced high) (p := name) (q := topSignal "x")
      (by simp [resolvedBindings, sliced, Table.get?, hx, hxx])
      (by simp [kinds, sliced, Table.get?, hx, hxx])
    have htree : (sliced high).tree (topSignal "x") =
        .ok (.part (.term (topSignal "y")) (.ofInt high) (.ofInt 2)) := by
      rcases hhigh with rfl | rfl <;> cbv
    exact .inl ⟨rfl, Except.ok.inj (h.symm.trans (hcongr.trans htree))⟩
  | false =>
    cases hy : topSignal "y" == name with
    | true =>
      have hcongr := tree_congr (hasPlainRanges_sliced high) (p := name) (q := topSignal "y")
        (by simp [resolvedBindings, sliced, Table.get?, hx, hy, hxy, hyy])
        (by simp [kinds, sliced, Table.get?, hx, hy, hxy, hyy])
      have htree : (sliced high).tree (topSignal "y") =
          .ok (.part (.term (topSignal "z")) (.ofInt 15) (.ofInt 8)) := by
        rcases hhigh with rfl | rfl <;> cbv
      exact .inr ⟨rfl, rfl, Except.ok.inj (h.symm.trans (hcongr.trans htree))⟩
    | false =>
      -- What is left of the signals is the input.
      obtain ⟨kinds, hkinds, hinput, -⟩ := hdefined
      cases hz : topSignal "z" == name with
      | true =>
        have hlength : name.length = 2 := by
          obtain ⟨labels⟩ := name
          rcases labels with _ | ⟨a, _ | ⟨b, _ | ⟨c, labels⟩⟩⟩
          · simp [topSignal, Path.ofNames, BEq.beq] at hz
          · simp [topSignal, Path.ofNames, BEq.beq, List.beq] at hz
          · rfl
          · simp [topSignal, Path.ofNames, BEq.beq, List.beq] at hz
        simp [Netlist.kinds, sliced, Table.get?, hx, hy, hz] at hkinds
        exact absurd ⟨hlength, by simp [← hkinds]⟩ hinput
      | false =>
        simp [Netlist.kinds, sliced, Table.get?, hx, hy, hz] at hkinds

/-- The words for the signals when all bits of the input are ones. -/
def slicedWords (high : Nat) (p : Path) : Option (List Nat) :=
  if topSignal "x" == p then
    some (((List.replicate 6 1).take (high - 1)).rightpad (high - 1) 0)
  else if topSignal "y" == p then some (List.replicate 8 1)
  else if topSignal "z" == p then some (List.replicate 20 1)
  else none

theorem slicedWords_eq_meaning (hhigh : high = 5 ∨ high = 9)
    (hdefined : (sliced high).IsDefined name) (h : (sliced high).tree name = .ok t) :
    slicedWords high name = (binaryInterp (slicedWords high)).meaning t := by
  rcases sliced_tree hhigh hdefined h with ⟨hx, rfl⟩ | ⟨hx, hy, rfl⟩
  · rw [slicedWords, hx]
    have hword : slicedWords high (topSignal "y") = some (List.replicate 8 1) := rfl
    have hbits : (binaryInterp (slicedWords high)).meaning
        (.part (.term (topSignal "y")) (.ofInt high) (.ofInt 2)) = some _ :=
      binaryInterp_part (j := 2) hword rfl rfl
    rw [hbits]
    rcases hhigh with rfl | rfl <;> rfl
  · rw [slicedWords, hx, hy]
    have hword : slicedWords high (topSignal "z") = some (List.replicate 20 1) := rfl
    exact (binaryInterp_part (i := 15) (j := 8) hword rfl rfl).symm

theorem solves_sliced : (sliced 5).Solves (binaryInterp (slicedWords 5)) binaryPlace where
  value := slicedWords_eq_meaning (.inl rfl)
  inside hdefined h := by
    have hI := isBitwise_binaryInterp (slicedWords 5)
    rcases sliced_tree (.inl rfl) hdefined h with ⟨-, rfl⟩ | ⟨-, -, rfl⟩
    · have hword : (binaryInterp (slicedWords 5)).meaning (.term (topSignal "y")) =
          some (List.replicate 8 1) := rfl
      exact Tree.Interp.inside_part (i := 5) (j := 2) hI trivial hword rfl rfl (by decide)
        (by decide)
    · have hword : (binaryInterp (slicedWords 5)).meaning (.term (topSignal "z")) =
          some (List.replicate 20 1) := rfl
      exact Tree.Interp.inside_part (i := 15) (j := 8) hI trivial hword rfl rfl (by decide)
        (by decide)

/-- The bits 2 to 5 of the bits 8 to 15 are the bits 10 to 13. -/
theorem walkTree_meaning_sliced :
    (sliced 5).walkTree {} (.term (topSignal "x")) =
      .ok (.part (.term (topSignal "z")) (.const .int "13") (.const .int "10")) ∧
    (binaryInterp (slicedWords 5)).meaning
        (.part (.term (topSignal "z")) (.const .int "13") (.const .int "10")) =
      (binaryInterp (slicedWords 5)).meaning (.term (topSignal "x")) := by
  have hwalk : (sliced 5).walkTree {} (.term (topSignal "x")) =
      .ok (.part (.term (topSignal "z")) (.const .int "13") (.const .int "10")) := by cbv
  exact ⟨hwalk, walkTree_meaning (isBitwise_binaryInterp _) (hasPlainRanges_sliced 5) solves_sliced
    rfl trivial hwalk⟩

/-- The selections in the definitions have to stay inside: the bits 2 to 9 of a word of eight bits
are not the bits 10 to 17 of the word that it is taken from. -/
theorem walkTree_meaning_outside :
    let I := binaryInterp (slicedWords 9)
    ∃ u, (sliced 9).walkTree {} (.term (topSignal "x")) = .ok u ∧ I.IsBitwise binaryPlace ∧
      (sliced 9).HasPlainRanges ∧
      (∀ name t, (sliced 9).IsDefined name → (sliced 9).tree name = .ok t →
        I.signal name = I.meaning t) ∧
      I.Inside binaryPlace (.term (topSignal "x")) ∧
      I.meaning u ≠ I.meaning (.term (topSignal "x")) := by
  intro I
  refine ⟨.part (.term (topSignal "z")) (.const .int "17") (.const .int "10"), by cbv,
    isBitwise_binaryInterp _, hasPlainRanges_sliced 9,
    fun _ _ => slicedWords_eq_meaning (.inr rfl), trivial, ?_⟩
  have hword : slicedWords 9 (topSignal "z") = some (List.replicate 20 1) := rfl
  have hhigh : (Tree.const .int "17").eval = .ok (.int (17 : Nat)) := Literal.value_ofInt 17
  have hlow : (Tree.const .int "10").eval = .ok (.int (10 : Nat)) := Literal.value_ofInt 10
  have hwalked : I.meaning (.part (.term (topSignal "z")) (.const .int "17") (.const .int "10")) =
      some (List.replicate 8 1) := binaryInterp_part hword hhigh hlow
  rw [hwalked]
  decide

end Netlist

end Examples

end RtlFlow
