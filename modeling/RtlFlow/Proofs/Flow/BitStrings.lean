import Mathlib
import RtlFlow.Proofs.FlatNames
import RtlFlow.Proofs.Flow.Comparing
import RtlFlow.Proofs.Flow.Conditions

/-!
# Trees as strings of bits

A tree stands for a string of bits, the highest one first, and the number of bits is the width of
the tree. Values have their binary digits, concatenations put strings one after the other, a
selection from a signal is a part of its string, and a branch has the string of the arm that its
condition selects. Every other tree has some string of its width.
-/

namespace RtlFlow

open List

variable {hi lo : Nat} {bs : List Bit}

/-- A bit, or nothing if it is not known. -/
abbrev Bit := Option Bool

/-! ## Strings -/

/-- The binary digits of a number, the highest one first. -/
def digits : Nat → Nat → List Bit
  | 0, _ => []
  | n + 1, v => some (v.testBit n) :: digits n v

@[simp] theorem length_digits (n v : Nat) : (digits n v).length = n := by
  induction n with
  | zero => rfl
  | succ n ih => simp [digits, ih]

theorem digits_congr {n v w : Nat} (h : ∀ i < n, v.testBit i = w.testBit i) :
    digits n v = digits n w := by
  induction n with
  | zero => rfl
  | succ n ih => rw [digits, digits, h n (by omega), ih fun i hi => h i (by omega)]

theorem digits_append (m : Nat) {n v w : Nat} (h : w < 2 ^ n) :
    digits (m + n) (v * 2 ^ n + w) = digits m v ++ digits n w := by
  have hbit (i : Nat) := Nat.testBit_two_pow_mul_add v h i
  simp only [Nat.mul_comm (2 ^ n) v] at hbit
  induction m with
  | zero =>
    rw [Nat.zero_add, digits, nil_append]
    exact digits_congr fun i hi => by rw [hbit, if_pos hi]
  | succ m ih =>
    rw [Nat.add_right_comm, digits, digits, cons_append, ih, hbit, if_neg (by omega),
      Nat.add_sub_cancel]

/-- The bits of a string from `hi` down to `lo`, counted from its lowest bit. -/
def slice (bs : List Bit) (hi lo : Nat) : List Bit :=
  (bs.drop (bs.length - 1 - hi)).take (hi + 1 - lo)

theorem slice_append_slice {mid : Nat} (hmid : mid < hi) (hlo : lo ≤ mid) (h : hi < bs.length) :
    slice bs hi (mid + 1) ++ slice bs mid lo = slice bs hi lo := by
  have hdrop : bs.length - 1 - mid = bs.length - 1 - hi + (hi + 1 - (mid + 1)) := by omega
  have htake : hi + 1 - lo = hi + 1 - (mid + 1) + (mid + 1 - lo) := by omega
  rw [slice, slice, slice, hdrop, ← drop_drop, htake, take_add]

theorem slice_of_append (as ms zs : List Bit) (hlo : lo = zs.length)
    (hhi : hi + 1 = ms.length + zs.length) : slice (as ++ ms ++ zs) hi lo = ms := by
  have hdrop : (as ++ ms ++ zs).length - 1 - hi = as.length := by
    grind
  rw [slice, hdrop, append_assoc, drop_left, take_left' (by omega)]

theorem slice_all (h : hi + 1 = bs.length) : slice bs hi 0 = bs := by
  simpa using slice_of_append [] bs [] rfl h

theorem length_slice (h : hi < bs.length) : (slice bs hi lo).length = hi + 1 - lo := by
  rw [slice, length_take, length_drop]
  omega

theorem slice_append_right (as : List Bit) (h : hi < bs.length) :
    slice (as ++ bs) hi lo = slice bs hi lo := by
  have hdrop : (as ++ bs).length - 1 - hi = as.length + (bs.length - 1 - hi) := by
    rw [length_append]
    omega
  rw [slice, slice, hdrop, ← drop_drop, drop_left]

theorem slice_append_left {as : List Bit} (bs : List Bit) (h : hi < as.length) :
    slice (as ++ bs) (hi + bs.length) 0 = slice as hi 0 ++ bs := by
  have hdrop : (as ++ bs).length - 1 - (hi + bs.length) = as.length - 1 - hi := by
    rw [length_append]
    omega
  have htake : (as.drop (as.length - 1 - hi)).length = hi + 1 := by
    rw [length_drop]
    omega
  rw [slice, slice, hdrop, drop_append_of_le_length (by omega),
    take_of_length_le (by rw [length_append]; omega), take_of_length_le (by omega)]

theorem slice_digits {n : Nat} (v : Nat) (h : hi < n) :
    slice (digits n v) hi 0 = digits (hi + 1) (v % 2 ^ (hi + 1)) := by
  have hmod : v % 2 ^ (hi + 1) < 2 ^ (hi + 1) := Nat.mod_lt _ (Nat.two_pow_pos _)
  have hsplit := @digits_append (n - (hi + 1)) (hi + 1) (v / 2 ^ (hi + 1)) _ hmod
  rw [Nat.div_add_mod', Nat.sub_add_cancel h] at hsplit
  rw [hsplit, slice_append_right _ (by simp), slice_all (by simp)]

/-! ## Names of signals -/

/-- Whether a label names one scope: its kind is given, and an iteration is a number. -/
def Label.plain (l : Label) : Bool :=
  l.kind != .any && match l.loop with
    | .none | .int _ => true
    | _ => false

def Path.plain (p : Path) : Bool := p.labels.all Label.plain

theorem Label.eq_of_same {a b : Label} (ha : a.plain = true) (hb : b.plain = true)
    (h : (a == b) = true) : a = b := by
  obtain ⟨name, kind, loop⟩ := a
  obtain ⟨name', kind', loop'⟩ := b
  simp only [plain, Bool.and_eq_true, bne_iff_ne] at ha hb
  change same _ _ = true at h
  simp only [same, ha.1, hb.1, decide_false, Bool.or_self, Bool.false_eq_true, if_false,
    Bool.and_eq_true, beq_iff_eq, decide_eq_true_eq] at h
  obtain ⟨⟨rfl, rfl⟩, hloop⟩ := h
  cases loop with
  | none => cases loop' <;> first | rfl | cases hloop
  | int m =>
    cases loop' with
    | int n => rw [Scalar.int_same_iff.mp hloop]
    | none => cases hloop
    | bool _ | real _ | text _ => cases hb.2
  | bool _ | real _ | text _ => cases ha.2

theorem Path.eq_of_same {p q : Path} (hp : p.plain = true) (hq : q.plain = true)
    (h : (p == q) = true) : p = q := by
  have hlabels := map_labels_eq_of_same (f := id) h fun l hl m hm =>
    Label.eq_of_same (all_eq_true.mp hp l hl) (all_eq_true.mp hq m hm)
  exact congrArg Path.mk (by simpa using hlabels)

/-! ## Strings of trees -/

namespace Optimizer

/-- A signal with `n` bits that are declared from place `low` on. -/
def Declared (o : Optimizer) (p : Path) (low : Int) (n : Nat) : Prop :=
  ∃ t m l wm wl rm rl tm tl, o.term p = .ok t ∧ o.fold t.msb = .ok (.value (.int m) wm rm tm) ∧
    o.fold t.lsb = .ok (.value (.int l) wl rl tl) ∧ low = min m l ∧ n = (m - l).natAbs + 1

/-- Whether a tree has a string of its own: it is neither built from strings nor a part of one. With
`cuts`, no selection has one. -/
def sealed (cuts : Bool) : Tree → Bool
  | .const .. | .floating _ | .op .. | .item .. => true
  | .part (.term _) .. => false
  | .part .. => !cuts
  | _ => false

/-- Strings for trees, as long as these are wide, and the truth of conditions, the same for equal
ones. -/
structure Strings (o : Optimizer) where
  string : Tree → List Bit
  truth : Tree → Bool
  /-- Whether a selection from a tree that is no signal is a part of its string, and not a string of
  its own. -/
  cuts : Bool := false
  length_eq : ∀ {t : Tree} {n : Nat}, o.width t = .ok (.int n) → (string t).length = n
  congr : ∀ {c c' : Tree}, c.tame = true → c'.tame = true → c.equal c' = .ok true →
    truth c = truth c'

instance (o : Optimizer) : Inhabited (Strings o) where
  default :=
    { string t := match o.width t with
        | .ok (.int n) => List.replicate n.toNat (some true)
        | _ => []
      truth _ := true
      length_eq h := by simp [h]
      congr _ _ _ := rfl }

/-- The string of bits that a tree stands for. -/
inductive Denotes {o : Optimizer} (ρ : Strings o) : Tree → List Bit → Prop
  | value {v n : Nat} {w : Scalar} {r t : Bool} (hw : o.valueWidth w = .int n) (hv : v < 2 ^ n) :
      Denotes ρ (.value (.int v) w r t) (digits n v)
  | unknown {n : Nat} {w : Scalar} (hw : o.valueWidth w = .int n) :
      Denotes ρ (.unknown w) (List.replicate n none)
  | nil : Denotes ρ (.concat []) []
  | cons {t : Tree} {ts : List Tree} {bs cs : List Bit} (ht : Denotes ρ t bs)
      (hts : Denotes ρ (.concat ts) cs) : Denotes ρ (.concat (t :: ts)) (bs ++ cs)
  | branch {cond yes no : Tree} {bs cs : List Bit} (hfree : cond.delayFree = true)
      (htame : cond.tame = true) (hyes : Denotes ρ yes bs) (hno : Denotes ρ no cs)
      (hlength : bs.length = cs.length) :
      Denotes ρ (.branch cond yes no) (if ρ.truth cond then bs else cs)
  | signal {p : Path} {low : Int} {n : Nat} (hp : p.plain = true) (hdecl : o.Declared p low n) :
      Denotes ρ (.term p) (ρ.string (.term p))
  | part {p : Path} {low m l : Int} {n : Nat} {wm wl : Scalar} {rm rl tm tl : Bool}
      (hp : p.plain = true) (hdecl : o.Declared p low n) (hl : low ≤ l) (hlm : l ≤ m)
      (hm : m < low + n) :
      Denotes ρ (.part (.term p) (.value (.int m) wm rm tm) (.value (.int l) wl rl tl))
        (slice (ρ.string (.term p)) (m - low).toNat (l - low).toNat)
  | cut {t : Tree} {m l : Nat} {bs : List Bit} (hcuts : ρ.cuts = true) (hterm : ∀ p, t ≠ .term p)
      (ht : Denotes ρ t bs) (hlm : l ≤ m) (hm : m < bs.length) :
      Denotes ρ (.part t (.ofInt m) (.ofInt l)) (slice bs m l)
  | other {t : Tree} {n : Nat} (ht : sealed ρ.cuts t = true) (hn : o.width t = .ok (.int n)) :
      Denotes ρ t (ρ.string t)

variable {o : Optimizer} {ρ : Strings o}

theorem fold_value (v w : Scalar) (r t : Bool) :
    o.fold (.value v w r t) = .ok (.value v w r t) := rfl

theorem rangeWidth_eq {msb lsb : Tree} {m l : Int} {wm wl : Scalar} {rm rl tm tl : Bool}
    (hmsb : o.fold msb = .ok (.value (.int m) wm rm tm))
    (hlsb : o.fold lsb = .ok (.value (.int l) wl rl tl)) :
    o.rangeWidth msb lsb = .ok (.int ((m - l).natAbs + 1)) := by
  rw [rangeWidth, hmsb]
  show (o.fold lsb >>= _) = _
  rw [hlsb]
  rfl

theorem Declared.width_eq {p : Path} {low : Int} {n : Nat} (h : o.Declared p low n) :
    o.width (.term p) = .ok (.int n) := by
  obtain ⟨t, m, l, _, _, _, _, _, _, hterm, hmsb, hlsb, -, rfl⟩ := h
  rw [width, hterm]
  exact rangeWidth_eq hmsb hlsb

theorem Denotes.width_eq {t : Tree} {bs : List Bit} (h : Denotes ρ t bs) :
    o.width t = .ok (.int bs.length) := by
  suffices hboth : o.width t = .ok (.int bs.length) ∧ ∀ ts, t = .concat ts → ∀ a : Int,
      o.sumWidth (.int a) ts = .ok (.int (a + bs.length)) from hboth.1
  induction h with
  | value hw hv =>
    refine ⟨?_, nofun⟩
    rw [width, hw, length_digits]
    rfl
  | unknown hw =>
    refine ⟨?_, nofun⟩
    rw [width, hw, length_replicate]
    rfl
  | nil =>
    refine ⟨rfl, ?_⟩
    rintro _ ⟨⟩ a
    simp [sumWidth]
  | @cons t ts bs cs _ _ iht ihts =>
    have hsum (a : Int) : o.sumWidth (.int a) (t :: ts) = .ok (.int (a + (bs ++ cs).length)) := by
      rw [sumWidth, iht.1]
      show o.sumWidth (.int (a + bs.length)) ts = _
      rw [ihts.2 ts rfl, length_append, Int.natCast_add, Int.add_assoc]
    refine ⟨?_, ?_⟩
    · rw [width, hsum, Int.zero_add]
    · rintro _ ⟨⟩
      exact hsum
  | @branch cond _ _ bs cs _ _ _ _ hlength ihyes ihno =>
    have hif : (if ρ.truth cond then bs else cs).length = bs.length := by split <;> simp [hlength]
    refine ⟨?_, nofun⟩
    rw [width, ihyes.1, ihno.1, ← hlength, hif]
    simp [Scalar.gt_int]
  | signal _ hdecl =>
    exact ⟨by rw [ρ.length_eq hdecl.width_eq, hdecl.width_eq], nofun⟩
  | @part p low m l n _ _ _ _ _ _ _ hdecl hl hlm hm =>
    refine ⟨?_, nofun⟩
    have hlength := ρ.length_eq hdecl.width_eq
    rw [width, rangeWidth_eq (fold_value ..) (fold_value ..), length_slice (by omega)]
    congr 2
    omega
  | cut _ _ _ hlm hm =>
    refine ⟨?_, nofun⟩
    simp only [width, Tree.ofInt, Tree.num]
    rw [rangeWidth_eq (fold_value ..) (fold_value ..), length_slice hm]
    congr 2
    omega
  | other ht hn =>
    refine ⟨by rw [ρ.length_eq hn, hn], ?_⟩
    rintro _ rfl
    cases ht

end Optimizer

end RtlFlow
