import Mathlib
import RtlFlow.Proofs.Flow.Joining

/-!
# Cutting bits out of a concatenation

A cut from bit `hi` down to bit `lo` goes through the items of a concatenation from the lowest one
up. It skips the items below `lo`, folds those that it meets, and ends with the one that has bit
`hi`. The two ends of the selection that is left to do are places of the whole concatenation, also
where what is selected from begins above place zero. So the cut is right if it begins at place zero,
stays within the lowest item, or consists of whole items, and not in general.
-/

namespace RtlFlow.Optimizer

open List

variable {o : Optimizer} {ρ : Strings o}

/-! ## Items -/

/-- An item of a concatenation with its string, which folding keeps. The bits of a signal are
counted from zero. -/
structure Piece (ρ : Strings o) where
  tree : Tree
  folded : Tree
  bits : List Bit
  denotes : Denotes ρ tree bits
  fold_tree : o.fold tree = .ok folded
  folded_denotes : Denotes ρ folded bits
  fold_folded : o.fold folded = .ok folded
  from_zero : ∀ p, folded = .term p → ∃ n, o.Declared p 0 n
  length_pos : 0 < bits.length

namespace Piece

def size (xs : List (Piece ρ)) : Nat := (xs.map (·.bits.length)).sum

def bitsOf (xs : List (Piece ρ)) : List Bit := xs.flatMap bits

def foldedOf (xs : List (Piece ρ)) : List Tree := xs.map folded

/-- The widths of items, the lowest one first. -/
def widths (xs : List (Piece ρ)) : List Int := xs.reverse.map fun x => ↑x.bits.length

def entries (xs : List (Piece ρ)) : List (Tree × Int) := xs.map fun x => (x.tree, ↑x.bits.length)

@[simp] theorem size_nil : size ([] : List (Piece ρ)) = 0 := rfl

@[simp] theorem size_cons (x : Piece ρ) (xs : List (Piece ρ)) :
    size (x :: xs) = x.bits.length + size xs := by
  simp [size]

@[simp] theorem size_reverse (xs : List (Piece ρ)) : size xs.reverse = size xs := by
  simp [size]

theorem length_bitsOf (xs : List (Piece ρ)) : (bitsOf xs).length = size xs := by
  simp [bitsOf, size]

theorem concat_denotes (xs : List (Piece ρ)) :
    Denotes ρ (.concat (foldedOf xs)) (bitsOf xs) := by
  induction xs with
  | nil => exact .nil
  | cons x xs ih => exact .cons x.folded_denotes ih

/-- A signal that is no constant. -/
def ofSignal {p : Path} {n : Nat} (hp : p.plain = true) (hconst : o.consts.get? p = none)
    (hdecl : o.Declared p 0 n) (hn : 0 < n) : Piece ρ :=
  have hfold : o.fold (.term p) = .ok (.term p) := by
    show o.foldTerm _ p = _
    rw [foldTerm, hconst]
    rfl
  { tree := .term p, folded := .term p, bits := ρ.string (.term p), denotes := .signal hp hdecl,
    fold_tree := hfold, folded_denotes := .signal hp hdecl, fold_folded := hfold
    from_zero := by
      rintro _ ⟨⟩
      exact ⟨n, hdecl⟩
    length_pos := by rwa [ρ.length_eq hdecl.width_eq] }

def ofNat {v n : Nat} (hv : v < 2 ^ n) (hn : 0 < n) : Piece ρ where
  tree := .num (.int v) (.int n)
  folded := .num (.int v) (.int n)
  bits := digits n v
  denotes := denotes_num hv
  fold_tree := rfl
  folded_denotes := denotes_num hv
  fold_folded := rfl
  from_zero := nofun
  length_pos := by rwa [length_digits]

end Piece

/-! ## Selections from an item -/

theorem Denotes.of_term {p : Path} {bs : List Bit} (h : Denotes ρ (.term p) bs) :
    p.plain = true ∧ bs = ρ.string (.term p) := by
  cases h with
  | signal hp => exact ⟨hp, rfl⟩
  | other hs => cases hs

theorem Denotes.of_value {v w : Scalar} {r s : Bool} {bs : List Bit}
    (h : Denotes ρ (.value v w r s) bs) :
    ∃ a n : Nat, v = .int a ∧ bs = digits n a := by
  cases h with
  | @value a n => exact ⟨a, n, rfl, rfl⟩
  | other hs => cases hs

theorem pow_two_nat (n : Nat) : (Scalar.int 2).pow (.int n) = .ok (.int ↑(2 ^ n : Nat)) := by
  have hneg : ¬ (n : Int) < 0 := by omega
  simp [Scalar.pow, Scalar.arith, Scalar.int?, hneg]

theorem mod_nat (a : Nat) {n : Nat} (hn : 0 < n) :
    (Scalar.int a).mod (.int n) = .ok (.int ↑(a % n : Nat)) := by
  have hne : n ≠ 0 := by omega
  simp [Scalar.mod, Scalar.arith, Scalar.int?, hne, Int.fmod_eq_emod_of_nonneg]

theorem evalPart_low (v m : Nat) : evalPart (.int v) (.int m) (.int 0) =
    .ok (.num (.int ↑(v % 2 ^ (m + 1) : Nat)) (.int ↑(m + 1))) := by
  have hwidth : (Scalar.int m).sub (.int 0) >>= (·.add (.int 1)) = .ok (.int ↑(m + 1)) := by
    show Except.ok (Scalar.int (↑m - 0 + 1)) = _
    simp
  have hlow : (Scalar.int v).shiftRight (.int 0) = .ok (.int v) := by
    simp [Scalar.shiftRight, Scalar.twoInts, Scalar.int?]
  rw [evalPart, ← bind_assoc, hwidth]
  simp only [hlow, pow_two_nat, Scalar.ge_int, ok_bind]
  by_cases hge : 2 ^ (m + 1) ≤ v
  · have hge' : (↑(2 ^ (m + 1) : Nat) : Int) ≤ v := Int.ofNat_le.mpr hge
    rw [decide_eq_true hge', if_pos rfl, mod_nat v (Nat.two_pow_pos _)]
    rfl
  · have hge' : ¬ (↑(2 ^ (m + 1) : Nat) : Int) ≤ v := fun h => hge (Int.ofNat_le.mp h)
    rw [decide_eq_false hge', if_neg Bool.false_ne_true, Nat.mod_eq_of_lt (Nat.lt_of_not_le hge)]
    rfl

theorem fold_part_of_fixed {t : Tree} {m l : Int} (ht : o.fold t = .ok t)
    (hvalue : t.isValue = false) :
    o.fold (.part t (.ofInt m) (.ofInt l)) = .ok (.part t (.ofInt m) (.ofInt l)) := by
  show (o.fold t >>= _) = _
  rw [ht]
  cases t <;> first | rfl | cases hvalue

namespace Piece

theorem part_denotes (hcuts : ρ.cuts = true) (x : Piece ρ) {m l : Nat} (hlm : l ≤ m)
    (hm : m < x.bits.length) :
    Denotes ρ (.part x.folded (.ofInt m) (.ofInt l)) (slice x.bits m l) := by
  by_cases hterm : ∃ p, x.folded = .term p
  · obtain ⟨p, hp⟩ := hterm
    obtain ⟨n, hdecl⟩ := x.from_zero p hp
    obtain ⟨hplain, hbits⟩ := (hp ▸ x.folded_denotes).of_term
    have hlength : x.bits.length = n := by rw [hbits, ρ.length_eq hdecl.width_eq]
    have hpart : Denotes ρ (.part (.term p) (.ofInt m) (.ofInt l)) _ :=
      .part hplain hdecl (Int.natCast_nonneg l) (by omega) (by omega)
    rwa [hp, hbits]
  · exact .cut hcuts (fun p hp => hterm ⟨p, hp⟩) x.folded_denotes hlm hm

theorem fold_part (hcuts : ρ.cuts = true) (x : Piece ρ) {m : Nat} (hm : m < x.bits.length) :
    Yields (fun u => Denotes ρ u (slice x.bits m 0))
      (o.fold (.part x.folded (.ofInt m) (.ofInt 0))) := by
  cases hvalue : x.folded.isValue with
  | false =>
    rw [fold_part_of_fixed x.fold_folded hvalue]
    exact .pure (x.part_denotes hcuts (Nat.zero_le m) hm)
  | true =>
    have hdenotes := x.folded_denotes
    generalize x.folded = t at hvalue hdenotes
    cases t with
    | value v w r s =>
      obtain ⟨a, n, rfl, hbits⟩ := hdenotes.of_value
      rw [hbits, length_digits] at hm
      show Yields _ (evalPart (.int a) (.int m) (.int 0))
      rw [evalPart_low, hbits, slice_digits a hm]
      exact .pure (denotes_num (Nat.mod_lt _ (Nat.two_pow_pos _)))
    | _ => cases hvalue

end Piece

/-! ## The items that a cut meets -/

open Piece

/-- The low end of a cut is found: either below `offset`, or in the next `n` bits, at `found`. -/
def Cut.Meets (c : Cut) (lo offset n : Nat) (found : Int × Int) : Prop :=
  c.low = some found ∧ lo < offset ∨
    c.low = none ∧ offset ≤ lo ∧ lo < offset + n ∧ found = (↑offset, (lo : Int) - offset)

theorem cut_cons {lo hi offset : Nat} {c : Cut} {found : Int × Int} {x : Piece ρ}
    {xs : List (Piece ρ)} (h : c.Meets lo offset x.bits.length found) (hhi : offset ≤ hi) :
    o.cut lo hi offset c (entries (x :: xs)) =
      let c' : Cut := { c with
        used := x.folded :: c.used, total := c.total + x.bits.length, low := some found }
      if hi < offset + x.bits.length then
        .ok { c' with high := some (↑(offset + x.bits.length) - 1,
          ↑(offset + x.bits.length) - 1 - hi) }
      else o.cut lo hi ↑(offset + x.bits.length) c' (entries xs) := by
  have hlow : (if (offset : Int) ≤ lo && (lo : Int) < offset + x.bits.length then
      { c with low := some (↑offset, (lo : Int) - offset) } else c) =
      { c with low := some found } := by
    rcases h with ⟨hc, hlt⟩ | ⟨hc, hle, hlt, rfl⟩
    · rw [if_neg (by simp; omega), ← hc]
    · rw [if_pos (by simp; omega)]
  have hhigh : (decide ((offset : Int) ≤ hi) && decide ((hi : Int) < offset + x.bits.length)) =
      decide (hi < offset + x.bits.length) := by
    simp [hhi]
    omega
  show o.cut lo hi offset c ((x.tree, ↑x.bits.length) :: entries xs) = _
  rw [cut]
  simp only [hlow, hhigh, x.fold_tree, Option.isSome_some, if_true, decide_eq_true_eq,
    Int.natCast_add, ok_bind, pure_eq]

theorem cut_skip {lo hi : Nat} (hle : lo ≤ hi) (xs : List (Piece ρ)) {zs : List (Piece ρ)}
    {offset : Nat} (h : offset + size zs ≤ lo) :
    o.cut lo hi offset {} (entries (zs ++ xs)) =
      o.cut lo hi ↑(offset + size zs) {} (entries xs) := by
  induction zs generalizing offset with
  | nil => rfl
  | cons z zs ih =>
    rw [size_cons, ← Nat.add_assoc] at h ⊢
    have hlow : (decide ((offset : Int) ≤ lo) && decide ((lo : Int) < offset + z.bits.length)) =
        false := by
      simp
      omega
    have hhigh : (decide ((offset : Int) ≤ hi) && decide ((hi : Int) < offset + z.bits.length)) =
        false := by
      simp
      omega
    show o.cut lo hi offset {} ((z.tree, ↑z.bits.length) :: entries (zs ++ xs)) = _
    rw [cut, ← ih h]
    simp only [hlow, hhigh, Bool.false_eq_true, if_false, Option.isSome_none, pure_bind,
      Int.natCast_add]

theorem cut_used {lo hi : Nat} {found : Int × Int} (xs : List (Piece ρ)) {ws : List (Piece ρ)}
    {offset : Nat} {c : Cut} (hlow : ∀ w ∈ ws.head?, c.Meets lo offset w.bits.length found)
    (hhi : offset + size ws.dropLast ≤ hi) (hhi' : hi < offset + size ws) :
    ∃ c', o.cut lo hi offset c (entries (ws ++ xs)) = .ok c' ∧
      c'.used = (foldedOf ws).reverse ++ c.used ∧ c'.low = some found ∧
      c'.high = some (((offset + size ws : Nat) : Int) - 1,
        ((offset + size ws : Nat) : Int) - 1 - hi) := by
  induction ws generalizing offset c with
  | nil => exact absurd hhi' (by simpa using hhi)
  | cons w ws ih =>
    have hmeets := hlow w rfl
    rw [cons_append, cut_cons hmeets (by omega)]
    cases ws with
    | nil =>
      rw [size_cons, size_nil, Nat.add_zero] at hhi' ⊢
      rw [if_pos hhi']
      exact ⟨_, rfl, rfl, rfl, rfl⟩
    | cons v ws =>
      rw [dropLast_cons_cons, size_cons, ← Nat.add_assoc] at hhi
      rw [size_cons, ← Nat.add_assoc] at hhi' ⊢
      rw [if_neg (by omega)]
      have hnext : ∀ u ∈ (v :: ws).head?, Cut.Meets { c with
          used := w.folded :: c.used, total := c.total + w.bits.length, low := some found }
          lo (offset + w.bits.length) u.bits.length found := by
        intro u _
        refine .inl ⟨rfl, ?_⟩
        rcases hmeets with ⟨-, h⟩ | ⟨-, -, h, -⟩ <;> omega
      obtain ⟨c', hcut, hused, hends⟩ := ih hnext hhi hhi'
      refine ⟨c', hcut, ?_, hends⟩
      rw [hused]
      simp [foldedOf]

theorem cut_spec {lo hi : Nat} (as : List (Piece ρ)) {ws zs : List (Piece ρ)}
    (hlo : size zs ≤ lo) (hlo' : ∀ w ∈ ws.getLast?, lo < size zs + w.bits.length) (hle : lo ≤ hi)
    (hhi : size zs + size ws.tail ≤ hi) (hhi' : hi < size zs + size ws) :
    ∃ c, o.cut lo hi 0 {} (entries (as ++ ws ++ zs).reverse) = .ok c ∧ c.used = foldedOf ws ∧
      c.low = some (↑(size zs), (lo : Int) - size zs) ∧
      c.high = some (((size zs + size ws : Nat) : Int) - 1,
        ((size zs + size ws : Nat) : Int) - 1 - hi) := by
  have hskip := @cut_skip o ρ lo hi hle (ws.reverse ++ as.reverse) zs.reverse 0
  rw [size_reverse, Nat.zero_add] at hskip
  have hused := @cut_used o ρ lo hi (↑(size zs), (lo : Int) - size zs) as.reverse ws.reverse
    (size zs) {}
  simp only [dropLast_reverse, size_reverse, List.head?_reverse] at hused
  obtain ⟨c, hcut, hused, hends⟩ := hused (fun w hw => .inr ⟨rfl, hlo, hlo' w hw, rfl⟩) hhi hhi'
  refine ⟨c, ?_, ?_, hends⟩
  · rw [reverse_append, reverse_append]
    exact (hskip hlo).trans hcut
  · rw [hused]
    simp [foldedOf]

/-! ## The selection that is left to do -/

theorem mapM_width (xs : List (Piece ρ)) :
    (xs.map tree).mapM o.width = .ok (xs.map fun x => .int x.bits.length) := by
  rw [mapM_map]
  exact mapM_eq_ok_map fun x _ => x.denotes.width_eq

theorem mapM_toInt (ns : List Int) : (ns.map Scalar.int).mapM Scalar.toInt = .ok ns := by
  rw [mapM_map]
  exact (mapM_eq_ok_map fun n _ => rfl).trans (congrArg _ (map_id ns))

theorem takePart_eq (xs : List (Piece ρ)) {hi lo : Nat} (hle : lo ≤ hi) :
    o.takePart (xs.map tree) (.int hi) (.int lo) =
      o.takeBits (xs.map tree) (widths xs) lo hi := by
  have hwidths : xs.reverse.map (fun x => Scalar.int x.bits.length) = (widths xs).map .int := by
    simp [widths]
  have hmin : min (hi : Int) lo = lo := by omega
  have hmax : max (hi : Int) lo = hi := by omega
  rw [takePart, ← map_reverse, mapM_width, hwidths]
  show ((widths xs).map Scalar.int).mapM Scalar.toInt >>= _ = _
  rw [mapM_toInt]
  show o.takeBits _ _ (min (hi : Int) lo) (max (hi : Int) lo) = _
  rw [hmin, hmax]

theorem takePart_cut {lo hi : Nat} (as : List (Piece ρ)) {ws zs : List (Piece ρ)}
    (hlo : size zs ≤ lo) (hlo' : ∀ w ∈ ws.getLast?, lo < size zs + w.bits.length) (hle : lo ≤ hi)
    (hhi : size zs + size ws.tail ≤ hi) (hhi' : hi < size zs + size ws) :
    o.takePart ((as ++ ws ++ zs).map tree) (.int hi) (.int lo) =
      if lo = size zs ∧ hi + 1 = size zs + size ws then .ok (concatOrOne (foldedOf ws))
      else match foldedOf ws with
        | [t] => .ok (.part t (.ofInt hi) (.ofInt lo))
        | used => do
          let kept ← o.trim (widths (as ++ ws ++ zs)) (lo - size zs) (size zs + size ws - 1 - hi)
            (used.length - 1) 0 used.reverse
          return .part (.concat kept.reverse) (.ofInt hi) (.ofInt lo) := by
  obtain ⟨c, hcut, hused, hlow, hhigh⟩ := cut_spec as hlo hlo' hle hhi hhi'
  have hzip : ((as ++ ws ++ zs).map tree).reverse.zip (widths (as ++ ws ++ zs)) =
      entries (as ++ ws ++ zs).reverse := by
    rw [← map_reverse, widths, zip_map', entries]
  rw [takePart_eq _ hle, takeBits, hzip, hcut]
  have hmsb : ((size zs + size ws : Nat) : Int) - 1 - (((size zs + size ws : Nat) : Int) - 1 - hi) =
      hi := by omega
  have hlsb : (size zs : Int) + ((lo : Int) - size zs) = lo := by omega
  have hwhole : (decide ((lo : Int) - size zs = 0) &&
      decide (((size zs + size ws : Nat) : Int) - 1 - hi = 0)) =
      decide (lo = size zs ∧ hi + 1 = size zs + size ws) := by
    rw [← Bool.decide_and]
    exact decide_eq_decide.mpr (by omega)
  simp only [hlow, hhigh, hused, hmsb, hlsb, hwhole, decide_eq_true_eq, ok_bind]
  rfl

theorem exists_top {hi : Nat} {xs : List (Piece ρ)} (h : hi < size xs) :
    ∃ as x ms, xs = as ++ x :: ms ∧ size ms ≤ hi ∧ hi < x.bits.length + size ms := by
  induction xs with
  | nil => exact absurd h (Nat.not_lt_zero hi)
  | cons x xs ih =>
    by_cases hxs : hi < size xs
    · obtain ⟨as, y, ms, rfl, hms, hy⟩ := ih hxs
      exact ⟨x :: as, y, ms, rfl, hms, hy⟩
    · rw [size_cons] at h
      exact ⟨[], x, xs, rfl, by omega, h⟩

theorem trim_yields (hcuts : ρ.cuts = true) {top : Piece ρ} {k : Nat}
    (hk : k + 1 < top.bits.length) {ns ps : List Int} {ms : List (Piece ρ)} {i : Nat}
    (hns : ns.drop i = ms.map (fun m => (m.bits.length : Int)) ++ (top.bits.length : Int) :: ps) :
    Yields (fun ts => ∃ t, ts = foldedOf ms ++ [t] ∧ Denotes ρ t (slice top.bits k 0))
      (o.trim ns 0 (top.bits.length - 1 - k) (i + ms.length) i (foldedOf ms ++ [top.folded])) := by
  induction ms generalizing i with
  | nil =>
    have hwidth : ns[i]? = some (top.bits.length : Int) := by
      rw [← Nat.add_zero i, ← List.getElem?_drop, hns]
      rfl
    have hend : (top.bits.length : Int) - (top.bits.length - 1 - k) - 1 = k := by omega
    have hpos : (top.bits.length : Int) - 1 - k > 0 := by omega
    show Yields _ (o.trim ns 0 (top.bits.length - 1 - k) i i [top.folded])
    rw [trim, element, hwidth, orThrow_some, ok_bind]
    simp only [gt_iff_lt, Int.lt_irrefl, decide_false, Bool.and_false,
      Bool.false_eq_true, if_false, hpos, decide_true, Bool.and_self, if_true, hend]
    refine (top.fold_part hcuts (by omega)).bind fun t ht => ?_
    exact .pure ⟨t, rfl, ht⟩
  | cons m ms ih =>
    have hwidth : ns[i]? = some (m.bits.length : Int) := by
      rw [← Nat.add_zero i, ← List.getElem?_drop, hns]
      rfl
    have hrest : ns.drop (i + 1) =
        ms.map (fun m => (m.bits.length : Int)) ++ (top.bits.length : Int) :: ps := by
      rw [← drop_drop, hns]
      rfl
    have hlast : ¬ i = i + (m :: ms).length := by simp
    have htail := ih hrest
    show Yields _ (o.trim ns 0 _ _ i (m.folded :: (foldedOf ms ++ [top.folded])))
    rw [trim, element, hwidth, orThrow_some, ok_bind]
    simp only [gt_iff_lt, Int.lt_irrefl, decide_false, Bool.and_false,
      Bool.false_eq_true, if_false, hlast, Bool.false_and, m.fold_folded]
    rw [length_cons, ← Nat.add_assoc, Nat.add_right_comm]
    refine htail.bind fun ts hts => ?_
    obtain ⟨t, rfl, ht⟩ := hts
    exact .pure ⟨t, rfl, ht⟩

/-! ## Cuts that are right -/

namespace Piece

/-- A cut that begins at place zero, stays within the lowest item, or consists of whole items. -/
inductive Apt (hi lo : Nat) : List (Piece ρ) → Prop
  | zero (xs : List (Piece ρ)) (h : lo = 0) : Apt hi lo xs
  | lowest (as : List (Piece ρ)) (x : Piece ρ) (h : hi < x.bits.length) : Apt hi lo (as ++ [x])
  | whole (as ws zs : List (Piece ρ)) (hlo : lo = size zs) (hhi : hi + 1 = size zs + size ws) :
      Apt hi lo (as ++ ws ++ zs)

theorem bitsOf_append (xs ys : List (Piece ρ)) : bitsOf (xs ++ ys) = bitsOf xs ++ bitsOf ys :=
  flatMap_append

end Piece

section

variable {hi lo : Nat}

theorem takePart_lowest (hcuts : ρ.cuts = true) (as : List (Piece ρ)) {x : Piece ρ} (hle : lo ≤ hi)
    (h : hi < x.bits.length) :
    Yields (fun u => Denotes ρ u (slice (bitsOf (as ++ [x])) hi lo))
      (o.takePart ((as ++ [x]).map tree) (.int hi) (.int lo)) := by
  have hbits : slice (bitsOf (as ++ [x])) hi lo = slice x.bits hi lo := by
    rw [bitsOf_append, slice_append_right _ (by simpa [bitsOf] using h)]
    simp [bitsOf]
  have hcut := @takePart_cut o ρ lo hi as [x] [] (Nat.zero_le lo) (by simp; omega) hle
    (Nat.zero_le hi) (by simpa using h)
  rw [append_nil] at hcut
  rw [hcut, hbits]
  split
  · next hwhole =>
    have hall : slice x.bits hi lo = x.bits := by
      rw [hwhole.1]
      exact slice_all (by simpa using hwhole.2)
    rw [hall]
    exact .pure x.folded_denotes
  · exact .pure (x.part_denotes hcuts hle h)

theorem takePart_whole (as : List (Piece ρ)) {ws zs : List (Piece ρ)} (hle : lo ≤ hi)
    (hlo : lo = size zs) (hhi : hi + 1 = size zs + size ws) :
    Yields (fun u => Denotes ρ u (slice (bitsOf (as ++ ws ++ zs)) hi lo))
      (o.takePart ((as ++ ws ++ zs).map tree) (.int hi) (.int lo)) := by
  have htail : size zs + size ws.tail ≤ hi := by
    cases ws with
    | nil => exact absurd hhi (by simp; omega)
    | cons w ws =>
      have := w.length_pos
      simp at hhi ⊢
      omega
  have hlast : ∀ w ∈ ws.getLast?, lo < size zs + w.bits.length := by
    intro w _
    have := w.length_pos
    omega
  have hbits : slice (bitsOf (as ++ ws ++ zs)) hi lo = bitsOf ws := by
    rw [bitsOf_append, bitsOf_append]
    exact slice_of_append _ _ _ (by rw [hlo, length_bitsOf])
      (by rw [hhi, length_bitsOf, length_bitsOf, Nat.add_comm])
  rw [takePart_cut as (by omega) hlast hle htail (by omega), if_pos ⟨hlo, hhi⟩, hbits]
  exact .pure (concat_denotes ws).concatOrOne

theorem takePart_trimmed (hcuts : ρ.cuts = true) (as : List (Piece ρ)) {top m : Piece ρ}
    {ms : List (Piece ρ)} {k : Nat} (hk : k + 1 < top.bits.length) (hhi : hi = k + size (m :: ms)) :
    Yields (fun u => Denotes ρ u (slice (bitsOf (as ++ top :: m :: ms)) hi 0))
      (o.takePart ((as ++ top :: m :: ms).map tree) (.int hi) (.int ↑(0 : Nat))) := by
  have hsize : size (top :: m :: ms) = top.bits.length + size (m :: ms) := size_cons ..
  have hbits : slice (bitsOf (as ++ top :: m :: ms)) hi 0 =
      slice top.bits k 0 ++ bitsOf (m :: ms) := by
    have hcons : bitsOf (top :: m :: ms) = top.bits ++ bitsOf (m :: ms) := flatMap_cons
    rw [bitsOf_append, slice_append_right _ (by rw [length_bitsOf]; omega), hcons, hhi,
      ← length_bitsOf, slice_append_left _ (by omega)]
  have hlast : ∀ w ∈ (top :: m :: ms).getLast?, 0 < size ([] : List (Piece ρ)) + w.bits.length :=
    fun w _ => by simpa using w.length_pos
  have hcut := @takePart_cut o ρ 0 hi as (top :: m :: ms) [] (Nat.le_refl 0) hlast (Nat.zero_le hi)
    (by rw [size_nil, tail_cons]; omega) (by rw [size_nil]; omega)
  rw [append_nil, if_neg (by rw [size_nil]; omega)] at hcut
  have hlow : ((0 : Nat) : Int) - (size ([] : List (Piece ρ)) : Int) = 0 := rfl
  have hhigh : (size ([] : List (Piece ρ)) : Int) + size (top :: m :: ms) - 1 - hi =
      top.bits.length - 1 - k := by
    rw [size_nil]
    omega
  rw [hcut, hbits, hlow, hhigh]
  have htrim := @trim_yields o ρ hcuts top k hk (widths (as ++ top :: m :: ms)) (widths as)
    (m :: ms).reverse 0 (by simp [widths])
  have hlength : (foldedOf (top :: m :: ms)).length - 1 = 0 + (m :: ms).reverse.length := by
    simp [foldedOf]
  have hreverse : (foldedOf (top :: m :: ms)).reverse =
      foldedOf (m :: ms).reverse ++ [top.folded] := by
    simp [foldedOf]
  show Yields _ (o.trim _ 0 _ ((foldedOf (top :: m :: ms)).length - 1) 0
    (foldedOf (top :: m :: ms)).reverse >>= _)
  rw [hlength, hreverse]
  refine htrim.bind fun ts hts => ?_
  obtain ⟨t, rfl, ht⟩ := hts
  have hkept : (foldedOf (m :: ms).reverse ++ [t]).reverse = t :: foldedOf (m :: ms) := by
    simp [foldedOf]
  have hall : hi + 1 = (slice top.bits k 0 ++ bitsOf (m :: ms)).length := by
    rw [length_append, length_slice (by omega), length_bitsOf]
    omega
  have hdenotes : Denotes ρ (.concat (t :: foldedOf (m :: ms))) _ := .cons ht (concat_denotes _)
  have hpart : Denotes ρ (.part (.concat (t :: foldedOf (m :: ms))) (.ofInt hi)
      (.ofInt ↑(0 : Nat))) _ :=
    .cut hcuts nofun hdenotes (Nat.zero_le hi) (by omega)
  rw [slice_all hall] at hpart
  rw [hkept]
  exact .pure hpart

theorem takePart_zero (hcuts : ρ.cuts = true) {xs : List (Piece ρ)} (h : hi < size xs) :
    Yields (fun u => Denotes ρ u (slice (bitsOf xs) hi 0))
      (o.takePart (xs.map tree) (.int hi) (.int ↑(0 : Nat))) := by
  obtain ⟨as, top, ms, rfl, hms, htop⟩ := exists_top h
  cases ms with
  | nil => exact takePart_lowest hcuts as (Nat.zero_le hi) (by simpa using htop)
  | cons m ms =>
    by_cases hwhole : hi + 1 = size (top :: m :: ms)
    · have hall := @takePart_whole o ρ hi 0 as (top :: m :: ms) [] (Nat.zero_le hi) rfl
        (by simpa using hwhole)
      rwa [append_nil] at hall
    · rw [size_cons] at hwhole
      exact @takePart_trimmed o ρ hi hcuts as top m ms (hi - size (m :: ms)) (by omega) (by omega)

end

theorem takePart_denotes (hcuts : ρ.cuts = true) {xs : List (Piece ρ)} {hi lo : Nat} (hle : lo ≤ hi)
    (hhi : hi < size xs) (h : Apt hi lo xs) :
    Yields (fun u => Denotes ρ u (slice (bitsOf xs) hi lo))
      (o.takePart (xs.map tree) (.int hi) (.int lo)) := by
  cases h with
  | zero _ hlo =>
    subst hlo
    exact takePart_zero hcuts hhi
  | lowest as x hx => exact takePart_lowest hcuts as hle hx
  | whole as ws zs hlo hend => exact takePart_whole as hle hlo hend

theorem takePart_denotes_low_bits :
    let items : List Tree :=
      [.term (byteSignal "a"), .num (.int 171) (.int 8), .term (byteSignal "b")]
    ∃ (ρ : Strings twoBytes) (xs : List (Piece ρ)), ρ.cuts = true ∧ xs.map tree = items ∧
      Apt 11 0 xs ∧ Yields (fun u => Denotes ρ u (slice (bitsOf xs) 11 0))
        (twoBytes.takePart items (.int 11) (.int 0)) := by
  intro items
  let ρ : Strings twoBytes := { (default : Strings twoBytes) with cuts := true }
  let x : Piece ρ := .ofSignal rfl rfl (declared_twoBytes (.inl rfl)) (by decide)
  let y : Piece ρ := .ofNat (show 171 < 2 ^ 8 by decide) (by decide)
  let z : Piece ρ := .ofSignal rfl rfl (declared_twoBytes (.inr rfl)) (by decide)
  have hapt : Apt 11 0 [x, y, z] := .zero _ rfl
  have hsize : 11 < size [x, y, z] := show 11 < 24 by decide
  exact ⟨ρ, [x, y, z], rfl, rfl, hapt, takePart_denotes rfl (Nat.zero_le 11) hsize hapt⟩

/-- A cut within the upper one of two items selects from it at places that it does not have. -/
theorem takePart_shifted :
    let cut : Tree := .part (.term (byteSignal "a")) (.ofInt 14) (.ofInt 9)
    twoBytes.takePart [.term (byteSignal "a"), .term (byteSignal "b")] (.int 14) (.int 9) = .ok cut ∧
      ∀ (ρ : Strings twoBytes) (bs : List Bit), ¬ Denotes ρ cut bs := by
  refine ⟨rfl, fun ρ bs h => ?_⟩
  cases h with
  | part _ hdecl _ _ hm =>
    obtain ⟨rfl, rfl⟩ := (declared_twoBytes (.inl rfl)).unique hdecl
    exact absurd hm (by decide)
  | cut _ hterm => exact hterm _ rfl
  | other hs => cases hs

end RtlFlow.Optimizer
