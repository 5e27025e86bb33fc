import Mathlib
import RtlFlow.Design.Assignment
import RtlFlow.Proofs.Flow.Meaning

/-!
# The destinations of an assignment

If a left side has several destinations, each of them takes a slice of the right side. The slices
are as wide as the destinations. They lie one above the other, from the destination that is written
last to the one that is written first, and no bit of the right side is left out or taken twice.
-/

namespace RtlFlow.Design

open List

open RtlFlow.Tree Stage

variable {I : Interp Int} {range : Destination → Int × Int} {start k : Int} {d d' : Destination}
  {ds ds' : List Destination} {width : Option Path → Result (Tree × Tree)} {offset : Tree}

/-! ## The destinations that are written -/

mutual

/-- The names and selections of a left side, from the left to the right, however deep they lie in
concatenations. -/
def leaves : Ast → List Ast
  | .node .lvalue _ [var] => leaves var
  | .node .leftConcat _ [.seq items] => allLeaves items
  | .node .concat _ [.seq items] => allLeaves items
  | t => [t]

def allLeaves : List Ast → List Ast
  | [] => []
  | t :: ts => leaves t ++ allLeaves ts

end

variable {e : Engine} {scope : Path} {left : Ast} {s s' : Stage}

/-- A destination with its range: the one that is written, or else the one that is declared. -/
structure Ranged (width : Option Path → Result (Tree × Tree)) (d d' : Destination) : Prop where
  name : d'.name = d.name
  ptr : d'.ptr = d.ptr
  range : (if d.msb.isHole && d.lsb.isHole then width d.name else pure (d.msb, d.lsb)) =
    .ok (d'.msb, d'.lsb)

/-- The ends of the range of a destination are numbers, the high end first. -/
structure HasRange (I : Interp Int) (d : Destination) (r : Int × Int) : Prop where
  msb : I.meaning d.msb = some r.1
  lsb : I.meaning d.lsb = some r.2
  le : r.2 ≤ r.1

/-- The ends of the slice that a destination takes, the low end first. -/
structure HasSlice (I : Interp Int) (d : Destination) (low high : Int) : Prop where
  msb : I.meaning d.partMsb = some high
  lsb : I.meaning d.partLsb = some low

def bitCount (range : Destination → Int × Int) (d : Destination) : Int :=
  (range d).1 - (range d).2 + 1

/-- Destinations that take slices one above the other, from a bit on. -/
structure Tiles (I : Interp Int) (range : Destination → Int × Int) (start : Int)
    (ds : List Destination) : Prop where
  slice : ∀ d ∈ ds, ∃ low, HasSlice I d low (low + ((range d).1 - (range d).2))
  apart : ds.Pairwise fun d d' =>
    ∀ low high low' high', HasSlice I d low high → HasSlice I d' low' high' → high < low'
  cover : ∀ k, (start ≤ k ∧ k < start + (ds.map (bitCount range)).sum) ↔
    ∃ d ∈ ds, ∃ low high, HasSlice I d low high ∧ low ≤ k ∧ k ≤ high

theorem HasSlice.eq {low high low' high' : Int} (h : HasSlice I d low high)
    (h' : HasSlice I d low' high') : low = low' ∧ high = high' :=
  ⟨Option.some.inj (h.lsb.symm.trans h'.lsb), Option.some.inj (h.msb.symm.trans h'.msb)⟩

theorem bitCount_sum_nonneg (hds : ∀ d ∈ ds, HasRange I d (range d)) :
    0 ≤ (ds.map (bitCount range)).sum := by
  refine sum_nonneg fun n hn => ?_
  obtain ⟨d, hd, rfl⟩ := mem_map.mp hn
  have hle := (hds d hd).le
  rw [bitCount]
  omega

theorem Tiles.cons (hd : HasRange I d (range d)) (hds : ∀ d ∈ ds, HasRange I d (range d))
    (hslice : HasSlice I d start (start + ((range d).1 - (range d).2)))
    (h : Tiles I range (start + bitCount range d) ds) : Tiles I range start (d :: ds) where
  slice := forall_mem_cons.mpr ⟨⟨start, hslice⟩, h.slice⟩
  apart := by
    refine pairwise_cons.mpr ⟨fun d' hd' low high low' high' hlow hhigh => ?_, h.apart⟩
    obtain ⟨-, rfl⟩ := hslice.eq hlow
    obtain ⟨low'', hslice'⟩ := h.slice d' hd'
    obtain ⟨rfl, rfl⟩ := hslice'.eq hhigh
    -- The low end of the slice above is one of the bits from the next one on.
    have hbit := (h.cover low'').mpr ⟨d', hd', _, _, hslice', le_rfl, by have := (hds d' hd').le; omega⟩
    simp only [bitCount] at hbit
    omega
  cover k := by
    have hmore := h.cover k
    have hle := hd.le
    rw [map_cons, sum_cons]
    constructor
    · intro hk
      by_cases hhere : k ≤ start + ((range d).1 - (range d).2)
      · exact ⟨d, mem_cons_self, _, _, hslice, hk.1, hhere⟩
      · obtain ⟨d', hd', hrest⟩ := hmore.mp (by simp only [bitCount] at hk ⊢; omega)
        exact ⟨d', mem_cons_of_mem _ hd', hrest⟩
    · rintro ⟨d', hd', low, high, hslice', hlow, hhigh⟩
      rcases mem_cons.mp hd' with rfl | hd'
      · obtain ⟨rfl, rfl⟩ := hslice.eq hslice'
        have hsum := bitCount_sum_nonneg hds
        simp only [bitCount] at hsum ⊢
        omega
      · have hbit := hmore.mpr ⟨d', hd', low, high, hslice', hlow, hhigh⟩
        simp only [bitCount] at hbit ⊢
        omega

end RtlFlow.Design
