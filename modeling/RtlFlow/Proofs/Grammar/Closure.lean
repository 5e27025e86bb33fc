import Mathlib
import RtlFlow.Grammar.Automaton

/-!
# Closures of lists of items

The closure of a kernel has the items of the kernel and, for every symbol behind the point of one of
its items, the items of the rules of that symbol.
-/

namespace RtlFlow.Grammar

open List

variable {s : Nat} {items : List Item}

/-! ## Items -/

namespace Item

variable {i : Item} {s : Nat}

theorem advance?_eq_some {j : Item} :
    i.advance? s = some j ↔
      ∃ rest, i.rest = s :: rest ∧ j = { i with seen := s :: i.seen, rest } := by
  unfold advance?
  cases h : i.rest with
  | nil => simp
  | cons x rest =>
    by_cases hx : x = s
    · subst hx
      simp [eq_comm]
    · simp [hx]

theorem next?_eq_some : i.next? = some s ↔ ∃ rest, i.rest = s :: rest := by
  unfold next?
  cases h : i.rest <;> simp [eq_comm]

theorem next?_eq_none : i.next? = none ↔ i.rest = [] := by
  simp [next?]

def Of (g : Indexed) (i : Item) : Prop :=
  i.rule < g.rules.size ∧ i.left = (g.rule i.rule).left ∧
    i.seen.reverse ++ i.rest = (g.rule i.rule).right

theorem Of.advance {g : Indexed} {j : Item} (hi : i.Of g) (h : i.advance? s = some j) : j.Of g := by
  obtain ⟨rest, hrest, rfl⟩ := advance?_eq_some.mp h
  refine ⟨hi.1, hi.2.1, ?_⟩
  rw [← hi.2.2, hrest]
  simp

end Item

theorem mem_successors {j : Item} :
    j ∈ successors s items ↔ ∃ i ∈ items, i.advance? s = some j := by
  simp [successors]

theorem successors_ne_nil {i : Item} (hi : i ∈ items) (hs : i.next? = some s) :
    successors s items ≠ [] := by
  obtain ⟨rest, hrest⟩ := Item.next?_eq_some.mp hs
  have hadv : i.advance? s = some { i with seen := s :: i.seen, rest } :=
    Item.advance?_eq_some.mpr ⟨rest, hrest, rfl⟩
  exact ne_nil_of_mem (mem_successors.mpr ⟨i, hi, hadv⟩)

theorem exists_next_of_successors_ne_nil (h : successors s items ≠ []) :
    ∃ i ∈ items, i.next? = some s := by
  obtain ⟨j, hj⟩ := exists_mem_of_ne_nil _ h
  obtain ⟨i, hi, hadv⟩ := mem_successors.mp hj
  obtain ⟨rest, hrest, -⟩ := Item.advance?_eq_some.mp hadv
  exact ⟨i, hi, Item.next?_eq_some.mpr ⟨rest, hrest⟩⟩

theorem successors_nodup (h : items.Nodup) : (successors s items).Nodup := by
  refine h.filterMap ?_
  intro i j k hi hj
  obtain ⟨rest, hrest, rfl⟩ := Item.advance?_eq_some.mp hi
  obtain ⟨rest', hrest', hk⟩ := Item.advance?_eq_some.mp hj
  cases i
  cases j
  simp_all

/-! ## Going through the items of a state -/

section Close

variable {starts : Nat → List Item} {all : List Item}
variable {x : Item}

theorem close_cons (fuel : Nat) (item : Item) (items : List Item) (added : List Nat) :
    (∀ s, item.next? = some s → s ∈ added) ∧
        close starts (fuel + 1) (item :: items) added = item :: close starts fuel items added ∨
      ∃ s, item.next? = some s ∧ s ∉ added ∧
        close starts (fuel + 1) (item :: items) added =
          item :: close starts fuel (items ++ starts s) (s :: added) := by
  rw [close]
  split
  · rename_i h
    exact .inl ⟨by simp [h], rfl⟩
  · rename_i s h
    split
    · rename_i hs
      exact .inl ⟨by simpa [h] using hs, rfl⟩
    · rename_i hs
      exact .inr ⟨s, h, by simpa using hs, rfl⟩

theorem mem_close_of_mem :
    ∀ {fuel : Nat} {items : List Item} {added : List Nat}, x ∈ items →
      x ∈ close starts fuel items added
  | 0, _, _, h => by simpa [close] using h
  | fuel + 1, item :: items, added, h => by
    rcases close_cons fuel item items added with ⟨-, hc⟩ | ⟨s, -, -, hc⟩ <;> rw [hc] <;>
      rcases mem_cons.mp h with rfl | h
    · exact mem_cons_self
    · exact mem_cons_of_mem _ (mem_close_of_mem h)
    · exact mem_cons_self
    · exact mem_cons_of_mem _ (mem_close_of_mem (mem_append_left _ h))

/-- What is in the closure was there before, or is an item of a symbol that was added because it
stands behind a point. -/
theorem mem_close :
    ∀ {fuel : Nat} {items : List Item} {added : List Nat}, x ∈ close starts fuel items added →
      x ∈ items ∨ ∃ s, s ∉ added ∧ x ∈ starts s ∧
        ∃ y ∈ close starts fuel items added, y.next? = some s
  | 0, _, _, h => .inl (by simpa [close] using h)
  | fuel + 1, [], _, h => by simp [close] at h
  | fuel + 1, item :: items, added, h => by
    rcases close_cons fuel item items added with ⟨-, hc⟩ | ⟨s, hnext, hs, hc⟩ <;>
      rw [hc] at h ⊢ <;> rcases mem_cons.mp h with rfl | h
    · exact .inl mem_cons_self
    · rcases mem_close h with h | ⟨s, hs, h, y, hy, hnext⟩
      · exact .inl (mem_cons_of_mem _ h)
      · exact .inr ⟨s, hs, h, y, mem_cons_of_mem _ hy, hnext⟩
    · exact .inl mem_cons_self
    · rcases mem_close h with h | ⟨s', hs', h, y, hy, hnext'⟩
      · rcases mem_append.mp h with h | h
        · exact .inl (mem_cons_of_mem _ h)
        · exact .inr ⟨s, hs, h, item, mem_cons_self, hnext⟩
      · exact .inr ⟨s', fun h' => hs' (mem_cons_of_mem _ h'), h, y, mem_cons_of_mem _ hy,
          hnext'⟩

theorem length_filter_not_mem_cons (all : List Item) {s : Nat} {added : List Nat}
    (hs : s ∉ added) :
    (all.filter fun i => i.left = s).length +
        (all.filter fun i => i.left ∉ s :: added).length =
      (all.filter fun i => i.left ∉ added).length := by
  induction all with
  | nil => rfl
  | cons i all ih =>
    by_cases h : i.left = s
    · simp_all
      omega
    · by_cases h' : i.left ∈ added <;> simp_all
      omega

/-- With enough fuel the items of every symbol behind a point are added. Each of the items in `all`
is added at most once, so it is enough to have one step for each of them. -/
theorem close_closed (hstarts : ∀ s, starts s = all.filter fun i => i.left = s) {y : Item}
    {s : Nat} : ∀ {fuel : Nat} {items : List Item} {added : List Nat},
      items.length + (all.filter fun i => i.left ∉ added).length ≤ fuel →
      y ∈ close starts fuel items added → y.next? = some s → s ∉ added → x ∈ starts s →
      x ∈ close starts fuel items added
  | 0, items, _, hfuel, hy, _, _, _ => by
    have : items = [] := length_eq_zero_iff.mp (by omega)
    simp [close, this] at hy
  | fuel + 1, [], _, _, hy, _, _, _ => by simp [close] at hy
  | fuel + 1, item :: items, added, hfuel, hy, hnext, hs, hx => by
    simp only [length_cons] at hfuel
    rcases close_cons fuel item items added with ⟨hadded, hc⟩ | ⟨s', hitem, hs', hc⟩ <;>
      rw [hc] at hy ⊢ <;> refine mem_cons_of_mem _ ?_
    · rcases mem_cons.mp hy with rfl | hy
      · exact absurd (hadded s hnext) hs
      · exact close_closed hstarts (by omega) hy hnext hs hx
    · by_cases h : s = s'
      · subst h
        exact mem_close_of_mem (mem_append_right _ hx)
      · rcases mem_cons.mp hy with rfl | hy
        · exact absurd (Option.some.inj (hnext.symm.trans hitem)) h
        · refine close_closed hstarts ?_ hy hnext (by simp [h, hs]) hx
          have := length_filter_not_mem_cons all hs'
          rw [length_append, hstarts]
          omega

theorem close_nodup (hnodup : ∀ s, (starts s).Nodup)
    (hleft : ∀ s, ∀ x ∈ starts s, x.left = s) :
    ∀ {fuel : Nat} {items : List Item} {added : List Nat}, items.Nodup →
      (∀ s, s ∉ added → ∀ x ∈ items, x ∉ starts s) → (close starts fuel items added).Nodup
  | 0, _, _, h, _ => by simpa [close] using h
  | fuel + 1, [], _, _, _ => by simp [close]
  | fuel + 1, item :: items, added, h, hnew => by
    obtain ⟨hitem, hitems⟩ := nodup_cons.mp h
    have hkeep : ∀ s, s ∉ added → ∀ x ∈ items, x ∉ starts s :=
      fun s hs x hx => hnew s hs x (mem_cons_of_mem _ hx)
    have hfresh : ∀ s, s ∉ added → item ∉ starts s :=
      fun s hs => hnew s hs item mem_cons_self
    rcases close_cons fuel item items added with ⟨-, hc⟩ | ⟨s, -, hs, hc⟩ <;> rw [hc]
    · refine nodup_cons.mpr ⟨fun hmem => ?_, close_nodup hnodup hleft hitems hkeep⟩
      rcases mem_close hmem with hmem | ⟨s, hs, hmem, -⟩
      · exact hitem hmem
      · exact hfresh s hs hmem
    · have hmore : (items ++ starts s).Nodup :=
        nodup_append.mpr ⟨hitems, hnodup s, fun x hx y hy hxy => hkeep s hs x hx (hxy ▸ hy)⟩
      refine nodup_cons.mpr ⟨fun hmem => ?_, close_nodup hnodup hleft hmore ?_⟩
      · rcases mem_close hmem with hmem | ⟨s', hs', hmem, -⟩
        · rcases mem_append.mp hmem with hmem | hmem
          · exact hitem hmem
          · exact hfresh s hs hmem
        · exact hfresh s' (fun h' => hs' (mem_cons_of_mem _ h')) hmem
      · intro s' hs' x hx hx'
        obtain ⟨hne, hs'⟩ : s' ≠ s ∧ s' ∉ added := by simpa using hs'
        rcases mem_append.mp hx with hx | hx
        · exact hkeep s' hs' x hx hx'
        · exact hne ((hleft s' x hx').symm.trans (hleft s x hx))

end Close

/-! ## Closures -/

namespace Indexed

/-- All items of rules with the point in front, except that of the start rule. -/
def allStarts (g : Indexed) : List Item := ((List.range g.rules.size).drop 1).map g.startItem

/-- The tables of a grammar fit together: the rules of a symbol are those with the symbol on the
left, and all symbols have numbers. -/
structure WellFormed (g : Indexed) : Prop where
  startItems_eq : ∀ s, g.startItems s = g.allStarts.filter fun i => i.left = s
  rules_pos : 0 < g.rules.size
  right_lt : ∀ r, ∀ s ∈ (g.rule r).right, s < g.names.size

variable {g : Indexed}

theorem startItem_of {r : Nat} (hr : r < g.rules.size) : (g.startItem r).Of g :=
  ⟨hr, rfl, by simp [startItem]⟩

namespace WellFormed

variable (hg : g.WellFormed)
include hg

theorem mem_startItems {s : Nat} {x : Item} :
    x ∈ g.startItems s ↔
      ∃ r, 0 < r ∧ r < g.rules.size ∧ (g.rule r).left = s ∧ x = g.startItem r := by
  rw [hg.startItems_eq]
  simp only [allStarts, mem_filter, mem_map, decide_eq_true_eq]
  constructor
  · rintro ⟨⟨r, hr, rfl⟩, hs⟩
    obtain ⟨i, hi, rfl⟩ := mem_drop_iff_getElem.mp hr
    simp only [length_range] at hi
    simp only [getElem_range] at hs ⊢
    exact ⟨1 + i, by omega, by omega, hs, rfl⟩
  · rintro ⟨r, hpos, hr, hs, rfl⟩
    refine ⟨⟨r, mem_drop_iff_getElem.mpr ⟨r - 1, by simp; omega, by simp; omega⟩, rfl⟩, hs⟩

theorem startItems_nodup (s : Nat) : (g.startItems s).Nodup := by
  rw [hg.startItems_eq]
  refine List.Nodup.filter _ (List.Nodup.map ?_ (List.Nodup.sublist (drop_sublist ..)
    nodup_range))
  intro r r' h
  exact congrArg Item.rule h

theorem left_of_mem_startItems {s : Nat} {x : Item} (hx : x ∈ g.startItems s) : x.left = s := by
  obtain ⟨r, -, -, hs, rfl⟩ := hg.mem_startItems.mp hx
  exact hs

end WellFormed

end Indexed

namespace Automaton

variable {g : Indexed} {kernel : List Item} {x y : Item} {s : Nat}

theorem mem_closure_of_mem (h : x ∈ kernel) : x ∈ closure g kernel := mem_close_of_mem h

theorem mem_closure (h : x ∈ closure g kernel) : x ∈ kernel ∨ ∃ s, x ∈ g.startItems s :=
  (mem_close h).imp_right fun ⟨s, _, hs, _⟩ => ⟨s, hs⟩

variable (hg : g.WellFormed)
include hg

theorem mem_closure_of_next (hy : y ∈ closure g kernel) (hs : y.next? = some s)
    (hx : x ∈ g.startItems s) : x ∈ closure g kernel := by
  refine close_closed hg.startItems_eq ?_ hy hs (not_mem_nil) hx
  have : g.allStarts.length ≤ g.rules.size := by simp [Indexed.allStarts]
  have := length_filter_le (fun i : Item => decide (i.left ∉ [])) g.allStarts
  omega

theorem closure_of (hk : ∀ i ∈ kernel, i.Of g) (hx : x ∈ closure g kernel) : x.Of g := by
  rcases mem_closure hx with hx | ⟨s, hx⟩
  · exact hk x hx
  · obtain ⟨r, -, hr, -, rfl⟩ := hg.mem_startItems.mp hx
    exact Indexed.startItem_of hr

theorem closure_nodup (hk : kernel.Nodup) (hnew : ∀ i ∈ kernel, ∀ s, i ∉ g.startItems s) :
    (closure g kernel).Nodup :=
  close_nodup hg.startItems_nodup (fun _ _ => hg.left_of_mem_startItems) hk
    fun s _ x hx => hnew x hx s

end Automaton

end RtlFlow.Grammar
