import Mathlib
import RtlFlow.Proofs.Arrays
import RtlFlow.Proofs.Grammar.Closure

/-!
# The states of the automaton

Exploration finds a state for every kernel that it meets. A grammar has finitely many kernels, so it
comes to an end, and then the automaton has a transition wherever an item can be moved on.
-/

namespace RtlFlow.Grammar

open List

variable {g : Indexed}

/-! ## Kernels -/

/-- A list of items that moving on from the start item leads to. -/
inductive Reached (g : Indexed) : List Item → Prop
  | start : Reached g [g.startItem 0]
  | successors {K : List Item} (h : Reached g K) (s : Nat) :
      Reached g (successors s (Automaton.closure g K))

/-- A kernel: items of the grammar that can be reached, none of them twice and none of them the first
item of a rule of a symbol. -/
structure Kernel (g : Indexed) (K : List Item) : Prop where
  reached : Reached g K
  nodup : K.Nodup
  of : ∀ i ∈ K, i.Of g
  fresh : ∀ i ∈ K, ∀ s, i ∉ g.startItems s

namespace Kernel

theorem start (hg : g.WellFormed) : Kernel g [g.startItem 0] where
  reached := .start
  nodup := nodup_singleton _
  of := by
    intro i hi
    obtain rfl := mem_singleton.mp hi
    exact Indexed.startItem_of hg.rules_pos
  fresh := by
    intro i hi s hs
    obtain rfl := mem_singleton.mp hi
    obtain ⟨r, hr, -, -, h⟩ := hg.mem_startItems.mp hs
    have : 0 = r := congrArg Item.rule h
    omega

theorem successors (hg : g.WellFormed) {K : List Item} (hK : Kernel g K) (s : Nat) :
    Kernel g (successors s (Automaton.closure g K)) where
  reached := hK.reached.successors s
  nodup := successors_nodup (Automaton.closure_nodup hg hK.nodup hK.fresh)
  of := by
    intro i hi
    obtain ⟨j, hj, hadv⟩ := mem_successors.mp hi
    exact (Automaton.closure_of hg hK.of hj).advance hadv
  fresh := by
    intro i hi t ht
    obtain ⟨j, hj, hadv⟩ := mem_successors.mp hi
    obtain ⟨rest, -, rfl⟩ := Item.advance?_eq_some.mp hadv
    obtain ⟨r, -, -, -, h⟩ := hg.mem_startItems.mp ht
    exact cons_ne_nil _ _ (congrArg Item.seen h)

end Kernel

/-! ## The number of kernels -/

namespace Indexed

def allItems (g : Indexed) : List Item :=
  (List.range g.rules.size).flatMap fun r =>
    (List.range ((g.rule r).right.length + 1)).map fun k =>
      ⟨r, (g.rule r).left, ((g.rule r).right.take k).reverse, (g.rule r).right.drop k⟩

theorem length_allItems (g : Indexed) : g.allItems.length = g.itemCount := by
  have hrules : g.rules.toList = (List.range g.rules.size).map g.rule := by
    refine ext_getElem (by simp) fun n h _ => ?_
    have hn : n < g.rules.size := by simpa using h
    simp [Indexed.rule, Array.getD, hn]
  rw [itemCount, hrules]
  simp [allItems, Function.comp_def]

theorem mem_allItems {i : Item} (h : i.Of g) : i ∈ g.allItems := by
  obtain ⟨hr, hleft, hright⟩ := h
  refine mem_flatMap.mpr ⟨i.rule, mem_range.mpr hr, mem_map.mpr
    ⟨i.seen.length, mem_range.mpr ?_, ?_⟩⟩
  · rw [← hright, length_append, length_reverse]
    omega
  · have htake : (g.rule i.rule).right.take i.seen.length = i.seen.reverse := by
      rw [← hright, take_left' (by simp)]
    have hdrop : (g.rule i.rule).right.drop i.seen.length = i.rest := by
      rw [← hright, drop_left' (by simp)]
    rw [htake, hdrop, ← hleft, reverse_reverse]

end Indexed

namespace Automaton

variable {K items : List Item} {a : Automaton}

/-- A kernel as a word of fixed length over the numbers of the items. -/
def codeOf (g : Indexed) (K : List Item) (n : Fin g.itemCount) : Fin (g.itemCount + 1) :=
  Fin.ofNat _ ((K[n.val]?.map fun i => g.allItems.idxOf i + 1).getD 0)

theorem Kernel.length_le (hK : Kernel g K) : K.length ≤ g.itemCount := by
  rw [← g.length_allItems]
  exact (subperm_of_subset hK.nodup fun i hi => Indexed.mem_allItems (hK.of i hi)).length_le

theorem codeOf_injective {K' : List Item} (hK : Kernel g K) (hK' : Kernel g K')
    (h : codeOf g K = codeOf g K') : K = K' := by
  refine ext_getElem? fun n => ?_
  by_cases hn : n < g.itemCount
  · have hcode := congrArg Fin.val (congrFun h ⟨n, hn⟩)
    have hlt : ∀ {L : List Item}, Kernel g L →
        ((L[n]?.map fun i => g.allItems.idxOf i + 1).getD 0) < g.itemCount + 1 := by
      intro L hL
      cases hi : L[n]? with
      | none => simp
      | some i =>
        have := idxOf_lt_length_of_mem (Indexed.mem_allItems (hL.of i (mem_of_getElem? hi)))
        rw [g.length_allItems] at this
        simpa using this
    simp only [codeOf, Fin.ofNat, Nat.mod_eq_of_lt (hlt hK), Nat.mod_eq_of_lt (hlt hK')] at hcode
    cases hi : K[n]? with
    | none =>
      cases hj : K'[n]? with
      | none => rfl
      | some j => simp [hi, hj] at hcode
    | some i =>
      cases hj : K'[n]? with
      | none => simp [hi, hj] at hcode
      | some j =>
        have hidx : g.allItems.idxOf i = g.allItems.idxOf j := by simpa [hi, hj] using hcode
        rw [(idxOf_inj (Indexed.mem_allItems (hK.of i (mem_of_getElem? hi)))).mp hidx]
  · rw [List.getElem?_eq_none (by have := Kernel.length_le hK; omega),
      List.getElem?_eq_none (by have := Kernel.length_le hK'; omega)]

theorem length_le_stateLimit {Ks : List (List Item)} (hnodup : Ks.Nodup)
    (hKs : ∀ K ∈ Ks, Kernel g K) : Ks.length ≤ stateLimit g := by
  have hcodes : (Ks.map (codeOf g)).Nodup :=
    hnodup.map_on fun K hK K' hK' h => codeOf_injective (hKs K hK) (hKs K' hK') h
  calc Ks.length = (Ks.map (codeOf g)).length := by simp
    _ ≤ Fintype.card (Fin g.itemCount → Fin (g.itemCount + 1)) := hcodes.length_le_card
    _ = (g.itemCount + 1) ^ g.itemCount := by simp
    _ ≤ stateLimit g := Nat.pow_le_pow_right (by omega) (by omega)

/-! ## Exploration -/

/-- The states of an automaton under construction: their kernels, each once, with their closures. -/
structure Stock (g : Indexed) (a : Automaton) : Prop where
  grammar_eq : a.grammar = g
  states_eq : a.states = a.kernels.map (closure g)
  nodup : a.kernels.toList.Nodup
  kernel : ∀ K ∈ a.kernels.toList, Kernel g K

/-- The kernels of a second automaton go on where those of the first one end. -/
def Extends (a b : Automaton) : Prop :=
  ∀ (j : Nat) (K : List Item), a.kernels[j]? = some K → b.kernels[j]? = some K

theorem Extends.refl (a : Automaton) : a.Extends a := fun _ _ h => h

theorem Extends.trans {b c : Automaton} (h : a.Extends b) (h' : b.Extends c) : a.Extends c :=
  fun j K hj => h' j K (h j K hj)

theorem stateOf_spec (ha : Stock g a) (hK : Kernel g K) :
    Stock g (a.stateOf K).2 ∧ a.Extends (a.stateOf K).2 ∧ (a.stateOf K).2.next = a.next ∧
      (a.stateOf K).2.kernels[(a.stateOf K).1]? = some K := by
  unfold stateOf
  cases h : a.kernels.idxOf? K with
  | some j =>
    obtain ⟨hj, hK', -⟩ :=
      List.idxOf?_eq_some_iff.mp ((List.idxOf?_toArray K a.kernels.toList).symm.trans h)
    exact ⟨ha, Extends.refl a, rfl, by simpa [Array.getElem?_eq_some_iff] using ⟨hj, hK'⟩⟩
  | none =>
    have hnew : K ∉ a.kernels.toList := by simpa using h
    refine ⟨⟨ha.grammar_eq, ?_, ?_, ?_⟩, ?_, rfl, by simp⟩
    · simp [ha.states_eq, ha.grammar_eq]
    · simp only [Array.toList_push]
      exact nodup_append.mpr ⟨ha.nodup, nodup_singleton _, by
        intro L hL L' hL' hLL'
        obtain rfl := mem_singleton.mp hL'
        exact hnew (hLL' ▸ hL)⟩
    · intro L hL
      rw [Array.toList_push] at hL
      rcases mem_append.mp hL with hL | hL
      · exact ha.kernel L hL
      · exact mem_singleton.mp hL ▸ hK
    · intro j L hj
      have hlt := (Array.getElem?_eq_some_iff.mp hj).1
      exact (Array.getElem?_push.trans (if_neg (by omega))).trans hj

/-- The entry for a kernel in a row: 0 if the kernel is empty, else one more than its number. -/
def Entry (a : Automaton) (K : List Item) (v : Nat) : Prop :=
  (K = [] ∧ v = 0) ∨ (K ≠ [] ∧ ∃ j, v = j + 1 ∧ a.kernels[j]? = some K)

theorem Entry.mono {b : Automaton} {v : Nat} (hab : a.Extends b) (h : a.Entry K v) :
    b.Entry K v := by
  rcases h with h | ⟨hK, j, hv, hj⟩
  · exact .inl h
  · exact .inr ⟨hK, j, hv, hab j K hj⟩

theorem expand_spec (hitems : ∀ s, Kernel g (successors s items)) :
    ∀ (ss : List Nat) (a : Automaton) (row : Array Nat), Stock g a → (∀ s ∈ ss, s < row.size) →
      Stock g (expand items ss a row).1 ∧ a.Extends (expand items ss a row).1 ∧
        (expand items ss a row).1.next = a.next ∧
        ∀ s, (s ∉ ss → (expand items ss a row).2.getD s 0 = row.getD s 0) ∧
          (s ∈ ss → row.getD s 0 = 0 ∨ a.Entry (successors s items) (row.getD s 0) →
            (expand items ss a row).1.Entry (successors s items)
              ((expand items ss a row).2.getD s 0))
  | [], a, row, ha, _ => ⟨ha, Extends.refl a, rfl, by simp [expand]⟩
  | t :: ss, a, row, ha, hss => by
    have ht : t < row.size := hss t mem_cons_self
    rw [expand]
    split
    · rename_i hempty
      obtain ⟨hstock, hext, hnext, hrow⟩ :=
        expand_spec hitems ss a row ha fun s hs => hss s (mem_cons_of_mem _ hs)
      refine ⟨hstock, hext, hnext, fun s => ⟨fun hs => ?_, fun hs hold => ?_⟩⟩
      · exact (hrow s).1 fun h => hs (mem_cons_of_mem _ h)
      · by_cases hmem : s ∈ ss
        · exact (hrow s).2 hmem hold
        · obtain rfl : s = t := (mem_cons.mp hs).resolve_right hmem
          rw [(hrow s).1 hmem]
          rcases hold with hold | hold
          · exact .inl ⟨hempty, hold⟩
          · exact hold.mono hext
    · rename_i hne
      have hne : successors t items ≠ [] := hne
      obtain ⟨hstock, hext, hnext, hj⟩ := stateOf_spec ha (hitems t)
      have hrow' : ∀ s, (row.setIfInBounds t ((a.stateOf (successors t items)).1 + 1)).getD s 0 =
          if s = t then (a.stateOf (successors t items)).1 + 1 else row.getD s 0 := by
        intro s
        simp only [getD_setIfInBounds, ht, and_true]
      obtain ⟨hstock', hext', hnext', hrow⟩ := expand_spec hitems ss _
        (row.setIfInBounds t ((a.stateOf (successors t items)).1 + 1)) hstock
        (by simpa using fun s hs => hss s (mem_cons_of_mem _ hs))
      refine ⟨hstock', hext.trans hext', hnext'.trans hnext, fun s => ⟨fun hs => ?_, fun hs hold => ?_⟩⟩
      · rw [(hrow s).1 fun h => hs (mem_cons_of_mem _ h), hrow' s,
          if_neg fun h => hs (mem_cons.mpr (.inl h))]
      · have hnew : s = t → (a.stateOf (successors t items)).2.Entry (successors s items)
            ((row.setIfInBounds t ((a.stateOf (successors t items)).1 + 1)).getD s 0) := by
          rintro rfl
          rw [hrow', if_pos rfl]
          exact .inr ⟨hne, _, rfl, hj⟩
        by_cases hmem : s ∈ ss
        · refine (hrow s).2 hmem ?_
          by_cases hst : s = t
          · exact .inr (hnew hst)
          · rw [hrow', if_neg hst]
            exact hold.imp_right fun h => h.mono hext
        · have hst : s = t := (mem_cons.mp hs).resolve_right hmem
          rw [(hrow s).1 hmem]
          exact (hnew hst).mono hext'

/-- The states before number `done` have all their transitions. -/
structure Explored (g : Indexed) (done : Nat) (a : Automaton) : Prop extends Stock g a where
  start : a.kernels[0]? = some [g.startItem 0]
  /-- There is a row for each state that was treated. -/
  next_size : a.next.size = done
  done_le : done ≤ a.kernels.size
  entry : ∀ p K s, p < done → a.kernels[p]? = some K →
    a.Entry (successors s (closure g K)) ((a.next.getD p #[]).getD s 0)

theorem mem_stateSymbols (hitems : ∀ i ∈ items, i.Of g) {s : Nat} (h : successors s items ≠ []) :
    s ∈ stateSymbols g items := by
  obtain ⟨i, hi, hs⟩ := exists_next_of_successors_ne_nil h
  obtain ⟨rest, hrest⟩ := Item.next?_eq_some.mp hs
  refine mem_eraseDups.mpr (mem_flatMap.mpr ⟨i, hi, ?_⟩)
  rw [← (hitems i hi).2.2, hrest]
  simp

theorem lt_of_mem_stateSymbols (hg : g.WellFormed) {s : Nat} (h : s ∈ stateSymbols g items) :
    s < g.names.size := by
  obtain ⟨i, -, hs⟩ := mem_flatMap.mp (mem_eraseDups.mp h)
  exact hg.right_lt _ s hs

theorem explored_step (hg : g.WellFormed) {i : Nat} (ha : Explored g i a)
    (hi : a.states[i]? = some items) :
    let r := expand items (stateSymbols a.grammar items) a (Array.replicate a.grammar.names.size 0)
    Explored g (i + 1) { r.1 with next := r.1.next.push r.2 } := by
  rw [ha.grammar_eq]
  rw [ha.states_eq, Array.getElem?_map] at hi
  obtain ⟨K, hKi, rfl⟩ := Option.map_eq_some_iff.mp hi
  have hK : Kernel g K := ha.kernel K (Array.mem_toList_iff.mpr (Array.mem_of_getElem? hKi))
  obtain ⟨hstock, hext, hnext, hrow⟩ := expand_spec (fun s => hK.successors hg s)
    (stateSymbols g (closure g K)) a (Array.replicate g.names.size 0) ha.toStock
    (by simpa using fun s => lt_of_mem_stateSymbols hg)
  intro r
  have hlt : i < r.1.kernels.size := (Array.getElem?_eq_some_iff.mp (hext i K hKi)).1
  refine ⟨⟨hstock.grammar_eq, hstock.states_eq, hstock.nodup, hstock.kernel⟩, ?_, ?_, hlt, ?_⟩
  · exact hext 0 _ ha.start
  · simp [r, hnext, ha.next_size]
  · intro p L s hp hL
    have hrows : (r.1.next.push r.2).getD p #[] = if p = i then r.2 else a.next.getD p #[] := by
      simp only [getD_push, r, hnext, ha.next_size]
    show (Automaton.Entry _ _ (((r.1.next.push r.2).getD p #[]).getD s 0))
    rw [hrows]
    by_cases hpi : p = i
    · subst hpi
      obtain rfl : K = L := Option.some.inj ((hext p K hKi).symm.trans hL)
      rw [if_pos rfl]
      by_cases hs : s ∈ stateSymbols g (closure g K)
      · exact (hrow s).2 hs (.inl (getD_replicate_default ..))
      · refine .inl ⟨?_, ?_⟩
        · exact not_not.mp fun h => hs (mem_stateSymbols (fun _ => closure_of hg hK.of) h)
        · exact ((hrow s).1 hs).trans (getD_replicate_default ..)
    · have hpi' : p < i := by omega
      have hL' : a.kernels[p]? = some L := by
        obtain ⟨L', hL'⟩ : ∃ L', a.kernels[p]? = some L' :=
          ⟨_, Array.getElem?_eq_getElem (Nat.lt_of_lt_of_le hpi' ha.done_le)⟩
        rw [hL', ← hext p L' hL', hL]
      rw [if_neg hpi]
      exact (ha.entry p L s hpi' hL').mono hext

def Complete (g : Indexed) (a : Automaton) : Prop := Explored g a.kernels.size a

theorem complete_explore (hg : g.WellFormed) :
    ∀ {fuel i : Nat} {a : Automaton}, Explored g i a → stateLimit g ≤ fuel + i →
      Complete g (explore fuel i a)
  | 0, i, a, ha, hfuel => by
    have hsize := length_le_stateLimit ha.nodup ha.kernel
    have := ha.done_le
    rw [Array.length_toList] at hsize
    obtain rfl : i = a.kernels.size := by omega
    exact ha
  | fuel + 1, i, a, ha, hfuel => by
    rw [explore]
    split
    · rename_i hnone
      have := ha.done_le
      have : a.kernels.size ≤ i := by simpa [ha.states_eq] using hnone
      obtain rfl : i = a.kernels.size := by omega
      exact ha
    · rename_i items hitems
      exact complete_explore hg (explored_step hg ha hitems) (by omega)

theorem complete_ofIndexed (hg : g.WellFormed) : Complete g (ofIndexed g) := by
  refine complete_explore hg ⟨⟨rfl, by simp, nodup_singleton _, ?_⟩, rfl, rfl, Nat.zero_le _, ?_⟩
    (by omega)
  · intro K hK
    obtain rfl := mem_singleton.mp hK
    exact Kernel.start hg
  · intro p _ _ hp
    omega

/-! ## Reading the automaton -/

section

variable {a : Automaton} {p q s : Nat} {K : List Item}

theorem Complete.grammar_eq (h : Complete g a) : a.grammar = g := Explored.toStock h |>.grammar_eq

theorem Complete.size_states (h : Complete g a) : a.states.size = a.kernels.size := by
  rw [(Explored.toStock h).states_eq, Array.size_map]

theorem lt_of_kernel (hp : a.kernels[p]? = some K) : p < a.kernels.size :=
  (Array.getElem?_eq_some_iff.mp hp).1

theorem Complete.kernel (h : Complete g a) (hp : a.kernels[p]? = some K) : Kernel g K :=
  (Explored.toStock h).kernel K (Array.mem_toList_iff.mpr (Array.mem_of_getElem? hp))

theorem Complete.stateItems (h : Complete g a) (hp : a.kernels[p]? = some K) :
    a.stateItems p = closure g K := by
  rw [Automaton.stateItems, (Explored.toStock h).states_eq, Array.getD_eq_getD_getElem?,
    Array.getElem?_map, hp]
  rfl

theorem Complete.of_goto? (h : Complete g a) (hp : a.kernels[p]? = some K)
    (hq : a.goto? p s = some q) :
    successors s (closure g K) ≠ [] ∧ a.kernels[q]? = some (successors s (closure g K)) := by
  unfold Automaton.goto? at hq
  rcases Explored.entry h p K s (lt_of_kernel hp) hp with ⟨-, hv⟩ | ⟨hne, j, hv, hj⟩
  · rw [hv] at hq
    cases hq
  · rw [hv] at hq
    obtain rfl : j = q := by simpa using hq
    exact ⟨hne, hj⟩

theorem Complete.exists_goto? (h : Complete g a) (hp : a.kernels[p]? = some K)
    (hne : successors s (closure g K) ≠ []) :
    ∃ q, a.goto? p s = some q ∧ a.kernels[q]? = some (successors s (closure g K)) := by
  unfold Automaton.goto?
  rcases Explored.entry h p K s (lt_of_kernel hp) hp with ⟨hnil, -⟩ | ⟨-, j, hv, hj⟩
  · exact absurd hnil hne
  · exact ⟨j, by rw [hv], hj⟩

end

end Automaton

end RtlFlow.Grammar
