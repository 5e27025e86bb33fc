import Mathlib
import RtlFlow.Proofs.Grammar.Automaton
import RtlFlow.Proofs.Grammar.Walk

/-!
# What can come after a rule

-/

namespace RtlFlow.Grammar.Automaton

open List

variable {g : Indexed} {a : Automaton} {p q s t x y e : Nat} {i : Item} {tr : Transition}
variable {state : Nat} {list : Array Transition} {row : Array Nat} {item : Item} {key : Nat × Nat}

/-! ## Transitions -/

def Numbered (state : Nat) (list : Array Transition) (row : Array Nat) : Prop :=
  ∀ s, row.getD s 0 = 0 ∨ ∃ x, row.getD s 0 = x + 1 ∧ list[x]? = some ⟨state, s⟩

def Continues (list list' : Array Transition) : Prop :=
  ∀ (x : Nat) (t : Transition), list[x]? = some t → list'[x]? = some t

theorem Continues.trans {l l' l'' : Array Transition} (h : Continues l l')
    (h' : Continues l' l'') : Continues l l'' := fun x t ht => h' x t (h x t ht)

theorem continues_push (list : Array Transition) (t : Transition) : Continues list (list.push t) := by
  intro x u hu
  have := (Array.getElem?_eq_some_iff.mp hu).1
  rw [Array.getElem?_push, if_neg (by omega), hu]

theorem Numbered.push (h : Numbered state list row) :
    Numbered state (list.push ⟨state, s⟩) (row.setIfInBounds s (list.size + 1)) := by
  intro s'
  rw [getD_setIfInBounds]
  by_cases hs : s' = s ∧ s < row.size
  · refine .inr ⟨list.size, if_pos hs, ?_⟩
    rw [Array.getElem?_push, if_pos rfl, hs.1]
  · rw [if_neg hs]
    exact (h s').imp_right fun ⟨x, hx, ht⟩ => ⟨x, hx, continues_push list _ x _ ht⟩

/-- What going through items does to the transitions: nothing is lost, and every nonterminal behind
a point gets one. -/
structure Added (g : Indexed) (state : Nat) (items : List Item) (list : Array Transition)
    (row : Array Nat) (r : Array Transition × Array Nat) : Prop where
  continues : Continues list r.1
  numbered : Numbered state r.1 r.2
  size_eq : r.2.size = row.size
  kept : ∀ s, row.getD s 0 ≠ 0 → r.2.getD s 0 ≠ 0
  entry : ∀ i ∈ items, ∀ s, i.next? = some s → g.nonterminal.getD s false = true → s < row.size →
    r.2.getD s 0 ≠ 0

theorem Added.skip {items : List Item} {r : Array Transition × Array Nat}
    (h : Added g state items list row r)
    (hitem : ∀ s, item.next? = some s → g.nonterminal.getD s false = true → row.getD s 0 ≠ 0) :
    Added g state (item :: items) list row r := by
  refine { h with entry := fun i hi s hs hn hlt => ?_ }
  rcases mem_cons.mp hi with rfl | hi
  · exact h.kept s (hitem s hs hn)
  · exact h.entry i hi s hs hn hlt

theorem added_addTransitions (state : Nat) :
    ∀ (items : List Item) (list : Array Transition) (row : Array Nat), Numbered state list row →
      Added g state items list row (addTransitions g state items list row)
  | [], list, row, h => ⟨fun _ _ h => h, h, rfl, fun _ h => h, by simp⟩
  | item :: items, list, row, h => by
    rw [addTransitions]
    split
    · rename_i s hs
      split
      · rename_i hnew
        simp only [Bool.and_eq_true, decide_eq_true_eq] at hnew
        have ih := added_addTransitions state items _ _ (h.push (s := s))
        refine ⟨(continues_push list _).trans ih.continues, ih.numbered, ?_, ?_, ?_⟩
        · rw [ih.size_eq, Array.size_setIfInBounds]
        · intro s' hs'
          refine ih.kept s' ?_
          rw [getD_setIfInBounds]
          split
          · simp
          · exact hs'
        · intro i hi s' hs' hn hlt
          rcases mem_cons.mp hi with rfl | hi
          · obtain rfl : s = s' := Option.some.inj (hs.symm.trans hs')
            refine ih.kept s ?_
            rw [getD_setIfInBounds, if_pos ⟨rfl, hlt⟩]
            simp
          · exact ih.entry i hi s' hs' hn (by simpa using hlt)
      · rename_i hold
        refine (added_addTransitions state items list row h).skip fun s' hs' hn h0 => hold ?_
        obtain rfl : s = s' := Option.some.inj (hs.symm.trans hs')
        rw [hn, h0]
        rfl
    · rename_i hnone
      refine (added_addTransitions state items list row h).skip fun s hs => ?_
      rw [hnone] at hs
      cases hs

structure Listed (a : Automaton) (n : Nat) (t : Transitions) : Prop where
  size_eq : t.index.size = n
  numbered : ∀ p < n, Numbered p t.list (t.index.getD p #[])
  entry : ∀ p < n, ∀ i ∈ a.stateItems p, ∀ s, i.next? = some s →
    a.grammar.nonterminal.getD s false = true → s < a.grammar.names.size →
    (t.index.getD p #[]).getD s 0 ≠ 0

theorem listed_transitions (a : Automaton) : Listed a a.states.size a.transitions := by
  unfold transitions
  induction a.states.size with
  | zero => exact ⟨rfl, by simp, by simp⟩
  | succ n ih =>
    rw [range_succ, foldl_concat]
    generalize (List.range n).foldl _ _ = t at ih ⊢
    have hrow : Numbered n t.list (Array.replicate a.grammar.names.size 0) :=
      fun s => .inl (getD_replicate_default ..)
    have h := added_addTransitions (g := a.grammar) n (a.stateItems n) _ _ hrow
    have hindex : ∀ row p, (t.index.push row).getD p #[] =
        if p = n then row else t.index.getD p #[] := fun row p => by rw [getD_push, ih.size_eq]
    refine ⟨by simp [ih.size_eq], fun p hp => ?_, fun p hp i hi s hs hn hlt => ?_⟩
    · rw [hindex]
      by_cases hpn : p = n
      · rw [if_pos hpn, hpn]
        exact h.numbered
      · rw [if_neg hpn]
        intro s
        exact (ih.numbered p (by omega) s).imp_right fun ⟨x, hx, ht⟩ => ⟨x, hx, h.continues x _ ht⟩
    · rw [hindex]
      by_cases hpn : p = n
      · subst hpn
        rw [if_pos rfl]
        exact h.entry i hi s hs hn (by simpa using hlt)
      · rw [if_neg hpn]
        exact ih.entry p (by omega) i hi s hs hn hlt

theorem list_of_find? (h : a.transitions.find? p s = some x) :
    a.transitions.list[x]? = some ⟨p, s⟩ := by
  have hl := listed_transitions a
  unfold Transitions.find? at h
  by_cases hp : p < a.states.size
  · rcases hl.numbered p hp s with h0 | ⟨y, hy, ht⟩
    · rw [h0] at h
      cases h
    · rw [hy] at h
      obtain rfl : y = x := Option.some.inj h
      exact ht
  · have : a.transitions.index.getD p #[] = #[] := by
      rw [Array.getD_eq_getD_getElem?, Array.getElem?_eq_none (by rw [hl.size_eq]; omega)]
      rfl
    rw [this] at h
    cases h

theorem lt_of_find? (h : a.transitions.find? p s = some x) :
    x < a.transitions.list.size := (Array.getElem?_eq_some_iff.mp (list_of_find? h)).1

theorem getD_of_find? (h : a.transitions.find? p s = some x) :
    a.transitions.list.getD x default = ⟨p, s⟩ := by
  rw [Array.getD_eq_getD_getElem?, list_of_find? h]
  rfl

theorem exists_find? (hp : p < a.states.size) (hi : i ∈ a.stateItems p) (hs : i.next? = some s)
    (hn : a.grammar.nonterminal.getD s false = true) (hlt : s < a.grammar.names.size) :
    ∃ x, a.transitions.find? p s = some x := by
  have hne := (listed_transitions a).entry p hp i hi s hs hn hlt
  unfold Transitions.find?
  cases h : (a.transitions.index.getD p #[]).getD s 0 with
  | zero => exact absurd h hne
  | succ x => exact ⟨x, rfl⟩

/-! ## The two walks -/

open Traced

theorem lt_of_mem_reads (h : y ∈ a.traced.reads tr) : y < a.transitions.list.size := by
  unfold reads at h
  split at h
  · obtain ⟨s, -, hs⟩ := mem_filterMap.mp h
    split at hs
    · exact lt_of_find? hs
    · cases hs
  · cases h

/-- The walk over the empty transitions behind each transition. -/
def readPlan (a : Automaton) : Walk.Plan where
  relation := a.traced.readRelation
  size := a.transitions.list.size
  sets := #[]
  init := a.traced.firstRead
  enter := a.traced.enterRead
  lt x y h := by
    rw [readRelation, Array.getD_eq_getD_getElem?, Array.getElem?_map] at h
    cases hx : a.traced.transitions.list[x]? with
    | none => simp [hx] at h
    | some t => exact lt_of_mem_reads (by simpa [hx] using h)
  depth _ _ := rfl
  stack _ _ := rfl
  setOf x w z hz := by simp only [enterRead, getD_setIfInBounds, hz, false_and, if_false]
  setOf_size _ _ := by simp [enterRead]
  grows x w := by
    refine ⟨by simp [enterRead], fun i e he => ?_⟩
    simp only [enterRead, getD_push]
    split
    · rename_i hi
      subst hi
      rw [Array.getD_eq_getD_getElem?, Array.getElem?_eq_none (Nat.le_refl _)] at he
      simp at he
    · exact he
  slot x w hx hsize _ := by
    simp only [enterRead, getD_setIfInBounds, hsize, hx, and_self, if_true, Array.size_push]
    omega
  own x w hx hsize _ e he := by
    simp only [Walk.elems, enterRead, getD_setIfInBounds, hsize, hx, and_self, if_true, getD_push]
    exact he

theorem readWalk_slot (hx : x < a.transitions.list.size) :
    a.traced.readWalk.setOf.getD x 0 < a.traced.readWalk.sets.size :=
  a.readPlan.rested_run.invariant.slot x (a.readPlan.rested_run.visited x hx)

theorem mem_foldl_modify (i k : Nat) (ps : List (Nat × Nat)) (inc : Array (List Nat)) :
    i ∈ (ps.foldl (fun inc p => inc.modify p.1 (· ++ [p.2])) inc).getD k [] ↔
      i ∈ inc.getD k [] ∨ ((k, i) ∈ ps ∧ k < inc.size) := by
  induction ps generalizing inc with
  | nil => simp
  | cons p ps ih =>
    rw [foldl_cons, ih, getD_modify, Array.size_modify]
    by_cases h : k = p.1 ∧ p.1 < inc.size
    · obtain ⟨rfl, hlt⟩ := h
      simp [hlt, Prod.ext_iff]
      tauto
    · rw [if_neg h, mem_cons]
      have : (k, i) = p → ¬ k < inc.size := fun hp hlt => h ⟨by rw [← hp], by rwa [← hp]⟩
      tauto

theorem mem_includes : y ∈ a.traced.includes.getD x [] ↔
    (∃ t, a.transitions.list[y]? = some t ∧ ∃ i ∈ a.traced.itemsOf t,
      x ∈ a.traced.endings t.state i.rest) ∧ x < a.transitions.list.size := by
  refine (mem_foldl_modify ..).trans ?_
  rw [getD_replicate_default, Array.size_replicate]
  simp [mem_zipIdx_iff_getElem?, traced]

/-- The walk over the transitions whose follow sets are included. -/
def followPlan (a : Automaton) : Walk.Plan where
  relation := a.traced.includes
  size := a.transitions.list.size
  sets := a.traced.readWalk.sets
  init := a.traced.readWalk.elems
  enter := enterFollow a.traced.readWalk
  lt x y h := by
    obtain ⟨t, ht, -⟩ := (mem_includes.mp h).1
    exact (Array.getElem?_eq_some_iff.mp ht).1
  depth _ _ := rfl
  stack _ _ := rfl
  setOf x w z hz := by simp only [enterFollow, getD_setIfInBounds, hz, false_and, if_false]
  setOf_size _ _ := by simp [enterFollow]
  grows _ _ := ⟨Nat.le_refl _, fun _ _ he => he⟩
  slot x w hx hsize hgrows := by
    simp only [enterFollow, getD_setIfInBounds, hsize, hx, and_self, if_true]
    exact Nat.lt_of_lt_of_le (readWalk_slot hx) hgrows.size_le
  own x w hx hsize hgrows e he := by
    simp only [Walk.elems, enterFollow, getD_setIfInBounds, hsize, hx, and_self, if_true]
    exact hgrows.mem _ e he

/-! ## The lookaheads -/

theorem mem_foldl_add {sets : Nat → Array Nat} (ps : List ((Nat × Nat) × Nat))
    (las : Ends) (h : e ∈ las.getD key #[] ∨ ∃ x, (key, x) ∈ ps ∧ e ∈ sets x) :
    e ∈ (ps.foldl (fun las p => las.add p.1 (sets p.2)) las).getD key #[] := by
  induction ps generalizing las with
  | nil => simpa using h
  | cons p ps ih =>
    refine ih _ ?_
    unfold Ends.add
    rw [Std.HashMap.getD_insert]
    by_cases hp : p.1 = key
    · rw [if_pos (by simpa using hp), Walk.mem_insertAll, hp]
      rcases h with h | ⟨x, hx, he⟩
      · exact .inl (.inl h)
      · rcases mem_cons.mp hx with rfl | hx
        · exact .inl (.inr he)
        · exact .inr ⟨x, hx, he⟩
    · rw [if_neg (by simpa using hp)]
      refine h.imp_right fun ⟨x, hx, he⟩ => ⟨x, (mem_cons.mp hx).resolve_left ?_, he⟩
      rintro rfl
      exact hp rfl

theorem nodup_insertAll (new set : Array Nat) (h : set.toList.Nodup) :
    (Walk.insertAll new set).toList.Nodup := by
  rw [Walk.insertAll, ← Array.foldl_toList]
  induction new.toList generalizing set with
  | nil => exact h
  | cons e es ih =>
    refine ih _ ?_
    dsimp only
    split
    · exact h
    · rename_i he
      rw [Array.toList_push]
      exact nodup_append.mpr ⟨h, nodup_singleton e, fun x hx y hy hxy => he (by
        obtain rfl := mem_singleton.mp hy
        simpa [hxy] using hx)⟩

theorem nodup_lookaheads (a : Automaton) (key : Nat × Nat) : (a.lookaheads.getD key #[]).toList.Nodup := by
  have hadd (sets : Nat → Array Nat) (ps : List ((Nat × Nat) × Nat)) (las : Ends)
      (h : ∀ key, (las.getD key #[]).toList.Nodup) :
      ((ps.foldl (fun las p => las.add p.1 (sets p.2)) las).getD key #[]).toList.Nodup := by
    induction ps generalizing las with
    | nil => exact h key
    | cons p ps ih =>
      refine ih _ fun key => ?_
      unfold Ends.add
      rw [Std.HashMap.getD_insert]
      split
      · exact nodup_insertAll _ _ (h p.1)
      · exact h key
  exact hadd _ _ _ (by simp)

theorem mem_lookaheads (ht : a.transitions.list[x]? = some tr)
    (hkey : key ∈ a.traced.lookbacks tr) (he : e ∈ a.traced.followWalk.elems x) :
    e ∈ a.lookaheads.getD key #[] := by
  refine mem_foldl_add _ _ (.inr ⟨x, mem_flatMap.mpr ⟨(tr, x), ?_, ?_⟩, he⟩)
  · exact mem_zipIdx_iff_getElem?.mpr (by simpa [traced] using ht)
  · exact mem_map.mpr ⟨key, hkey, rfl⟩

/-! ## What can follow -/

def path? (a : Automaton) : (p : Nat) → List Nat → Option Nat
  | p, [] => some p
  | p, s :: ss => (a.goto? p s).bind (a.path? · ss)

theorem last_eq : ∀ {γ : List Nat} {p : Nat}, a.path? p γ = some q → a.traced.last p γ = q
  | [], _, h => Option.some.inj h
  | _ :: _, _, h => by
    obtain ⟨p', hp', h⟩ := Option.bind_eq_some_iff.mp h
    have hgoto : a.traced.goto? _ _ = some p' := hp'
    rw [last, hgoto]
    exact last_eq h

theorem mem_endings (hx : a.transitions.find? q s = some x) :
    ∀ {γ : List Nat} {p : Nat}, a.path? p γ = some q → x ∈ a.traced.endings p (γ ++ [s])
  | [], _, h => by
    obtain rfl := Option.some.inj h
    have hfind : a.traced.transitions.find? _ s = some x := hx
    simp only [List.nil_append, endings, hfind]
    split <;> simp
  | _ :: _, _, h => by
    obtain ⟨p', hp', h⟩ := Option.bind_eq_some_iff.mp h
    have hgoto : a.traced.goto? _ _ = some p' := hp'
    simp only [List.cons_append, endings, hgoto]
    exact mem_append_right _ (mem_endings hx h)

/-- A terminal can be read behind a transition, over empty transitions. -/
def CanRead (a : Automaton) (p s t : Nat) : Prop :=
  ∃ x y, a.transitions.find? p s = some x ∧ Walk.Reach a.traced.readRelation x y ∧
    t ∈ a.traced.firstRead y

def CanFollow (a : Automaton) (p s t : Nat) : Prop :=
  ∃ x y z, a.transitions.find? p s = some x ∧ Walk.Reach a.traced.includes x y ∧
    Walk.Reach a.traced.readRelation y z ∧ t ∈ a.traced.firstRead z

theorem firstRead_eq (hx : a.transitions.find? p s = some x) :
    a.traced.firstRead x = a.shiftable ⟨p, s⟩ := congrArg a.shiftable (getD_of_find? hx)

theorem CanRead.shift (hx : a.transitions.find? p s = some x) (hq : a.goto? p s = some q)
    (hi : i ∈ a.stateItems q) (hnext : i.next? = some t)
    (ht : a.grammar.terminal.getD t false = true) : a.CanRead p s t := by
  refine ⟨x, x, hx, .refl, ?_⟩
  have hmem : t ∈ (((a.stateItems q).filterMap Item.next?).filter
      (a.grammar.terminal.getD · false)).eraseDups :=
    mem_eraseDups.mpr (mem_filter.mpr ⟨mem_filterMap.mpr ⟨i, hi, hnext⟩, ht⟩)
  rw [firstRead_eq hx, shiftable]
  simp only [hq]
  split
  · exact mem_toArray.mpr (mem_append_left _ hmem)
  · exact mem_toArray.mpr hmem

theorem CanRead.atEnd (hx : a.transitions.find? 0 s = some x)
    (hs : (a.grammar.rule 0).right.getD 0 0 = s) : a.CanRead 0 s Indexed.endId := by
  refine ⟨x, x, hx, .refl, ?_⟩
  rw [firstRead_eq hx, shiftable]
  dsimp only
  rw [hs, if_pos (by simp)]
  exact mem_toArray.mpr (mem_append_right _ (mem_singleton_self _))

theorem CanRead.canFollow (h : a.CanRead p s t) : a.CanFollow p s t := by
  obtain ⟨x, y, hx, hreach, ht⟩ := h
  exact ⟨x, x, y, hx, .refl, hreach, ht⟩

theorem CanFollow.last {p' s' : Nat} (h : a.CanFollow p s t) (hi : i ∈ a.stateItems p)
    (hleft : i.left = s) (hx : a.transitions.find? p' s' = some x)
    (hend : x ∈ a.traced.endings p i.rest) : a.CanFollow p' s' t := by
  obtain ⟨y, z, u, hy, hyz, hzu, ht⟩ := h
  refine ⟨x, z, u, hx, .head (mem_includes.mpr ⟨⟨_, list_of_find? hy, i, ?_, hend⟩,
    lt_of_find? hx⟩) hyz, hzu, ht⟩
  exact mem_filter.mpr ⟨hi, decide_eq_true hleft⟩

theorem CanFollow.mem (h : a.CanFollow p s t) (hx : a.transitions.find? p s = some x) :
    t ∈ a.traced.followWalk.elems x := by
  obtain ⟨x', y, z, hx', hxy, hyz, ht⟩ := h
  obtain rfl : x = x' := Option.some.inj (hx.symm.trans hx')
  have hy : y < a.transitions.list.size := by
    rcases Relation.ReflTransGen.cases_tail hxy with rfl | ⟨w, -, hw⟩
    · exact lt_of_find? hx
    · exact a.followPlan.lt _ _ hw
  exact a.followPlan.mem_run (lt_of_find? hx) hxy (a.readPlan.mem_run hy hyz ht)

theorem CanFollow.lookahead {r : Nat} {d : Item} (h : a.CanFollow p s t)
    (hi : a.grammar.startItem r ∈ a.stateItems p) (hleft : (a.grammar.rule r).left = s)
    (hpath : a.path? p (a.grammar.rule r).right = some q) (hd : d ∈ a.stateItems q)
    (hdone : completes a.grammar (a.grammar.startItem r) d) :
    t ∈ a.lookaheads.getD (q, d.rule) #[] := by
  obtain ⟨x, hx⟩ : ∃ x, a.transitions.find? p s = some x := by
    obtain ⟨x, -, -, hx, -⟩ := h
    exact ⟨x, hx⟩
  refine mem_lookaheads (list_of_find? hx) 
    (mem_flatMap.mpr ⟨a.grammar.startItem r, ?_, ?_⟩) (h.mem hx)
  · exact mem_filter.mpr ⟨hi, decide_eq_true hleft⟩
  · have hlast : a.traced.last p (a.grammar.startItem r).rest = q := last_eq hpath
    dsimp only
    rw [hlast]
    exact mem_map.mpr ⟨d, mem_filter.mpr ⟨hd, hdone⟩, rfl⟩

end RtlFlow.Grammar.Automaton
