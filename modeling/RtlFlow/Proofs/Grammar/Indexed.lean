import Mathlib
import RtlFlow.Proofs.Grammar.Closure

/-!
# Grammars put together from lists

* `Indexed.number_spec`: names that are all different get their places in the list as numbers.
-/

namespace RtlFlow.Grammar.Indexed

open List

/-! ## Numbering -/

/-- The names of a list have their places as numbers. -/
structure Numbers (names : List String) (arr : Array String) (ids : Std.HashMap String Nat) :
    Prop where
  arr_eq : arr = names.toArray
  contains_iff : ∀ n, ids.contains n = true ↔ n ∈ names
  get?_eq : ∀ (i : Nat) (n : String), names[i]? = some n → ids[n]? = some i

variable {names : List String} {arr : Array String} {ids : Std.HashMap String Nat} {x : String}

theorem Numbers.push (h : Numbers names arr ids) (hx : x ∉ names) :
    Numbers (names ++ [x]) (arr.push x) (ids.insert x arr.size) := by
  refine ⟨by simp [h.arr_eq], fun n => ?_, fun i n hn => ?_⟩
  · rw [Std.HashMap.contains_insert, Bool.or_eq_true, h.contains_iff, mem_append,
      mem_singleton, beq_iff_eq, or_comm, eq_comm]
  · rw [Std.HashMap.getElem?_insert, h.arr_eq]
    by_cases hi : i < names.length
    · rw [List.getElem?_append_left hi] at hn
      have hne : x ≠ n := fun h => hx (h ▸ mem_of_getElem? hn)
      simp [hne, h.get?_eq i n hn]
    · rw [List.getElem?_append_right (by omega)] at hn
      obtain ⟨hi', rfl⟩ := List.getElem?_eq_some_iff.mp hn
      simp only [length_singleton] at hi'
      simp only [getElem_singleton, beq_self_eq_true, if_true, size_toArray]
      congr 1
      omega

theorem numbers_number (h : names.Nodup) : Numbers names (number names).1 (number names).2 := by
  have hfold : ∀ (rest done : List String) (p : Array String × Std.HashMap String Nat),
      (done ++ rest).Nodup → Numbers done p.1 p.2 →
      Numbers (done ++ rest)
        (rest.foldl (fun p n => if p.2.contains n then p
          else (p.1.push n, p.2.insert n p.1.size)) p).1
        (rest.foldl (fun p n => if p.2.contains n then p
          else (p.1.push n, p.2.insert n p.1.size)) p).2 := by
    intro rest
    induction rest with
    | nil => intro done p _ h; simpa using h
    | cons x rest ih =>
      intro done p hnodup h
      have hx : x ∉ done := fun hmem =>
        (nodup_append.mp hnodup).2.2 x hmem x mem_cons_self rfl
      have hnew : ¬p.2.contains x = true := fun hc => hx ((h.contains_iff x).mp hc)
      rw [append_cons] at hnodup ⊢
      rw [foldl_cons]
      simp only [if_neg hnew]
      exact ih _ _ hnodup (h.push hx)
  exact hfold names [] (#[], {}) h ⟨rfl, by simp, by simp⟩

/-! ## Tables of functions of the symbols -/

theorem getD_tabulate {α : Type} (n : Nat) (f : Nat → α) (i : Nat) (d : α) :
    (tabulate n f).getD i d = if i < n then f i else d := by
  rw [tabulate, Array.getD_eq_getD_getElem?, Array.getElem?_map, Array.getElem?_range]
  split <;> rfl

section

variable {ts ns : List Nat} {rules : List IndexedRule}
  {prec : List (Nat × Precedence)}

theorem names_assemble :
    (assemble names ts ns rules prec).names = (number names).1 := rfl

theorem ids_assemble :
    (assemble names ts ns rules prec).ids = (number names).2 := rfl

theorem rules_assemble :
    (assemble names ts ns rules prec).rules = rules.toArray := rfl

theorem terminal_assemble {s : Nat} (hs : s < (number names).1.size) :
    (assemble names ts ns rules prec).terminal.getD s false =
      ts.contains s := (getD_tabulate ..).trans (if_pos hs)

theorem nonterminal_assemble {s : Nat} (hs : s < (number names).1.size) :
    (assemble names ts ns rules prec).nonterminal.getD s false =
      ns.contains s := (getD_tabulate ..).trans (if_pos hs)

theorem prec_assemble {s : Nat} (hs : s < (number names).1.size) :
    (assemble names ts ns rules prec).prec.getD s {} =
      (prec.lookup s).getD {} := (getD_tabulate ..).trans (if_pos hs)

theorem rule_assemble (i : Nat) :
    (assemble names ts ns rules prec).rule i = rules.getD i default := by
  simp [assemble, rule]

def startOf (r : IndexedRule × Nat) : Item := ⟨r.2, r.1.left, [], r.1.right⟩

theorem startItem_assemble {r : IndexedRule × Nat} (hr : r ∈ rules.zipIdx) :
    (assemble names ts ns rules prec).startItem r.2 = startOf r := by
  have hget : rules[r.2]? = some r.1 := mk_mem_zipIdx_iff_getElem?.mp hr
  simp [startItem, rule_assemble, hget, startOf]

theorem mem_zipIdx_of_drop {r : IndexedRule × Nat} (hr : r ∈ rules.zipIdx.drop 1) :
    r ∈ rules.zipIdx := (drop_sublist _ _).subset hr

theorem startItems_assemble {s : Nat} (hs : s < (number names).1.size) :
    (assemble names ts ns rules prec).startItems s =
      ((rules.zipIdx.drop 1).filter fun r => r.1.left = s).map startOf := by
  have hrules : (assemble names ts ns rules prec).rulesOf.getD s [] =
      rulesFor rules s := (getD_tabulate ..).trans (if_pos hs)
  rw [startItems, hrules, rulesFor, map_map]
  exact map_congr_left fun r hr =>
    startItem_assemble (mem_zipIdx_of_drop (mem_of_mem_filter hr))

theorem allStarts_assemble :
    (assemble names ts ns rules prec).allStarts =
      (rules.zipIdx.drop 1).map startOf := by
  have hsize : (assemble names ts ns rules prec).rules.size = rules.length := by
    simp [assemble]
  have hrange : List.range rules.length = rules.zipIdx.map Prod.snd := by
    simp [range_eq_range']
  rw [allStarts, hsize, hrange, ← map_drop, map_map]
  exact map_congr_left fun r hr => startItem_assemble (mem_zipIdx_of_drop hr)

theorem wellFormed_assemble (hne : rules ≠ [])
    (hleft : ∀ r ∈ rules, r.left < (number names).1.size)
    (hright : ∀ r ∈ rules, ∀ s ∈ r.right, s < (number names).1.size) :
    (assemble names ts ns rules prec).WellFormed := by
  refine ⟨fun s => ?_, ?_, fun r s hs => ?_⟩
  · rw [allStarts_assemble, filter_map]
    by_cases hs : s < (number names).1.size
    · rw [startItems_assemble hs]
      rfl
    · have hnone : (assemble names ts ns rules prec).rulesOf.getD s [] = [] :=
        (getD_tabulate ..).trans (if_neg hs)
      rw [startItems, hnone, map_nil, eq_comm, map_eq_nil_iff, filter_eq_nil_iff]
      intro r hr hrs
      have hmem : r.1 ∈ rules := fst_mem_of_mem_zipIdx (mem_zipIdx_of_drop hr)
      have hrs : r.1.left = s := of_decide_eq_true hrs
      exact hs (hrs ▸ hleft r.1 hmem)
  · simpa [assemble, length_pos_iff] using hne
  · rw [rule_assemble, getD_eq_getElem?_getD] at hs
    cases hr : rules[r]? with
    | none =>
      rw [hr] at hs
      cases hs
    | some r' =>
      rw [hr] at hs
      exact hright r' (mem_of_getElem? hr) s hs

end

end RtlFlow.Grammar.Indexed
