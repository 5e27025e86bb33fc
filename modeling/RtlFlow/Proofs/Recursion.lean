import Mathlib
import RtlFlow.Proofs.Ast
import RtlFlow.Proofs.Computation

/-!
# Recursion over syntax trees

A fold treats the parts of a node and the members of these parts. What it finds for the children
of a node are its results for the children.
-/

namespace RtlFlow.Ast

open List

theorem sizeOf_lt_of_members {t u : Ast} {us : List Ast} (h : t.members = .ok us) (hu : u ∈ us)
    (hnode : u.kind?.isSome) : sizeOf u < sizeOf t := by
  cases t with
  | seq items =>
    cases h
    have := sizeOf_lt_of_mem hu
    simp only [seq.sizeOf_spec]
    omega
  | atom a =>
    cases a with
    | text s =>
      cases h
      obtain ⟨c, -, rfl⟩ := mem_map.mp hu
      cases hnode
    | _ => cases h
  | path p =>
    cases h
    cases hu
  | node k p parts => cases h

/-- Induction over syntax trees: for a node the statement may be used for its parts and for the
members of its parts. -/
theorem induct {P : Ast → Prop} (leaf : ∀ t, t.kind? = none → P t)
    (node : ∀ k place parts, (∀ t ∈ parts, P t) →
      (∀ t ∈ parts, ∀ us, t.members = .ok us → ∀ u ∈ us, P u) → P (.node k place parts)) :
    ∀ t, P t
  | .atom a => leaf (.atom a) rfl
  | .path p => leaf (.path p) rfl
  | .seq items => leaf (.seq items) rfl
  | .node k place parts => by
    refine node k place parts (fun t _ => induct leaf node t) fun t ht us hus u hu => ?_
    by_cases hnode : u.kind?.isSome
    · have hlt := sizeOf_lt_of_members hus hu hnode
      exact induct leaf node u
    · exact leaf u (by simpa using hnode)
termination_by t => sizeOf t
decreasing_by
  · have := sizeOf_lt_of_mem ‹_ ∈ parts›
    simp only [Ast.node.sizeOf_spec]
    omega
  · have := sizeOf_lt_of_mem ‹_ ∈ parts›
    simp only [Ast.node.sizeOf_spec]
    omega

section Fold

variable {β : Type} (leaf : Ast → β) (node : Kind → Place → List Ast → List (Found β) → β)

theorem foldAll_eq_map (ts : List Ast) : foldAll leaf node ts = ts.map (fold leaf node) := by
  induction ts with
  | nil => rw [foldAll, map_nil]
  | cons t ts ih => rw [foldAll, map_cons, ih]

theorem fold_leaf {t : Ast} (h : t.kind? = none) : fold leaf node t = leaf t := by
  cases t with
  | node => cases h
  | _ => rw [fold]

theorem foldMembers_eq_map (t : Ast) :
    foldMembers leaf node t = t.members.map (List.map (fold leaf node)) := by
  cases t with
  | seq items => rw [foldMembers, foldAll_eq_map]; rfl
  | atom a =>
    cases a with
    | text s =>
      rw [foldMembers, members]
      have hchars : (s.toList.map fun c => text (String.singleton c)).map (fold leaf node) =
          s.toList.map fun c => leaf (text (String.singleton c)) := by
        rw [map_map]
        exact map_congr_left fun c _ => fold_leaf leaf node rfl
      exact congrArg Except.ok hchars.symm
    | _ => rfl
  | path p => rfl
  | node => rfl

theorem foldParts_eq_map (ts : List Ast) :
    foldParts leaf node ts = ts.map fun t =>
      ⟨t.isPresent, fold leaf node t, t.members.map (List.map (fold leaf node))⟩ := by
  induction ts with
  | nil => rw [foldParts, map_nil]
  | cons t ts ih => rw [foldParts, map_cons, ih, foldMembers_eq_map]

theorem forall_foldParts {P : β → Prop} {parts : List Ast}
    (hparts : ∀ t ∈ parts, P (fold leaf node t))
    (hmembers : ∀ t ∈ parts, ∀ us, t.members = .ok us → ∀ u ∈ us, P (fold leaf node u)) :
    ∀ f ∈ foldParts leaf node parts, P f.whole ∧ ∀ xs, f.each = .ok xs → ∀ x ∈ xs, P x := by
  intro f hf
  rw [foldParts_eq_map] at hf
  obtain ⟨t, ht, rfl⟩ := mem_map.mp hf
  refine ⟨hparts t ht, fun xs hxs x hx => ?_⟩
  cases hus : t.members with
  | error e =>
    rw [hus] at hxs
    cases hxs
  | ok us =>
    rw [hus] at hxs
    cases hxs
    obtain ⟨u, hu, rfl⟩ := mem_map.mp hx
    exact hmembers t ht us hus u hu

theorem gather_slots (parts : List Ast) (slots : List Slot) :
    gather (foldParts leaf node parts) slots =
      (slots.mapM (slotChildren parts)).map fun lists => lists.flatten.map (fold leaf node) := by
  rw [foldParts_eq_map]
  induction slots with
  | nil => rfl
  | cons slot slots ih =>
    rw [mapM_cons]
    cases slot with
    | one i =>
      rw [gather, ih, List.getElem?_map, slotChildren]
      cases slots.mapM (slotChildren parts) with
      | error f => rfl
      | ok lists =>
        cases parts[i]? with
        | none => rfl
        | some t =>
          by_cases ht : t.isPresent <;>
            simp [ht, Except.map]
    | each i =>
      rw [gather, ih, List.getElem?_map, slotChildren]
      cases hrest : slots.mapM (slotChildren parts) with
      | error f =>
        cases parts[i]? with
        | none => rfl
        | some t =>
          by_cases ht : t.isPresent
          · cases hm : t.members <;> simp [ht, hm, Except.map]
          · simp [ht, Except.map]
      | ok lists =>
        cases parts[i]? with
        | none => rfl
        | some t =>
          by_cases ht : t.isPresent
          · cases hm : t.members <;>
              simp [ht, hm, Except.map]
          · simp [ht, Except.map]

theorem gather_foldParts (k : Kind) (place : Place) (parts : List Ast) :
    gather (foldParts leaf node parts) k.shape.slots =
      (children (.node k place parts)).map (List.map (fold leaf node)) := by
  rw [gather_slots, children]
  cases k.shape.slots.mapM (slotChildren parts) <;> rfl

end Fold

theorem mem_gather {β : Type} {found : List (Found β)} {slots : List Slot} {xs : List β}
    (h : gather found slots = .ok xs) {x : β} (hx : x ∈ xs) :
    ∃ f ∈ found, x = f.whole ∨ ∃ ys, f.each = .ok ys ∧ x ∈ ys := by
  induction slots generalizing xs with
  | nil =>
    cases h
    cases hx
  | cons slot slots ih =>
    cases slot with
    | one i =>
      obtain ⟨rest, hrest, h⟩ := bind_eq_ok.mp h
      cases h
      split at hx
      · rename_i f hf
        split at hx
        · rcases mem_cons.mp hx with rfl | hx
          · exact ⟨f, mem_of_getElem? hf, .inl rfl⟩
          · exact ih hrest hx
        · exact ih hrest hx
      · exact ih hrest hx
    | each i =>
      have hcons : ∀ here : List β, (do
          let rest ← gather found slots
          return here ++ rest : Result (List β)) = .ok xs → x ∈ here ∨
            ∃ f ∈ found, x = f.whole ∨ ∃ ys, f.each = .ok ys ∧ x ∈ ys := by
        intro here h
        obtain ⟨rest, hrest, h⟩ := bind_eq_ok.mp h
        cases h
        exact (mem_append.mp hx).imp id (ih hrest)
      rw [gather] at h
      split at h
      · rename_i f hf
        split at h
        · obtain ⟨here, hhere, h⟩ := bind_eq_ok.mp h
          exact (hcons here h).elim
            (fun hx => ⟨f, mem_of_getElem? hf, .inr ⟨here, hhere, hx⟩⟩) id
        · exact (hcons [] h).elim nofun id
      · exact (hcons [] h).elim nofun id

theorem mem_children {k : Kind} {place : Place} {parts cs : List Ast}
    (h : children (.node k place parts) = .ok cs) {c : Ast} (hc : c ∈ cs) :
    c ∈ parts ∨ ∃ t ∈ parts, ∃ us, t.members = .ok us ∧ c ∈ us := by
  rw [children] at h
  obtain ⟨lists, hlists, h⟩ := bind_eq_ok.mp h
  cases h
  obtain ⟨list, hlist, hc⟩ := mem_flatten.mp hc
  obtain ⟨slot, -, hslot⟩ := exists_of_mem_mapM hlists hlist
  cases slot with
  | one i =>
    rw [slotChildren] at hslot
    cases hslot
    split at hc
    · rename_i t ht
      split at hc
      · obtain rfl := mem_singleton.mp hc
        exact .inl (mem_of_getElem? ht)
      · cases hc
    · cases hc
  | each i =>
    rw [slotChildren] at hslot
    split at hslot
    · rename_i t ht
      split at hslot
      · exact .inr ⟨t, mem_of_getElem? ht, list, hslot, hc⟩
      · cases hslot
        cases hc
    · cases hslot
      cases hc

end RtlFlow.Ast
