import Mathlib
import RtlFlow.Ast.Names
import RtlFlow.Proofs.Recursion

/-!
# The names of a renamed tree

The identifiers of a tree are collected in two ways, and replaced in a third one that goes through
all parts but the attributes. The three reach the same identifiers, as no part of a node is both
an attribute and a child.
-/

namespace RtlFlow.Ast

open List

/-- The identifiers that a tree adds to those of the node above it. -/
def identifiersBelow (t : Ast) : Result (List Ast) :=
  if t.is .identifier then pure [t] else identifiers t

/-- A tree whose nodes have nodes as children and stand in one place each; `visits` are the
numbers of the nodes that are gone through. The scope of an identifier has no identifiers. -/
inductive IsTree (visits : List Nat) : Ast → Prop
  | identifier (p : Place) (x : String) {scope : Ast}
      (h : scope = .absent ∨ identifiersBelow scope = .ok []) :
      IsTree visits (.node .identifier p [.text x, scope])
  | node {k : Kind} {p : Place} {parts cs : List Ast} (hk : k ≠ .identifier)
      (hone : p.number = 0 ∨ visits.count p.number = 1)
      (hcs : children (.node k p parts) = .ok cs) (h : ∀ c ∈ cs, IsTree visits c) :
      IsTree visits (.node k p parts)

/-- The second tree is the first with new names for some identifiers, which have no scope then. -/
inductive Substituted (ids : Table String String) : Ast → Ast → Prop
  | new {p : Place} {x y : String} {scope : Ast} (h : ids.get? x = some y) :
      Substituted ids (.node .identifier p [.text x, scope])
        (.node .identifier {} [.text y, .absent])
  | same {p : Place} {x : String} {scope : Ast} (h : ids.get? x = none) :
      Substituted ids (.node .identifier p [.text x, scope])
        (.node .identifier p [.text x, scope])
  | node {k : Kind} {p : Place} {parts parts' cs cs' : List Ast} (hk : k ≠ .identifier)
      (hattrs : attrs (.node k p parts') = attrs (.node k p parts))
      (hcs : children (.node k p parts) = .ok cs) (hcs' : children (.node k p parts') = .ok cs')
      (h : Forall₂ (Substituted ids) cs cs') :
      Substituted ids (.node k p parts) (.node k p parts')

variable {ids : Table String String} {visits : List Nat} {k : Kind} {p : Place}
  {parts cs : List Ast} {t : Ast} {n : Nat}

/-! ## Parts and children -/

theorem not_attr_of_slot (k : Kind) :
    ∀ s ∈ k.shape.slots, k.shape.attrs.contains s.index = false := by
  cases k <;> decide

theorem getElem?_renameParts (as : List Nat) : ∀ (parts : List Ast) (i j : Nat),
    (renameParts ids visits n as j parts)[i]? =
      parts[i]?.map fun t => if as.contains (j + i) then t else renameAt ids visits n t
  | [], i, j => by simp [renameParts]
  | t :: ts, 0, j => by simp [renameParts]
  | t :: ts, i + 1, j => by
    rw [renameParts, getElem?_cons_succ, getElem?_cons_succ, getElem?_renameParts as ts i (j + 1),
      Nat.add_right_comm, Nat.add_assoc]

theorem renameAll_eq_map (ts : List Ast) :
    renameAll ids visits n ts = ts.map (renameAt ids visits n) := by
  induction ts with
  | nil => rw [renameAll, map_nil]
  | cons t ts ih => rw [renameAll, map_cons, ih]

theorem exists_renameAt_node (k : Kind) (p : Place) (parts : List Ast) :
    ∃ p' parts', renameAt ids visits n (.node k p parts) = .node k p' parts' := by
  by_cases hk : k = .identifier
  · subst hk
    rw [renameAt]
    fun_induction renamed ids n p parts with
    | case2 n p name rest new _ ih => exact ih
    | _ => exact ⟨_, _, rfl⟩
  · exact ⟨_, _, renameAt.eq_2 _ _ _ _ _ _ hk⟩

theorem members_renameAt (t : Ast) : (renameAt ids visits n t).isPresent = t.isPresent ∧
    (renameAt ids visits n t).members = t.members.map (List.map (renameAt ids visits n)) := by
  cases t with
  | node k p parts =>
    obtain ⟨p', parts', h⟩ := @exists_renameAt_node ids visits n k p parts
    rw [h]
    exact ⟨rfl, rfl⟩
  | seq items =>
    rw [renameAt, renameAll_eq_map]
    exact ⟨by simp [isPresent], rfl⟩
  | path p =>
    rw [renameAt]
    exact ⟨rfl, rfl⟩
  | atom a =>
    rw [renameAt]
    refine ⟨rfl, ?_⟩
    cases a with
    | text s =>
      -- The members of a text are its characters, which are no identifiers.
      refine congrArg Except.ok ?_
      rw [map_map]
      exact map_congr_left fun c _ => by rw [Function.comp_apply, text, renameAt]
    | _ => rfl

theorem slotChildren_renameParts {as : List Nat} {slot : Slot}
    (h : as.contains slot.index = false) :
    slotChildren (renameParts ids visits n as 0 parts) slot =
      (slotChildren parts slot).map (List.map (renameAt ids visits n)) := by
  have hpart : (renameParts ids visits n as 0 parts)[slot.index]? =
      parts[slot.index]?.map (renameAt ids visits n) := by
    rw [getElem?_renameParts, Nat.zero_add, h]
    rfl
  cases slot with
  | one i | each i =>
    rw [Slot.index] at hpart
    rw [slotChildren, slotChildren, hpart]
    cases parts[i]? with
    | none => rfl
    | some t =>
      obtain ⟨hpresent, hmembers⟩ := @members_renameAt ids visits n t
      simp only [Option.map_some, hpresent, hmembers]
      split <;> rfl

theorem children_renameParts (h : children (.node k p parts) = .ok cs) :
    children (.node k p (renameParts ids visits n k.shape.attrs 0 parts)) =
      .ok (cs.map (renameAt ids visits n)) := by
  rw [children] at h ⊢
  obtain ⟨lists, hlists, ⟨⟩⟩ := bind_eq_ok.mp h
  have hslots := (forall₂_and_left _ _).mpr ⟨not_attr_of_slot k, mapM_eq_ok.mp hlists⟩
  have hrenamed : k.shape.slots.mapM
      (slotChildren (renameParts ids visits n k.shape.attrs 0 parts)) =
        .ok (lists.map (List.map (renameAt ids visits n))) := by
    refine mapM_eq_ok.mpr (forall₂_map_right_iff.mpr (hslots.imp fun slot list hslot => ?_))
    rw [slotChildren_renameParts hslot.1, hslot.2]
    rfl
  rw [hrenamed, ok_bind, map_flatten]
  rfl

theorem attrs_renameParts : attrs (.node k p (renameParts ids visits n k.shape.attrs 0 parts)) =
    attrs (.node k p parts) := by
  refine filterMap_congr fun i hi => ?_
  simp [getElem?_renameParts, hi]

/-! ## Collecting and replacing -/

theorem identifiersBelow_node (hk : k ≠ .identifier) :
    identifiersBelow (.node k p parts) = identifiers (.node k p parts) :=
  if_neg (by simpa [is, kind?] using hk)

theorem identifiers_node (hcs : children (.node k p parts) = .ok cs) :
    identifiers (.node k p parts) = do
      return (if k = .identifier then [.node k p parts] else []) ++
        (← cs.mapM identifiersBelow).flatten := by
  rw [identifiers, fold]
  simp only [gather_foldParts _ _ k p, hcs, Bool.and_false, Bool.false_eq_true, if_false,
    Except.map, ok_bind, mapM_map]
  refine congrArg (cs.mapM · >>= _) (funext fun c => ?_)
  cases c with
  | node k p parts =>
    by_cases hk : k = .identifier
    · subst hk
      rfl
    · rw [Function.comp_apply, identifiersBelow_node hk, identifiers, fold]
      simp [hk]
  | _ => rfl

theorem names_node (hk : k ≠ .identifier) (hcs : children (.node k p parts) = .ok cs) :
    names (.node k p parts) = do return (← cs.mapM names).flatten := by
  rw [names, fold]
  simp only [gather_foldParts _ _ k p, hcs, hk, if_false, Except.map, ok_bind, mapM_map]
  rfl

/-- The identifiers `us` with the names `xs` are those of a tree `t`, which is renamed to `t'`. -/
structure Collects (ids : Table String String) (t t' : Ast) (us : List Ast) (xs : List String) :
    Prop where
  found : identifiersBelow t = .ok us
  named : us.map (part "name") = xs.map fun x => .ok (.text x)
  before : names t = .ok (xs.map text)
  after : names t' = .ok (xs.map fun x => .text ((ids.get? x).getD x))
  substituted : Substituted ids t t'

theorem collects_identifier (x : String) (scope : Ast) :
    Collects ids (.node .identifier p [.text x, scope])
      (renameAt ids visits 1 (.node .identifier p [.text x, scope]))
      [.node .identifier p [.text x, scope]] [x] := by
  rw [renameAt]
  simp only [renamed, text]
  split
  · rename_i y hy
    exact ⟨rfl, rfl, rfl, by rw [map_singleton, hy]; rfl, .new hy⟩
  · rename_i hx
    exact ⟨rfl, rfl, rfl, by rw [map_singleton, hx]; rfl, .same hx⟩

theorem IsTree.collects (h : IsTree visits t) (ids : Table String String) :
    ∃ us xs, Collects ids t (renameAt ids visits 1 t) us xs := by
  induction h with
  | identifier p x => exact ⟨_, _, collects_identifier x _⟩
  | @node k p parts cs hk hone hcs _ ih =>
    choose! us xs hcollects using ih
    have hcount : (if p.number = 0 then 1 else visits.count p.number) = 1 := by
      rcases hone with h | h <;> simp [h]
    have hcs' := @children_renameParts ids visits _ _ _ _ 1 hcs
    rw [renameAt.eq_2 _ _ _ _ _ _ hk, hcount]
    refine ⟨cs.flatMap us, cs.flatMap xs, ?_, ?_, ?_, ?_, .node hk attrs_renameParts hcs hcs' ?_⟩
    · rw [identifiersBelow_node hk, identifiers_node hcs,
        mapM_eq_ok_map fun c hc => (hcollects c hc).found, if_neg hk]
      rfl
    · rw [map_flatMap, map_flatMap]
      exact flatMap_congr fun c hc => (hcollects c hc).named
    · rw [names_node hk hcs, mapM_eq_ok_map fun c hc => (hcollects c hc).before, map_flatMap]
      rfl
    · rw [names_node hk hcs', mapM_map, Function.comp_def,
        mapM_eq_ok_map fun c hc => (hcollects c hc).after, map_flatMap]
      rfl
    · rw [forall₂_map_right_iff, forall₂_same]
      exact fun c hc => (hcollects c hc).substituted

/-- In a tree whose nodes stand in one place each, both collections find the same names, and
renaming replaces each of them once and all at once. The kinds, attributes and children of the
other nodes stay. -/
theorem rename_collected (ids : Table String String) (h : IsTree (visited t) t) :
    ∃ (us : List Ast) (xs : List String), identifiers t = .ok us ∧
      us.map (part "name") = xs.map (fun x => .ok (.text x)) ∧
      names t = .ok (xs.map text) ∧
      names (rename ids t) = .ok (xs.map fun x => .text ((ids.get? x).getD x)) ∧
      Substituted ids t (rename ids t) := by
  obtain ⟨us, xs, hfound, hnamed, hbefore, hafter, hsubst⟩ := h.collects ids
  refine ⟨us, xs, ?_, hnamed, hbefore, hafter, hsubst⟩
  cases h with
  | @identifier p x scope h =>
    -- Only the identifier that is the whole tree is asked for the identifiers of its scope.
    rw [← hfound]
    rcases h with rfl | h
    · rfl
    · cases scope with
      | node k q ps =>
        have hcs : children (.node .identifier p [.text x, .node k q ps]) = .ok [.node k q ps] :=
          rfl
        rw [identifiers_node hcs, mapM_cons, h]
        rfl
      | _ => cases h
  | node hk => rwa [identifiersBelow_node hk] at hfound

/-- A swap of two names, of which one has a scope. -/
theorem rename_collected_swap :
    let scope : Ast :=
      .node .identifierScope {} [.seq [.node .identifierScopeLabel {} [.text "u", .absent]]]
    let t : Ast := .node .plus ⟨1, 2⟩ [.node .identifier {} [.text "a", scope],
      .node .uminus ⟨1, 1⟩ [.node .identifier {} [.text "b", .absent]]]
    let ids : Table String String := ⟨[("a", "b"), ("b", "a")]⟩
    IsTree (visited t) t ∧ ∃ (us : List Ast) (xs : List String), identifiers t = .ok us ∧
      us.map (part "name") = xs.map (fun x => .ok (.text x)) ∧ names t = .ok (xs.map text) ∧
      names (rename ids t) = .ok (xs.map fun x => .text ((ids.get? x).getD x)) ∧
      Substituted ids t (rename ids t) := by
  intro scope t ids
  have h : IsTree (visited t) t := by
    refine .node (by decide) (.inr (by decide)) rfl (forall_mem_cons.mpr
      ⟨.identifier _ _ (.inr rfl), forall_mem_singleton.mpr ?_⟩)
    refine .node (by decide) (.inr (by decide)) rfl ?_
    exact forall_mem_singleton.mpr (.identifier _ _ (.inl rfl))
  exact ⟨h, rename_collected _ h⟩

end RtlFlow.Ast
