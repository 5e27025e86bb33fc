import Mathlib
import RtlFlow.Proofs.Flow.Comparing
import RtlFlow.Proofs.Flow.Conditions

/-!
# Flat conjunctions and disjunctions

Nested conjunctions are gathered in one list, and so are nested disjunctions; a conjunction inside a
disjunction is made flat on its own. Members that are equal are dropped, two opposed members decide
the whole, and the rest is sorted and joined again. This only asks that trees can be compared,
negated and written; what else the result keeps is left open, so that one argument serves every
reading of conditions.
-/

namespace RtlFlow.Optimizer

open List

/-- A reading of trees as true or false under which conjunctions and disjunctions can be made flat:
trees with `cond` can be compared, and those with `kept` are what the result is made of. -/
structure Connects (truth : Tree → Bool) (cond kept : Tree → Prop) : Prop where
  cond_of_kept : ∀ {t}, kept t → cond t
  present : ∀ {t}, kept t → t.isHole = false
  equal : ∀ {t u}, cond t → cond u → Yields (fun b => b = true → truth t = truth u) (t.equal u)
  negated : ∀ {t}, kept t → Yields (fun n => cond n ∧ truth n = !truth t) (negated t)
  code : ∀ {t}, kept t → Yields (fun _ => True) (t.toCode (some "dest"))
  join : ∀ {name d a b}, decisive? name = some d → kept a → kept b → kept (.op name [a, b])
  decides : ∀ {name d} (a b), decisive? name = some d →
    (truth (.op name [a, b]) = d ↔ truth a = d ∨ truth b = d)
  kept_bit : ∀ b, kept (bit b)
  truth_bit : ∀ b, truth (bit b) = b

theorem eq_of_argsOf? {t : Tree} {name : String} {args : List Tree} (h : argsOf? name t = some args) :
    t = .op name args := by
  unfold argsOf? at h
  split at h
  · split at h
    · next hname =>
      cases h
      rw [eq_of_beq hname]
    · cases h
  · cases h

variable {truth : Tree → Bool} {cond kept : Tree → Prop}

/-- Members without repetitions, or none where two of them are opposed. -/
def Sifted (truth : Tree → Bool) (ms : List Tree) : Option (List Tree) → Prop
  | some us => us ⊆ ms ∧ ∀ t ∈ ms, ∃ u ∈ us, truth u = truth t
  | none => ∃ t ∈ ms, ∃ u ∈ ms, truth u = !truth t

theorem Sifted.of_subset {ms ms' : List Tree} {x : Option (List Tree)} (h : Sifted truth ms x)
    (hsub : ms ⊆ ms') (htruth : ∀ t ∈ ms', ∃ u ∈ ms, truth u = truth t) : Sifted truth ms' x := by
  cases x with
  | some us =>
    refine ⟨List.Subset.trans h.1 hsub, fun t ht => ?_⟩
    obtain ⟨u, hu, heq⟩ := htruth t ht
    obtain ⟨v, hv, heq'⟩ := h.2 u hu
    exact ⟨v, hv, heq'.trans heq⟩
  | none =>
    obtain ⟨t, ht, u, hu, heq⟩ := h
    exact ⟨t, hsub ht, u, hsub hu, heq⟩

/-- Trees that stand for a conjunction or disjunction together: one of them has the decisive truth
if the whole has it. -/
structure Gathers (truth : Tree → Bool) (kept : Tree → Prop) (d whole : Bool) (ms : List Tree) :
    Prop where
  kept : ∀ m ∈ ms, kept m
  ne_nil : ms ≠ []
  truth : (∃ m ∈ ms, truth m = d) ↔ whole = d

namespace Gathers

variable {d whole : Bool} {u : Tree} {ms : List Tree}

theorem one (hu : kept u) (htruth : truth u = whole) : Gathers truth kept d whole [u] where
  kept := by simpa using hu
  ne_nil := nofun
  truth := by simp [htruth]

theorem of_one (h : Gathers truth kept d whole [u]) : kept u ∧ truth u = whole := by
  have htruth : truth u = d ↔ whole = d := by simpa using h.truth
  refine ⟨h.kept u (by simp), ?_⟩
  cases d <;> simpa using htruth

theorem append {a b : Bool} {ms' : List Tree} (hwhole : whole = d ↔ a = d ∨ b = d)
    (ha : Gathers truth kept d a ms) (hb : Gathers truth kept d b ms') :
    Gathers truth kept d whole (ms ++ ms') where
  kept m hm := (mem_append.mp hm).elim (ha.kept m) (hb.kept m)
  ne_nil := append_ne_nil_of_left_ne_nil ha.ne_nil ms'
  truth := by
    rw [hwhole, ← ha.truth, ← hb.truth]
    simp [or_and_right, exists_or]

theorem of_subset {us : List Tree} (h : Gathers truth kept d whole ms) (hsub : us ⊆ ms)
    (htruth : ∀ t ∈ ms, ∃ u ∈ us, truth u = truth t) : Gathers truth kept d whole us where
  kept m hm := h.kept m (hsub hm)
  ne_nil := by
    rintro rfl
    obtain ⟨t, ht⟩ := exists_mem_of_ne_nil ms h.ne_nil
    obtain ⟨u, hu, _⟩ := htruth t ht
    cases hu
  truth := by
    rw [← h.truth]
    constructor
    · rintro ⟨u, hu, hd⟩
      exact ⟨u, hsub hu, hd⟩
    · rintro ⟨t, ht, hd⟩
      obtain ⟨u, hu, heq⟩ := htruth t ht
      exact ⟨u, hu, heq.trans hd⟩

theorem truth_of_opposed {t : Tree} (h : Gathers truth kept d whole ms) (ht : t ∈ ms)
    (hu : u ∈ ms) (hopposed : truth u = !truth t) : whole = d := by
  rw [← h.truth]
  by_cases hd : truth t = d
  · exact ⟨t, ht, hd⟩
  · exact ⟨u, hu, by rw [hopposed, Bool.not_eq.mpr hd]⟩

end Gathers

namespace Connects

variable {t : Tree} {d whole : Bool} {name : String}

variable (hc : Connects truth cond kept)

include hc

theorem elemOf_yields {us : List Tree} (ht : cond t) (hus : ∀ u ∈ us, cond u) :
    Yields (fun b => b = true → ∃ u ∈ us, truth u = truth t) (t.elemOf us) := by
  induction us with
  | nil => exact .pure fun h => absurd h (by decide)
  | cons u us ih =>
    refine (hc.equal (hus u (by simp)) ht).bind fun b hb => ?_
    cases b with
    | true => exact .pure fun _ => ⟨u, by simp, hb rfl⟩
    | false =>
      refine (ih fun u hu => hus u (.tail _ hu)).mono fun b hrest heq => ?_
      obtain ⟨v, hv, htruth⟩ := hrest heq
      exact ⟨v, .tail _ hv, htruth⟩

theorem distinct_yields {ks ts : List Tree} (hks : ∀ t ∈ ks, kept t) (hts : ∀ t ∈ ts, kept t) :
    Yields (Sifted truth (ks ++ ts)) (distinct ks ts) := by
  induction ts generalizing ks with
  | nil =>
    rw [append_nil]
    exact .pure ⟨(reverse_perm ks).subset, fun t ht => ⟨t, mem_reverse.mpr ht, rfl⟩⟩
  | cons t ts ih =>
    have ht := hts t (by simp)
    have hts' : ∀ u ∈ ts, kept u := fun u hu => hts u (.tail _ hu)
    have hrev : ∀ u ∈ ks.reverse, cond u := fun u hu =>
      hc.cond_of_kept (hks u (mem_reverse.mp hu))
    refine (hc.negated ht).bind fun n hn => ?_
    refine (hc.elemOf_yields hn.1 hrev).bind fun b hb => ?_
    cases b with
    | true =>
      obtain ⟨u, hu, htruth⟩ := hb rfl
      have hmem : u ∈ ks ++ t :: ts := mem_append_left _ (mem_reverse.mp hu)
      exact .pure ⟨t, by simp, u, hmem, htruth.trans hn.2⟩
    | false =>
      refine (hc.elemOf_yields (hc.cond_of_kept ht) hrev).bind fun e he => ?_
      cases e with
      | true =>
        obtain ⟨v, hv, htruth⟩ := he rfl
        refine (ih hks hts').mono fun x hx => hx.of_subset ?_ fun u hu => ?_
        · exact ((sublist_cons_self t ts).append_left ks).subset
        · rcases mem_cons.mp (perm_middle.mem_iff.mp hu) with rfl | hu
          · exact ⟨v, mem_append_left _ (mem_reverse.mp hv), htruth⟩
          · exact ⟨u, hu, rfl⟩
      | false =>
        have hcons : ∀ u ∈ t :: ks, kept u := by
          simpa using ⟨ht, hks⟩
        refine (ih hcons hts').mono fun x hx => hx.of_subset ?_ fun u hu => ?_
        · exact perm_middle.symm.subset
        · exact ⟨u, perm_middle.subset hu, rfl⟩

theorem sortByCode_yields {ts : List Tree} (h : ∀ t ∈ ts, kept t) :
    Yields (fun us => us.Perm ts) (sortByCode ts) := by
  have hkeyed : Yields (fun keyed : List (Tree × List Char) => keyed.map Prod.fst = ts)
      (ts.mapM fun t => do return (t, (← t.toCode (some "dest")).toList)) := by
    induction ts with
    | nil => exact .pure rfl
    | cons t ts ih =>
      rw [mapM_cons]
      obtain ⟨s, hs, _⟩ := hc.code (h t (by simp))
      rw [hs]
      refine (ih fun u hu => h u (.tail _ hu)).bind fun keyed hk => .pure ?_
      rw [map_cons, hk]
  refine hkeyed.bind fun keyed hk => .pure ?_
  rw [← hk]
  exact (mergeSort_perm keyed _).map Prod.fst

theorem flatten_yields {a b : Bool} {left right : Flat} (hwhole : whole = d ↔ a = d ∨ b = d)
    (ha : Gathers truth kept d a left.members) (hb : Gathers truth kept d b right.members) :
    Yields (fun f => Gathers truth kept d whole f.members) (flatten (bit d) left right) := by
  have hboth := ha.append hwhole hb
  refine (hc.distinct_yields (by simp) hboth.kept).bind fun x hx => ?_
  rw [nil_append] at hx
  cases x with
  | none =>
    obtain ⟨t, ht, u, hu, hopposed⟩ := hx
    have htruth := hboth.truth_of_opposed ht hu hopposed
    exact .pure (.one (hc.kept_bit d) ((hc.truth_bit d).trans htruth.symm))
  | some us =>
    have hus := hboth.of_subset hx.1 hx.2
    refine (hc.sortByCode_yields hus.kept).bind fun vs hvs => .pure ?_
    exact hus.of_subset hvs.subset fun t ht => ⟨t, hvs.mem_iff.mpr ht, rfl⟩

theorem gathers_join {u : Tree} {ms : List Tree} (hname : decisive? name = some d)
    (h : Gathers truth kept d whole (t :: u :: ms)) :
    Gathers truth kept d whole (.op name [t, u] :: ms) where
  kept := by
    have hkept := h.kept
    simp only [forall_mem_cons] at hkept ⊢
    exact ⟨hc.join hname hkept.1 hkept.2.1, hkept.2.2⟩
  ne_nil := nofun
  truth := by
    rw [← h.truth]
    simp [hc.decides t u hname, or_assoc]

theorem mkOp_eq {a b : Tree} (ha : kept a) (hb : kept b) :
    Tree.mkOp name [a, b] = .ok (.op name [a, b]) := by
  simp [Tree.mkOp, hc.present ha, hc.present hb]

theorem chain_yields {f : Flat} (hname : decisive? name = some d)
    (h : Gathers truth kept d whole f.members) :
    Yields (fun u => kept u ∧ truth u = whole) (chain name f) := by
  match f, h with
  | .one t, h => exact .pure h.of_one
  | .many [], h => exact absurd rfl h.ne_nil
  | .many (t :: ts), h =>
    show Yields _ (ts.foldlM (fun acc u => Tree.mkOp name [acc, u]) t)
    replace h : Gathers truth kept d whole (t :: ts) := h
    induction ts generalizing t with
    | nil => exact .pure h.of_one
    | cons u ts ih =>
      rw [foldlM_cons, hc.mkOp_eq (h.kept t (by simp)) (h.kept u (by simp))]
      exact ih (.op name [t, u]) (hc.gathers_join hname h)

/-! ## Gathering the members of a tree -/

variable (good : Tree → Prop) (hgood : ∀ {t}, good t → kept t)
  (hoperands : ∀ {name d args}, decisive? name = some d → good (.op name args) →
    ∃ a b, args = [a, b] ∧ good a ∧ good b)

include hgood hoperands

omit hgood in
theorem members_yields (name : String) {members : Tree → Result Flat}
    (hname : decisive? name = some d)
    (hjoin : ∀ a b, members (.op name [a, b]) = do flatten (bit d) (← members a) (← members b))
    (hother : ∀ t, good t → (∀ args, t ≠ .op name args) →
      Yields (fun f => Gathers truth kept d (truth t) f.members) (members t)) (t : Tree)
    (ht : good t) : Yields (fun f => Gathers truth kept d (truth t) f.members) (members t) := by
  by_cases hop : ∃ args, t = .op name args
  · obtain ⟨args, rfl⟩ := hop
    obtain ⟨a, b, rfl, ha, hb⟩ := hoperands hname ht
    rw [hjoin]
    exact (members_yields name hname hjoin hother a ha).bind fun _ hleft =>
      (members_yields name hname hjoin hother b hb).bind fun _ hright =>
        hc.flatten_yields (hc.decides a b hname) hleft hright
  · exact hother t ht (not_exists.mp hop)

theorem mergeLand_yields (ht : good t) :
    Yields (fun u => kept u ∧ truth u = truth t) (mergeLand t) := by
  refine (hc.members_yields good hoperands "Land" rfl (fun a b => by rw [landMembers]; rfl)
    (fun t ht hne => ?_) t ht).bind fun _ hf => hc.chain_yields rfl hf
  unfold landMembers
  split
  · next name args =>
    rw [if_neg fun hname => hne args (by rw [eq_of_beq hname])]
    exact .pure (.one (hgood ht) rfl)
  · exact .pure (.one (hgood ht) rfl)

theorem mergeLor_yields (ht : good t) :
    Yields (fun u => kept u ∧ truth u = truth t) (mergeLor t) := by
  refine (hc.members_yields good hoperands "Lor" rfl (fun a b => by rw [lorMembers]; rfl)
    (fun t ht hne => ?_) t ht).bind fun _ hf => hc.chain_yields rfl hf
  unfold lorMembers
  split
  · next name args =>
    split
    · exact (hc.mergeLand_yields good hgood hoperands ht).bind fun u hu => .pure (.one hu.1 hu.2)
    · rw [if_neg fun hname => hne args (by rw [eq_of_beq hname])]
      exact .pure (.one (hgood ht) rfl)
  · exact .pure (.one (hgood ht) rfl)

end Connects

end RtlFlow.Optimizer
