import Mathlib
import RtlFlow.Flow.Walk
import RtlFlow.Proofs.FlatNames
import RtlFlow.Proofs.Scalar
import RtlFlow.Proofs.Table

/-!
# Walks through definitions end

A walk goes on with the definition of a signal only if the signal was not visited before. What was
visited is told apart by the keys of the terms and the kinds of the labels of a name, so no walk is
deeper than there are keys with kinds. Definitions are folded on the way. Folding goes from a constant
to the constants of its declared range, and it ends if no range refers back to its constant. Both
recursions have bounds; that they end is said without them: whatever stands at the bottom, the same
result comes out.
-/

namespace RtlFlow

open List

/-! ## Names that match -/

/-- Labels of one kind that match a label match each other. -/
theorem Label.same_of_same {k a b : Label} (ha : k == a) (hb : k == b) (hkind : a.kind = b.kind) :
    (b == a) = true := by
  have hsplit {c : Label} (h : k == c) : k.name = c.name ∧ k.loop.same c.loop = true := by
    change k.same c = true at h
    unfold same at h
    split at h <;> simp_all
  obtain ⟨hname, hloop⟩ := hsplit ha
  obtain ⟨hname', hloop'⟩ := hsplit hb
  have hba : b.loop.same a.loop = true := (Scalar.same_congr hloop').symm.trans hloop
  change b.same a = true
  simp [same, hkind, hba, ← hname, ← hname']

theorem Path.same_of_same {k a b : Path} (ha : k == a) (hb : k == b)
    (hkinds : a.labels.map Label.kind = b.labels.map Label.kind) : (b == a) = true := by
  obtain ⟨ks⟩ := k
  obtain ⟨as⟩ := a
  obtain ⟨bs⟩ := b
  change (ks == as) = true at ha
  change (ks == bs) = true at hb
  change (bs == as) = true
  induction ks generalizing as bs with
  | nil => cases as <;> cases bs <;> simp_all
  | cons k ks ih =>
    cases as with
    | nil => cases ha
    | cons a as =>
      cases bs with
      | nil => cases hb
      | cons b bs =>
        simp only [cons_beq_cons, Bool.and_eq_true, map_cons, cons.injEq] at ha hb hkinds ⊢
        exact ⟨Label.same_of_same ha.1 hb.1 hkinds.1, ih as bs hkinds.2 ha.2 hb.2⟩

/-! ## Ranges of constants -/

namespace Tree

mutual

/-- The signals in a tree. -/
def signals : Tree → List Path
  | .term name => [name]
  | .branch t u v | .part t u v => t.signals ++ u.signals ++ v.signals
  | .item t u => t.signals ++ u.signals
  | .op _ ts | .concat ts | .call _ ts => signalsAll ts
  | .delay t => t.signals
  | _ => []

def signalsAll : List Tree → List Path
  | [] => []
  | t :: ts => t.signals ++ signalsAll ts

end

end Tree

namespace Optimizer

variable {o : Optimizer} {f g : Tree → Result Tree}

/-- An end of the declared range of a signal. -/
def IsRangeEnd (o : Optimizer) (p : Path) (u : Tree) : Prop :=
  ∃ t, o.terms.get? p = some t ∧ (u = t.msb ∨ u = t.lsb)

/-- The declared range of `p` refers to the constant `q`. -/
def RangeRefers (o : Optimizer) (p q : Path) : Prop :=
  ∃ u, o.IsRangeEnd p u ∧ q ∈ u.signals ∧ o.consts.contains q ∧ o.terms.contains q

theorem foldTerm_congr {q : Path}
    (h : o.consts.contains q → o.terms.contains q → ∀ u, o.IsRangeEnd q u → f u = g u) :
    o.foldTerm f q = o.foldTerm g q := by
  unfold foldTerm term
  cases hc : o.consts.get? q with
  | none => rfl
  | some c =>
    cases ht : o.terms.get? q with
    | none => rfl
    | some t =>
      specialize h (by rw [Table.contains, hc]; rfl) (by rw [Table.contains, ht]; rfl)
      simp only [orThrow_some, ok_bind, h _ ⟨t, ht, .inl rfl⟩, h _ ⟨t, ht, .inr rfl⟩]

mutual

theorem foldWith_congr : ∀ {t : Tree}, (∀ q ∈ t.signals, o.foldTerm f q = o.foldTerm g q) →
    o.foldWith f t = o.foldWith g t
  | .term q, h => h q mem_cons_self
  | .branch t u v, h | .part t u v, h => by
    simp only [Tree.signals, forall_mem_append] at h
    simp only [foldWith, foldWith_congr h.1.1, foldWith_congr h.1.2, foldWith_congr h.2]
  | .op _ ts, h | .concat ts, h | .call _ ts, h => by
    simp only [foldWith, foldAll_congr h]
  | .item t u, h => by
    simp only [Tree.signals, forall_mem_append] at h
    cases t with
    | term q => simp only [foldWith, h.1 q mem_cons_self, foldWith_congr h.2]
    | _ => rfl
  | .hole, _ | .unbound, _ | .const .., _ | .value .., _ | .unknown _, _ | .floating _, _
  | .delay _, _ => rfl

theorem foldAll_congr : ∀ {ts : List Tree},
    (∀ q ∈ Tree.signalsAll ts, o.foldTerm f q = o.foldTerm g q) → o.foldAll f ts = o.foldAll g ts
  | [], _ => rfl
  | t :: ts, h => by
    simp only [Tree.signalsAll, forall_mem_append] at h
    simp only [foldAll, foldWith_congr h.1, foldAll_congr h.2]

end

theorem chainsEnd_rangeRefers (hranges : ∀ p, ¬ Relation.TransGen o.RangeRefers p p) {p : Path}
    (hp : o.terms.contains p) : ChainsEnd o.RangeRefers o.terms.size p := by
  refine .of_keys (P := fun p => o.terms.contains p) (K := o.terms.entries)
    (fun e p => o.terms.entries.find? (fun e => e.1 == p) = some e) ?_ ?_ ?_ hp
  · rintro p q - ⟨-, -, -, -, hq⟩
    exact hq
  · intro p hp
    rw [Table.contains, Table.get?, Option.isSome_map] at hp
    obtain ⟨e, he⟩ := Option.isSome_iff_exists.mp hp
    exact ⟨e, mem_of_find?_eq_some he, he⟩
  · -- What the range of one name of a constant refers to, the range of each of its names does.
    rintro p q - - hpq e - hp hq
    obtain ⟨r, ⟨u, ⟨t, ht, hu⟩, hr⟩, hrq⟩ := Relation.TransGen.head'_iff.mp hpq
    refine hranges r (.tail' hrq ⟨u, ⟨t, ?_, hu⟩, hr⟩)
    rw [← ht, Table.get?, Table.get?, hp, hq]

theorem foldBounded_eq_iterate (k : Nat) :
    o.foldBounded k = o.foldWith^[k] fun _ => throw .tooDeep := by
  induction k with
  | zero => rfl
  | succ k ih => rw [Function.iterate_succ_apply', ← ih]; rfl

/-- Folding ends: what stands at the bottom of the recursion is never asked. -/
theorem fold_eq_iterate (hranges : ∀ p, ¬ Relation.TransGen o.RangeRefers p p) (t : Tree)
    (bottom : Tree → Result Tree) : o.foldWith^[o.terms.size + 2] bottom t = o.fold t := by
  rw [fold, foldBounded_eq_iterate]
  simp only [Function.iterate_succ_apply' o.foldWith (o.terms.size + 1)]
  refine foldWith_congr fun q _ => foldTerm_congr fun _ hq u hu => ?_
  refine (chainsEnd_rangeRefers hranges hq).iterate_eq o.IsRangeEnd ?_ hu _ _
  intro f g p u hu h
  exact foldWith_congr fun r hr => foldTerm_congr fun hconst hterm v hv =>
    h r v ⟨u, hu, hr, hconst, hterm⟩ hv

end Optimizer

/-! ## Walks -/

namespace Netlist

variable (n : Netlist)

/-- What a walk has visited before and after it goes on with the definition of a signal. -/
def GoesOn (v v' : List Path) : Prop :=
  ∃ name, v' = name :: v ∧ v.contains name = false ∧ n.terms.contains name

variable {n} {f g : Walk → Tree → Result Tree}

theorem goesOn_of_turn {w : Walk} {name : Path} {ptr : Tree} {step : Int}
    (h : n.turn w name = .ok (.go ptr step)) : n.GoesOn w.visited (name :: w.visited) := by
  unfold turn at h
  by_cases hvisited : w.visited.contains name
  · rw [if_pos hvisited] at h
    cases h
  rw [if_neg hvisited] at h
  obtain ⟨kinds, hkinds, -⟩ := bind_eq_ok.mp h
  refine ⟨name, rfl, by simpa using hvisited, ?_⟩
  unfold Netlist.kinds at hkinds
  split at hkinds
  · next ht => rw [Table.contains, ht]; rfl
  · cases hkinds

mutual

theorem walkWith_congr {v : List Path} (h : ∀ w : Walk, n.GoesOn v w.visited → f w = g w) :
    ∀ {w : Walk}, w.visited = v → ∀ t, n.walkWith f w t = n.walkWith g w t
  | w, hw, .term name => by
    rw [walkWith, walkWith]
    cases hturn : n.turn w name with
    | error e => rfl
    | ok turn =>
      cases turn with
      | stay => rfl
      | go ptr step =>
        simp only [ok_bind]
        rw [h _ (hw ▸ goesOn_of_turn hturn)]
  | w, hw, .branch t u v => by
    have hin : w.inner.visited = _ := hw
    simp only [walkWith, walkWith_congr h hin]
  | w, hw, .part t u v => by
    have hin : w.inner.visited = _ := hw
    have hvar (bits) := walkWith_congr h (w := { w.inner with bits }) hw t
    simp only [walkWith, walkWith_congr h hin, hvar]
  | w, hw, .item t u => by
    have hin : w.inner.visited = _ := hw
    have hvar (ptr) := walkWith_congr h (w := { w.inner with ptr }) hw t
    simp only [walkWith, walkWith_congr h hin, hvar]
  | w, hw, .op _ ts | w, hw, .concat ts => by
    rw [walkWith, walkWith, walkAll_congr h hw]
  | w, hw, .hole | w, hw, .unbound | w, hw, .const .. | w, hw, .value .. | w, hw, .unknown _
  | w, hw, .floating _ | w, hw, .delay _ | w, hw, .call _ _ => rfl

theorem walkAll_congr {v : List Path} (h : ∀ w : Walk, n.GoesOn v w.visited → f w = g w) :
    ∀ {w : Walk}, w.visited = v → ∀ ts, n.walkAll f w ts = n.walkAll g w ts
  | _, _, [] => rfl
  | w, hw, t :: ts => by
    rw [walkAll, walkAll, walkWith_congr h (w := w.inner) hw t, walkAll_congr h hw ts]

end

variable (n)

/-- The keys of the terms, each with all kinds that the labels of a name can have. -/
def kindedKeys : List (Path × List ScopeKind) :=
  n.terms.keys.flatMap fun k => (replicate k.length ScopeKind.all).sections.map (k, ·)

theorem length_sections_replicate {α : Type} (as : List α) (k : Nat) :
    (replicate k as).sections.length = as.length ^ k := by
  induction k with
  | zero => rfl
  | succ k ih =>
    rw [replicate_succ, sections, pow_succ]
    simp [length_flatMap, ih]

theorem length_kindedKeys : n.kindedKeys.length + 2 = n.walkBound := by
  simp [kindedKeys, walkBound, length_flatMap, length_sections_replicate]

/-- The key with kinds of what was visited last. -/
def LastHas (c : Path × List ScopeKind) (v : List Path) : Prop :=
  ∃ name ∈ v.head?, (c.1 == name) = true ∧ name.labels.map Label.kind = c.2

variable {n}

theorem exists_kindedKey {name : Path} (h : n.terms.contains name) :
    ∃ c ∈ n.kindedKeys, (c.1 == name) = true ∧ name.labels.map Label.kind = c.2 := by
  obtain ⟨t, ht⟩ := Option.isSome_iff_exists.mp h
  obtain ⟨e, he, hname, -⟩ := Table.get?_eq_some ht
  refine ⟨(e.1, name.labels.map Label.kind), mem_flatMap.mpr ⟨e.1, mem_map_of_mem he, ?_⟩, hname, rfl⟩
  have hlength : name.labels.length = e.1.length := by
    have hmap := Path.map_labels_eq_of_same (f := fun _ => ()) hname (by simp)
    simpa [Path.length] using (congrArg length hmap).symm
  refine mem_map_of_mem (mem_sections.mpr ?_)
  rw [← hlength, ← map_const', forall₂_map_left_iff, forall₂_map_right_iff, forall₂_same]
  intro l _
  cases l.kind <;> decide

theorem subset_of_goesOn {v v' : List Path} (h : Relation.ReflTransGen n.GoesOn v v') : v ⊆ v' := by
  induction h with
  | refl => exact Subset.refl v
  | tail _ hstep ih =>
    obtain ⟨name, rfl, -⟩ := hstep
    exact Subset.trans ih (subset_cons_self ..)

theorem chainsEnd_goesOn {v v' : List Path} (h : n.GoesOn v v') :
    ChainsEnd n.GoesOn n.kindedKeys.length v' := by
  refine .of_keys (P := fun v => ∃ name ∈ v.head?, n.terms.contains name) LastHas ?_ ?_ ?_ ?_
  · rintro _ _ - ⟨name, rfl, -, hname⟩
    exact ⟨name, rfl, hname⟩
  · rintro v ⟨name, hlast, hname⟩
    obtain ⟨c, hc, hkey⟩ := exists_kindedKey hname
    exact ⟨c, hc, name, hlast, hkey⟩
  · -- What was visited last before is among what was visited, so it does not match the new name.
    rintro x y - - hxy c - ⟨a, ha, hca, hak⟩ ⟨b, hb, hcb, hbk⟩
    obtain ⟨z, hxz, name, rfl, hnew, -⟩ := Relation.TransGen.tail'_iff.mp hxy
    cases hb
    have haz : a ∈ z := subset_of_goesOn hxz (mem_of_head? ha)
    have hba := Path.same_of_same hca hcb (hak.trans hbk.symm)
    exact Bool.false_ne_true (hnew.symm.trans (contains_iff_exists_mem_beq.mpr ⟨a, haz, hba⟩))
  · obtain ⟨name, rfl, -, hname⟩ := h
    exact ⟨name, rfl, hname⟩

theorem walkBounded_eq_iterate (k : Nat) :
    n.walkBounded k = n.walkWith^[k] fun _ _ => throw .tooDeep := by
  induction k with
  | zero => rfl
  | succ k ih => rw [Function.iterate_succ_apply', ← ih]; rfl

theorem walkTree_eq_iterate (w : Walk) (bottom : Walk → Tree → Result Tree) (t : Tree) :
    n.walkWith^[n.walkBound] bottom w t = n.walkTree w t := by
  rw [walkTree, walkBounded_eq_iterate, ← length_kindedKeys]
  simp only [Function.iterate_succ_apply' n.walkWith (n.kindedKeys.length + 1)]
  refine walkWith_congr (fun w' hgo => ?_) rfl t
  refine (chainsEnd_goesOn hgo).iterate_eq (fun v w => w.visited = v) ?_ rfl _ _
  rintro f g _ w rfl h
  exact funext (walkWith_congr (fun w' hgo => h _ _ hgo rfl) rfl)

/-- Walking through definitions ends, and so does the folding of the definitions. -/
theorem walkTree_ends (n : Netlist)
    (hranges : ∀ p, ¬ Relation.TransGen n.optimizer.RangeRefers p p) (w : Walk) (t : Tree) :
    (∃ k, ∀ bottom, n.walkWith^[k] bottom w t = n.walkTree w t) ∧
      ∀ u, ∃ k, ∀ bottom, n.optimizer.foldWith^[k] bottom u = n.optimizer.fold u :=
  ⟨⟨_, fun bottom => walkTree_eq_iterate w bottom t⟩,
    fun u => ⟨_, n.optimizer.fold_eq_iterate hranges u⟩⟩

/-- Two wires that are driven by each other, and two constants, one with a range up to the other. -/
def crossed : Netlist where
  terms :=
    let signal (s kind : String) (msb lsb : Tree) : Path × Term :=
      (.ofNames ["TOP", s], { name := .ofNames ["TOP", s], kinds := [kind], msb, lsb })
    ⟨[signal "x" "Wire" (.ofInt 0) (.ofInt 0), signal "y" "Wire" (.ofInt 0) (.ofInt 0),
      signal "N" "Parameter" (.term (.ofNames ["TOP", "M"])) (.ofInt 0),
      signal "M" "Parameter" .hole .hole]⟩
  consts := ⟨[(.ofNames ["TOP", "N"], .ofInt 5), (.ofNames ["TOP", "M"], .ofInt 2)]⟩
  resolvedBinds :=
    let drive (s source : String) : Path × List Binding := (.ofNames ["TOP", s],
      [{ tree := .term (.ofNames ["TOP", source]), dest := .ofNames ["TOP", s] }])
    ⟨[drive "x" "y", drive "y" "x"]⟩

theorem crossed_ranges (p : Path) : ¬ Relation.TransGen crossed.optimizer.RangeRefers p p := by
  have hrefers {p q : Path} (h : crossed.optimizer.RangeRefers p q) : q = .ofNames ["TOP", "M"] := by
    obtain ⟨u, ⟨t, ht, hu⟩, hq, -⟩ := h
    obtain ⟨e, he, -, rfl⟩ := Table.get?_eq_some ht
    fin_cases he <;> rcases hu with rfl | rfl <;> first | exact mem_singleton.mp hq | cases hq
  intro hcycle
  obtain ⟨q, -, hp⟩ := Relation.TransGen.tail'_iff.mp hcycle
  obtain ⟨r, ⟨u, ⟨t, ht, hu⟩, hr, -⟩, -⟩ := Relation.TransGen.head'_iff.mp hcycle
  obtain rfl := hrefers hp
  cases ht
  rcases hu with rfl | rfl <;> cases hr

theorem walkTree_ends_crossed : (∀ p, ¬ Relation.TransGen crossed.optimizer.RangeRefers p p) ∧
    (∃ k, ∀ bottom, crossed.walkWith^[k] bottom { step := 1 } (.term (.ofNames ["TOP", "x"])) =
      crossed.walkTree { step := 1 } (.term (.ofNames ["TOP", "x"]))) ∧
    ∀ u, ∃ k, ∀ bottom, crossed.optimizer.foldWith^[k] bottom u = crossed.optimizer.fold u :=
  ⟨crossed_ranges, walkTree_ends crossed crossed_ranges _ _⟩

end Netlist

end RtlFlow
