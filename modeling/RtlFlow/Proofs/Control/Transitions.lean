import Mathlib
import RtlFlow.Control.Machine
import RtlFlow.Proofs.Control.Split
import RtlFlow.Proofs.Flow.Simplification
import RtlFlow.Proofs.Table

/-!
# Transitions of a state machine

The transitions from a state are a table of conditions and targets. Under a valuation of the
signals the machine goes from a state to the targets whose conditions are true. Merging the
transitions to one target turns the table around twice. A condition can get lost there, but where
at most one of the conditions of a state is true, what is lost is not true.
-/

namespace RtlFlow

open List

variable {ν : Type} {v : ν}

theorem Table.get?_int_eq_some_iff {t : Table Scalar ν} (hint : ∀ k ∈ t.keys, ∃ n, k = .int n)
    (hnodup : t.keys.Nodup) {n : Int} : t.get? (.int n) = some v ↔ (.int n, v) ∈ t.entries := by
  have hfound : ∀ {w}, t.get? (.int n) = some w → (.int n, w) ∈ t.entries := by
    intro w h
    obtain ⟨⟨k, w⟩, he, hk, rfl⟩ := Table.get?_eq_some h
    obtain ⟨l, rfl⟩ := hint k (mem_map_of_mem he)
    cases Scalar.int_same_iff.mp hk
    exact he
  refine ⟨hfound, fun h => ?_⟩
  cases hget : t.get? (.int n) with
  | none =>
    have hmiss := Table.get?_eq_none_iff.mp hget (.int n) (mem_map_of_mem h)
    rw [Scalar.int_same_iff.mpr rfl] at hmiss
    cases hmiss
  | some w =>
    have heq := inj_on_of_nodup_map hnodup (hfound hget) h rfl
    cases heq
    rfl

namespace Machine

/-- What conditions mean under valuations. No condition is always true, and so is a positive
constant; equal conditions mean the same. Conditions can be keys of a table, and their constants
are numbers. -/
structure Reading (V : Type) where
  conds : Tree → Prop
  truth : V → Tree → Bool
  conds_hole : conds .hole
  truth_hole : ∀ v, truth v .hole = true
  truth_positive : ∀ v {t}, conds t → Optimizer.isPositive t = .ok true → truth v t = true
  congr : ∀ v {t u}, conds t → conds u → (t == u) = true → truth v t = truth v u
  hashable : ∀ {t}, conds t → ∃ k, t.hashKey = .ok k
  comparable : ∀ {t}, conds t → ∃ b, Optimizer.isPositive t = .ok b

/-- The states are integers, each with one table of transitions. -/
structure IntegerStates (m : Machine) : Prop where
  sources : ∀ src ∈ m.fsm.keys, ∃ n, src = .int n
  targets : ∀ dsts ∈ m.fsm.values, ∀ d ∈ dsts.values, ∃ n, d = .int n
  nodup : m.fsm.keys.Nodup

theorem sortByKey_eq {α : Type} {key : α → Scalar} {es : List α}
    (h : ∀ e ∈ es, ∃ n, key e = .int n) :
    sortByKey key es = .ok (es.mergeSort fun a b => match (key b).lt (key a) with
      | .ok less => !less
      | .error _ => true) := by
  match es with
  | [] => rfl
  | [e] => rfl
  | e :: e' :: rest =>
    unfold sortByKey
    obtain ⟨m, hm⟩ := h e (by simp)
    have hloop : ∀ l : List α, (∀ e ∈ l, ∃ n, key e = .int n) → (forIn l PUnit.unit fun e' _ => do
        let _ ← (key e').lt (key e)
        pure (ForInStep.yield PUnit.unit) : Result PUnit) = .ok PUnit.unit := by
      intro l hl
      induction l with
      | nil => rfl
      | cons a l ih =>
        obtain ⟨n, hn⟩ := hl a (by simp)
        rw [forIn_cons, hn, hm, Scalar.lt_int, ← hm]
        exact ih fun e he => hl e (by simp [he])
    simp only
    rw [hloop _ fun e he => h e (mem_cons_of_mem _ he)]
    rfl

namespace Reading

variable {V : Type} (R : Reading V)

/-- The evaluator makes one condition of two, true exactly if one of them is. -/
def Merges (optimize : Tree → Result Tree) : Prop :=
  ∀ {a b}, R.conds a → R.conds b → a.isHole = false → b.isHole = false →
    ∃ t, optimize (.op "Lor" [a, b]) = .ok t ∧ R.conds t ∧
      ∀ v, R.truth v t = (R.truth v a || R.truth v b)

/-- A transition whose condition is true leads to the target. -/
def Fires (v : V) (dsts : List (Tree × Scalar)) (d : Scalar) : Prop :=
  ∃ e ∈ dsts, e.2 = d ∧ R.truth v e.1 = true

def Exclusive (v : V) (dsts : List (Tree × Scalar)) : Prop :=
  dsts.Pairwise fun e f => ¬ (R.truth v e.1 = true ∧ R.truth v f.1 = true)

variable {R} {v : V} {d : Scalar} {optimize : Tree → Result Tree}
variable {dsts : List (Tree × Scalar)} {acc : Table Scalar Tree}
variable {dsts' : List (Tree × Scalar)} {c cond : Tree} {n : Int}

@[simp] theorem not_fires_nil : ¬ R.Fires v [] d := by simp [Fires]

@[simp] theorem fires_cons {e : Tree × Scalar} :
    R.Fires v (e :: dsts) d ↔ (e.2 = d ∧ R.truth v e.1 = true) ∨ R.Fires v dsts d := by
  simp [Fires]

@[simp] theorem fires_append :
    R.Fires v (dsts ++ dsts') d ↔ R.Fires v dsts d ∨ R.Fires v dsts' d := by
  simp [Fires, or_and_right, exists_or]

theorem fires_perm (h : dsts.Perm dsts') : R.Fires v dsts d ↔ R.Fires v dsts' d := by
  simp [Fires, h.mem_iff]

/-! ## One condition for each target -/

theorem exists_eitherCond (hopt : R.Merges optimize) {a b : Tree} (ha : R.conds a)
    (hb : R.conds b) : ∃ t, eitherCond optimize a b = .ok t ∧ R.conds t ∧
      ∀ v, R.truth v t = (R.truth v a || R.truth v b) := by
  unfold eitherCond
  by_cases hholea : a.isHole = true
  · cases a <;> cases hholea
    exact ⟨.hole, rfl, ha, fun v => by simp [R.truth_hole]⟩
  · by_cases hholeb : b.isHole = true
    · cases b <;> cases hholeb
      exact ⟨.hole, by rw [if_neg hholea]; rfl, hb,
        fun v => by simp [R.truth_hole]⟩
    · obtain ⟨t, ht, hcond, htruth⟩ := hopt ha hb (Bool.eq_false_iff.mpr hholea)
        (Bool.eq_false_iff.mpr hholeb)
      refine ⟨t, ?_, hcond, htruth⟩
      simp only [hholea, hholeb, Tree.mkOp, any_cons, any_nil, Bool.or_self]
      exact ht

/-- The transitions gone through, with one condition for each of their targets. -/
structure Inverted (R : Reading V) (dsts : List (Tree × Scalar)) (acc : Table Scalar Tree) :
    Prop where
  states : ∀ e ∈ acc.entries, ∃ n, e.1 = .int n
  conds : ∀ e ∈ acc.entries, R.conds e.2
  nodup : acc.keys.Nodup
  fires : ∀ v d, R.Fires v (acc.entries.map Prod.swap) d ↔ R.Fires v dsts d

theorem Inverted.add (h : R.Inverted dsts acc) (hcond : R.conds cond)
    (hnew : acc.get? (.int n) = none) :
    R.Inverted (dsts ++ [(cond, .int n)]) (acc.put (.int n) cond) := by
  rcases acc.put_cases (.int n) cond with ⟨_, _, _, _, _, hget, _⟩ | ⟨hmiss, -, hput⟩
  · rw [hnew] at hget
    cases hget
  refine ⟨?_, ?_, ?_, ?_⟩
  · rw [hput]
    intro e he
    rcases mem_append.mp he with he | he
    · exact h.states e he
    · exact ⟨n, by rw [mem_singleton.mp he]⟩
  · rw [hput]
    intro e he
    rcases mem_append.mp he with he | he
    · exact h.conds e he
    · rwa [mem_singleton.mp he]
  · rw [Table.keys, hput, map_append]
    refine nodup_append'.mpr ⟨h.nodup, by simp, ?_⟩
    intro k hk hk'
    obtain ⟨e, he, rfl⟩ := mem_map.mp hk
    obtain heq : e.1 = .int n := by simpa using hk'
    have hsame := hmiss e he
    rw [heq, Scalar.int_same_iff.mpr rfl] at hsame
    cases hsame
  · intro v d
    rw [hput]
    simp [h.fires]

theorem Inverted.merge (h : R.Inverted dsts acc) {t : Tree} (hknown : acc.get? (.int n) = some c)
    (ht : R.conds t) (htruth : ∀ v, R.truth v t = (R.truth v c || R.truth v cond)) :
    R.Inverted (dsts ++ [(cond, .int n)]) (acc.put (.int n) t) := by
  have hkeys : (acc.put (.int n) t).keys = acc.keys := Table.keys_put_of_get?_eq_some hknown
  refine ⟨?_, Table.forall_put h.conds ht, hkeys ▸ h.nodup, ?_⟩
  · intro e he
    have hmem : e.1 ∈ acc.keys := hkeys ▸ mem_map_of_mem he
    obtain ⟨e', he', heq⟩ := mem_map.mp hmem
    exact heq ▸ h.states e' he'
  · intro v d
    rcases acc.put_cases (.int n) t with ⟨l₁, e, l₂, heq, hsame, hget, hput⟩ | ⟨-, hget, -⟩
    · obtain ⟨k, hk⟩ := h.states e (by simp [heq])
      rw [hk] at hsame
      obtain rfl := Scalar.int_same_iff.mp hsame
      obtain rfl : c = e.2 := Option.some.inj (hknown.symm.trans hget)
      have hold := h.fires v d
      rw [heq] at hold
      rw [hput, fires_append, ← hold]
      simp only [map_append, map_cons, Prod.swap, fires_append, fires_cons, hk,
        htruth, Bool.or_eq_true, not_fires_nil, or_false]
      tauto
    · rw [hknown] at hget
      cases hget

theorem exists_byTarget (hopt : R.Merges optimize) {dsts : Table Tree Scalar}
    (hconds : ∀ e ∈ dsts.entries, R.conds e.1) (hint : ∀ e ∈ dsts.entries, ∃ n, e.2 = .int n) :
    ∃ acc, byTarget optimize dsts = .ok acc ∧ R.Inverted dsts.entries acc := by
  obtain ⟨es, hsort, hperm⟩ : ∃ es, sortByKey Prod.snd dsts.entries = .ok es ∧
      es.Perm dsts.entries := ⟨_, sortByKey_eq hint, mergeSort_perm _ _⟩
  obtain ⟨acc, hacc, hinv⟩ : ∃ acc, byTarget optimize dsts = .ok acc ∧ R.Inverted es acc := by
    rw [byTarget, hsort]
    refine exists_foldlM_eq_ok R.Inverted ⟨by simp, by simp, nodup_nil, by simp⟩ ?_
    rintro done ⟨cond, dst⟩ acc hdone hinv
    have hmem : (cond, dst) ∈ dsts.entries := hperm.subset (hdone.subset (by simp))
    obtain ⟨n, rfl⟩ : ∃ n, dst = .int n := hint _ hmem
    dsimp only
    cases hget : acc.get? (.int n) with
    | none => exact ⟨_, rfl, hinv.add (hconds _ hmem) hget⟩
    | some c =>
      obtain ⟨e, he, -, rfl⟩ := Table.get?_eq_some hget
      obtain ⟨t, ht, hcond, htruth⟩ := exists_eitherCond hopt (hinv.conds e he) (hconds _ hmem)
      exact ⟨_, bind_eq_ok.mpr ⟨t, ht, rfl⟩, hinv.merge hget hcond htruth⟩
  refine ⟨acc, hacc, hinv.states, hinv.conds, hinv.nodup, fun v d => ?_⟩
  rw [hinv.fires, fires_perm hperm]

theorem Inverted.exclusive (h : R.Inverted dsts acc) (hex : R.Exclusive v dsts) :
    R.Exclusive v (acc.entries.map Prod.swap) := by
  have hapart : acc.entries.Pairwise fun e f => e.1 ≠ f.1 := pairwise_map.mp h.nodup
  refine pairwise_map.mpr (hapart.imp_of_mem ?_)
  rintro e f he hf hne ⟨hetrue, hftrue⟩
  have hfires : ∀ g ∈ acc.entries, R.truth v g.2 = true → R.Fires v dsts g.1 := fun g hg hgtrue =>
    (h.fires v g.1).mp ⟨g.swap, mem_map_of_mem hg, rfl, hgtrue⟩
  obtain ⟨e', he', htarget, htrue⟩ := hfires e he hetrue
  obtain ⟨f', hf', htarget', htrue'⟩ := hfires f hf hftrue
  have : Std.Symm fun e f : Tree × Scalar => ¬ (R.truth v e.1 = true ∧ R.truth v f.1 = true) :=
    ⟨fun _ _ h h' => h h'.symm⟩
  have hdiffer : e' ≠ f' := fun heq => hne (by rw [← htarget, ← htarget', heq])
  exact List.Pairwise.forall hex he' hf' hdiffer ⟨htrue, htrue'⟩

/-! ## One target for each condition -/

theorem fires_put {acc : Table Tree Scalar} (hacc : ∀ e ∈ acc.entries, R.conds e.1) {dst : Scalar}
    (hc : R.conds c) (hex : R.truth v c = true → ∀ e ∈ acc.entries, R.truth v e.1 = false) :
    R.Fires v (acc.put c dst).entries d ↔
      R.Fires v acc.entries d ∨ (dst = d ∧ R.truth v c = true) := by
  rcases acc.put_cases c dst with ⟨l₁, e, l₂, heq, hsame, -, hput⟩ | ⟨-, -, hput⟩
  · have htruth : R.truth v e.1 = R.truth v c := R.congr v (hacc e (by simp [heq])) hc hsame
    have hold : R.truth v e.1 = true → R.truth v e.1 = false := fun h =>
      hex (htruth ▸ h) e (by simp [heq])
    rw [hput, heq]
    simp only [fires_append, fires_cons]
    rw [← htruth]
    cases htrue : R.truth v e.1 with
    | false => simp
    | true =>
      rw [htrue] at hold
      cases hold rfl
  · simp [hput]

theorem exists_byCondition {conds : Table Scalar Tree} (h : R.Inverted dsts conds) :
    ∃ acc, byCondition conds = .ok acc ∧
      ∀ v, R.Exclusive v dsts → ∀ d, R.Fires v acc.entries d ↔ R.Fires v dsts d := by
  let step (acc : Table Tree Scalar) (e : Scalar × Tree) : Result (Table Tree Scalar) := do
    if ← Optimizer.isPositive e.2 then return acc.put .hole e.1
    let _ ← e.2.hashKey
    return acc.put e.2 e.1
  obtain ⟨acc, hacc, -, hfires⟩ : ∃ acc, conds.entries.foldlM step {} = .ok acc ∧
      (∀ e ∈ acc.entries, R.conds e.1) ∧ ∀ v, R.Exclusive v dsts →
        ∀ d, R.Fires v acc.entries d ↔ R.Fires v (conds.entries.map Prod.swap) d := by
    refine exists_foldlM_eq_ok (fun done (acc : Table Tree Scalar) =>
      (∀ e ∈ acc.entries, R.conds e.1) ∧ ∀ v, R.Exclusive v dsts →
        ∀ d, R.Fires v acc.entries d ↔ R.Fires v (done.map Prod.swap) d) ⟨by simp, by simp⟩ ?_
    rintro done ⟨dst, cond⟩ acc hdone ⟨hkeys, hfires⟩
    have hcond : R.conds cond := h.conds (dst, cond) (hdone.subset (by simp))
    obtain ⟨key, hstep, hkey, htruth⟩ : ∃ key, step acc (dst, cond) = .ok (acc.put key dst) ∧
        R.conds key ∧ ∀ v, R.truth v key = R.truth v cond := by
      obtain ⟨positive, hpositive⟩ := R.comparable hcond
      obtain ⟨k, hk⟩ := R.hashable hcond
      cases positive with
      | true =>
        refine ⟨.hole, bind_eq_ok.mpr ⟨true, hpositive, rfl⟩, R.conds_hole, fun v => ?_⟩
        rw [R.truth_hole, R.truth_positive v hcond hpositive]
      | false =>
        exact ⟨cond, bind_eq_ok.mpr ⟨false, hpositive, bind_eq_ok.mpr ⟨k, hk, rfl⟩⟩, hcond,
          fun _ => rfl⟩
    refine ⟨_, hstep, Table.forall_keys_put hkeys hkey, fun v hex d => ?_⟩
    -- Two conditions of the inverted table are not true at once.
    have hothers : R.truth v key = true → ∀ e ∈ acc.entries, R.truth v e.1 = false := by
      intro htrue e he
      by_contra hetrue
      obtain ⟨f, hf, -, hftrue⟩ :=
        (hfires v hex e.2).mp ⟨e, he, rfl, Bool.not_eq_false _ ▸ hetrue⟩
      have hall : R.Exclusive v ((done ++ [(dst, cond)]).map Prod.swap) :=
        (h.exclusive hex).sublist (hdone.sublist.map _)
      rw [map_append] at hall
      exact (pairwise_append.mp hall).2.2 f hf (cond, dst) (by simp)
        ⟨hftrue, htruth v ▸ htrue⟩
    rw [fires_put hkeys hkey hothers, hfires v hex, htruth]
    simp
  exact ⟨acc, hacc, fun v hex d => (hfires v hex d).trans (h.fires v d)⟩

end Reading

/-! ## The whole machine -/

/-- Merging the transitions of a machine keeps its states, and from each state, under each
valuation that makes at most one of its conditions true, it keeps the targets. -/
theorem resolve_keeps_transitions {V : Type} (R : Reading V) {optimize : Tree → Result Tree}
    (hopt : R.Merges optimize) {m : Machine} (hm : m.IntegerStates)
    (hconds : ∀ dsts ∈ m.fsm.values, ∀ cond ∈ dsts.keys, R.conds cond) :
    ∃ fsm, m.resolve optimize = .ok { m with fsm } ∧ fsm.keys.Perm m.fsm.keys ∧
      ∀ n dsts, m.fsm.get? (.int n) = some dsts → ∃ dsts', fsm.get? (.int n) = some dsts' ∧
        ∀ v, R.Exclusive v dsts.entries → ∀ d,
          R.Fires v dsts'.entries d ↔ R.Fires v dsts.entries d := by
  have hsources : ∀ e ∈ m.fsm.entries, ∃ n, e.1 = .int n :=
    fun e he => hm.sources _ (mem_map_of_mem he)
  have hsort := sortByKey_eq hsources
  set es := m.fsm.entries.mergeSort fun a b => match b.1.lt a.1 with
    | .ok less => !less
    | .error _ => true
  have hperm : es.Perm m.fsm.entries := mergeSort_perm _ _
  let merged (e : Scalar × Table Tree Scalar) : Result (Scalar × Table Tree Scalar) :=
    do return (e.1, ← byCondition (← byTarget optimize e.2))
  let Keeps (e r : Scalar × Table Tree Scalar) : Prop := r.1 = e.1 ∧ ∀ v,
    R.Exclusive v e.2.entries → ∀ d, R.Fires v r.2.entries d ↔ R.Fires v e.2.entries d
  have hmerged : ∀ e ∈ es, ∃ r, merged e = .ok r ∧ Keeps e r := by
    rintro ⟨src, dsts⟩ he
    have hdsts : dsts ∈ m.fsm.values := mem_map_of_mem (hperm.subset he)
    obtain ⟨conds, hbyTarget, hinv⟩ := Reading.exists_byTarget hopt
      (fun e he => hconds dsts hdsts _ (mem_map_of_mem he))
      (fun e he => hm.targets dsts hdsts _ (mem_map_of_mem he))
    obtain ⟨dsts', hbyCondition, hfires⟩ := Reading.exists_byCondition hinv
    refine ⟨(src, dsts'), ?_, rfl, hfires⟩
    exact bind_eq_ok.mpr ⟨conds, hbyTarget, bind_eq_ok.mpr ⟨dsts', hbyCondition, rfl⟩⟩
  obtain ⟨rs, hrs, hkept, -⟩ := exists_mapM_eq_ok hmerged
  have hkeys : (Table.mk rs).keys = es.map Prod.fst := by
    refine map_eq_of_mapM (fun {e r} h => ?_) hrs
    obtain ⟨conds, -, h⟩ := bind_eq_ok.mp h
    obtain ⟨dsts', -, h⟩ := bind_eq_ok.mp h
    cases h
    rfl
  have hkeysPerm : (Table.mk rs).keys.Perm m.fsm.keys := hkeys ▸ hperm.map _
  refine ⟨⟨rs⟩, bind_eq_ok.mpr ⟨es, hsort, bind_eq_ok.mpr ⟨rs, hrs, rfl⟩⟩, hkeysPerm, ?_⟩
  intro n dsts hget
  have hmem := (Table.get?_int_eq_some_iff hm.sources hm.nodup).mp hget
  obtain ⟨⟨src, dsts'⟩, hr, rfl, hfires⟩ := hkept _ (hperm.mem_iff.mpr hmem)
  have hsources : ∀ src ∈ (Table.mk rs).keys, ∃ n, src = .int n := fun src hsrc =>
    hm.sources src (hkeysPerm.subset hsrc)
  have hnodup := hkeysPerm.nodup_iff.mpr hm.nodup
  exact ⟨dsts', (Table.get?_int_eq_some_iff hsources hnodup).mpr hr, hfires⟩

/-! ## Conditions on words -/

theorem IsCond.delayFree {names : Path → Prop} {t : Tree} (h : IsCond names t) :
    t.delayFree = true := by
  induction h with
  | signal | constant => rfl
  | unary _ _ iha => simp [Tree.delayFree, Tree.delayFreeAll, iha]
  | binary _ _ _ iha ihb => simp [Tree.delayFree, Tree.delayFreeAll, iha, ihb]

def wordReading (names : Path → Prop) : Reading { ρ : Valuation // ρ.names = names } where
  conds t := t = .hole ∨ IsCond names t
  truth ρ t := t.isHole || ρ.1.truth t
  conds_hole := .inl rfl
  truth_hole _ := rfl
  truth_positive := by
    rintro ⟨ρ, rfl⟩ t (rfl | ht) hpositive
    · rfl
    · rw [(Optimizer.isPositive_yields ρ ht).of_eq_ok hpositive rfl, Bool.or_true]
  congr := by
    rintro ⟨ρ, rfl⟩ t u (rfl | ht) (rfl | hu) heq
    · rfl
    · cases hu <;> cases heq
    · cases ht <;> cases heq
    · obtain ⟨b, hb, hword⟩ := equal_yields ρ ht hu
      change Tree.same t u = true at heq
      rw [Tree.same, hb] at heq
      simp only [ht.isHole_eq, hu.isHole_eq, Valuation.truth, hword heq]
  hashable := by
    rintro t (rfl | ht)
    · exact ⟨_, rfl⟩
    · exact Tree.exists_hashKey (IsCond.delayFree ht)
  comparable := by
    rintro t (rfl | ht)
    · exact ⟨false, rfl⟩
    · cases ht <;> exact ⟨_, rfl⟩

/-- A machine that goes from 0 to 1 if `a` is true, whatever `b` is, and else stays; and from 1
back to 0. -/
def twoStates : Machine :=
  let a : Tree := .term (.ofNames ["TOP", "a"])
  let b : Tree := .term (.ofNames ["TOP", "b"])
  { fsm := ⟨[
      (.int 1, ⟨[(.hole, .int 0)]⟩),
      (.int 0, ⟨[(.op "Land" [a, b], .int 1), (.op "Ulnot" [a], .int 0),
        (.op "Land" [a, .op "Ulnot" [b]], .int 1)]⟩)]⟩ }

theorem resolve_keeps_transitions_twoStates :
    let R := wordReading fun _ => True
    R.Merges pure ∧ twoStates.IntegerStates ∧
    (∀ dsts ∈ twoStates.fsm.values, ∀ cond ∈ dsts.keys, R.conds cond) ∧
    ∃ fsm, twoStates.resolve pure = .ok { twoStates with fsm } ∧
      fsm.keys.Perm [.int 1, .int 0] ∧
      ∃ dsts dsts', twoStates.fsm.get? (.int 0) = some dsts ∧ fsm.get? (.int 0) = some dsts' ∧
        ∀ ρ d, R.Fires ρ dsts'.entries d ↔ R.Fires ρ dsts.entries d := by
  intro R
  have hmerges : R.Merges pure := by
    rintro a b (rfl | ha) (rfl | hb) hholea hholeb
    · cases hholea
    · cases hholea
    · cases hholeb
    · refine ⟨_, rfl, .inr (.binary rfl ha hb), fun ρ => ?_⟩
      have hhole : (Tree.op "Lor" [a, b]).isHole = false := rfl
      simp [R, wordReading, hholea, hholeb, hhole]
  have hstates : twoStates.IntegerStates := by
    refine ⟨by simp [twoStates, Table.keys], ?_, by decide⟩
    simp only [twoStates, Table.values, map_cons, map_nil, mem_cons,
      not_mem_nil, or_false, forall_eq_or_imp, forall_eq]
    exact ⟨⟨0, rfl⟩, ⟨1, rfl⟩, ⟨0, rfl⟩, ⟨1, rfl⟩⟩
  have hsignal (s : String) : IsCond (fun _ => True) (.term (.ofNames ["TOP", s])) :=
    .signal trivial
  have hconds : ∀ dsts ∈ twoStates.fsm.values, ∀ cond ∈ dsts.keys, R.conds cond := by
    simp only [twoStates, Table.values, Table.keys, map_cons, map_nil, mem_cons,
      not_mem_nil, or_false, forall_eq_or_imp, forall_eq]
    exact ⟨.inl rfl, .inr (.binary rfl (hsignal _) (hsignal _)), .inr (.unary rfl (hsignal _)),
      .inr (.binary rfl (hsignal _) (.unary rfl (hsignal _)))⟩
  refine ⟨hmerges, hstates, hconds, ?_⟩
  obtain ⟨fsm, hresolve, hperm, hkept⟩ := resolve_keeps_transitions R hmerges hstates hconds
  obtain ⟨dsts', hget, hfires⟩ := hkept 0 _ rfl
  refine ⟨fsm, hresolve, hperm, _, dsts', rfl, hget, fun ρ => hfires ρ ?_⟩
  simp only [Reading.Exclusive, R, wordReading, Tree.isHole, Bool.false_or, pairwise_cons,
    mem_cons, not_mem_nil, or_false, forall_eq_or_imp, forall_eq, Valuation.truth_land,
    Valuation.truth_not]
  grind

end Machine

end RtlFlow
