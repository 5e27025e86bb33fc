import Mathlib
import RtlFlow.Flow.Reorder
import RtlFlow.Proofs.Computation

/-!
# The ordered form of a tree

Ordering a tree moves its branches outwards. An element whose index branches is ordered by going
round again: each arm of the index makes a new element, which is ordered in turn. The new trees
are no parts of the old one and can be larger, so that nothing decreases from one round to the
next; but their parts are ordered already, and ordering does not change what is ordered. So the
rounds go down the branches of the index and end.
-/

namespace RtlFlow.Tree

open List

variable {s t : Tree}
variable {k : Tree → Result Tree} {build : List Tree → Result Tree} {name : String}
    {args : List Tree} {u var : Tree}

/-! ## Going round again -/

/-- A computation that ends. -/
def ends {α : Type} (x : Result α) : ExceptT Fault Option α := ExceptT.mk (some x)

/-- Orders a tree, where `again` orders its parts, and for an element with a branching index the
elements with the arms of the index. -/
def reorderRound (again : Tree → ExceptT Fault Option Tree) : Tree → ExceptT Fault Option Tree
  | .branch cond yes no => do
    let yes ← again yes
    let no ← again no
    insertBranch (← again cond) yes no
  | .op name args => do insertOp (← args.mapM again) name
  | .concat items => do insertConcat (← items.mapM again)
  | .part var msb lsb => do
    let msb ← again msb
    let lsb ← again lsb
    let var ← again var
    if msb.isBranch || lsb.isBranch then throw .unboundName
    if var.isBranch then insertPart var msb lsb else return .part var msb lsb
  | .item var ptr => do
    let ptr ← again ptr
    let var ← again var
    match ptr with
    | .branch cond yes no =>
      let yes ← again (.item var yes)
      let no ← again (.item var no)
      return .branch cond yes no
    | ptr => if var.isBranch then insertItem var ptr else return .item var ptr
  | .delay next => do return .delay (← again next)
  | .call .. => throw .unboundName
  | t => pure t

/-- Rounds inside each other, up to a depth; below it there is no outcome. -/
def rounds (depth : Nat) : Tree → ExceptT Fault Option Tree :=
  reorderRound^[depth] fun _ => ExceptT.mk none

/-- From some depth on, the rounds end with an outcome. -/
def Settles (t : Tree) (x : Result Tree) : Prop :=
  ∀ᶠ depth in Filter.atTop, rounds depth t = ends x

open Classical in
/-- The ordered form of a tree, where an element with a branching index is ordered by ordering the
elements with the arms of the index. It has an outcome only where this recursion ends. -/
noncomputable def reorderAgain (t : Tree) : ExceptT Fault Option Tree :=
  if h : ∃ x, Settles t x then ends h.choose else ExceptT.mk none

theorem Settles.reorderAgain_eq {x : Result Tree} (h : Settles t x) :
    reorderAgain t = ends x := by
  have hex : ∃ x, Settles t x := ⟨x, h⟩
  obtain ⟨depth, hchoose, hx⟩ := (hex.choose_spec.and h).exists
  rw [reorderAgain, dif_pos hex, ← hchoose, hx]

theorem settles_iff {x : Result Tree} : Settles t x ↔
    ∀ᶠ depth in Filter.atTop, reorderRound (rounds depth) t = ends x := by
  rw [Settles]
  conv_lhs => rw [← Filter.map_add_atTop_eq_nat 1, Filter.eventually_map]
  simp only [rounds, Function.iterate_succ_apply']

/-! ## Ordered trees -/

mutual

def delayFree : Tree → Bool
  | .delay _ => false
  | .op _ args | .concat args | .call _ args => delayFreeAll args
  | .part var msb lsb => delayFree var && delayFree msb && delayFree lsb
  | .item var ptr => delayFree var && delayFree ptr
  | .branch cond yes no => delayFree cond && delayFree yes && delayFree no
  | _ => true

def delayFreeAll : List Tree → Bool
  | [] => true
  | t :: ts => delayFree t && delayFreeAll ts

end

mutual

/-- Whether a tree has no branch, delay or system function in it, and all operands of its
operations are there. -/
def flat : Tree → Bool
  | .branch .. | .delay _ | .call .. => false
  | .op _ args => !args.any isHole && flatAll args
  | .concat items => flatAll items
  | .part var msb lsb => flat var && flat msb && flat lsb
  | .item var ptr => flat var && flat ptr
  | _ => true

@[inherit_doc flat]
def flatAll : List Tree → Bool
  | [] => true
  | t :: ts => flat t && flatAll ts

end

/-- Whether the branches of a tree stand outside: their conditions and what they end in are
flat. -/
def ordered : Tree → Bool
  | .branch cond yes no => cond.flat && ordered yes && ordered no
  | t => t.flat

section

attribute [local simp] flat flatAll ordered isBranch

theorem flatAll_iff {ts : List Tree} : flatAll ts = true ↔ ∀ t ∈ ts, flat t = true := by
  induction ts with
  | nil => simp
  | cons t ts ih => simp [ih]

theorem isBranch_of_flat (h : flat t = true) : t.isBranch = false := by
  cases t <;> first | rfl | simp at h

theorem ordered_of_flat (h : flat t = true) : ordered t = true := by
  cases t <;> first | exact h | simp at h

theorem flat_of_ordered (h : ordered t = true) (hb : t.isBranch = false) : flat t = true := by
  cases t <;> first | exact h | simp at hb

theorem exists_of_isBranch (h : t.isBranch = true) : ∃ cond yes no, t = .branch cond yes no := by
  cases t <;> first | exact ⟨_, _, _, rfl⟩ | simp at h

theorem isBranch_eq_false (h : ∀ cond yes no, t ≠ .branch cond yes no) : t.isBranch = false := by
  cases t <;> first | rfl | exact absurd rfl (h _ _ _)

end

/-! ## What lies in a tree -/

def Within : Tree → Tree → Prop := Relation.ReflTransGen fun s t => s ∈ t.children

theorem flat_of_mem_children (h : flat t = true) (hs : s ∈ t.children) : flat s = true := by
  cases t with
  | op name args =>
    simp only [flat, Bool.and_eq_true, flatAll_iff] at h
    exact h.2 s hs
  | concat items => exact flatAll_iff.mp h s hs
  | part var msb lsb =>
    simp only [flat, Bool.and_eq_true] at h
    have hmem := (mem_filter.mp hs).1
    fin_cases hmem
    · exact h.1.1
    · exact h.1.2
    · exact h.2
  | item var ptr =>
    simp only [flat, Bool.and_eq_true] at h
    have hmem := (mem_filter.mp hs).1
    fin_cases hmem
    · exact h.1
    · exact h.2
  | branch | delay | call => simp [flat] at h
  | _ => simp [children] at hs

theorem flat_of_within (hst : Within s t) (h : flat t = true) : flat s = true := by
  induction hst using Relation.ReflTransGen.head_induction_on with
  | refl => exact h
  | head hmem _ ih => exact flat_of_mem_children ih hmem

theorem ordered_of_mem_children (h : ordered t = true) (hs : s ∈ t.children) :
    ordered s = true := by
  by_cases hb : t.isBranch = true
  · obtain ⟨cond, yes, no, rfl⟩ := exists_of_isBranch hb
    simp only [ordered, Bool.and_eq_true] at h
    have hmem := (mem_filter.mp hs).1
    fin_cases hmem
    · exact h.1.2
    · exact ordered_of_flat h.1.1
    · exact h.2
  · exact ordered_of_flat (flat_of_mem_children (flat_of_ordered h (by simpa using hb)) hs)

theorem ordered_of_within (hst : Within s t) (h : ordered t = true) : ordered s = true := by
  induction hst using Relation.ReflTransGen.head_induction_on with
  | refl => exact h
  | head hmem _ ih => exact ordered_of_mem_children ih hmem

/-! ## Ordering leaves ordered trees -/

theorem spread_of_flat (h : flat t = true) : spread k t = k t := by
  cases t <;> first | rfl | simp [flat] at h

theorem ordered_of_spread (hk : ∀ t u, flat t = true → k t = .ok u → ordered u = true)
    (ht : ordered t = true) (h : spread k t = .ok u) : ordered u = true := by
  fun_induction ordered t generalizing u with
  | case1 cond yes no ihyes ihno =>
    simp only [spread, bind_eq_ok, pure_eq_ok] at h
    obtain ⟨yes', hyes, no', hno, rfl⟩ := h
    simp only [ordered, Bool.and_eq_true] at ht ⊢
    exact ⟨⟨ht.1.1, ihyes ht.1.2 hyes⟩, ihno ht.2 hno⟩
  | case2 t =>
    rw [spread_of_flat ht] at h
    exact hk t u ht h

theorem ordered_of_spreadList
    (hb : ∀ ts u, flatAll ts = true → build ts = .ok u → ordered u = true) :
    ∀ {ts done : List Tree} {u : Tree}, (∀ t ∈ ts, ordered t = true) → flatAll done = true →
      spreadList build done ts = .ok u → ordered u = true
  | [], done, u, _, hdone, h => by
    refine hb _ u ?_ h
    simpa only [flatAll_iff, mem_reverse] using hdone
  | t :: ts, done, u, hts, hdone, h => by
    refine ordered_of_spread ?_ (hts t mem_cons_self) h
    intro leaf v hleaf hv
    refine ordered_of_spreadList hb (fun t ht => hts t (mem_cons_of_mem _ ht)) ?_ hv
    simp [flatAll, hleaf, hdone]

theorem flat_of_mkOp (hargs : flatAll args = true) (h : mkOp name args = .ok u) :
    flat u = true := by
  unfold mkOp at h
  split at h
  · exact absurd h throw_ne_ok
  · next hholes =>
    rw [← pure_eq_ok.mp h]
    simp only [flat, hargs, Bool.and_true]
    simpa using hholes

theorem ordered_of_insertItem {ptr : Tree} (hvar : ordered var = true) (hptr : flat ptr = true)
    (h : insertItem var ptr = .ok u) : ordered u = true := by
  refine ordered_of_spread ?_ hvar h
  intro v w hv hw
  rw [← pure_eq_ok.mp hw]
  split
  · rfl
  · simp [ordered, flat, hv, hptr]

mutual

theorem ordered_of_reorder :
    ∀ {t u : Tree}, delayFree t = true → reorder t = .ok u → ordered u = true
  | .branch cond yes no, u, ht, h => by
    simp only [delayFree, Bool.and_eq_true] at ht
    simp only [reorder, bind_eq_ok] at h
    obtain ⟨yes', hyes, no', hno, cond', hcond, hu⟩ := h
    refine ordered_of_spread ?_ (ordered_of_reorder ht.1.1 hcond) hu
    intro c v hc hv
    rw [← pure_eq_ok.mp hv]
    simp [ordered, hc, ordered_of_reorder ht.1.2 hyes, ordered_of_reorder ht.2 hno]
  | .op name args, u, ht, h => by
    simp only [reorder, bind_eq_ok] at h
    obtain ⟨args', hargs, hu⟩ := h
    refine ordered_of_spreadList ?_ (ordered_of_reorderAll ht hargs) rfl hu
    intro ts v hts hv
    exact ordered_of_flat (flat_of_mkOp hts hv)
  | .concat items, u, ht, h => by
    simp only [reorder, bind_eq_ok] at h
    obtain ⟨items', hitems, hu⟩ := h
    refine ordered_of_spreadList ?_ (ordered_of_reorderAll ht hitems) rfl hu
    intro ts v hts hv
    rw [← pure_eq_ok.mp hv]
    exact hts
  | .part var msb lsb, u, ht, h => by
    simp only [delayFree, Bool.and_eq_true] at ht
    simp only [reorder, bind_eq_ok] at h
    obtain ⟨msb', hmsb, lsb', hlsb, var', hvar, hu⟩ := h
    have hvar' := ordered_of_reorder ht.1.1 hvar
    split at hu
    · obtain ⟨_, hfault, _⟩ := bind_eq_ok.mp hu
      exact absurd hfault throw_ne_ok
    · next hends =>
      simp only [Bool.or_eq_true, not_or, Bool.not_eq_true] at hends
      have hflat : flat msb' = true ∧ flat lsb' = true :=
        ⟨flat_of_ordered (ordered_of_reorder ht.1.2 hmsb) hends.1,
          flat_of_ordered (ordered_of_reorder ht.2 hlsb) hends.2⟩
      split at hu
      · refine ordered_of_spread ?_ hvar' hu
        intro v w hv hw
        rw [← pure_eq_ok.mp hw]
        split
        · rfl
        · simp [ordered, flat, hv, hflat]
      · next hb =>
        rw [← pure_eq_ok.mp hu]
        simp [ordered, flat, flat_of_ordered hvar' (by simpa using hb), hflat]
  | .item var ptr, u, ht, h => by
    simp only [delayFree, Bool.and_eq_true] at ht
    simp only [reorder, bind_eq_ok] at h
    obtain ⟨ptr', hptr, var', hvar, hu⟩ := h
    have hvar' := ordered_of_reorder ht.1 hvar
    refine ordered_of_spread ?_ (ordered_of_reorder ht.2 hptr) hu
    intro p v hp hv
    split at hv
    · exact ordered_of_insertItem hvar' hp hv
    · next hb =>
      rw [← pure_eq_ok.mp hv]
      simp [ordered, flat, flat_of_ordered hvar' (by simpa using hb), hp]
  | .delay next, u, ht, h => by simp [delayFree] at ht
  | .call name args, u, ht, h => absurd h throw_ne_ok
  | .hole, u, _, h | .term _, u, _, h | .unbound, u, _, h | .const _ _, u, _, h
  | .value _ _ _ _, u, _, h | .unknown _, u, _, h | .floating _, u, _, h => by
    simp only [reorder, pure_eq_ok] at h
    rw [← h]
    rfl

theorem ordered_of_reorderAll : ∀ {ts us : List Tree}, delayFreeAll ts = true →
    reorderAll ts = .ok us → ∀ u ∈ us, ordered u = true
  | [], us, _, h => by
    simp only [reorderAll, pure_eq_ok] at h
    simp [← h]
  | t :: ts, us, ht, h => by
    simp only [delayFreeAll, Bool.and_eq_true] at ht
    simp only [reorderAll, bind_eq_ok, pure_eq_ok] at h
    obtain ⟨t', ht', ts', hts', rfl⟩ := h
    intro u hu
    rcases mem_cons.mp hu with rfl | hu
    · exact ordered_of_reorder ht.1 ht'
    · exact ordered_of_reorderAll ht.2 hts' u hu

end

/-! ## Ordered trees stay as they are -/

theorem spreadList_of_flat :
    ∀ {ts done : List Tree}, flatAll ts = true →
      spreadList build done ts = build (done.reverse ++ ts)
  | [], done, _ => by rw [spreadList, append_nil]
  | t :: ts, done, h => by
    simp only [flatAll, Bool.and_eq_true] at h
    rw [spreadList, spread_of_flat h.1, spreadList_of_flat h.2, reverse_cons,
      append_assoc, singleton_append]

theorem mkOp_of_flat (h : flat (.op name args) = true) : mkOp name args = .ok (.op name args) := by
  simp only [flat, Bool.and_eq_true, Bool.not_eq_true'] at h
  simp only [mkOp, h.1, Bool.false_eq_true, if_false]
  rfl

/-! ## The rounds end -/

theorem ends_bind {α β : Type} {x : Result α} {f : α → Result β}
    {g : α → ExceptT Fault Option β} (hg : ∀ a, x = .ok a → g a = ends (f a)) :
    ends x >>= g = ends (x >>= f) := by
  cases x with
  | error e => rfl
  | ok a => exact hg a rfl

mutual

theorem settles_of_flat : ∀ {t : Tree}, flat t = true → Settles t (.ok t)
  | .op name args, h => by
    have hargs : flatAll args = true := by
      simp only [flat, Bool.and_eq_true] at h
      exact h.2
    have hop : insertOp args name = .ok (.op name args) :=
      (spreadList_of_flat hargs).trans (mkOp_of_flat h)
    refine settles_iff.mpr ?_
    filter_upwards [mapM_rounds_of_flat hargs] with k hk
    rw [reorderRound, hk]
    exact congrArg ends hop
  | .concat items, h => by
    have hconcat : insertConcat items = .ok (.concat items) := spreadList_of_flat h
    refine settles_iff.mpr ?_
    filter_upwards [mapM_rounds_of_flat h] with k hk
    rw [reorderRound, hk]
    exact congrArg ends hconcat
  | .part var msb lsb, h => by
    simp only [flat, Bool.and_eq_true] at h
    refine settles_iff.mpr ?_
    filter_upwards [settles_of_flat h.1.1, settles_of_flat h.1.2, settles_of_flat h.2]
      with k hvar hmsb hlsb
    rw [reorderRound, hvar, hmsb, hlsb]
    change (if (msb.isBranch || lsb.isBranch) = true then _ else _) = _
    rw [isBranch_of_flat h.1.1, isBranch_of_flat h.1.2, isBranch_of_flat h.2]
    rfl
  | .item var ptr, h => by
    simp only [flat, Bool.and_eq_true] at h
    have hbranch := isBranch_of_flat h.2
    refine settles_iff.mpr ?_
    filter_upwards [settles_of_flat h.1, settles_of_flat h.2] with k hvar hptr
    rw [reorderRound, hvar, hptr]
    cases ptr with
    | branch => simp [isBranch] at hbranch
    | _ =>
      change (if var.isBranch = true then _ else _) = _
      rw [isBranch_of_flat h.1]
      rfl
  | .hole, _ | .term _, _ | .unbound, _ | .const _ _, _ | .value _ _ _ _, _ | .unknown _, _
  | .floating _, _ => settles_iff.mpr (.of_forall fun _ => rfl)

theorem mapM_rounds_of_flat : ∀ {ts : List Tree}, flatAll ts = true →
    ∀ᶠ k in Filter.atTop, ts.mapM (rounds k) = ends (.ok ts)
  | [], _ => .of_forall fun _ => rfl
  | t :: ts, h => by
    simp only [flatAll, Bool.and_eq_true] at h
    filter_upwards [settles_of_flat h.1, mapM_rounds_of_flat h.2] with k ht hts
    rw [mapM_cons, ht, hts]
    rfl

end

theorem settles_of_ordered (h : ordered t = true) : Settles t (.ok t) := by
  fun_induction ordered t with
  | case1 cond yes no ihyes ihno =>
    simp only [Bool.and_eq_true] at h
    have hbranch : insertBranch cond yes no = .ok (.branch cond yes no) := spread_of_flat h.1.1
    refine settles_iff.mpr ?_
    filter_upwards [settles_of_flat h.1.1, ihyes h.1.2, ihno h.2] with k hcond hyes hno
    rw [reorderRound, hyes, hno, hcond]
    exact congrArg ends hbranch
  | case2 => exact settles_of_flat h

theorem settles_item (hvar : ordered var = true) {ptr : Tree} (h : ordered ptr = true) :
    Settles (.item var ptr)
      (spread (fun p => if var.isBranch then insertItem var p else pure (.item var p)) ptr) := by
  have hagain := settles_of_ordered h
  fun_induction ordered ptr with
  | case1 cond yes no ihyes ihno =>
    simp only [Bool.and_eq_true] at h
    refine settles_iff.mpr ?_
    filter_upwards [settles_of_ordered hvar, hagain, ihyes h.1.2 (settles_of_ordered h.1.2),
      ihno h.2 (settles_of_ordered h.2)] with k hvar hptr hyes hno
    rw [reorderRound, hvar, hptr]
    change (do
      let yes ← rounds k (.item var yes)
      let no ← rounds k (.item var no)
      return Tree.branch cond yes no) = _
    rw [hyes, hno, spread]
    exact ends_bind fun yes' _ => ends_bind fun no' _ => rfl
  | case2 ptr hbranch =>
    refine settles_iff.mpr ?_
    filter_upwards [settles_of_ordered hvar, hagain] with k hvar hptr
    rw [reorderRound, hvar, hptr, spread_of_flat h]
    cases ptr with
    | branch => exact absurd rfl (hbranch _ _ _)
    | _ =>
      change (if var.isBranch = true then _ else _) = ends (if var.isBranch = true then _ else _)
      split <;> rfl

mutual

theorem settles_reorder : ∀ {t : Tree}, delayFree t = true → Settles t (reorder t)
  | .branch cond yes no, h => by
    simp only [delayFree, Bool.and_eq_true] at h
    refine settles_iff.mpr ?_
    filter_upwards [settles_reorder h.1.1, settles_reorder h.1.2, settles_reorder h.2]
      with k hcond hyes hno
    rw [reorderRound, reorder, hcond, hyes, hno]
    exact ends_bind fun yes' _ => ends_bind fun no' _ => ends_bind fun cond' _ => rfl
  | .op _ args, h | .concat args, h => by
    refine settles_iff.mpr ?_
    filter_upwards [mapM_rounds h] with k hargs
    rw [reorderRound, reorder, hargs]
    exact ends_bind fun args' _ => rfl
  | .part var msb lsb, h => by
    simp only [delayFree, Bool.and_eq_true] at h
    refine settles_iff.mpr ?_
    filter_upwards [settles_reorder h.1.1, settles_reorder h.1.2, settles_reorder h.2]
      with k hvar hmsb hlsb
    rw [reorderRound, reorder, hvar, hmsb, hlsb]
    refine ends_bind fun msb' _ => ends_bind fun lsb' _ => ends_bind fun var' _ => ?_
    by_cases hends : (msb'.isBranch || lsb'.isBranch) = true
    · rw [if_pos hends, if_pos hends]
      rfl
    · rw [if_neg hends, if_neg hends]
      by_cases hvar : var'.isBranch = true
      · rw [if_pos hvar, if_pos hvar]
        rfl
      · rw [if_neg hvar, if_neg hvar]
        rfl
  | .item var ptr, h => by
    simp only [delayFree, Bool.and_eq_true] at h
    refine settles_iff.mpr ?_
    cases hptr : reorder ptr with
    | error e =>
      filter_upwards [settles_reorder h.2] with k hagain
      rw [reorderRound, reorder, hagain, hptr]
      rfl
    | ok ptr' =>
      cases hvar : reorder var with
      | error e =>
        filter_upwards [settles_reorder h.1, settles_reorder h.2] with k hagain hagain'
        rw [reorderRound, reorder, hagain, hagain', hptr, hvar]
        rfl
      | ok var' =>
        have hptr' := ordered_of_reorder h.2 hptr
        have hvar' := ordered_of_reorder h.1 hvar
        filter_upwards [settles_reorder h.1, settles_reorder h.2, settles_of_ordered hvar',
          settles_of_ordered hptr', settles_iff.mp (settles_item hvar' hptr')]
          with k hagain hagain' hvarAgain hptrAgain hitem
        -- The element with ordered parts does what ordering it anew does.
        rw [reorderRound, hvarAgain, hptrAgain] at hitem
        rw [reorderRound, reorder, hagain, hagain', hptr, hvar]
        exact hitem
  | .delay next, h => by simp [delayFree] at h
  | .call name args, h => by
    refine settles_iff.mpr (.of_forall fun k => ?_)
    rw [reorderRound, reorder]
    rfl
  | .hole, _ | .term _, _ | .unbound, _ | .const _ _, _ | .value _ _ _ _, _ | .unknown _, _
  | .floating _, _ => settles_iff.mpr (.of_forall fun _ => rfl)

theorem mapM_rounds : ∀ {ts : List Tree}, delayFreeAll ts = true →
    ∀ᶠ k in Filter.atTop, ts.mapM (rounds k) = ends (reorderAll ts)
  | [], _ => .of_forall fun _ => rfl
  | t :: ts, h => by
    simp only [delayFreeAll, Bool.and_eq_true] at h
    filter_upwards [settles_reorder h.1, mapM_rounds h.2] with k ht hts
    rw [mapM_cons, ht, hts, reorderAll]
    exact ends_bind fun t' _ => ends_bind fun ts' _ => rfl

end

theorem delayFree_of_flat (h : flat t = true) : delayFree t = true := by
  revert h
  refine (flat.mutual_induct (fun t => t.flat = true → t.delayFree = true)
    (fun ts => flatAll ts = true → delayFreeAll ts = true) ?_ ?_ ?_ ?_ ?_ ?_ ?_ ?_ ?_ ?_).1 t
  all_goals simp +contextual [flat, flatAll, delayFree, delayFreeAll]

theorem delayFree_of_ordered (h : ordered t = true) : delayFree t = true := by
  fun_induction ordered t with
  | case1 cond yes no ihyes ihno =>
    simp only [Bool.and_eq_true] at h
    simp [delayFree, delayFree_of_flat h.1.1, ihyes h.1.2, ihno h.2]
  | case2 => exact delayFree_of_flat h

theorem reorder_of_ordered (h : ordered t = true) : reorder t = .ok t :=
  Option.some.inj
    ((settles_reorder (delayFree_of_ordered h)).reorderAgain_eq.symm.trans
      (settles_of_ordered h).reorderAgain_eq)

/-- Whether a tree puts others together: an operation, a concatenation or a selection. -/
def combines : Tree → Bool
  | .op .. | .concat _ | .part .. | .item .. => true
  | _ => false

theorem flat_of_combines (h : ordered t = true) (ht : t.combines = true) : flat t = true := by
  cases t <;> first | exact h | simp [combines] at ht

/-- Ordering a tree ends, though an element with a branching index goes round again with trees that
are no parts of it. If it has a result, then no branch is left below an operation, a concatenation
or a selection and none in a condition, and ordering the result again changes nothing. -/
theorem reorder_ends_ordered (ht : t.delayFree = true) :
    (reorderAgain t).run = some t.reorder ∧
      ∀ r, t.reorder = .ok r →
        (∀ s, Within s r → s.combines = true → ∀ b, Within b s → b.isBranch = false) ∧
        (∀ cond yes no, Within (.branch cond yes no) r →
          ∀ b, Within b cond → b.isBranch = false) ∧
        r.reorder = .ok r ∧ (reorderAgain r).run = some (.ok r) := by
  refine ⟨(settles_reorder ht).reorderAgain_eq, fun r hr => ?_⟩
  have hordered := ordered_of_reorder ht hr
  refine ⟨?_, ?_, reorder_of_ordered hordered, (settles_of_ordered hordered).reorderAgain_eq⟩
  · intro s hs hcombines b hb
    have hflat := flat_of_combines (ordered_of_within hs hordered) hcombines
    exact isBranch_of_flat (flat_of_within hb hflat)
  · intro cond yes no hbranch b hb
    have hcond := ordered_of_within hbranch hordered
    simp only [ordered, Bool.and_eq_true] at hcond
    exact isBranch_of_flat (flat_of_within hb hcond.1.1)

/-- The element of a branching array at a branching index, whose arms are ordered in a second
round. -/
theorem reorder_ends_ordered_item :
    let t := Tree.item (.branch (.const .int "c") (.const .int "x") .hole)
      (.branch (.const .int "e") (.const .int "1") (.const .int "2"))
    let r := Tree.branch (.const .int "e")
      (.branch (.const .int "c") (.item (.const .int "x") (.const .int "1")) .hole)
      (.branch (.const .int "c") (.item (.const .int "x") (.const .int "2")) .hole)
    t.delayFree = true ∧ t.reorder = .ok r ∧ (reorderAgain t).run = some (.ok r) ∧
      r.reorder = .ok r := by
  intro t r
  have ht : t.delayFree = true := rfl
  have hr : t.reorder = .ok r := rfl
  exact ⟨ht, hr, (reorder_ends_ordered ht).1, ((reorder_ends_ordered ht).2 r hr).2.2.1⟩

end RtlFlow.Tree
