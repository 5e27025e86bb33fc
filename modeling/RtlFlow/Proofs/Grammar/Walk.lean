import Mathlib
import RtlFlow.Grammar.Lookahead
import RtlFlow.Proofs.Arrays

/-!
# Sets over a relation

A walk visits the nodes of a relation depth first. A node stays on the stack until the component
that it belongs to is complete; the nodes of a component then share the set of the node that was met
first. What is claimed is that no element gets lost: in the end the set of a node has the elements
that any node related to it had at the start.
-/

namespace RtlFlow.Grammar.Walk

open List

variable {w w' : Walk} {x y : Nat}

def Visited (w : Walk) (x : Nat) : Prop := w.depth.getD x 0 ≠ 0

/-- The sets of a later walk have all elements of those of an earlier one. -/
structure Grows (w w' : Walk) : Prop where
  size_le : w.sets.size ≤ w'.sets.size
  mem : ∀ i e, e ∈ w.sets.getD i #[] → e ∈ w'.sets.getD i #[]

theorem Grows.refl (w : Walk) : w.Grows w := ⟨Nat.le_refl _, fun _ _ h => h⟩

theorem Grows.trans {w'' : Walk} (h : w.Grows w') (h' : w'.Grows w'') : w.Grows w'' :=
  ⟨Nat.le_trans h.size_le h'.size_le, fun i e he => h'.mem i e (h.mem i e he)⟩

theorem Grows.mem_elems (h : w.Grows w') {e : Nat} (hset : w'.setOf.getD x 0 = w.setOf.getD x 0)
    (he : e ∈ w.elems x) : e ∈ w'.elems x := by
  unfold elems
  rw [hset]
  exact h.mem _ e he

/-! ## Growing a set -/

theorem mem_insertAll (new set : Array Nat) (e : Nat) :
    e ∈ insertAll new set ↔ e ∈ set ∨ e ∈ new := by
  rw [insertAll, ← Array.foldl_toList, ← @Array.mem_toList_iff _ e new]
  induction new.toList generalizing set with
  | nil => simp
  | cons a as ih =>
    rw [foldl_cons, ih]
    by_cases h : a ∈ set
    · rw [if_pos (by simpa using h)]
      constructor
      · rintro (he | he)
        · exact .inl he
        · exact .inr (mem_cons_of_mem _ he)
      · rintro (he | he)
        · exact .inl he
        · rcases mem_cons.mp he with rfl | he
          · exact .inl h
          · exact .inr he
    · rw [if_neg (by simpa using h)]
      simp [or_assoc]

theorem meet_depth (hx : x < w.depth.size) (z : Nat) : (w.meet x y).depth.getD z 0 =
    if z = x then min (w.depth.getD x 0) (w.depth.getD y 0) else w.depth.getD z 0 := by
  simp only [meet, getD_setIfInBounds, hx, and_true]

theorem grows_meet (w : Walk) (x y : Nat) : w.Grows (w.meet x y) := by
  refine ⟨by simp [meet], fun i e he => ?_⟩
  simp only [meet, getD_modify]
  split
  · exact (mem_insertAll ..).mpr (.inl he)
  · exact he

/-! ## Unwinding the stack -/

/-- The nodes down to `x` were taken off the stack. They are finished and share the set of `x`;
nothing else has changed. -/
structure Unwound (x : Nat) (above below : List Nat) (w w' : Walk) : Prop where
  stack : w'.stack = below
  sets : w'.sets = w.sets
  depth_size : w'.depth.size = w.depth.size
  setOf_size : w'.setOf.size = w.setOf.size
  depth : ∀ z, w'.depth.getD z 0 = if z ∈ above ++ [x] then w.finished else w.depth.getD z 0
  setOf : ∀ z, w'.setOf.getD z 0 =
    if z ∈ above ++ [x] then w.setOf.getD x 0 else w.setOf.getD z 0

theorem unwound_unwind (x : Nat) (below : List Nat) :
    ∀ (above : List Nat) (w : Walk), x ∉ above → (∀ z ∈ above ++ [x], z < w.depth.size) →
      w.setOf.size = w.depth.size → Unwound x above below w (unwind x (above ++ x :: below) w)
  | [], w, _, hlt, hsize => by
    have hx : x < w.depth.size := hlt x (by simp)
    rw [nil_append, unwind, if_pos rfl]
    refine ⟨rfl, rfl, by simp, by simp, fun z => ?_, fun z => ?_⟩ <;>
      simp only [getD_setIfInBounds, hsize, hx, and_true, nil_append, mem_singleton]
  | y :: above, w, hx, hlt, hsize => by
    have hy : y < w.depth.size := hlt y (by simp)
    have hyx : y ≠ x := fun h => hx (h ▸ mem_cons_self)
    have hx' : x ∉ above := fun h => hx (mem_cons_of_mem _ h)
    simp only [cons_append, unwind, if_neg hyx]
    obtain ⟨hstack, hsets, hdepth, hsetOf, hd, hs⟩ := unwound_unwind x below above
      { w with
        stack := above ++ x :: below
        depth := w.depth.setIfInBounds y w.finished
        setOf := w.setOf.setIfInBounds y (w.setOf.getD x 0) } hx'
      (fun z hz => by simpa using hlt z (mem_cons_of_mem _ hz)) (by simpa using hsize)
    refine ⟨hstack, hsets, by simpa using hdepth, by simpa using hsetOf, fun z => ?_, fun z => ?_⟩
    · rw [hd]
      simp only [finished, getD_setIfInBounds, Array.size_setIfInBounds, hy, and_true]
      by_cases hz : z = y <;> simp [hz]
    · simp only [hs, getD_setIfInBounds, hsize, hy, and_true]
      by_cases hz : z = y <;> simp [hz, Ne.symm hyx]

/-! ## Places on the stack -/

/-- The place of a node on the stack, counted from the bottom. -/
def At (w : Walk) (x k : Nat) : Prop :=
  ∃ above below, w.stack = above ++ x :: below ∧ k = below.length + 1

theorem exists_at (h : x ∈ w.stack) : ∃ k, w.At x k := by
  obtain ⟨above, below, h⟩ := append_of_mem h
  exact ⟨_, above, below, h, rfl⟩

theorem At.append {above : List Nat} {k : Nat} (hstack : w'.stack = above ++ w.stack)
    (h : w.At x k) : w'.At x k := by
  obtain ⟨a, b, hw, hk⟩ := h
  exact ⟨above ++ a, b, by rw [hstack, hw, append_assoc], hk⟩

theorem At.mem {k : Nat} (h : w.At x k) : x ∈ w.stack := by
  obtain ⟨a, b, hw, -⟩ := h
  simp [hw]

/-- The nodes that were met keep their depths and their sets. -/
structure Keeps (w w' : Walk) : Prop where
  depth : ∀ z, w.Visited z → w'.depth.getD z 0 = w.depth.getD z 0
  setOf : ∀ z, w.Visited z → w'.setOf.getD z 0 = w.setOf.getD z 0
  grows : w.Grows w'

theorem Keeps.refl (w : Walk) : w.Keeps w := ⟨fun _ _ => rfl, fun _ _ => rfl, .refl w⟩

theorem Keeps.visited (h : w.Keeps w') (hx : w.Visited x) : w'.Visited x := by
  unfold Visited
  rw [h.depth x hx]
  exact hx

theorem Keeps.trans {w'' : Walk} (h : w.Keeps w') (h' : w'.Keeps w'') : w.Keeps w'' where
  depth z hz := (h'.depth z (h.visited hz)).trans (h.depth z hz)
  setOf z hz := (h'.setOf z (h.visited hz)).trans (h.setOf z hz)
  grows := h.grows.trans h'.grows

/-! ## Nodes that were not met -/

def unmet (n : Nat) (w : Walk) : Nat :=
  ((List.range n).filter fun x => w.depth.getD x 0 = 0).length

theorem unmet_le_size (n : Nat) (w : Walk) : unmet n w ≤ n := by
  have := length_filter_le (fun x => decide (w.depth.getD x 0 = 0)) (List.range n)
  rwa [length_range] at this

theorem unmet_sublist {n : Nat} (h : ∀ z, w.Visited z → w'.Visited z) :
    ((List.range n).filter fun x => w'.depth.getD x 0 = 0).Sublist
      ((List.range n).filter fun x => w.depth.getD x 0 = 0) := by
  refine monotone_filter_right _ fun z hz => ?_
  simp only [decide_eq_true_eq] at hz ⊢
  by_contra h'
  exact h z h' hz

theorem unmet_lt {n : Nat} (h : ∀ z, w.Visited z → w'.Visited z) (hx : x < n)
    (hxw : ¬ w.Visited x) (hxw' : w'.Visited x) : unmet n w' < unmet n w := by
  have hmem : x ∈ (List.range n).filter fun x => w.depth.getD x 0 = 0 := by
    simpa [Visited, hx] using hxw
  by_contra hle
  have heq := (unmet_sublist h).eq_of_length_le (Nat.not_lt.mp hle)
  rw [← heq, mem_filter] at hmem
  exact hxw' (of_decide_eq_true hmem.2)

/-! ## What holds between two steps -/

/-- A node leads to another by the relation. -/
abbrev Reach (R : Array (List Nat)) : Nat → Nat → Prop :=
  Relation.ReflTransGen fun x y => y ∈ R.getD x []

/-- What a walk is over: a relation between the first `size` nodes, with sets to begin with. The
elements that a node has first, `init`, are put in place by `enter`. -/
structure Plan where
  relation : Array (List Nat)
  size : Nat
  sets : Array (Array Nat)
  init : Nat → Array Nat
  enter : Nat → Walk → Walk
  lt : ∀ x, ∀ y ∈ relation.getD x [], y < size
  depth : ∀ x w, (enter x w).depth = w.depth
  stack : ∀ x w, (enter x w).stack = w.stack
  setOf : ∀ x w z, z ≠ x → (enter x w).setOf.getD z 0 = w.setOf.getD z 0
  setOf_size : ∀ x w, (enter x w).setOf.size = w.setOf.size
  grows : ∀ x (w : Walk), w.Grows (enter x w)
  slot : ∀ x w, x < size → w.setOf.size = size → (start size sets).Grows w →
    (enter x w).setOf.getD x 0 < (enter x w).sets.size
  own : ∀ x w, x < size → w.setOf.size = size → (start size sets).Grows w →
    ∀ e ∈ init x, e ∈ (enter x w).elems x

namespace Plan

variable {P : Plan} {above below : List Nat} {k u v z : Nat}

def Finished (P : Plan) (w : Walk) (x : Nat) : Prop := w.depth.getD x 0 = P.size + 1

theorem Finished.visited (h : P.Finished w x) : w.Visited x := by
  unfold Finished at h
  unfold Visited
  omega

theorem Finished.keeps (h : P.Finished w x) (hw : w.Keeps w') : P.Finished w' x :=
  (hw.depth x h.visited).trans h

/-- The set of a node has the first elements of another. -/
def Holds (P : Plan) (w : Walk) (x y : Nat) : Prop := ∀ e ∈ P.init y, e ∈ w.elems x

theorem Holds.keeps (hv : P.Holds w z v) (h : w.Keeps w') (hz : w.Visited z) : P.Holds w' z v :=
  fun e he => h.grows.mem_elems (h.setOf z hz) (hv e he)

theorem Holds.meet (h : P.Holds w z v) : P.Holds (w.meet x y) z v :=
  fun e he => (grows_meet w x y).mem_elems rfl (h e he)

theorem Holds.meet_right (hx : w.setOf.getD x 0 < w.sets.size) (h : P.Holds w y v) :
    P.Holds (w.meet x y) x v := fun e he => by
  simp only [elems, Walk.meet, getD_modify, hx, and_true, if_pos]
  exact (mem_insertAll ..).mpr (.inr (h e he))

/-- A walk after some steps. The depth of a node on the stack is at most its place, and what is
finished has the first elements of all nodes that it leads to. -/
structure Invariant (P : Plan) (w : Walk) : Prop where
  depth_size : w.depth.size = P.size
  setOf_size : w.setOf.size = P.size
  /-- The sets are those of the start, grown. -/
  grows : (Walk.start P.size P.sets).Grows w
  nodup : w.stack.Nodup
  lt : ∀ x ∈ w.stack, x < P.size
  /-- A node on the stack was met, and its depth is bounded by its place. -/
  depth_le : ∀ x k, w.At x k → w.Visited x ∧ w.depth.getD x 0 ≤ k
  visited : ∀ x, w.Visited x → x ∈ w.stack ∨ P.Finished w x
  slot : ∀ x, w.Visited x → w.setOf.getD x 0 < w.sets.size
  held : ∀ x, P.Finished w x → ∀ y, Reach P.relation x y → P.Holds w x y

theorem length_le_of_lt {n : Nat} {l : List Nat} (hl : l.Nodup) (hlt : ∀ z ∈ l, z < n) :
    l.length ≤ n := by
  have := (subperm_of_subset hl fun z hz => mem_range.mpr (hlt z hz)).length_le
  simpa using this

theorem Invariant.at_le (h : P.Invariant w) (hx : w.At x k) : k ≤ P.size := by
  obtain ⟨above, below, hstack, rfl⟩ := hx
  have hlen := length_le_of_lt h.nodup h.lt
  rw [hstack] at hlen
  simp only [length_append, length_cons] at hlen
  omega

theorem Invariant.visited_of_mem (h : P.Invariant w) (hx : x ∈ w.stack) : w.Visited x := by
  obtain ⟨k, hk⟩ := exists_at hx
  exact (h.depth_le x k hk).1

theorem Invariant.slot_of_mem (h : P.Invariant w) (hx : x ∈ w.stack) :
    w.setOf.getD x 0 < w.sets.size := h.slot x (h.visited_of_mem hx)

theorem Invariant.not_finished (h : P.Invariant w) (hx : x ∈ w.stack) : ¬ P.Finished w x := by
  obtain ⟨k, hk⟩ := exists_at hx
  have := (h.depth_le x k hk).2
  have := h.at_le hk
  unfold Finished
  omega

/-- What a node `x` that is being treated knows of another: it is finished and the set of `x` has what
lies behind it, or it stands on the stack at or over the depth of `x`. -/
def Settled (P : Plan) (w : Walk) (x u : Nat) : Prop :=
  (P.Finished w u ∧ ∀ v, Reach P.relation u v → P.Holds w x v) ∨
    ∃ k, w.At u k ∧ w.depth.getD x 0 ≤ k

/-- A node is being treated: `above` are the nodes that were met since and are not finished, and
`done` are the nodes related to it that were treated. The set of the node has the first elements of
the nodes above, and what they and it lead to is settled. -/
structure Active (P : Plan) (w : Walk) (x : Nat) (above below done : List Nat) : Prop where
  stack : w.stack = above ++ x :: below
  own : P.Holds w x x
  collected : ∀ z ∈ above, P.Holds w x z
  settled : ∀ z ∈ above, ∀ u ∈ P.relation.getD z [], P.Settled w x u
  passed : ∀ u ∈ done, P.Settled w x u

/-! ## One related node -/

theorem Invariant.meet (h : P.Invariant w) (hx : x ∈ w.stack) (hy : w.Visited y) :
    P.Invariant (w.meet x y) ∧ (∀ z, (w.meet x y).Visited z ↔ w.Visited z) ∧
      ∀ z, P.Finished (w.meet x y) z ↔ P.Finished w z := by
  have hdepth := fun z => meet_depth (y := y) (h.depth_size ▸ h.lt x hx) z
  obtain ⟨k, hk⟩ := exists_at hx
  have hxv := (h.depth_le x k hk).1
  have hxk := Nat.le_trans (h.depth_le x k hk).2 (h.at_le hk)
  have hvisited : ∀ z, (w.meet x y).Visited z ↔ w.Visited z := by
    intro z
    unfold Visited at hxv hy ⊢
    rw [hdepth]
    by_cases hz : z = x
    · subst hz
      rw [if_pos rfl]
      omega
    · rw [if_neg hz]
  have hfinished : ∀ z, P.Finished (w.meet x y) z ↔ P.Finished w z := by
    intro z
    unfold Finished
    rw [hdepth]
    by_cases hz : z = x
    · subst hz
      rw [if_pos rfl]
      omega
    · rw [if_neg hz]
  refine ⟨⟨?_, h.setOf_size, h.grows.trans (grows_meet w x y), h.nodup, h.lt, ?_, ?_, ?_, ?_⟩,
    hvisited, hfinished⟩
  · simpa [Walk.meet] using h.depth_size
  · intro z j hz
    obtain ⟨hzv, hzj⟩ := h.depth_le z j hz
    refine ⟨(hvisited z).mpr hzv, ?_⟩
    rw [hdepth]
    by_cases hzx : z = x
    · subst hzx
      rw [if_pos rfl]
      omega
    · rwa [if_neg hzx]
  · intro z hz
    exact (h.visited z ((hvisited z).mp hz)).imp_right (hfinished z).mpr
  · intro z hz
    exact Nat.lt_of_lt_of_le (h.slot z ((hvisited z).mp hz)) (grows_meet w x y).size_le
  · intro z hz v hv
    exact (h.held z ((hfinished z).mp hz) v hv).meet

/-- What one of two nodes knows, the first knows when it meets the second. -/
theorem Settled.meet (h : P.Invariant w) (hx : x ∈ w.stack) (hy : w.Visited y)
    (hz : z = x ∨ z = y) (hu : P.Settled w z u) : P.Settled (w.meet x y) x u := by
  rcases hu with ⟨huf, hheld⟩ | ⟨k, hk, hle⟩
  · refine .inl ⟨((h.meet hx hy).2.2 u).mpr huf, fun v huv => ?_⟩
    rcases hz with rfl | rfl
    · exact (hheld v huv).meet
    · exact (hheld v huv).meet_right (h.slot_of_mem hx)
  · refine .inr ⟨k, hk, ?_⟩
    rw [meet_depth (h.depth_size ▸ h.lt x hx), if_pos rfl]
    rcases hz with rfl | rfl <;> omega

theorem Invariant.settled (h : P.Invariant w) (hx : w.Visited x) : P.Settled w x x := by
  rcases h.visited x hx with hx | hx
  · obtain ⟨k, hk⟩ := exists_at hx
    exact .inr ⟨k, hk, (h.depth_le x k hk).2⟩
  · exact .inl ⟨hx, h.held x hx⟩

theorem Settled.keeps (hkeeps : w.Keeps w') (hstack : w'.stack = above ++ w.stack)
    (hx : w.Visited x) (h : P.Settled w x u) : P.Settled w' x u := by
  rcases h with ⟨hu, hheld⟩ | ⟨k, hk, hle⟩
  · exact .inl ⟨hu.keeps hkeeps, fun v hv => (hheld v hv).keeps hkeeps hx⟩
  · exact .inr ⟨k, hk.append hstack, by rwa [hkeeps.depth x hx]⟩

/-! ## Whole visits -/

/-- A node was visited. What was put on the stack stands on what was there, and the set of the node
accounts for it. -/
structure Met (P : Plan) (x : Nat) (w w' : Walk) (above : List Nat) : Prop where
  keeps : w.Keeps w'
  visited : w'.Visited x
  stack : w'.stack = above ++ w.stack
  collected : ∀ z ∈ above, P.Holds w' x z
  settled : ∀ z ∈ above, ∀ u ∈ P.relation.getD z [], P.Settled w' x u
  root : w.stack = [] → above = []

theorem Met.refl (h : w.Visited x) : P.Met x w w [] where
  keeps := .refl w
  visited := h
  stack := rfl
  collected := by simp
  settled := by simp
  root _ := rfl

theorem Active.step (hw : P.Invariant w) (hw' : P.Invariant w') {done new : List Nat}
    (h : P.Active w x above below done) (hy : P.Met y w w' new) :
    P.Active (w'.meet x y) x (new ++ above) below (done ++ [y]) := by
  have hxv : w.Visited x := hw.visited_of_mem (by simp [h.stack])
  have hxs : x ∈ w'.stack := by simp [hy.stack, h.stack]
  have hold : ∀ {u}, P.Settled w x u → P.Settled (w'.meet x y) x u := fun hu =>
    (hu.keeps hy.keeps hy.stack hxv).meet hw' hxs hy.visited (.inl rfl)
  have hnew : ∀ {u}, P.Settled w' y u → P.Settled (w'.meet x y) x u := fun hu =>
    hu.meet hw' hxs hy.visited (.inr rfl)
  refine ⟨?_, (h.own.keeps hy.keeps hxv).meet, ?_, ?_, ?_⟩
  · exact hy.stack.trans (by rw [h.stack, append_assoc])
  · intro z hz
    rcases mem_append.mp hz with hz | hz
    · exact (hy.collected z hz).meet_right (hw'.slot_of_mem hxs)
    · exact ((h.collected z hz).keeps hy.keeps hxv).meet
  · intro z hz u hu
    rcases mem_append.mp hz with hz | hz
    · exact hnew (hy.settled z hz u hu)
    · exact hold (h.settled z hz u hu)
  · intro u hu
    rcases mem_append.mp hu with hu | hu
    · exact hold (h.passed u hu)
    · obtain rfl := mem_singleton.mp hu
      exact hnew (hw'.settled hy.visited)

/-! ## Entering a node and leaving a component -/

theorem Invariant.enter (h : P.Invariant w) (hx : x < P.size) (hxv : ¬ w.Visited x) :
    let w' := P.enter x (w.push x)
    P.Invariant w' ∧ w.Keeps w' ∧ P.Active w' x [] w.stack [] := by
  intro w'
  have hstack : w'.stack = x :: w.stack := P.stack ..
  have hdepth : ∀ z, w'.depth.getD z 0 =
      if z = x then w.stack.length + 1 else w.depth.getD z 0 := by
    intro z
    simp only [w', P.depth, push, getD_setIfInBounds, h.depth_size, hx, and_true]
  have hsize : w'.depth.size = P.size := by
    simp only [w', P.depth, push, Array.size_setIfInBounds, h.depth_size]
  have hgrows : w.Grows w' := ⟨(P.grows x (w.push x)).size_le, (P.grows x (w.push x)).mem⟩
  have hne : ∀ z, w.Visited z → z ≠ x := fun z hz hzx => hxv (hzx ▸ hz)
  have hkeeps : w.Keeps w' := ⟨fun z hz => by rw [hdepth, if_neg (hne z hz)],
    fun z hz => P.setOf x (w.push x) z (hne z hz), hgrows⟩
  have hnot : x ∉ w.stack := fun hxs => hxv (h.visited_of_mem hxs)
  have hnodup : w'.stack.Nodup := hstack ▸ nodup_cons.mpr ⟨hnot, h.nodup⟩
  have hlt : ∀ z ∈ w'.stack, z < P.size := by
    intro z hz
    rcases mem_cons.mp (hstack ▸ hz) with rfl | hz
    · exact hx
    · exact h.lt z hz
  have hvisited : ∀ z, w'.Visited z → z = x ∨ w.Visited z := by
    intro z hz
    unfold Visited at hz
    rw [hdepth] at hz
    by_cases hzx : z = x
    · exact .inl hzx
    · exact .inr (by rwa [if_neg hzx] at hz)
  have hfinished : ∀ z, P.Finished w' z → P.Finished w z := by
    intro z hz
    unfold Finished at hz ⊢
    rw [hdepth] at hz
    by_cases hzx : z = x
    · rw [if_pos hzx] at hz
      have hlen := length_le_of_lt hnodup hlt
      rw [hstack, length_cons] at hlen
      omega
    · rwa [if_neg hzx] at hz
  have hpush : (Walk.start P.size P.sets).Grows (w.push x) := ⟨h.grows.size_le, h.grows.mem⟩
  refine ⟨⟨hsize, (P.setOf_size ..).trans h.setOf_size, h.grows.trans hgrows, hnodup, hlt, ?_, ?_,
    ?_, ?_⟩, hkeeps, ⟨hstack, P.own x (w.push x) hx h.setOf_size hpush, by simp, by simp, by simp⟩⟩
  · rintro z k ⟨above, below, hs, rfl⟩
    rw [hstack] at hs
    rcases cons_eq_append_iff.mp hs with ⟨rfl, hb⟩ | ⟨above', rfl, hb⟩
    · obtain ⟨rfl, rfl⟩ := List.cons.inj hb
      have := hdepth z
      rw [if_pos rfl] at this
      exact ⟨by unfold Visited; omega, by omega⟩
    · obtain ⟨hzv, hzk⟩ := h.depth_le z _ ⟨above', below, hb, rfl⟩
      exact ⟨hkeeps.visited hzv, by rwa [hkeeps.depth z hzv]⟩
  · intro z hz
    rcases hvisited z hz with rfl | hz
    · exact .inl (by simp [hstack])
    · rcases h.visited z hz with hz | hz
      · exact .inl (by simp [hstack, hz])
      · exact .inr (hz.keeps hkeeps)
  · intro z hz
    rcases hvisited z hz with rfl | hz
    · exact P.slot z (w.push z) hx h.setOf_size hpush
    · rw [hkeeps.setOf z hz]
      exact Nat.lt_of_lt_of_le (h.slot z hz) hgrows.size_le
  · intro z hz v hv
    exact (h.held z (hfinished z hz) v hv).keeps hkeeps (hfinished z hz).visited

/-- When all related nodes of a node are treated, it is like the nodes above. -/
theorem Active.all (h : P.Active w x above below (P.relation.getD x [])) :
    ∀ z ∈ above ++ [x], P.Holds w x z ∧ ∀ u ∈ P.relation.getD z [], P.Settled w x u := by
  intro z hz
  rcases mem_append.mp hz with hz | hz
  · exact ⟨h.collected z hz, h.settled z hz⟩
  · obtain rfl := mem_singleton.mp hz
    exact ⟨h.own, h.passed⟩

/-- If the depth of a treated node is its place, the nodes above and itself lead only to one another
and to finished nodes: its set has all that they lead to. -/
theorem Active.holds (h : P.Active w x above below (P.relation.getD x []))
    (hd : below.length + 1 ≤ w.depth.getD x 0) (hz : z ∈ above ++ [x])
    (hv : Reach P.relation z v) : P.Holds w x v := by
  have hmem : ∀ u k, w.At u k → w.depth.getD x 0 ≤ k → u ∈ above ++ [x] := by
    rintro u k ⟨a, b, hs, hk⟩ hle
    rw [h.stack, append_cons] at hs
    rcases append_eq_append_iff.mp hs with ⟨c, rfl, hc⟩ | ⟨c, hc, hb⟩
    · have := congrArg List.length hc
      simp only [length_append, length_cons] at this
      omega
    · rw [hc]
      cases c with
      | nil =>
        have := congrArg List.length hb
        simp only [nil_append, length_cons] at this
        omega
      | cons e c =>
        obtain ⟨rfl, -⟩ := List.cons.inj hb
        simp
  induction hv using Relation.ReflTransGen.head_induction_on with
  | refl => exact (h.all v hz).1
  | head hzu huv ih =>
    rcases (h.all _ hz).2 _ hzu with ⟨-, hheld⟩ | ⟨k, hk, hle⟩
    · exact hheld v huv
    · exact ih (hmem _ k hk hle)

theorem Invariant.unwound (hw : P.Invariant w) (h : w.stack = above ++ x :: below) :
    Unwound x above below w (unwind x w.stack w) := by
  have hnodup := hw.nodup
  rw [h] at hnodup ⊢
  refine unwound_unwind x below above w
    (fun hx => (nodup_append.mp hnodup).2.2 x hx x mem_cons_self rfl) (fun z hz => ?_)
    (hw.setOf_size.trans hw.depth_size.symm)
  rw [hw.depth_size]
  refine hw.lt z ?_
  rw [h, append_cons]
  exact mem_append_left _ hz

/-- The component of a node whose depth is its place is complete. -/
theorem Active.unwind (hw : P.Invariant w)
    (h : P.Active w x above below (P.relation.getD x []))
    (hd : below.length + 1 ≤ w.depth.getD x 0) :
    P.Invariant (unwind x w.stack w) ∧ (unwind x w.stack w).stack = below ∧
      P.Finished (unwind x w.stack w) x ∧ w.Grows (unwind x w.stack w) ∧
      ∀ z, z ∉ above ++ [x] → (unwind x w.stack w).depth.getD z 0 = w.depth.getD z 0 ∧
        (unwind x w.stack w).setOf.getD z 0 = w.setOf.getD z 0 := by
  have hnodup := hw.nodup
  rw [h.stack] at hnodup
  obtain ⟨-, hxb, hdisj⟩ := nodup_append.mp hnodup
  obtain ⟨hstack, hsets, hdepth, hsetOf, hd', hs'⟩ := hw.unwound h.stack
  generalize Walk.unwind x w.stack w = w' at *
  have hout : ∀ z, z ∉ above ++ [x] → w'.depth.getD z 0 = w.depth.getD z 0 ∧
      w'.setOf.getD z 0 = w.setOf.getD z 0 := fun z hz => by
    rw [hd', hs', if_neg hz, if_neg hz]
    exact ⟨rfl, rfl⟩
  have hin : ∀ z, z ∈ above ++ [x] → P.Finished w' z ∧ w'.setOf.getD z 0 = w.setOf.getD x 0 :=
    fun z hz => by
      unfold Finished
      rw [hd', hs', if_pos hz, if_pos hz, finished, hw.depth_size]
      exact ⟨rfl, rfl⟩
  have hbelow : ∀ z ∈ below, z ∉ above ++ [x] := by
    intro z hz hz'
    rcases mem_append.mp hz' with hz' | hz'
    · exact hdisj z hz' z (mem_cons_of_mem _ hz) rfl
    · exact (nodup_cons.mp hxb).1 (mem_singleton.mp hz' ▸ hz)
  have hsub : ∀ z k, w'.At z k → w.At z k := by
    rintro z k ⟨a, b, hs, hk⟩
    exact ⟨above ++ x :: a, b, by rw [h.stack, ← hstack, hs]; simp, hk⟩
  have hx : x ∈ above ++ [x] := by simp
  have hxslot := hw.slot_of_mem (x := x) (by simp [h.stack])
  refine ⟨⟨hdepth.trans hw.depth_size, hsetOf.trans hw.setOf_size,
    ⟨hsets ▸ hw.grows.size_le, hsets ▸ hw.grows.mem⟩, ?_, ?_, ?_, ?_, ?_, ?_⟩, hstack,
    (hin x hx).1, ⟨Nat.le_of_eq (hsets ▸ rfl), fun i e he => hsets ▸ he⟩, hout⟩
  · exact hstack ▸ (nodup_cons.mp hxb).2
  · intro z hz
    rw [hstack] at hz
    exact hw.lt z (by simp [h.stack, hz])
  · intro z k hz
    have hz' := hout z (hbelow z (hstack ▸ hz.mem))
    unfold Visited
    rw [hz'.1]
    exact hw.depth_le z k (hsub z k hz)
  · intro z hz
    by_cases hz' : z ∈ above ++ [x]
    · exact .inr (hin z hz').1
    · unfold Visited at hz
      rw [(hout z hz').1] at hz
      unfold Finished
      rw [(hout z hz').1, hstack]
      refine (hw.visited z hz).imp_left fun hzs => ?_
      rw [h.stack, append_cons] at hzs
      exact (mem_append.mp hzs).resolve_left hz'
  · intro z hz
    rw [hsets]
    by_cases hz' : z ∈ above ++ [x]
    · rw [(hin z hz').2]
      exact hxslot
    · unfold Visited at hz
      rw [(hout z hz').1] at hz
      rw [(hout z hz').2]
      exact hw.slot z hz
  · intro z hz v hv e he
    unfold elems
    rw [hsets]
    by_cases hz' : z ∈ above ++ [x]
    · rw [(hin z hz').2]
      exact h.holds hd hz' hv e he
    · unfold Finished at hz
      rw [(hout z hz').1] at hz
      rw [(hout z hz').2]
      exact hw.held z hz v hv e he

/-! ## The visits -/

/-- What `fuel` has to allow for: visits of nodes that were not met. -/
def VisitSpec (P : Plan) (fuel : Nat) : Prop :=
  ∀ x w, P.Invariant w → x < P.size → ¬ w.Visited x → unmet P.size w ≤ fuel →
    P.Invariant (visit P.relation P.enter fuel x w) ∧
      ∃ above, P.Met x w (visit P.relation P.enter fuel x w) above

/-- Walking from the nodes that are related to `x`. What was there before `x` was met stays. -/
theorem visitAll_spec {fuel : Nat} (hvisit : P.VisitSpec fuel) {w₁ : Walk} (hx : ¬ w₁.Visited x) :
    ∀ (ys : List Nat) (w : Walk) (above done : List Nat), P.Invariant w → w₁.Keeps w →
      P.Active w x above below done → (∀ y ∈ ys, y < P.size) → unmet P.size w ≤ fuel →
      P.Invariant (visitAll P.relation P.enter fuel x ys w) ∧
        w₁.Keeps (visitAll P.relation P.enter fuel x ys w) ∧
        ∃ above', P.Active (visitAll P.relation P.enter fuel x ys w) x above' below (done ++ ys)
  | [], w, above, done, hw, hkeeps, hactive, _, _ => by
    rw [visitAll, append_nil]
    exact ⟨hw, hkeeps, above, hactive⟩
  | y :: ys, w, above, done, hw, hkeeps, hactive, hlt, hfuel => by
    obtain ⟨w', hw', hbranch⟩ : ∃ w',
        (if w.depth.getD y 0 = 0 then visit P.relation P.enter fuel y w else w) = w' ∧
          P.Invariant w' ∧ ∃ new, P.Met y w w' new := by
      by_cases hy : w.Visited y
      · exact ⟨w, if_neg hy, hw, [], .refl hy⟩
      · refine ⟨_, if_pos (not_not.mp hy), hvisit y w hw (hlt y (by simp)) hy hfuel⟩
    obtain ⟨hinv', new, hmet⟩ := hbranch
    rw [visitAll, hw']
    have hxs : x ∈ w'.stack := by simp [hmet.stack, hactive.stack]
    obtain ⟨hinv, hvisited, -⟩ := hinv'.meet hxs hmet.visited
    have hstep : w₁.Keeps (w'.meet x y) := by
      have h := hkeeps.trans hmet.keeps
      refine ⟨fun z hz => ?_, h.setOf, h.grows.trans (grows_meet w' x y)⟩
      have hzx : z ≠ x := fun hzx => hx (hzx ▸ hz)
      rw [meet_depth (hinv'.depth_size ▸ hinv'.lt x hxs), if_neg hzx]
      exact h.depth z hz
    have hunmet : unmet P.size (w'.meet x y) ≤ fuel := Nat.le_trans
      (unmet_sublist fun z hz => (hvisited z).mpr (hmet.keeps.visited hz)).length_le hfuel
    have := visitAll_spec hvisit hx ys (w'.meet x y) _ _ hinv hstep
      (hactive.step hw hinv' hmet) (fun z hz => hlt z (by simp [hz])) hunmet
    rwa [append_assoc] at this

theorem visit_spec (P : Plan) : ∀ fuel, P.VisitSpec fuel
  | 0 => by
    intro x w _ hx hxv hfuel
    have hmem : x ∈ (List.range P.size).filter fun x => w.depth.getD x 0 = 0 := by
      simpa [Visited, hx] using hxv
    exact absurd (length_pos_of_mem hmem) (by unfold unmet at hfuel; omega)
  | fuel + 1 => by
    intro x w hw hx hxv hfuel
    obtain ⟨hw₁, hkeeps₁, hactive₁⟩ := hw.enter hx hxv
    have hv₁ : (P.enter x (w.push x)).Visited x := hw₁.visited_of_mem (by simp [hactive₁.stack])
    have hunmet := unmet_lt (fun z hz => hkeeps₁.visited hz) hx hxv hv₁
    obtain ⟨hw₂, hkeeps₂, above, hactive₂⟩ := visitAll_spec (visit_spec P fuel) hxv
      (P.relation.getD x []) _ [] [] hw₁ hkeeps₁ hactive₁ (P.lt x) (by omega)
    rw [nil_append] at hactive₂
    rw [visit]
    generalize visitAll P.relation P.enter fuel x (P.relation.getD x [])
      (P.enter x (w.push x)) = w₂ at *
    have hxat : w₂.At x (w.stack.length + 1) := ⟨above, w.stack, hactive₂.stack, rfl⟩
    by_cases hd : w₂.depth.getD x 0 = w.stack.length + 1
    · rw [if_pos hd]
      obtain ⟨hw₃, hstack, hfin, hgrows, hout⟩ := hactive₂.unwind hw₂ (Nat.le_of_eq hd.symm)
      have hout' : ∀ z, w.Visited z → z ∉ above ++ [x] := by
        intro z hz hz'
        have hnodup := hw₂.nodup
        rw [hactive₂.stack, append_cons] at hnodup
        rcases hw.visited z hz with hzs | hzf
        · exact (nodup_append.mp hnodup).2.2 z hz' z hzs rfl
        · refine hw₂.not_finished ?_ (hzf.keeps hkeeps₂)
          rw [hactive₂.stack, append_cons]
          exact mem_append_left _ hz'
      refine ⟨hw₃, [], ⟨fun z hz => ?_, fun z hz => ?_, ?_⟩, hfin.visited, hstack, by simp, by simp,
        fun _ => rfl⟩
      · rw [(hout z (hout' z hz)).1, hkeeps₂.depth z hz]
      · rw [(hout z (hout' z hz)).2, hkeeps₂.setOf z hz]
      · exact hkeeps₂.grows.trans hgrows
    · rw [if_neg hd]
      obtain ⟨hxv₂, hle⟩ := hw₂.depth_le x _ hxat
      refine ⟨hw₂, above ++ [x], hkeeps₂, hxv₂, ?_, fun z hz => (hactive₂.all z hz).1,
        fun z hz => (hactive₂.all z hz).2, ?_⟩
      · rw [hactive₂.stack, append_assoc, singleton_append]
      · intro hnil
        unfold Visited at hxv₂
        rw [hnil, length_nil] at hle hd
        omega

/-! ## The whole walk -/

/-- A walk whose stack is empty between two visits of `run`. -/
structure Rested (P : Plan) (upTo : Nat) (w : Walk) : Prop where
  invariant : P.Invariant w
  stack : w.stack = []
  visited : ∀ x < upTo, w.Visited x

theorem Rested.visit (h : P.Rested x w) (hx : x < P.size) : P.Rested (x + 1)
    (if w.depth.getD x 0 = 0 then Walk.visit P.relation P.enter (P.size + 1) x w else w) := by
  by_cases hxv : w.Visited x
  · rw [if_neg hxv]
    refine ⟨h.invariant, h.stack, fun z hz => ?_⟩
    rcases Nat.lt_succ_iff_lt_or_eq.mp hz with hz | rfl
    · exact h.visited z hz
    · exact hxv
  · rw [if_pos (not_not.mp hxv)]
    obtain ⟨hinv, above, hmet⟩ := P.visit_spec (P.size + 1) x w h.invariant hx hxv
      (Nat.le_succ_of_le (unmet_le_size _ w))
    refine ⟨hinv, ?_, fun z hz => ?_⟩
    · rw [hmet.stack, hmet.root h.stack, h.stack, nil_append]
    · rcases Nat.lt_succ_iff_lt_or_eq.mp hz with hz | rfl
      · exact hmet.keeps.visited (h.visited z hz)
      · exact hmet.visited

theorem rested_start (P : Plan) : P.Rested 0 (start P.size P.sets) := by
  have hv : ∀ x, ¬ (start P.size P.sets).Visited x := fun x =>
    not_not.mpr (getD_replicate_default P.size x 0)
  refine ⟨⟨by simp [start], by simp [start], .refl _, by simp [start], by simp [start], ?_, ?_, ?_,
    ?_⟩, rfl, by simp⟩
  · rintro x k ⟨above, below, hs, -⟩
    simp [start] at hs
  · exact fun x hx => absurd hx (hv x)
  · exact fun x hx => absurd hx (hv x)
  · exact fun x hx => absurd hx.visited (hv x)

theorem rested_run (P : Plan) : P.Rested P.size (run P.relation P.enter P.size P.sets) := by
  suffices ∀ m ≤ P.size, P.Rested m ((List.range m).foldl (fun w x =>
      if w.depth.getD x 0 = 0 then Walk.visit P.relation P.enter (P.size + 1) x w else w)
      (start P.size P.sets)) from this P.size (Nat.le_refl _)
  intro m
  induction m with
  | zero => exact fun _ => rested_start P
  | succ m ih =>
    intro hm
    rw [range_succ, foldl_concat]
    exact (ih (by omega)).visit hm

theorem mem_run (P : Plan) (hx : x < P.size) (hxy : Reach P.relation x y) {e : Nat}
    (he : e ∈ P.init y) : e ∈ (run P.relation P.enter P.size P.sets).elems x := by
  have h := P.rested_run
  refine h.invariant.held x ?_ y hxy e he
  refine (h.invariant.visited x (h.visited x hx)).resolve_left ?_
  simp [h.stack]

end Plan

end RtlFlow.Grammar.Walk
