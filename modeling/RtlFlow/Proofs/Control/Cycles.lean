import Mathlib
import RtlFlow.Proofs.Control.Transitions

/-!
# Cycles of a state machine

The transitions of a machine are the edges of a graph on its states. The search for cycles starts
from each state in turn and notes the states that it has left, so that it comes back to none of
them but can stay once at the state where it is. A state is not searched from when it was met as
often as it has transitions.
-/

namespace RtlFlow.Machine

open List

variable {k : Int} {l p u v : List Int} {ls : List (List Int)}

/-! ## Closed walks -/

def Edge (m : Machine) (a b : Int) : Prop :=
  ∃ dsts, m.fsm.get? (.int a) = some dsts ∧ .int b ∈ dsts.values

def degree (m : Machine) (a : Int) : Nat := ((m.fsm.get? (.int a)).map Table.size).getD 0

/-- The states of a walk along edges that ends where it starts. -/
def ClosedWalk (m : Machine) : List Int → Prop
  | [] => False
  | a :: l => (a :: l ++ [a]).IsChain m.Edge

def FromLeast : List Int → Prop
  | [] => False
  | a :: l => ∀ b ∈ l, a ≤ b

/-- An elementary cycle, from its smallest state on. -/
structure Elementary (m : Machine) (c : List Int) : Prop where
  closed : m.ClosedWalk c
  nodup : c.Nodup
  fromLeast : FromLeast c

/-- No state comes again, except right after itself. -/
def Loose : List Int → Prop
  | [] => True
  | a :: l => a ∉ l.tail ∧ Loose l

/-- The closed walks that are found from a state: no state comes again except right after itself,
and neither the state nor the one after it comes again at all. -/
structure FoundFrom (m : Machine) (k : Int) (l : List Int) : Prop where
  closed : m.ClosedWalk l
  loose : Loose l
  fromLeast : FromLeast l
  length_le : l.length ≤ pathBound
  once : ∃ u v, l = u ++ k :: v ∧ k ∉ v ++ u ∧ ∀ n q, v ++ u = n :: q → n ∉ q

/-- How often a state comes in some walks. -/
def occurrences (k : Int) (ls : List (List Int)) : Nat := (ls.map (List.count k)).sum

theorem loose_append (h : u.Disjoint v) : Loose (u ++ v) ↔ Loose u ∧ Loose v := by
  induction u with
  | nil => simp [Loose]
  | cons a u ih =>
    obtain ⟨hav, hdisjoint⟩ := disjoint_cons_left.mp h
    have htail : a ∉ (u ++ v).tail ↔ a ∉ u.tail := by
      cases u with
      | nil => simpa using fun hv => hav (mem_of_mem_tail hv)
      | cons b u => simp [hav]
    rw [cons_append, Loose, Loose, ih hdisjoint, htail, and_assoc]

theorem Loose.disjoint_of_append_cons (h : Loose (u ++ k :: v)) : u.Disjoint v := by
  induction u with
  | nil => simp
  | cons a u ih =>
    refine disjoint_cons_left.mpr ⟨fun hv => h.1 ?_, ih h.2⟩
    cases u with
    | nil => exact hv
    | cons b u => simp [hv]

theorem Loose.disjoint_of_head {a : Int} (h : Loose (u ++ a :: v)) (ha : a ∉ u) :
    u.Disjoint (a :: v) := by
  induction u with
  | nil => simp
  | cons b u ih =>
    obtain ⟨hne, ha⟩ := not_or.mp (mem_cons.not.mp ha)
    refine disjoint_cons_left.mpr ⟨fun hb => h.1 ?_, ih h.2 ha⟩
    have hv : b ∈ v := (mem_cons.mp hb).resolve_left (Ne.symm hne)
    cases u with
    | nil => exact hv
    | cons c u => simp [hv]

theorem Loose.of_nodup (h : l.Nodup) : Loose l := by
  induction l with
  | nil => trivial
  | cons a l ih =>
    obtain ⟨ha, hl⟩ := nodup_cons.mp h
    exact ⟨fun h => ha (mem_of_mem_tail h), ih hl⟩

theorem closedWalk_rotate {m : Machine} :
    m.ClosedWalk (u ++ k :: v) ↔ m.ClosedWalk (k :: (v ++ u)) := by
  cases u with
  | nil => simp
  | cons b u =>
    have hl : b :: u ++ k :: v ++ [b] = (b :: u) ++ k :: (v ++ [b]) := by simp
    have hr : k :: (v ++ b :: u) ++ [k] = (k :: v) ++ b :: (u ++ [k]) := by simp
    rw [cons_append, ClosedWalk, ClosedWalk, ← cons_append, hl, hr, isChain_split,
      isChain_split (c := b)]
    simp only [cons_append]
    exact and_comm

/-! ## Lists of integers -/

theorem exists_map_int {l : List Scalar} (h : ∀ s ∈ l, ∃ n, s = .int n) :
    ∃ ns : List Int, l = ns.map .int := by
  induction l with
  | nil => exact ⟨[], rfl⟩
  | cons s l ih =>
    obtain ⟨n, rfl⟩ := h s (by simp)
    obtain ⟨ns, rfl⟩ := ih fun s hs => h s (by simp [hs])
    exact ⟨n :: ns, rfl⟩

theorem int_beq_iff (a b : Int) : (Scalar.int a == Scalar.int b) = true ↔ a = b :=
  Scalar.int_same_iff

theorem path_beq_iff (p q : List Int) : (p.map Scalar.int == q.map Scalar.int) = true ↔ p = q := by
  induction p generalizing q with
  | nil => cases q <;> simp
  | cons a p ih =>
    cases q with
    | nil => simp
    | cons b q => simp [int_beq_iff, ih]

/-! ## The search from a state -/

variable {m : Machine} {src : Int} {n : Nat} {c visited : List Int} {f : Found}

theorem exists_targets (hm : m.IntegerStates) (a : Int) :
    ∃ ts : List Int, m.targets (.int a) = ts.map .int ∧ ∀ b, b ∈ ts ↔ m.Edge a b := by
  cases hget : m.fsm.get? (.int a) with
  | none => exact ⟨[], by rw [targets, hget]; rfl, by simp [Edge, hget]⟩
  | some dsts =>
    have hmem := (Table.get?_int_eq_some_iff hm.sources hm.nodup).mp hget
    obtain ⟨vs, hvs⟩ := exists_map_int (hm.targets dsts (mem_map_of_mem hmem))
    obtain ⟨ts, hts, hts'⟩ := exists_foldl_new int_beq_iff vs []
    refine ⟨ts, ?_, fun b => ?_⟩
    · rw [targets, hget]
      change dsts.values.foldl _ [] = _
      rw [hvs]
      exact hts
    · simp [hts', Edge, hget, hvs]

theorem exists_distinctPaths (ps : List (List Int)) :
    ∃ qs : List (List Int), distinctPaths (ps.map (List.map Scalar.int)) = qs.map (List.map Scalar.int) ∧
      ∀ p, p ∈ qs ↔ p ∈ ps := by
  obtain ⟨qs, hqs, hmem⟩ := exists_foldl_new path_beq_iff ps []
  exact ⟨qs, hqs, by simpa using hmem⟩

/-- A path to `src` of at most `n` states. None but the first has been left before. -/
structure IsPath (m : Machine) (src : Int) (n : Nat) (visited : List Int) (node : Int)
    (p : List Int) : Prop where
  ends : ∃ q, p = q ++ [src] ∧ src ∉ q
  starts : p.head? = some node
  chain : p.IsChain m.Edge
  loose : Loose p
  fresh : ∀ a ∈ p.tail, a ∉ visited
  length_le : p.length ≤ n

theorem isPath_self : m.IsPath src (n + 1) visited src p ↔ p = [src] := by
  constructor
  · rintro ⟨⟨q, rfl, hq⟩, hstart, -, -, -, -⟩
    cases q with
    | nil => rfl
    | cons a q =>
      cases hstart
      exact absurd (mem_cons_self) hq
  · rintro rfl
    exact ⟨⟨[], rfl, by simp⟩, rfl, by simp, by simp [Loose], by simp, by simp⟩

theorem isPath_step {node : Int} (hne : src ≠ node) :
    m.IsPath src (n + 1) visited node p ↔
      ∃ d r, p = node :: r ∧ m.Edge node d ∧ d ∉ visited ∧ m.IsPath src n (node :: visited) d r := by
  constructor
  · rintro ⟨⟨q, rfl, hq⟩, hstart, hchain, hloose, hfresh, hlength⟩
    cases q with
    | nil =>
      cases hstart
      exact absurd rfl hne
    | cons a q =>
      cases hstart
      obtain ⟨d, r, hr⟩ : ∃ d r, q ++ [src] = d :: r := exists_cons_of_ne_nil (by simp)
      rw [cons_append, hr] at hchain hloose hfresh hlength
      rw [cons_append, hr]
      obtain ⟨hedge, hchain⟩ := isChain_cons_cons.mp hchain
      refine ⟨d, d :: r, rfl, hedge, hfresh d (by simp), ⟨q, hr.symm, fun h => hq (by simp [h])⟩, rfl,
        hchain, hloose.2, fun b hb => ?_, by simpa using hlength⟩
      rw [mem_cons, not_or]
      exact ⟨fun h => hloose.1 (h ▸ hb), hfresh b (mem_cons_of_mem _ hb)⟩
  · rintro ⟨d, r, rfl, hedge, hd, ⟨q, rfl, hq⟩, hstart, hchain, hloose, hfresh, hlength⟩
    obtain ⟨r, hr⟩ : ∃ r, q ++ [src] = d :: r := by
      cases q with
      | nil => exact ⟨[], by simpa using hstart⟩
      | cons a q => exact ⟨q ++ [src], by simpa using hstart⟩
    rw [hr] at hchain hloose hfresh hlength ⊢
    refine ⟨⟨node :: q, by rw [cons_append, hr], ?_⟩, rfl,
      isChain_cons_cons.mpr ⟨hedge, hchain⟩, ⟨?_, hloose⟩, ?_, by simpa using hlength⟩
    · simp [hq, hne]
    · exact fun h => hfresh node h (by simp)
    · intro b hb
      rcases mem_cons.mp hb with rfl | hb
      · exact hd
      · exact fun h => hfresh b hb (mem_cons_of_mem _ h)

theorem exists_pathsTo (hm : m.IntegerStates) (src : Int) (n : Nat) :
    ∀ (visited : List Int) (node : Int), ∃ ps : List (List Int),
      m.pathsTo (.int src) n (visited.map .int) (.int node) = ps.map (List.map .int) ∧
      ∀ p, p ∈ ps ↔ m.IsPath src n visited node p := by
  induction n with
  | zero =>
    refine fun visited node => ⟨[], rfl, fun p => ⟨by simp, fun h => ?_⟩⟩
    obtain ⟨q, rfl, -⟩ := h.ends
    have := h.length_le
    simp at this
  | succ n ih =>
    intro visited node
    rw [pathsTo]
    by_cases hne : src = node
    · subst hne
      refine ⟨[[src]], by rw [if_pos ((int_beq_iff _ _).mpr rfl)]; rfl, fun p => ?_⟩
      rw [mem_singleton, isPath_self]
    · rw [if_neg (mt (int_beq_iff _ _).mp hne)]
      obtain ⟨ts, hts, hedge⟩ := exists_targets hm node
      choose paths hpaths hmem using ih (node :: visited)
      have hnext : (m.targets (.int node)).filter (fun d => !(visited.map Scalar.int).contains d) =
          (ts.filter fun d => !visited.contains d).map .int := by
        rw [hts, filter_map]
        congr 2
        funext d
        rw [Function.comp, Bool.eq_iff_iff.mpr ((contains_map_iff int_beq_iff visited d).trans
          contains_iff_mem.symm)]
      obtain ⟨qs, hqs, hqs'⟩ := exists_distinctPaths
        ((ts.filter fun d => !visited.contains d).flatMap fun d => (paths d).map (node :: ·))
      refine ⟨qs, ?_, fun p => ?_⟩
      · rw [← hqs, hnext]
        simp only [flatMap_map, map_flatMap, map_map]
        congr 1
        refine flatMap_congr fun d _ => ?_
        rw [← map_cons, hpaths, map_map]
        rfl
      · rw [hqs', isPath_step hne]
        simp only [mem_flatMap, mem_filter, hedge, mem_map, hmem]
        constructor
        · rintro ⟨d, ⟨hd, hv⟩, r, hr, rfl⟩
          exact ⟨d, r, rfl, hd, by simpa using hv, hr⟩
        · rintro ⟨d, r, rfl, hd, hv, hr⟩
          exact ⟨d, ⟨hd, by simpa using hv⟩, r, hr, rfl⟩

/-- A path back to the state where it came from. Its first state is not on it again. -/
def Returns (m : Machine) (k : Int) (p : List Int) : Prop :=
  ∃ d, m.Edge k d ∧ m.IsPath k pathBound [d] d p

theorem exists_loopsFrom (hm : m.IntegerStates) (k : Int) :
    ∃ ps : List (List Int), m.loopsFrom (.int k) = ps.map (List.map .int) ∧
      ∀ p, p ∈ ps ↔ m.Returns k p := by
  obtain ⟨ts, hts, hedge⟩ := exists_targets hm k
  choose paths hpaths hmem using fun d => exists_pathsTo hm k pathBound [d] d
  obtain ⟨qs, hqs, hqs'⟩ := exists_distinctPaths (ts.flatMap paths)
  refine ⟨qs, ?_, fun p => ?_⟩
  · rw [loopsFrom, ← hqs, hts, flatMap_map, map_flatMap]
    congr 1
    exact flatMap_congr fun d _ => hpaths d
  · simp [hqs', hedge, hmem, Returns]

theorem returns_iff {q : List Int} : m.Returns k (q ++ [k]) ↔
    m.ClosedWalk (k :: q) ∧ k ∉ q ∧ Loose q ∧ (∀ n t, q = n :: t → n ∉ t) ∧
      q.length < pathBound := by
  have hloose : k ∉ q → (Loose (q ++ [k]) ↔ Loose q) := fun hk => by
    rw [loose_append (by simpa using hk)]
    simp [Loose]
  constructor
  · rintro ⟨d, hedge, ⟨q', heq, hk⟩, hstart, hchain, hl, hfresh, hlength⟩
    obtain rfl := append_cancel_right heq
    refine ⟨?_, hk, (hloose hk).mp hl, ?_, by simp at hlength ⊢; omega⟩
    · rw [ClosedWalk, cons_append]
      cases hp : q ++ [k] with
      | nil => simp
      | cons a p =>
        rw [hp] at hstart hchain
        cases hstart
        exact isChain_cons_cons.mpr ⟨hedge, hchain⟩
    · rintro n t rfl hn
      cases hstart
      exact hfresh d (by simp [hn]) (by simp)
  · rintro ⟨hclosed, hk, hl, hfirst, hlength⟩
    rw [ClosedWalk, cons_append] at hclosed
    cases q with
    | nil =>
      obtain ⟨hedge, -⟩ := isChain_cons_cons.mp hclosed
      exact ⟨k, hedge, isPath_self.mpr rfl⟩
    | cons n t =>
      obtain ⟨hedge, hchain⟩ := isChain_cons_cons.mp hclosed
      refine ⟨n, hedge, ⟨n :: t, rfl, hk⟩, rfl, hchain, (hloose hk).mpr hl, ?_,
        by simp at hlength ⊢; omega⟩
      intro a ha
      have hne : n ≠ k := fun h => hk (by simp [h])
      rw [mem_singleton]
      rintro rfl
      rcases mem_append.mp ha with ha | ha
      · exact hfirst a t rfl ha
      · exact hne (mem_singleton.mp ha)

/-! ## From the smallest state on -/

/-- A walk turned so that it starts with the first of its smallest states. -/
def Turned (p l : List Int) : Prop :=
  ∃ v b u, p = v ++ b :: u ∧ b ∉ v ∧ (∀ a ∈ p, b ≤ a) ∧ l = b :: u ++ v

theorem exists_smallest (h : p ≠ []) :
    ∃ b ∈ p, (∀ a ∈ p, b ≤ a) ∧ smallest (p.map .int) = .ok (.int b) := by
  cases p with
  | nil => cases h rfl
  | cons a l =>
    rw [map_cons, smallest]
    clear h
    induction l generalizing a with
    | nil => exact ⟨a, by simp, by simp, rfl⟩
    | cons c l ih =>
      rw [map_cons, foldlM_cons, Scalar.lt_int]
      by_cases hlt : c < a
      · obtain ⟨b, hb, hle, hfold⟩ := ih c
        refine ⟨b, mem_cons_of_mem _ hb, ?_, by rw [decide_eq_true hlt]; exact hfold⟩
        intro d hd
        rcases mem_cons.mp hd with rfl | hd
        · exact Int.le_trans (hle c (by simp)) (Int.le_of_lt hlt)
        · exact hle d hd
      · obtain ⟨b, hb, hle, hfold⟩ := ih a
        refine ⟨b, ?_, ?_, by rw [decide_eq_false hlt]; exact hfold⟩
        · rcases mem_cons.mp hb with rfl | hb
          · simp
          · simp [hb]
        · intro d hd
          have ha := hle a (by simp)
          simp only [mem_cons] at hd hle
          rcases hd with rfl | rfl | hd
          · exact ha
          · omega
          · exact hle d (.inr hd)

theorem exists_turned (h : p ≠ []) : ∃ l, Turned p l := by
  obtain ⟨b, hb, hle, -⟩ := exists_smallest h
  obtain ⟨v, u, rfl, hv⟩ := eq_append_cons_of_mem hb
  exact ⟨_, v, b, u, rfl, hv, hle, rfl⟩

theorem rotate_eq (h : Turned p l) : rotate (p.map .int) = .ok (l.map .int) := by
  obtain ⟨v, b, u, rfl, hb, hle, rfl⟩ := h
  obtain ⟨b', hb', hle', hsmallest⟩ := exists_smallest (p := v ++ b :: u) (by simp)
  obtain rfl : b' = b := Int.le_antisymm (hle' b (by simp)) (hle b' hb')
  have hat : ((v ++ b' :: u).map Scalar.int).findIdx (· == .int b') = v.length := by
    have hmiss : (v.map Scalar.int).findIdx (· == .int b') = (v.map Scalar.int).length := by
      refine findIdx_eq_length.mpr fun s hs => ?_
      obtain ⟨a, ha, rfl⟩ := mem_map.mp hs
      exact Bool.eq_false_iff.mpr fun h => hb ((int_beq_iff _ _).mp h ▸ ha)
    rw [map_append, findIdx_append, hmiss, if_neg (Nat.lt_irrefl _), map_cons,
      findIdx_cons, (int_beq_iff _ _).mpr rfl]
    simp
  rw [rotate, hsmallest]
  change Except.ok (List.drop _ _ ++ List.take _ _) = _
  rw [hat]
  simp

theorem foundFrom_iff : m.FoundFrom k l ↔ ∃ p, m.Returns k p ∧ Turned p l := by
  constructor
  · rintro ⟨hclosed, hloose, hleast, hlength, u, v, rfl, hk, hfirst⟩
    have hdisjoint := hloose.disjoint_of_append_cons
    obtain ⟨hkv, hku⟩ : k ∉ v ∧ k ∉ u := by simpa using hk
    obtain ⟨hu, hv⟩ := (loose_append (disjoint_cons_right.mpr ⟨hku, hdisjoint⟩)).mp hloose
    refine ⟨v ++ u ++ [k], returns_iff.mpr ⟨closedWalk_rotate.mp hclosed, hk,
      (loose_append (disjoint_comm.mp hdisjoint)).mpr ⟨hv.2, hu⟩, hfirst, ?_⟩, ?_⟩
    · simp only [length_append, length_cons] at hlength ⊢
      omega
    · cases u with
      | nil => exact ⟨v, k, [], by simp, hkv, by simpa [or_imp, forall_and, FromLeast] using hleast, by simp⟩
      | cons b u =>
        refine ⟨v, b, u ++ [k], by simp, hdisjoint (by simp), ?_, by simp⟩
        intro a ha
        have hleast : ∀ c ∈ u ++ k :: v, b ≤ c := hleast
        simp only [mem_append, mem_cons, not_mem_nil] at ha hleast
        rcases ha with (ha | rfl | ha) | rfl | ha
        · exact hleast a (.inr (.inr ha))
        · exact Int.le_refl a
        · exact hleast a (.inl ha)
        · exact hleast a (.inr (.inl rfl))
        · cases ha
  · rintro ⟨p, hreturns, v, b, u, rfl, hb, hle, rfl⟩
    have hleast : FromLeast (b :: u ++ v) := fun a ha => hle a (by
      rcases mem_append.mp ha with ha | ha <;> simp [ha])
    -- The state where the search starts is the last of the path: the smallest one, or after it.
    obtain ⟨q, hq, -⟩ := (Exists.choose_spec hreturns).2.ends
    rw [hq] at hreturns
    obtain ⟨hclosed, hk, hloose, hfirst, hlength⟩ := returns_iff.mp hreturns
    rcases eq_nil_or_concat u with rfl | ⟨u, c, rfl⟩
    · obtain ⟨rfl, hbk⟩ := append_inj' hq rfl
      obtain rfl : b = k := by simpa using hbk
      exact ⟨hclosed, ⟨fun h => hk (mem_of_mem_tail h), hloose⟩, hleast,
        by simp at hlength ⊢; omega, [], v, rfl, by simpa using hk, by simpa using hfirst⟩
    · have heq : v ++ b :: u ++ [c] = q ++ [k] := by simpa using hq
      obtain ⟨rfl, hck⟩ := append_inj' heq rfl
      obtain rfl : c = k := by simpa using hck
      have hdisjoint := hloose.disjoint_of_head hb
      obtain ⟨hv, hu⟩ := (loose_append hdisjoint).mp hloose
      have hl : b :: (u ++ [c]) ++ v = (b :: u) ++ c :: v := by simp
      obtain ⟨hcv, hcu⟩ : c ∉ v ∧ c ∉ b :: u := by simpa using hk
      rw [concat_eq_append, hl] at hleast ⊢
      refine ⟨closedWalk_rotate.mpr hclosed, ?_, hleast, ?_, b :: u, v, rfl, hk, hfirst⟩
      · rw [loose_append (disjoint_cons_right.mpr ⟨hcu, disjoint_comm.mp hdisjoint⟩)]
        exact ⟨hu, fun h => hcv (mem_of_mem_tail h), hv⟩
      · simp only [length_append, length_cons] at hlength ⊢
        omega

/-! ## Counting -/

theorem get?_put_int {ν : Type} {t : Table Scalar ν} (ht : ∀ k ∈ t.keys, ∃ n, k = .int n)
    (a k : Int) (v : ν) :
    (t.put (.int a) v).get? (.int k) = if a = k then some v else t.get? (.int k) := by
  obtain ⟨es⟩ := t
  change ((Table.putEntry (.int a) v es).find? _).map _ = if a = k then _ else (es.find? _).map _
  induction es with
  | nil => by_cases h : a = k <;> simp [Table.putEntry, int_beq_iff, h]
  | cons e es ih =>
    obtain ⟨⟨_, w⟩, rfl⟩ : ∃ e', e = e' := ⟨e, rfl⟩
    obtain ⟨n, rfl⟩ := ht _ (mem_map_of_mem mem_cons_self)
    have ih := ih fun k hk => ht k (mem_cons_of_mem _ hk)
    by_cases hn : n = a
    · subst hn
      by_cases h : n = k <;> simp [Table.putEntry, int_beq_iff, h]
    · by_cases h : n = k
      · subst h
        simp [Table.putEntry, int_beq_iff, hn, Ne.symm hn]
      · simpa [Table.putEntry, int_beq_iff, hn, h] using ih

/-- The walks found so far, and how often each state is on them. -/
structure Found.Holds (f : Found) (ls : List (List Int)) : Prop where
  loops : f.loops = ls.map (List.map .int)
  states : ∀ k ∈ f.counts.keys, ∃ n, k = .int n
  counts : ∀ k, (f.counts.get? (.int k)).getD 0 = occurrences k ls

theorem exists_counted (l : List Int) {c : Table Scalar Nat} (hc : ∀ k ∈ c.keys, ∃ n, k = .int n) :
    let c' := (l.map Scalar.int).foldl (fun c v => c.put v ((c.get? v).getD 0 + 1)) c
    (∀ k ∈ c'.keys, ∃ n, k = .int n) ∧
      ∀ k, (c'.get? (.int k)).getD 0 = (c.get? (.int k)).getD 0 + l.count k := by
  induction l generalizing c with
  | nil => exact ⟨hc, by simp⟩
  | cons a l ih =>
    have hput : ∀ k ∈ (c.put (.int a) ((c.get? (.int a)).getD 0 + 1)).keys, ∃ n, k = .int n := by
      rw [Table.keys, forall_mem_map] at hc ⊢
      exact Table.forall_keys_put (P := fun k => ∃ n, k = Scalar.int n) hc ⟨a, rfl⟩
    refine ⟨(ih hput).1, fun k => ?_⟩
    rw [map_cons, foldl_cons, (ih hput).2, get?_put_int hc, count_cons]
    by_cases h : a = k
    · subst h
      simp
      omega
    · simp [h]

theorem Found.Holds.exists_add (h : f.Holds ls) (hl : Turned p l) :
    ∃ f', f.add (p.map .int) = .ok f' ∧ f'.Holds (if l ∈ ls then ls else ls ++ [l]) := by
  unfold Found.add
  rw [rotate_eq hl]
  by_cases hmem : l ∈ ls
  · refine ⟨f, ?_, by rwa [if_pos hmem]⟩
    change (if f.loops.contains _ then _ else _) = _
    rw [h.loops, if_pos ((contains_map_iff path_beq_iff _ _).mpr hmem)]
    rfl
  · obtain ⟨hstates, hcounts⟩ := exists_counted l h.states
    refine ⟨⟨f.loops ++ [l.map .int], (l.map Scalar.int).foldl
      (fun c v => c.put v ((c.get? v).getD 0 + 1)) f.counts⟩, ?_, ?_⟩
    · change (if f.loops.contains _ then _ else _) = _
      rw [h.loops, if_neg (mt (contains_map_iff path_beq_iff _ _).mp hmem)]
      rfl
    · rw [if_neg hmem]
      refine ⟨by simp [h.loops], hstates, fun k => ?_⟩
      rw [hcounts, h.counts]
      simp [occurrences]

theorem Found.Holds.exists_addAll (h : f.Holds ls) (hnodup : ls.Nodup) {ps : List (List Int)}
    (hps : ∀ p ∈ ps, p ≠ []) :
    ∃ f' ls', (ps.map (List.map Scalar.int)).foldlM Found.add f = .ok f' ∧ f'.Holds ls' ∧
      ls <+: ls' ∧ ls'.Nodup ∧ ∀ l, l ∈ ls' ↔ l ∈ ls ∨ ∃ p ∈ ps, Turned p l := by
  induction ps generalizing f ls with
  | nil => exact ⟨f, ls, rfl, h, prefix_refl _, hnodup, by simp⟩
  | cons p ps ih =>
    obtain ⟨l, hl⟩ := exists_turned (hps p (by simp))
    have hunique : ∀ l', Turned p l' ↔ l' = l := by
      refine fun l' => ⟨fun hl' => ?_, fun heq => heq ▸ hl⟩
      have heq : l'.map Scalar.int = l.map .int :=
        Except.ok.inj ((rotate_eq hl').symm.trans (rotate_eq hl))
      exact map_injective_iff.mpr (fun _ _ h => Scalar.int.inj h) heq
    obtain ⟨f₁, hadd, h₁⟩ := h.exists_add hl
    have hnodup₁ : (if l ∈ ls then ls else ls ++ [l]).Nodup := by
      split
      · exact hnodup
      · next hmem => exact nodup_append.mpr ⟨hnodup, by simp, by grind⟩
    obtain ⟨f', ls', hfold, h', hearly, hnodup', hmem⟩ := ih h₁ hnodup₁ fun p hp => hps p (by simp [hp])
    refine ⟨f', ls', ?_, h', ?_, hnodup', fun l' => ?_⟩
    · rw [map_cons, foldlM_cons, hadd]
      exact hfold
    · refine List.IsPrefix.trans ?_ hearly
      split <;> simp
    · simp only [hmem, exists_mem_cons_iff, hunique]
      by_cases hl : l ∈ ls
      · grind
      · grind

/-! ## The search from all states -/

/-- The search has gone through some states in order: which closed walks it has found, and from
which states. -/
structure Searched (m : Machine) (done : List Int) (ls : List (List Int)) (looked : List Int) :
    Prop where
  nodup : ls.Nodup
  subset : looked ⊆ done
  found : ∀ l, l ∈ ls ↔ ∃ k ∈ looked, m.FoundFrom k l
  /-- A state is searched from if it was met less often, from smaller states, than it has
  transitions. -/
  counted : ∀ k ∈ done, ∃ earlier, earlier <+: ls ∧
    (∀ l, l ∈ earlier ↔ ∃ j ∈ looked, j < k ∧ m.FoundFrom j l) ∧
    (k ∈ looked ↔ occurrences k earlier < m.degree k)

section

variable {done : List Int} {ls : List (List Int)} {looked : List Int} {k : Int}

theorem Searched.mem_iff (h : m.Searched done ls looked) (hk : ∀ j ∈ done, j < k) (l : List Int) :
    l ∈ ls ↔ ∃ j ∈ looked, j < k ∧ m.FoundFrom j l := by
  rw [h.found]
  exact exists_congr fun j => and_congr_right fun hj => (and_iff_right (hk j (h.subset hj))).symm

theorem Searched.skip (h : m.Searched done ls looked) (hk : ∀ j ∈ done, j < k)
    (hcount : m.degree k ≤ occurrences k ls) : m.Searched (done ++ [k]) ls looked := by
  refine ⟨h.nodup, fun j hj => mem_append_left _ (h.subset hj), h.found, fun j hj => ?_⟩
  rcases mem_append.mp hj with hj | hj
  · exact h.counted j hj
  · obtain rfl := mem_singleton.mp hj
    refine ⟨ls, prefix_refl _, h.mem_iff hk, fun hlooked => ?_, fun hlt => ?_⟩
    · exact absurd (hk j (h.subset hlooked)) (Int.lt_irrefl j)
    · omega

theorem Searched.look {ls' : List (List Int)} (h : m.Searched done ls looked)
    (hk : ∀ j ∈ done, j < k) (hcount : occurrences k ls < m.degree k) (hearly : ls <+: ls')
    (hnodup : ls'.Nodup) (hfound : ∀ l, l ∈ ls' ↔ l ∈ ls ∨ m.FoundFrom k l) :
    m.Searched (done ++ [k]) ls' (looked ++ [k]) := by
  -- The new state is larger than those gone through, so that nothing changes for these.
  have hbelow : ∀ {i l}, i ≤ k → ((∃ j ∈ looked ++ [k], j < i ∧ m.FoundFrom j l) ↔
      ∃ j ∈ looked, j < i ∧ m.FoundFrom j l) := by
    intro i l hi
    simp only [mem_append, mem_singleton]
    constructor
    · rintro ⟨j, hj | rfl, hlt, hl⟩
      · exact ⟨j, hj, hlt, hl⟩
      · omega
    · rintro ⟨j, hj, hlt, hl⟩
      exact ⟨j, .inl hj, hlt, hl⟩
  refine ⟨hnodup, ?_, fun l => ?_, fun i hi => ?_⟩
  · exact append_subset.mpr ⟨fun j hj => mem_append_left _ (h.subset hj), by simp⟩
  · rw [hfound, h.found]
    simp [or_and_right, exists_or]
  · rcases mem_append.mp hi with hi | hi
    · obtain ⟨earlier, hearlier, hmem, hcounted⟩ := h.counted i hi
      have hlt := hk i hi
      refine ⟨earlier, hearlier.trans hearly, fun l => (hmem l).trans (hbelow (Int.le_of_lt hlt)).symm, ?_⟩
      rw [mem_append, mem_singleton, or_iff_left (Int.ne_of_lt hlt), hcounted]
    · obtain rfl := mem_singleton.mp hi
      refine ⟨ls, hearly, fun l => (h.mem_iff hk l).trans (hbelow (Int.le_refl i)).symm, ?_⟩
      simp [hcount]

end

theorem exists_sorted (hm : m.IntegerStates) :
    ∃ ks : List Int, sortByKey id m.fsm.keys = .ok (ks.map .int) ∧
      m.fsm.keys.Perm (ks.map .int) ∧ ks.Pairwise (· < ·) := by
  obtain ⟨ns, hns⟩ := exists_map_int hm.sources
  let le : Int → Int → Bool := fun a b => decide (a ≤ b)
  have hsort : sortByKey id (ns.map Scalar.int) = .ok ((ns.mergeSort le).map .int) := by
    rw [sortByKey_eq (by simp), map_mergeSort]
    intro a _ b _
    simp [le, Scalar.lt_int, ← decide_not]
  have hperm : (ns.mergeSort le).Perm ns := mergeSort_perm ns le
  refine ⟨ns.mergeSort le, hns ▸ hsort, hns ▸ (hperm.map _).symm, ?_⟩
  have hle : (ns.mergeSort le).Pairwise fun a b => le a b = true :=
    pairwise_mergeSort (by simpa [le] using fun a b c => Int.le_trans)
      (by simpa [le] using Int.le_total) ns
  have hne : (ns.mergeSort le).Nodup := hperm.nodup_iff.mpr (List.Nodup.of_map _ (hns ▸ hm.nodup))
  refine (hle.and hne).imp fun {a b} h => ?_
  have hab : a ≤ b := by simpa [le] using h.1
  have := h.2
  omega

theorem exists_searched (hm : m.IntegerStates) :
    ∃ ks ls looked, m.fsm.keys.Perm (ks.map .int) ∧ m.loops = .ok (ls.map (List.map .int)) ∧
      m.Searched ks ls looked := by
  obtain ⟨ks, hsort, hperm, hlt⟩ := exists_sorted hm
  let step (f : Found) (k : Int) : Result Found :=
    if (f.counts.get? (.int k)).getD 0 ≥ m.degree k then pure f
    else (m.loopsFrom (.int k)).foldlM Found.add f
  obtain ⟨f, hf, ls, looked, hholds, hsearched⟩ : ∃ f : Found, ks.foldlM step {} = .ok f ∧
      ∃ ls looked, f.Holds ls ∧ m.Searched ks ls looked := by
    refine exists_foldlM_eq_ok
      (fun done (f : Found) => ∃ ls looked, f.Holds ls ∧ m.Searched done ls looked)
      ⟨[], [], ⟨rfl, by simp [Table.keys], fun k => rfl⟩, by simp, by simp, by simp, by simp⟩ ?_
    rintro done k f hdone ⟨ls, looked, hholds, hsearched⟩
    have hbelow : ∀ j ∈ done, j < k := fun j hj =>
      (pairwise_append.mp (hlt.sublist hdone.sublist)).2.2 j hj k (by simp)
    simp only [step, hholds.counts]
    by_cases hcount : m.degree k ≤ occurrences k ls
    · exact ⟨f, by rw [if_pos hcount]; rfl, ls, looked, hholds, hsearched.skip hbelow hcount⟩
    · obtain ⟨ps, hps, hmem⟩ := exists_loopsFrom hm k
      have hne : ∀ p ∈ ps, p ≠ [] := by
        rintro p hp rfl
        obtain ⟨d, -, hpath⟩ := (hmem []).mp hp
        cases hpath.starts
      obtain ⟨f', ls', hfold, hholds', hearly, hnodup, hmem'⟩ :=
        hholds.exists_addAll hsearched.nodup hne
      refine ⟨f', by rw [if_neg hcount, hps]; exact hfold, ls', looked ++ [k], hholds', ?_⟩
      refine hsearched.look hbelow (Nat.lt_of_not_le hcount) hearly hnodup fun l => ?_
      simp only [hmem', hmem, foundFrom_iff]
  refine ⟨ks, ls, looked, hperm, ?_, hsearched⟩
  refine bind_eq_ok.mpr ⟨_, hsort, bind_eq_ok.mpr ⟨f, ?_, ?_⟩⟩
  · rw [foldlM_map]
    exact hf
  · rw [hholds.loops]
    rfl

/-! ## Elementary cycles -/

theorem Elementary.exists_edge (hc : m.Elementary c) (hk : k ∈ c) : ∃ d, m.Edge k d := by
  obtain ⟨u, v, rfl⟩ := append_of_mem hk
  have hclosed := closedWalk_rotate.mp hc.closed
  rw [ClosedWalk, cons_append] at hclosed
  obtain ⟨d, w, hw⟩ : ∃ d w, v ++ u ++ [k] = d :: w := exists_cons_of_ne_nil (by simp)
  rw [hw] at hclosed
  exact ⟨d, (isChain_cons_cons.mp hclosed).1⟩

theorem Elementary.foundFrom (hc : m.Elementary c) (hlength : c.length ≤ pathBound) (hk : k ∈ c) :
    m.FoundFrom k c := by
  obtain ⟨u, v, rfl⟩ := append_of_mem hk
  have hnodup : (k :: (v ++ u)).Nodup := by
    refine (List.Perm.nodup_iff ?_).mp hc.nodup
    have hrotated : (u ++ k :: v).Perm (k :: v ++ u) := perm_append_comm
    simpa using hrotated
  obtain ⟨hkvu, hvu⟩ := nodup_cons.mp hnodup
  refine ⟨hc.closed, .of_nodup hc.nodup, hc.fromLeast, hlength, u, v, rfl, hkvu, ?_⟩
  intro n q hq
  exact (nodup_cons.mp (hq ▸ hvu)).1

theorem Loose.exists_nodup (hloose : Loose l) {b : Int} (hchain : (l ++ [b]).IsChain m.Edge) :
    ∃ c, (c ++ [b]).IsChain m.Edge ∧ c.Nodup ∧
      c.head? = l.head? ∧ ∀ a, a ∈ c ↔ a ∈ l := by
  induction l with
  | nil => exact ⟨[], hchain, nodup_nil, rfl, by simp⟩
  | cons a l ih =>
    rw [cons_append, isChain_cons] at hchain
    obtain ⟨c, hc, hnodup, hhead, hmem⟩ := ih hloose.2 hchain.2
    by_cases ha : a ∈ l
    · obtain ⟨d, l, rfl⟩ := exists_cons_of_ne_nil (ne_nil_of_mem ha)
      obtain rfl : a = d := (mem_cons.mp ha).resolve_right hloose.1
      exact ⟨c, hc, hnodup, hhead, fun d => by simp [hmem]⟩
    · refine ⟨a :: c, ?_, nodup_cons.mpr ⟨by rwa [hmem], hnodup⟩, rfl, fun d => by simp [hmem]⟩
      rw [cons_append, isChain_cons]
      refine ⟨?_, hc⟩
      rw [List.head?_append, hhead, ← List.head?_append]
      exact hchain.1

theorem Loose.exists_stay (hloose : Loose l) (h : ¬ l.Nodup) : ∃ u a v, l = u ++ a :: a :: v := by
  induction l with
  | nil => exact absurd nodup_nil h
  | cons a l ih =>
    by_cases ha : a ∈ l
    · obtain ⟨d, l, rfl⟩ := exists_cons_of_ne_nil (ne_nil_of_mem ha)
      obtain rfl : a = d := (mem_cons.mp ha).resolve_right hloose.1
      exact ⟨[], a, l, rfl⟩
    · obtain ⟨u, d, v, rfl⟩ := ih hloose.2 fun hl => h (nodup_cons.mpr ⟨ha, hl⟩)
      exact ⟨a :: u, d, v, rfl⟩

/-- A walk that stays at a state is found only around an elementary cycle of three states or
more: the state, the one where the search starts, and the one after it. -/
theorem FoundFrom.nodup (h : m.FoundFrom k l)
    (hstay : ∀ c, m.Elementary c → 3 ≤ c.length → ∀ a ∈ c, ¬ m.Edge a a) : l.Nodup := by
  by_contra hl
  obtain ⟨hclosed, hloose, hleast, -, u, v, hkl, hk, hfirst⟩ := h
  obtain ⟨w, a, w', hal⟩ := hloose.exists_stay hl
  have hedge : m.Edge a a := by
    have hturned := closedWalk_rotate.mp (hal ▸ hclosed)
    rw [ClosedWalk, cons_append, cons_append, cons_append,
      isChain_cons_cons] at hturned
    exact hturned.1
  obtain ⟨c, hc, hmem⟩ : ∃ c, m.Elementary c ∧ ∀ d, d ∈ c ↔ d ∈ l := by
    cases l with
    | nil => cases hclosed
    | cons b l =>
      obtain ⟨c, hc, hnodup, hhead, hmem⟩ := hloose.exists_nodup hclosed
      obtain ⟨c, rfl⟩ := List.head?_eq_some_iff.mp hhead
      refine ⟨b :: c, ⟨hc, hnodup, fun d hd => ?_⟩, hmem⟩
      rcases mem_cons.mp ((hmem d).mp (mem_cons_of_mem _ hd)) with rfl | hd
      · exact Int.le_refl d
      · exact hleast d hd
  have htwice : 2 ≤ l.count a := by
    simp only [hal, count_append, count_cons_self]
    omega
  have hperm : l.Perm (k :: (v ++ u)) := hkl ▸ perm_append_comm
  have hka : k ≠ a := by
    rintro rfl
    rw [hperm.count_eq, count_cons_self, count_eq_zero_of_not_mem hk] at htwice
    omega
  rw [hperm.count_eq, count_cons_of_ne hka] at htwice
  cases hvu : v ++ u with
  | nil => simp [hvu] at htwice
  | cons n q =>
    have hna : n ≠ a := by
      rintro rfl
      rw [hvu, count_cons_self, count_eq_zero_of_not_mem (hfirst n q hvu)] at htwice
      omega
    have hkn : k ≠ n := fun h => hk (by simp [hvu, h])
    have ha : a ∈ c := (hmem a).mpr (by simp [hal])
    have hsub : [k, n, a] ⊆ c := by
      simp only [cons_subset, nil_subset, and_true, ha, hmem, hperm.mem_iff, hvu]
      simp
    have hthree : [k, n, a].Nodup := by simp [hka, hna, hkn]
    exact hstay c hc (subperm_of_subset hthree hsub).length_le a ha hedge

theorem FoundFrom.mem (h : m.FoundFrom k l) : k ∈ l := by
  obtain ⟨u, v, rfl, -⟩ := h.once
  simp

theorem occurrences_eq (h : ∀ l ∈ ls, l.Nodup) : occurrences k ls = (ls.filter (k ∈ ·)).length := by
  induction ls with
  | nil => rfl
  | cons l ls ih =>
    have ih := ih fun l hl => h l (mem_cons_of_mem _ hl)
    have hl := h l mem_cons_self
    rw [occurrences, map_cons, sum_cons, ← occurrences, ih]
    by_cases hk : k ∈ l
    · simp [hk, count_eq_one_of_mem hl hk, Nat.add_comm]
    · simp [hk, count_eq_zero_of_not_mem hk]

/-- Loop detection on a machine. The walks that it finds are those that the search of
`Searched` finds, each once. They are the elementary cycles if there are at most 50 states with
transitions, no state on an elementary cycle of three states or more has a transition to itself,
and on each elementary cycle there is a state with more transitions than elementary cycles through
it and a smaller state. -/
theorem loops_search (hm : m.IntegerStates) :
    ∃ ks ls looked, m.fsm.keys.Perm (ks.map .int) ∧ m.loops = .ok (ls.map (List.map .int)) ∧
      m.Searched ks ls looked ∧
      (m.fsm.size ≤ 50 →
        (∀ c, m.Elementary c → 3 ≤ c.length → ∀ a ∈ c, ¬ m.Edge a a) →
        (∀ c, m.Elementary c → ∃ k ∈ c, ∀ cs : List (List Int), cs.Nodup →
          (∀ c' ∈ cs, m.Elementary c' ∧ k ∈ c' ∧ ∃ j ∈ c', j < k) → cs.length < m.degree k) →
        ∀ l, l ∈ ls ↔ m.Elementary l) := by
  obtain ⟨ks, ls, looked, hperm, hloops, hsearched⟩ := exists_searched hm
  refine ⟨ks, ls, looked, hperm, hloops, hsearched, fun hsize hstay hfew l => ?_⟩
  have hsound : ∀ {l}, l ∈ ls → m.Elementary l := by
    intro l hl
    obtain ⟨k, -, hfound⟩ := (hsearched.found l).mp hl
    exact ⟨hfound.closed, hfound.nodup hstay, hfound.fromLeast⟩
  refine ⟨hsound, fun hl => ?_⟩
  obtain ⟨k, hk, hcount⟩ := hfew l hl
  have hstates : l ⊆ ks := by
    intro a ha
    obtain ⟨d, dsts, hget, -⟩ := hl.exists_edge ha
    have hmem := (Table.get?_int_eq_some_iff hm.sources hm.nodup).mp hget
    have hkey : Scalar.int a ∈ ks.map Scalar.int := hperm.subset (mem_map_of_mem hmem)
    obtain ⟨b, hb, heq⟩ := mem_map.mp hkey
    exact Scalar.int.inj heq ▸ hb
  have hlength : l.length ≤ pathBound := by
    have hle := (subperm_of_subset hl.nodup hstates).length_le
    have hkeys : m.fsm.size = ks.length := by
      simpa [Table.keys, Table.size] using hperm.length_eq
    simp only [pathBound]
    omega
  obtain ⟨earlier, hearly, hearlier, hlooked⟩ := hsearched.counted k (hstates hk)
  refine (hsearched.found l).mpr ⟨k, hlooked.mpr ?_, hl.foundFrom hlength hk⟩
  have hcycle : ∀ {c}, c ∈ earlier → m.Elementary c := fun hc => hsound (hearly.subset hc)
  rw [occurrences_eq fun c hc => (hcycle hc).nodup]
  refine hcount _ ((hsearched.nodup.sublist hearly.sublist).filter _) fun c hc => ?_
  obtain ⟨hc, hkc⟩ := mem_filter.mp hc
  obtain ⟨j, -, hlt, hfound⟩ := (hearlier c).mp hc
  exact ⟨hcycle hc, by simpa using hkc, j, hfound.mem, hlt⟩

section Examples

/-- A machine by the targets of its states. Their conditions are signals. -/
def ofTargets (ts : List (Int × List Int)) : Machine :=
  { fsm := ⟨ts.map fun (src, dsts) => (.int src, ⟨dsts.map fun d =>
      (.term (.ofNames ["TOP", Text.ofInt d]), .int d)⟩)⟩ }

variable {ts : List (Int × List Int)} (hts : (ts.map Prod.fst).Nodup)
include hts

theorem integerStates_ofTargets : (ofTargets ts).IntegerStates := by
  refine ⟨?_, ?_, ?_⟩
  · simp only [ofTargets, Table.keys, map_map, forall_mem_map, Function.comp]
    exact fun e _ => ⟨e.1, rfl⟩
  · simp only [ofTargets, Table.values, map_map, forall_mem_map, Function.comp]
    exact fun _ _ d _ => ⟨d, rfl⟩
  · have hkeys : (ofTargets ts).fsm.keys = (ts.map Prod.fst).map .int := by
      simp [ofTargets, Table.keys, Function.comp_def]
    rw [hkeys]
    exact hts.map fun _ _ => Scalar.int.inj

theorem edge_ofTargets {a b : Int} : (ofTargets ts).Edge a b ↔ ∃ e ∈ ts, e.1 = a ∧ b ∈ e.2 := by
  have hm := integerStates_ofTargets hts
  simp only [Edge, Table.get?_int_eq_some_iff hm.sources hm.nodup]
  simp only [ofTargets, mem_map, Table.values]
  constructor
  · rintro ⟨_, ⟨e, he, heq⟩, hb⟩
    cases heq
    exact ⟨e, he, rfl, by simpa using hb⟩
  · rintro ⟨e, he, rfl, hb⟩
    exact ⟨_, ⟨e, he, rfl⟩, by simpa using hb⟩

omit hts

/-- Two states in a cycle, the second with a transition to itself. -/
theorem loops_search_pair :
    let m := ofTargets [(0, [1]), (1, [0, 1])]
    ∃ ls : List (List Int), m.loops = .ok (ls.map (List.map .int)) ∧ ∀ l, l ∈ ls ↔ m.Elementary l := by
  intro m
  have hts : (([(0, [1]), (1, [0, 1])] : List (Int × List Int)).map Prod.fst).Nodup := by decide
  have hstates : ∀ {c}, m.Elementary c → ∀ a ∈ c, a = 0 ∨ a = 1 := by
    intro c hc a ha
    obtain ⟨d, hd⟩ := hc.exists_edge ha
    obtain ⟨e, he, rfl, -⟩ := (edge_ofTargets hts).mp hd
    fin_cases he <;> simp
  have hpair : ∀ {c}, m.Elementary c → c ⊆ [0, 1] := fun hc a ha => by simpa using hstates hc a ha
  obtain ⟨ks, ls, looked, -, hloops, -, hexact⟩ := loops_search (integerStates_ofTargets hts)
  refine ⟨ls, hloops, hexact (by decide) ?_ ?_⟩
  · intro c hc hlength
    have := (subperm_of_subset hc.nodup (hpair hc)).length_le
    simp only [length_cons, length_nil] at this
    omega
  · intro c hc
    by_cases hzero : 0 ∈ c
    · refine ⟨0, hzero, fun cs _ hcs => ?_⟩
      cases cs with
      | nil => decide
      | cons c' cs =>
        obtain ⟨hc', -, j, hj, hlt⟩ := hcs c' (by simp)
        have := hstates hc' j hj
        omega
    · obtain ⟨a, ha⟩ : ∃ a, a ∈ c := exists_mem_of_ne_nil c (by rintro rfl; cases hc.closed)
      obtain rfl : a = 1 := (hstates hc a ha).resolve_left fun h => hzero (h ▸ ha)
      refine ⟨1, ha, fun cs hnodup hcs => ?_⟩
      have hsub : cs ⊆ [[0, 1]] := by
        intro c' hc'
        obtain ⟨hc', hone, j, hj, hlt⟩ := hcs c' hc'
        obtain rfl : j = 0 := (hstates hc' j hj).resolve_right (by omega)
        have hle := (subperm_of_subset hc'.nodup (hpair hc')).length_le
        have hge := (subperm_of_subset (by decide : ([0, 1] : List Int).Nodup)
          (by simp [hj, hone] : [0, 1] ⊆ c')).length_le
        obtain ⟨a, b, rfl⟩ := length_eq_two.mp (Nat.le_antisymm hle hge)
        have hab : a ≤ b := hc'.fromLeast b (by simp)
        simp only [mem_cons, not_mem_nil, or_false] at hone hj
        simp only [mem_singleton, List.cons.injEq, and_true]
        omega
      have := (subperm_of_subset hnodup hsub).length_le
      exact Nat.lt_of_le_of_lt this (by decide)

/-- Around a state with a transition to itself a cycle is found twice, with and without a stay, and
then the stay alone is not found. And of three states that go to each other, not all cycles are
found. -/
theorem loops_not_elementary :
    let stay := ofTargets [(0, [1]), (1, [2]), (2, [2, 0])]
    let three := ofTargets [(0, [1, 2]), (1, [2]), (2, [0, 1])]
    (stay.loops = .ok ([[0, 1, 2, 2], [0, 1, 2]].map (List.map .int)) ∧ stay.Elementary [2]) ∧
    (three.loops = .ok ([[0, 1, 2], [0, 2]].map (List.map .int)) ∧ three.Elementary [1, 2]) := by
  intro stay three
  have hstay {a b : Int} : stay.Edge a b ↔ _ := edge_ofTargets (by decide)
  have hthree {a b : Int} : three.Edge a b ↔ _ := edge_ofTargets (by decide)
  refine ⟨⟨by cbv, ?_, by decide, by simp [FromLeast]⟩, by cbv, ?_, by decide, by simp [FromLeast]⟩
  · simp [ClosedWalk, hstay]
  · simp [ClosedWalk, hthree]

end Examples

end RtlFlow.Machine
