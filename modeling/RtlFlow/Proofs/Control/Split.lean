import Mathlib
import RtlFlow.Control.Split
import RtlFlow.Proofs.Flow.Comparing
import RtlFlow.Proofs.Flow.Meaning

/-!
# The cases of a definition

The cases of a branch tree are listed in a table under the conditions on the way to them. Two ways
part at a branch, where one takes the condition and the other its negation; these are different
trees, so that no case takes the place of another. A branch with two missing arms has no case of
its own and is listed like a leaf.
-/

namespace RtlFlow

namespace Tree

variable {c t : Tree} {conds : List Tree} {u : Tree} {conds' : List Tree} {truth : Tree → Bool}

/-! ## Trees that are equal -/

mutual

def size : Tree → Nat
  | .op _ args | .concat args | .call _ args => sizes args + 1
  | .part var msb lsb => size var + size msb + size lsb + 1
  | .item var ptr => size var + size ptr + 1
  | .branch cond yes no => size cond + size yes + size no + 1
  | .delay next => size next + 1
  | _ => 1

def sizes : List Tree → Nat
  | [] => 0
  | t :: ts => size t + sizes ts

end

theorem sizes_eq_of_equal : (∀ t u : Tree, equal t u = .ok true → size t = size u) ∧
    ∀ ts us : List Tree, equalAll ts us = .ok true → sizes ts = sizes us := by
  refine equal.mutual_induct (fun t u => equal t u = .ok true → size t = size u)
    (fun ts us => equalAll ts us = .ok true → sizes ts = sizes us) ?hole ?term ?unbound ?const
    ?value ?unknown ?floating ?op ?otherOp ?part ?item ?concat ?branch ?delay ?call ?otherCall
    ?otherKind ?nil ?cons ?otherLength
  case op | call =>
    intro n args n' args' hn ih h
    simp only [equal, hn, if_true] at h
    simp only [size, ih h]
  case otherOp | otherCall =>
    intro n args n' args' hn h
    simp [equal, hn] at h
  case part | branch =>
    intro a b c a' b' c' ha hb hc h
    simp only [equal, ite_eq_ok_true] at h
    simp only [size, ha h.1, hb h.2.1, hc h.2.2]
  case item =>
    intro v p v' p' hv hp h
    simp only [equal, ite_eq_ok_true] at h
    simp only [size, hv h.1, hp h.2]
  case concat =>
    intro args args' ih h
    simp only [size, ih h]
  case delay =>
    intro next next' h
    exact absurd h throw_ne_ok
  case otherKind =>
    intro t u
    intros
    simp_all [equal]
  case cons =>
    intro t ts u us ht hts h
    simp only [equalAll, ite_eq_ok_true] at h
    simp only [sizes, ht h.1, hts h.2]
  case otherLength =>
    intro ts us _ _ h
    simp [equalAll] at h
  all_goals
    intros
    rfl

theorem size_eq_of_same (h : (t == u) = true) : size t = size u := by
  change same t u = true at h
  unfold same at h
  split at h
  · next b heq => exact sizes_eq_of_equal.1 t u (by rw [heq, h])
  · exact absurd h Bool.false_ne_true

def Differ (conds conds' : List Tree) : Prop := (conds == conds') = false ∧ conds ≠ conds'

theorem differ_nil_left : Differ [] (c :: conds) := ⟨rfl, nofun⟩

theorem differ_nil_right : Differ (c :: conds) [] := ⟨rfl, nofun⟩

theorem Differ.cons {c : Tree} {conds conds' : List Tree} (h : Differ conds conds') :
    Differ (c :: conds) (c :: conds') := by
  refine ⟨?_, fun heq => h.2 (List.cons.inj heq).2⟩
  change ((c == c) && (conds == conds')) = false
  rw [h.1, Bool.and_false]

theorem differ_of_size {c' : Tree} (h : size c ≠ size c') : Differ (c :: conds) (c' :: conds') := by
  refine ⟨?_, fun heq => h (congrArg size (List.cons.inj heq).1)⟩
  have hc : (c == c') = false := Bool.eq_false_iff.mpr fun heq => h (size_eq_of_same heq)
  change ((c == c') && (conds == conds')) = false
  rw [hc, Bool.false_and]

mutual

theorem exists_hashKey : ∀ {t : Tree}, delayFree t = true → ∃ k, hashKey t = .ok k
  | .op n args, h | .concat args, h | .call n args, h => by
    obtain ⟨ks, hks⟩ := exists_hashKeys h
    exact ⟨_, by rw [hashKey, hks]; rfl⟩
  | .part a b c, h | .branch a b c, h => by
    simp only [delayFree, Bool.and_eq_true] at h
    obtain ⟨ka, ha⟩ := exists_hashKey h.1.1
    obtain ⟨kb, hb⟩ := exists_hashKey h.1.2
    obtain ⟨kc, hc⟩ := exists_hashKey h.2
    exact ⟨_, by rw [hashKey, ha, hb, hc]; rfl⟩
  | .item v p, h => by
    simp only [delayFree, Bool.and_eq_true] at h
    obtain ⟨kv, hv⟩ := exists_hashKey h.1
    obtain ⟨kp, hp⟩ := exists_hashKey h.2
    exact ⟨_, by rw [hashKey, hv, hp]; rfl⟩
  | .hole, _ | .term _, _ | .unbound, _ | .const _ _, _ | .value _ _ _ _, _ | .unknown _, _
  | .floating _, _ => ⟨_, rfl⟩

theorem exists_hashKeys : ∀ {ts : List Tree}, delayFreeAll ts = true → ∃ ks, hashKeys ts = .ok ks
  | [], _ => ⟨_, rfl⟩
  | t :: ts, h => by
    simp only [delayFreeAll, Bool.and_eq_true] at h
    obtain ⟨k, hk⟩ := exists_hashKey h.1
    obtain ⟨ks, hks⟩ := exists_hashKeys h.2
    exact ⟨_, by rw [hashKeys, hk, hks]; rfl⟩

end

/-! ## Ways down a tree -/

def armCond (cond : Tree) : Bool → Tree
  | true => cond
  | false => .op "Ulnot" [cond]

/-- A way down some arms of a tree: which arms it takes, the conditions of these arms, and the
tree at its end. -/
inductive Route : Tree → List Bool → List Tree → Tree → Prop where
  | here (t : Tree) : Route t [] [] t
  | yes {cond yes no t : Tree} {arms : List Bool} {conds : List Tree} :
      Route yes arms conds t →
      Route (.branch cond yes no) (true :: arms) (armCond cond true :: conds) t
  | no {cond yes no t : Tree} {arms : List Bool} {conds : List Tree} :
      Route no arms conds t →
      Route (.branch cond yes no) (false :: arms) (armCond cond false :: conds) t

theorem size_armCond (cond : Tree) : size (armCond cond true) ≠ size (armCond cond false) := by
  simp only [armCond, size, sizes]
  omega

/-- Different ways have different conditions: where they part, a condition stands against its
negation. -/
theorem route_conditions_differ {u' : Tree} {arms arms' : List Bool} (h : Route t arms conds u)
    (h' : Route t arms' conds' u') (harms : arms ≠ arms') : Differ conds conds' := by
  induction h generalizing arms' conds' with
  | here t =>
    cases h' with
    | here => exact absurd rfl harms
    | yes _ | no _ => exact differ_nil_left
  | @yes cond _ _ _ _ _ _ ih =>
    cases h' with
    | here => exact differ_nil_right
    | yes hyes => exact (ih hyes fun h => harms (congrArg _ h)).cons
    | no _ => exact differ_of_size (size_armCond cond)
  | @no cond _ _ _ _ _ _ ih =>
    cases h' with
    | here => exact differ_nil_right
    | yes _ => exact differ_of_size (size_armCond cond).symm
    | no hno => exact (ih hno fun h => harms (congrArg _ h)).cons

def conditioned : Tree → Bool
  | .branch cond yes no => !cond.isHole && conditioned yes && conditioned no
  | _ => true

def delayFreeConds : Tree → Bool
  | .branch cond yes no => cond.delayFree && delayFreeConds yes && delayFreeConds no
  | _ => true

def select (truth : Tree → Bool) : Tree → Tree
  | .branch cond yes no => if truth cond then select truth yes else select truth no
  | t => t

theorem conditioned_of_leaf (h : t.isBranch = false) :
    conditioned t = true ∧ delayFreeConds t = true := by
  cases t <;> first | exact ⟨rfl, rfl⟩ | simp [isBranch] at h

theorem select_of_leaf (h : t.isBranch = false) : select truth t = t := by
  cases t <;> first | rfl | simp [isBranch] at h

def blank : Tree → Bool
  | .hole => true
  | .branch _ yes no => blank yes && blank no
  | _ => false

theorem select_of_blank : ∀ {t : Tree}, blank t = true →
    select truth t = .hole
  | .hole, _ => rfl
  | .branch cond yes no, h => by
    simp only [blank, Bool.and_eq_true] at h
    simp [select, select_of_blank h.1, select_of_blank h.2]

end Tree

namespace Cases

open Tree

variable {e : List Tree × Tree} {cond no t yes : Tree} {cs : Cases}

/-! ## The table of cases -/

/-- The ways to the cases of an arm. A branch without arms counts as a leaf, and a missing arm has
no case. -/
def endings : Tree → List (List Tree × Tree)
  | .hole => []
  | .branch cond yes no =>
    let cases := (endings yes).map (fun e => (armCond cond true :: e.1, e.2)) ++
      (endings no).map fun e => (armCond cond false :: e.1, e.2)
    if cases.isEmpty then [([], .branch cond yes no)] else cases
  | t => [([], t)]

def listed : Tree → List (List Tree × Tree)
  | .branch cond yes no =>
    (endings yes).map (fun e => (armCond cond true :: e.1, e.2)) ++
      (endings no).map fun e => (armCond cond false :: e.1, e.2)
  | _ => []

theorem endings_eq (t : Tree) : endings t =
    if (listed t).isEmpty then (if t.isHole then [] else [([], t)]) else listed t := by
  cases t <;> rfl

theorem mem_listed :
    e ∈ listed (.branch cond yes no) ↔
      (∃ f ∈ endings yes, e = (armCond cond true :: f.1, f.2)) ∨
        ∃ f ∈ endings no, e = (armCond cond false :: f.1, f.2) := by
  simp [listed, eq_comm]

theorem mem_endings_of_listed (he : e ∈ listed t) : e ∈ endings t := by
  have hne : (listed t).isEmpty = false := by
    cases h : listed t with
    | nil => exact absurd (h ▸ he) List.not_mem_nil
    | cons _ _ => rfl
  rw [endings_eq, hne]
  exact he

theorem eq_hole_of_endings (h : endings t = []) : t = .hole := by
  rw [endings_eq] at h
  split at h
  · cases t <;> first | rfl | simp [isHole] at h
  · next hne => exact absurd (List.isEmpty_iff.mpr h) hne

theorem endings_branch (he : e ∈ endings (.branch cond yes no)) :
    e ∈ listed (.branch cond yes no) ∨
      yes = .hole ∧ no = .hole ∧ e = ([], .branch cond .hole .hole) := by
  rw [endings_eq] at he
  split at he
  · next hempty =>
    simp only [listed, List.isEmpty_iff, List.append_eq_nil_iff, List.map_eq_nil_iff] at hempty
    obtain rfl := eq_hole_of_endings hempty.1
    obtain rfl := eq_hole_of_endings hempty.2
    exact .inr ⟨rfl, rfl, List.mem_singleton.mp he⟩
  · exact .inl he

/-- What holds of a leaf and of a branch without arms, and of the ways from a branch if it holds of
the ways from its arms, holds of the ways to all cases. -/
theorem endings_induction {P : Tree → List Tree → Tree → Prop}
    (leaf : ∀ t, t.isBranch = false → t.isHole = false → P t [] t)
    (bare : ∀ cond, P (.branch cond .hole .hole) [] (.branch cond .hole .hole))
    (yes : ∀ cond yes no conds u, P yes conds u →
      P (.branch cond yes no) (armCond cond true :: conds) u)
    (no : ∀ cond yes no conds u, P no conds u →
      P (.branch cond yes no) (armCond cond false :: conds) u) :
    ∀ {t : Tree} {e : List Tree × Tree}, e ∈ endings t → P t e.1 e.2
  | .branch c y n, e, he => by
    rcases endings_branch he with he | ⟨rfl, rfl, rfl⟩
    · rcases mem_listed.mp he with ⟨f, hf, rfl⟩ | ⟨f, hf, rfl⟩
      · exact yes _ _ _ _ _ (endings_induction leaf bare yes no hf)
      · exact no _ _ _ _ _ (endings_induction leaf bare yes no hf)
    · exact bare c
  | .hole, e, he => absurd he List.not_mem_nil
  | .term _, e, he | .unbound, e, he | .const _ _, e, he | .value _ _ _ _, e, he
  | .unknown _, e, he | .floating _, e, he | .op _ _, e, he | .part _ _ _, e, he
  | .item _ _, e, he | .concat _, e, he | .delay _, e, he | .call _ _, e, he => by
    rw [List.mem_singleton.mp he]
    exact leaf _ rfl rfl

theorem route_of_endings (he : e ∈ endings t) : ∃ arms, Route t arms e.1 e.2 := by
  refine endings_induction (P := fun t conds u => ∃ arms, Route t arms conds u) ?_ ?_ ?_ ?_ he
  · exact fun t _ _ => ⟨[], .here t⟩
  · exact fun cond => ⟨[], .here _⟩
  · exact fun _ _ _ _ _ ⟨arms, h⟩ => ⟨true :: arms, .yes h⟩
  · exact fun _ _ _ _ _ ⟨arms, h⟩ => ⟨false :: arms, .no h⟩

theorem endings_of_route {u : Tree} {arms : List Bool} {conds : List Tree}
    (h : Route t arms conds u) (hb : u.isBranch = false) (hu : u ≠ .hole) :
    (conds, u) ∈ endings t := by
  induction h with
  | here t =>
    cases t with
    | hole => exact absurd rfl hu
    | branch => exact absurd hb nofun
    | _ => exact List.mem_singleton_self _
  | yes _ ih => exact mem_endings_of_listed (mem_listed.mpr (.inl ⟨_, ih hb hu, rfl⟩))
  | no _ ih => exact mem_endings_of_listed (mem_listed.mpr (.inr ⟨_, ih hb hu, rfl⟩))

theorem delayFree_of_endings (he : e ∈ endings t) :
    delayFreeConds t = true → delayFreeAll e.1 = true := by
  refine endings_induction
    (P := fun t conds _ => delayFreeConds t = true → delayFreeAll conds = true) ?_ ?_ ?_ ?_ he
  · exact fun _ _ _ _ => rfl
  · exact fun _ _ => rfl
  · intro cond yes no conds u ih h
    simp only [delayFreeConds, Bool.and_eq_true] at h
    simp [armCond, delayFreeAll, h.1.1, ih h.1.2]
  · intro cond yes no conds u ih h
    simp only [delayFreeConds, Bool.and_eq_true] at h
    simp [armCond, delayFreeAll, delayFree, h.1.1, ih h.2]

/-! ## The table has all of them -/

def Apart (e f : List Tree × Tree) : Prop := Differ e.1 f.1

theorem add_eq (he : delayFreeAll e.1 = true) (hcs : ∀ f ∈ cs.entries, Apart f e) :
    cs.add e.1 e.2 = .ok ⟨cs.entries ++ [e]⟩ := by
  obtain ⟨ks, hks⟩ := exists_hashKeys he
  have hput : ∀ es : List (List Tree × Tree), (∀ f ∈ es, Apart f e) →
      Table.putEntry e.1 e.2 es = es ++ [e] := by
    intro es hes
    induction es with
    | nil => rfl
    | cons f es ih =>
      have hf : (f.1 == e.1) = false := (hes f List.mem_cons_self).1
      rw [Table.putEntry, hf, ih fun g hg => hes g (List.mem_cons_of_mem _ hg)]
      rfl
  rw [add, hks]
  exact congrArg (fun es => Except.ok (Table.mk es)) (hput cs.entries hcs)

theorem foldlM_add {es : List (List Tree × Tree)} {cs : Cases}
    (hes : ∀ e ∈ es, delayFreeAll e.1 = true) (hapart : (cs.entries ++ es).Pairwise Apart) :
    es.foldlM (fun cs e => cs.add e.1 e.2) cs = .ok ⟨cs.entries ++ es⟩ := by
  induction es generalizing cs with
  | nil => simp
  | cons e es ih =>
    have hcs : ∀ f ∈ cs.entries, Apart f e := fun f hf =>
      (List.pairwise_append.mp hapart).2.2 f hf e List.mem_cons_self
    rw [List.foldlM_cons, add_eq (hes e List.mem_cons_self) hcs]
    have hnext : (⟨cs.entries ++ [e]⟩ : Cases).entries ++ es = cs.entries ++ e :: es := by simp
    have hrest := ih (fun f hf => hes f (List.mem_cons_of_mem _ hf)) (hnext ▸ hapart)
    rw [hnext] at hrest
    exact hrest

theorem under_eq {inner : Cases} (hinner : inner.entries = listed t) :
    under cond t inner cs = ((endings t).map fun e => (cond :: e.1, e.2)).foldlM
      (fun cs e => cs.add e.1 e.2) cs := by
  rw [under, hinner, endings_eq]
  split
  · split
    · rfl
    · exact (bind_pure _).symm
  · rw [List.foldlM_map]

theorem pairwise_listed (cond : Tree) (hyes : (endings yes).Pairwise Apart)
    (hno : (endings no).Pairwise Apart) : (listed (.branch cond yes no)).Pairwise Apart := by
  rw [listed, List.pairwise_append, List.pairwise_map, List.pairwise_map]
  refine ⟨hyes.imp fun h => h.cons, hno.imp fun h => h.cons, ?_⟩
  intro e he f hf
  obtain ⟨e, -, rfl⟩ := List.mem_map.mp he
  obtain ⟨f, -, rfl⟩ := List.mem_map.mp hf
  exact differ_of_size (size_armCond cond)

theorem pairwise_endings (t : Tree) : (endings t).Pairwise Apart := by
  fun_induction endings t with
  | case1 => exact .nil
  | case2 | case4 => exact List.pairwise_singleton _ _
  | case3 cond yes no _ _ ihyes ihno => exact pairwise_listed cond ihyes ihno

theorem split_eq {t : Tree} (h : conditioned t = true) (hdelay : delayFreeConds t = true) :
    split t = .ok ⟨listed t⟩ := by
  fun_induction split t with
  | case1 cond yes no ihyes ihno =>
    have hhash : ∀ e ∈ listed (.branch cond yes no), delayFreeAll e.1 = true := fun e he =>
      delayFree_of_endings (mem_endings_of_listed he) hdelay
    have hapart := pairwise_listed cond (pairwise_endings yes) (pairwise_endings no)
    have hfold := @foldlM_add (listed (.branch cond yes no)) {} hhash hapart
    simp only [conditioned, Bool.and_eq_true, Bool.not_eq_true'] at h
    simp only [delayFreeConds, Bool.and_eq_true] at hdelay
    have hneg : mkOp "Ulnot" [cond] = .ok (armCond cond false) := by
      simp [mkOp, h.1.1, armCond]
    rw [ihyes h.1.2 hdelay.1.2, ihno h.2 hdelay.2, hneg]
    rw [listed, List.foldlM_append] at hfold
    obtain ⟨cs, hcs, hall⟩ := bind_eq_ok.mp hfold
    refine bind_eq_ok.mpr ⟨_, rfl, bind_eq_ok.mpr ⟨cs, (under_eq rfl).trans hcs, ?_⟩⟩
    exact (under_eq rfl).trans hall
  | case2 t hbranch =>
    cases t with
    | branch => exact absurd rfl (hbranch _ _ _)
    | _ => rfl

/-! ## Which cases are true -/

section Truth

variable {truth : Tree → Bool}

/-- The negation of a condition is true where the condition is not. -/
def Negates (truth : Tree → Bool) : Prop := ∀ c, truth (.op "Ulnot" [c]) = !truth c

theorem Negates.armCond (h : Negates truth) (cond : Tree) (arm : Bool) :
    truth (armCond cond arm) = true ↔ truth cond = arm := by
  cases arm
  · simp [Tree.armCond, h cond]
  · rfl

theorem select_of_endings (h : Negates truth) {t : Tree} {e : List Tree × Tree}
    (he : e ∈ endings t) : e.1.all truth = true →
      e.2 = select truth t ∧ select truth t ≠ .hole ∨
        blank e.2 = true ∧ select truth t = .hole := by
  refine endings_induction (P := fun t conds u => conds.all truth = true →
    u = select truth t ∧ select truth t ≠ .hole ∨ blank u = true ∧ select truth t = .hole)
    ?_ ?_ ?_ ?_ he
  · intro t hb hhole _
    rw [select_of_leaf hb]
    refine .inl ⟨rfl, ?_⟩
    rintro rfl
    exact absurd hhole nofun
  · exact fun cond _ => .inr ⟨rfl, select_of_blank rfl⟩
  · intro cond yes no conds u ih hall
    simp only [List.all_cons, Bool.and_eq_true, h.armCond] at hall
    simpa only [select, hall.1, if_true] using ih hall.2
  · intro cond yes no conds u ih hall
    simp only [List.all_cons, Bool.and_eq_true, h.armCond] at hall
    simpa only [select, hall.1, Bool.false_eq_true, if_false] using ih hall.2

theorem exists_endings (h : Negates truth) : ∀ {t : Tree}, select truth t ≠ .hole →
    ∃ e ∈ endings t, e.1.all truth = true ∧ e.2 = select truth t
  | .branch cond yes no, hselect => by
    by_cases hcond : truth cond = true
    · simp only [select, hcond, if_true] at hselect ⊢
      obtain ⟨e, he, hall, heq⟩ := exists_endings h hselect
      refine ⟨_, mem_endings_of_listed (mem_listed.mpr (.inl ⟨e, he, rfl⟩)), ?_, heq⟩
      simp [(h.armCond cond true).mpr hcond, hall]
    · simp only [Bool.not_eq_true] at hcond
      simp only [select, hcond, Bool.false_eq_true, if_false] at hselect ⊢
      obtain ⟨e, he, hall, heq⟩ := exists_endings h hselect
      refine ⟨_, mem_endings_of_listed (mem_listed.mpr (.inr ⟨e, he, rfl⟩)), ?_, heq⟩
      simp [(h.armCond cond false).mpr hcond, hall]
  | .hole, hselect => absurd rfl hselect
  | .term _, _ | .unbound, _ | .const _ _, _ | .value _ _ _ _, _ | .unknown _, _ | .floating _, _
  | .op _ _, _ | .part _ _ _, _ | .item _ _, _ | .concat _, _ | .delay _, _ | .call _ _, _ =>
    ⟨_, List.mem_singleton_self _, rfl, rfl⟩

theorem listed_of_true (h : Negates truth) {cond yes no : Tree} {e : List Tree × Tree}
    (he : e ∈ listed (.branch cond yes no)) (hall : e.1.all truth = true) :
    ∃ f ∈ endings (if truth cond then yes else no), f.1.all truth = true ∧
      e = (armCond cond (truth cond) :: f.1, f.2) := by
  rcases mem_listed.mp he with ⟨f, hf, rfl⟩ | ⟨f, hf, rfl⟩ <;>
    simp only [List.all_cons, Bool.and_eq_true, h.armCond] at hall
  · exact ⟨f, by simpa only [hall.1, if_true] using hf, hall.2, by rw [hall.1]⟩
  · exact ⟨f, by simpa only [hall.1, Bool.false_eq_true, if_false] using hf, hall.2,
      by rw [hall.1]⟩

theorem eq_of_endings (h : Negates truth) : ∀ {t : Tree} {e f : List Tree × Tree},
    e ∈ endings t → f ∈ endings t → e.1.all truth = true → f.1.all truth = true → e = f
  | .branch cond yes no, e, f, he, hf, hall, hall' => by
    rcases endings_branch he with he | ⟨rfl, rfl, rfl⟩
    · rcases endings_branch hf with hf | ⟨rfl, rfl, rfl⟩
      · obtain ⟨e', he', hrest, rfl⟩ := listed_of_true h he hall
        obtain ⟨f', hf', hrest', rfl⟩ := listed_of_true h hf hall'
        have hef : e' = f' := by
          cases hcond : truth cond <;> rw [hcond] at he' hf'
          · exact eq_of_endings h he' hf' hrest hrest'
          · exact eq_of_endings h he' hf' hrest hrest'
        rw [hef]
      · exact absurd he List.not_mem_nil
    · rcases endings_branch hf with hf | ⟨_, _, rfl⟩
      · exact absurd hf List.not_mem_nil
      · rfl
  | .hole, e, f, he, hf, _, _ => absurd he List.not_mem_nil
  | .term _, e, f, he, hf, _, _ | .unbound, e, f, he, hf, _, _ | .const _ _, e, f, he, hf, _, _
  | .value _ _ _ _, e, f, he, hf, _, _ | .unknown _, e, f, he, hf, _, _
  | .floating _, e, f, he, hf, _, _ | .op _ _, e, f, he, hf, _, _ | .part _ _ _, e, f, he, hf, _, _
  | .item _ _, e, f, he, hf, _, _ | .concat _, e, f, he, hf, _, _ | .delay _, e, f, he, hf, _, _
  | .call _ _, e, f, he, hf, _, _ =>
    (List.mem_singleton.mp he).trans (List.mem_singleton.mp hf).symm

end Truth

end Cases

/-! ## Filled trees -/

namespace Tree

variable {leaf : Tree} {u : Tree}

theorem delayFree_of_mkOp {name : String} {args : List Tree} (h : mkOp name args = .ok u)
    (hargs : delayFreeAll args = true) : u.isHole = false ∧ u.delayFree = true := by
  rw [mkOp_eq_ok h]
  exact ⟨rfl, hargs⟩

mutual

theorem present_of_fill (hleaf : leaf.isHole = false ∧ leaf.delayFree = true) :
    ∀ {t u : Tree}, fill leaf t = .ok u → u.isHole = false ∧ u.delayFree = true
  | .hole, u, h | .unknown _, u, h => by rwa [← pure_eq_ok.mp h]
  | .branch _ _ _, u, h | .part _ _ _, u, h => by
    simp only [fill, bind_eq_ok, pure_eq_ok] at h
    obtain ⟨a, ha, b, hb, c, hc, rfl⟩ := h
    simp [delayFree, present_of_fill hleaf ha, present_of_fill hleaf hb, present_of_fill hleaf hc,
      isHole]
  | .op name args, u, h => by
    simp only [fill, bind_eq_ok] at h
    obtain ⟨args', hargs, hu⟩ := h
    exact delayFree_of_mkOp hu (present_of_fillAll hleaf hargs)
  | .item var ptr, u, h => by
    simp only [fill, bind_eq_ok, pure_eq_ok] at h
    obtain ⟨ptr', hptr, var', hvar, rfl⟩ := h
    simp [delayFree, present_of_fill hleaf hptr, present_of_fill hleaf hvar, isHole]
  | .concat items, u, h => by
    simp only [fill, bind_eq_ok, pure_eq_ok] at h
    obtain ⟨items', hitems, rfl⟩ := h
    exact ⟨rfl, present_of_fillAll hleaf hitems⟩
  | .floating _, u, h | .delay _, u, h | .call _ _, u, h => absurd h throw_ne_ok
  | .term _, u, h | .unbound, u, h | .const _ _, u, h | .value _ _ _ _, u, h => by
    rw [← pure_eq_ok.mp h]
    exact ⟨rfl, rfl⟩

theorem present_of_fillAll (hleaf : leaf.isHole = false ∧ leaf.delayFree = true) :
    ∀ {ts us : List Tree}, fillAll leaf ts = .ok us → delayFreeAll us = true
  | [], us, h => by rw [← pure_eq_ok.mp h]; rfl
  | t :: ts, us, h => by
    simp only [fillAll, bind_eq_ok, pure_eq_ok] at h
    obtain ⟨t', ht, ts', hts, rfl⟩ := h
    simp [delayFreeAll, present_of_fill hleaf ht, present_of_fillAll hleaf hts]

end

theorem isBranch_of_fill (hb : leaf.isBranch = false) {t : Tree} (ht : t.isBranch = false)
    (h : fill leaf t = .ok u) : u.isBranch = false := by
  cases t with
  | branch => simp [isBranch] at ht
  | hole | unknown => rwa [← pure_eq_ok.mp h]
  | op name args =>
    simp only [fill, bind_eq_ok] at h
    obtain ⟨args', -, hu⟩ := h
    rw [mkOp_eq_ok hu]
    rfl
  | part var msb lsb =>
    simp only [fill, bind_eq_ok, pure_eq_ok] at h
    obtain ⟨msb', -, lsb', -, var', -, rfl⟩ := h
    rfl
  | item var ptr =>
    simp only [fill, bind_eq_ok, pure_eq_ok] at h
    obtain ⟨ptr', -, var', -, rfl⟩ := h
    rfl
  | concat items =>
    simp only [fill, bind_eq_ok, pure_eq_ok] at h
    obtain ⟨items', -, rfl⟩ := h
    rfl
  | floating | delay | call => exact absurd h throw_ne_ok
  | term | unbound | const | value =>
    rw [← pure_eq_ok.mp h]
    rfl

theorem conditioned_of_fill (hleaf : leaf.isHole = false ∧ leaf.delayFree = true)
    (hb : leaf.isBranch = false) {t u : Tree} (h : fill leaf t = .ok u) :
    (conditioned u = true ∧ delayFreeConds u = true) ∧ ∀ truth, select truth u ≠ .hole := by
  induction t using conditioned.induct generalizing u with
  | case1 cond yes no ihyes ihno =>
    simp only [fill, bind_eq_ok, pure_eq_ok] at h
    obtain ⟨cond', hcond, yes', hyes, no', hno, rfl⟩ := h
    obtain ⟨hyes, hyes'⟩ := ihyes hyes
    obtain ⟨hno, hno'⟩ := ihno hno
    refine ⟨?_, fun truth => ?_⟩
    · simp [conditioned, delayFreeConds, present_of_fill hleaf hcond, hyes, hno]
    · rw [select]
      split
      · exact hyes' truth
      · exact hno' truth
  | case2 t hbranch =>
    have hu := isBranch_of_fill hb (isBranch_eq_false hbranch) h
    refine ⟨conditioned_of_leaf hu, fun truth => ?_⟩
    rw [select_of_leaf hu]
    rintro rfl
    exact absurd (present_of_fill hleaf h).1 nofun

end Tree

namespace Cases

open Tree

/-! ## The cases as a partition -/

/-- What a table of cases says about a tree. -/
structure IsPartition (t : Tree) (cs : Cases) : Prop where
  /-- Each case stands at the end of a way down the tree, under the conditions on it. -/
  route : ∀ e ∈ cs.entries, ∃ arms, Route t arms e.1 e.2
  leaf : ∀ {arms conds u}, Route t arms conds u → u.isBranch = false → u ≠ .hole →
    (conds, u) ∈ cs.entries
  /-- No two cases stand under equal conditions. -/
  keys : cs.keys.Pairwise Differ
  unique : ∀ {truth}, Negates truth → ∀ e ∈ cs.entries, ∀ f ∈ cs.entries,
    e.1.all truth = true → f.1.all truth = true → e = f
  /-- If a leaf that is there is selected, then it is a case that is true. -/
  selected : ∀ {truth}, Negates truth → select truth t ≠ .hole →
    ∃ e ∈ cs.entries, e.1.all truth = true ∧ e.2 = select truth t
  /-- If a missing leaf is selected, then a case that is true has missing leaves only. -/
  missing : ∀ {truth}, Negates truth → select truth t = .hole →
    ∀ e ∈ cs.entries, e.1.all truth = true → blank e.2 = true

theorem isPartition_listed {t : Tree} (ht : t.isBranch = true) : IsPartition t ⟨listed t⟩ := by
  obtain ⟨cond, yes, no, rfl⟩ := exists_of_isBranch ht
  have hsub : ∀ e ∈ listed (.branch cond yes no), e ∈ endings (.branch cond yes no) :=
    fun _ => mem_endings_of_listed
  refine ⟨fun e he => route_of_endings (hsub e he), ?_,
    List.pairwise_map.mpr (pairwise_listed cond (pairwise_endings yes) (pairwise_endings no)),
    ?_, ?_, ?_⟩
  · intro arms conds u h hb hu
    rcases endings_branch (endings_of_route h hb hu) with he | ⟨-, -, he⟩
    · exact he
    · cases he
      exact absurd hb nofun
  · intro truth h e he f hf
    exact eq_of_endings h (hsub e he) (hsub f hf)
  · intro truth h hselect
    obtain ⟨e, he, hall, heq⟩ := exists_endings h hselect
    rcases endings_branch he with he | ⟨rfl, rfl, rfl⟩
    · exact ⟨e, he, hall, heq⟩
    · exact absurd (select_of_blank rfl) hselect
  · intro truth h hselect e he hall
    rcases select_of_endings h (hsub e he) hall with ⟨-, hne⟩ | ⟨hblank, -⟩
    · exact absurd hselect hne
    · exact hblank

/-- The cases of a branch tree, whose branches all have conditions without delays, are a partition:
however the conditions come out, at most one case is true, and it is the leaf that they select, if
that is there. Different ways down the tree have different conditions, so that none takes the place
of another. In a filled tree, where no leaf is missing, exactly one case is true. -/
theorem split_partition (t : Tree) :
    (t.isBranch = true → t.conditioned = true → t.delayFreeConds = true →
      (∃ cs, split t = .ok cs ∧ IsPartition t cs) ∧
      ∀ {arms arms' conds conds' u u'}, Route t arms conds u → Route t arms' conds' u' →
        arms ≠ arms' → Differ conds conds') ∧
    ∀ (name : Path) (u : Tree), fill (.term name) t = .ok u → u.isBranch = true →
      ∃ cs, split u = .ok cs ∧ IsPartition u cs ∧ ∀ truth, Negates truth →
        ∃ e ∈ cs.entries, e.1.all truth = true ∧
          ∀ f ∈ cs.entries, f.1.all truth = true → f = e := by
  constructor
  · intro ht hcond hdelay
    exact ⟨⟨_, split_eq hcond hdelay, isPartition_listed ht⟩, route_conditions_differ⟩
  · intro name u hfill hu
    have hleaf : (Tree.term name).isHole = false ∧ (Tree.term name).delayFree = true := ⟨rfl, rfl⟩
    obtain ⟨⟨hcond, hdelay⟩, hselect⟩ := conditioned_of_fill hleaf rfl hfill
    have hpart := isPartition_listed hu
    refine ⟨_, split_eq hcond hdelay, hpart, fun truth h => ?_⟩
    obtain ⟨e, he, hall, -⟩ := hpart.selected h (hselect truth)
    exact ⟨e, he, hall, fun f hf hall' => hpart.unique h f hf e he hall' hall⟩

/-- The cases of a tree with the same condition at two branches, before and after it is filled: of
its three ways one cannot be gone. -/
theorem split_partition_repeated :
    let a := Tree.term ⟨[{ name := "a" }]⟩
    let b := Tree.term ⟨[{ name := "b" }]⟩
    let x : Path := ⟨[{ name := "x" }]⟩
    let t := Tree.branch a (.branch a b .hole) .hole
    let u := Tree.branch a (.branch a b (.term x)) (.term x)
    t.isBranch = true ∧ t.conditioned = true ∧ t.delayFreeConds = true ∧
      (∃ cs, split t = .ok cs ∧ IsPartition t cs) ∧
      fill (.term x) t = .ok u ∧ u.isBranch = true ∧
      ∃ cs, split u = .ok cs ∧ IsPartition u cs ∧ ∀ truth, Negates truth →
        ∃ e ∈ cs.entries, e.1.all truth = true ∧
          ∀ f ∈ cs.entries, f.1.all truth = true → f = e := by
  intro a b x t u
  exact ⟨rfl, rfl, rfl, ((split_partition t).1 rfl rfl rfl).1, rfl, rfl,
    (split_partition t).2 x u rfl rfl⟩

end Cases

end RtlFlow
