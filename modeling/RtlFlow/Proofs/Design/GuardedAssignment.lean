import Mathlib
import RtlFlow.Design.Assignment
import RtlFlow.Proofs.Flow.Comparing
import RtlFlow.Proofs.Flow.Meaning

/-!
# What a guarded assignment does to a destination

An assignment under a guard should change the meaning of its destination exactly where the guard
holds. The tree of the destination is followed along the guard as far as it branches on the same
conditions. What is there is put back at one place only: where the first of the remaining
conditions fails.
-/

namespace RtlFlow

open List

namespace Tree

variable {V : Type} {I : Interp V} {new old t : Tree} {guard : Guard} {b : Bool}
variable {place : GuardPlace}

def Outcome.ofArm : Bool → Outcome
  | true => .yes
  | false => .no

def Interp.holds (I : Interp V) (guard : Guard) : Bool :=
  guard.all fun e => I.outcome (I.meaning e.1) = .ofArm e.2

/-- Conditions that are equal to a condition of the guard come out like it. -/
def Interp.Congruent (I : Interp V) (guard : Guard) : Prop :=
  ∀ e ∈ guard, ∀ c, e.1.equal c = .ok true → I.outcome (I.meaning c) = I.outcome (I.meaning e.1)

theorem Interp.Congruent.tail {e : Tree × Bool} {guard : Guard} (h : I.Congruent (e :: guard)) :
    I.Congruent guard := fun e' he' => h e' (mem_cons_of_mem _ he')

@[simp]
theorem Interp.holds_nil : I.holds [] = true := rfl

theorem Interp.holds_cons (c : Tree) (b : Bool) (guard : Guard) :
    I.holds ((c, b) :: guard) =
      (decide (I.outcome (I.meaning c) = .ofArm b) && I.holds guard) := rfl

theorem Interp.holds_append (guard more : Guard) :
    I.holds (guard ++ more) = (I.holds guard && I.holds more) := all_append

/-! ## Following a guard -/

/-- Either the search ends at once, as the tree does not branch on the first condition of the guard,
or it goes on in the arm that the guard asks for. -/
theorem follow_cases (h : t.follow guard = .ok place) :
    (place = ⟨t, guard, []⟩ ∧ ∀ cond yes no c b rest, t = .branch cond yes no →
      guard = (c, b) :: rest → c.equal cond = .ok false) ∨
      ∃ cond yes no c b rest sub, t = .branch cond yes no ∧ guard = (c, b) :: rest ∧
        c.equal cond = .ok true ∧ (if b then yes else no).follow rest = .ok sub ∧
        place = { sub with arms := b :: sub.arms } := by
  cases guard with
  | nil =>
    left
    cases t <;> exact ⟨(pure_eq_ok.mp h).symm, by simp⟩
  | cons e rest =>
    obtain ⟨c, b⟩ := e
    cases t with
    | branch cond yes no =>
      simp only [follow, bind_eq_ok] at h
      obtain ⟨same, hsame, h⟩ := h
      cases same with
      | false =>
        left
        refine ⟨(pure_eq_ok.mp h).symm, ?_⟩
        rintro _ _ _ _ _ _ ⟨⟩ ⟨⟩
        exact hsame
      | true =>
        right
        have hb : ((if b then yes else no).follow rest >>= fun found =>
            pure { found with arms := b :: found.arms }) = .ok place := by
          cases b <;> exact h
        simp only [bind_eq_ok, pure_eq_ok] at hb
        obtain ⟨sub, hsub, hplace⟩ := hb
        exact ⟨cond, yes, no, c, b, rest, sub, rfl, rfl, hsame, hsub, hplace.symm⟩
    | _ =>
      left
      exact ⟨(pure_eq_ok.mp h).symm, by simp⟩

theorem rest_of_follow : ∀ {guard : Guard} {t : Tree} {place : GuardPlace},
    t.follow guard = .ok place → place.rest = guard.drop place.arms.length
  | guard, t, place, h => by
    rcases follow_cases h with ⟨rfl, -⟩ | ⟨_, _, _, _, _, rest, sub, _, rfl, _, hsub, rfl⟩
    · simp
    · simpa using rest_of_follow hsub

/-! ## Places -/

/-- What some arms lead to. -/
def reached : Tree → List Bool → Option Tree
  | t, [] => some t
  | .branch _ yes no, b :: arms => reached (if b then yes else no) arms
  | _, _ :: _ => none

/-- A guard leads to a place in a tree, and finding what is there and putting something there obey
the laws of a lens. -/
structure LeadsTo (guard : Guard) (t : Tree) (place : GuardPlace) : Prop where
  arms : place.arms ++ place.rest.map Prod.snd = guard.map Prod.snd
  rest : place.rest <:+ guard
  tree : t.reached place.arms = some place.tree
  back : plug place.tree t place.arms = .ok t
  /-- What is put there is found there, and all is as before where another way leads. -/
  put : ∀ new, ∃ u, plug new t place.arms = .ok u ∧ u.reached place.arms = some new ∧
    ∀ arms, ¬ arms <+: place.arms → ¬ place.arms <+: arms → u.reached arms = t.reached arms
  stop : ∀ cond yes no c b more, place.tree = .branch cond yes no →
    place.rest = (c, b) :: more → c.equal cond = .ok false

theorem reached_of_follow (h : t.follow guard = .ok place) :
    t.reached place.arms = some place.tree ∧
    place.arms ++ place.rest.map Prod.snd = guard.map Prod.snd ∧
    ∀ cond yes no c b more, place.tree = .branch cond yes no → place.rest = (c, b) :: more →
      c.equal cond = .ok false := by
  induction guard generalizing t place with
  | nil =>
    obtain ⟨rfl, hstop⟩ | ⟨_, _, _, _, _, _, _, -, hnil, -⟩ := follow_cases h
    · exact ⟨by cases t <;> rfl, rfl, hstop⟩
    · cases hnil
  | cons e guard ih =>
    obtain ⟨rfl, hstop⟩ | ⟨cond, yes, no, c, b, rest, sub, rfl, hcons, -, hsub, rfl⟩ :=
      follow_cases h
    · exact ⟨by cases t <;> rfl, rfl, hstop⟩
    · obtain ⟨rfl, rfl⟩ := cons.inj hcons
      obtain ⟨htree, harms, hstop⟩ := ih hsub
      exact ⟨htree, congrArg (cons b) harms, hstop⟩

theorem plug_of_reached {s : Tree} {arms : List Bool} (h : t.reached arms = some s) :
    plug s t arms = .ok t ∧ ∀ new, ∃ u, plug new t arms = .ok u ∧ u.reached arms = some new ∧
      ∀ path, ¬ path <+: arms → ¬ arms <+: path → u.reached path = t.reached path := by
  induction arms generalizing t with
  | nil =>
    obtain rfl : t = s := by cases t <;> exact Option.some.inj h
    exact ⟨by cases t <;> rfl, fun new => ⟨new, by cases t <;> rfl, by cases new <;> rfl, by simp⟩⟩
  | cons b arms ih =>
    cases t with
    | branch cond yes no =>
      obtain ⟨hback, hput⟩ := ih (t := if b then yes else no) h
      refine ⟨by cases b <;> simp_all [plug], fun new => ?_⟩
      obtain ⟨u, hu, hnew, hbeside⟩ := hput new
      refine ⟨if b then .branch cond u no else .branch cond yes u, ?_, ?_, ?_⟩
      · cases b <;> simp_all [plug]
      · cases b <;> simpa [reached] using hnew
      · intro path hpath harms
        cases path with
        | nil => simp at hpath
        | cons b' path =>
          have := hbeside path
          cases b <;> cases b' <;> simp_all [reached]
    | _ => cases h

theorem exists_follow (h : ∀ e ∈ guard, delayFree e.1 = true) :
    ∃ place, t.follow guard = .ok place := by
  induction guard generalizing t with
  | nil => exact ⟨⟨t, [], []⟩, by cases t <;> rfl⟩
  | cons e guard ih =>
    obtain ⟨c, b⟩ := e
    cases t with
    | branch cond yes no =>
      obtain ⟨same, hsame⟩ := exists_equal cond (h (c, b) mem_cons_self)
      obtain ⟨sub, hsub⟩ := ih (t := if b then yes else no) fun e he => h e (mem_cons_of_mem _ he)
      simp only [follow, hsame]
      cases same <;> cases b <;> simp_all
    | _ => exact ⟨_, rfl⟩

/-- Whatever place is found for a guard is where the guard leads to, and a place is found if no
condition of the guard has a delay. -/
theorem follow_leadsTo (t : Tree) (guard : Guard) :
    (∀ place, t.follow guard = .ok place → LeadsTo guard t place) ∧
    ((∀ e ∈ guard, delayFree e.1 = true) → ∃ place, t.follow guard = .ok place) := by
  refine ⟨fun place h => ?_, exists_follow⟩
  obtain ⟨htree, harms, hstop⟩ := reached_of_follow h
  obtain ⟨hback, hput⟩ := plug_of_reached htree
  exact ⟨harms, rest_of_follow h ▸ drop_suffix .., htree, hback, hput, hstop⟩

/-- The first condition is met and its else arm taken, the second one is not met. -/
theorem follow_leadsTo_second :
    let t : Tree := .branch (.const .int "c") .hole (.branch (.const .int "d") .hole .hole)
    let guard : Guard := [(.const .int "c", false), (.const .int "e", true)]
    ∃ place, t.follow guard = .ok place ∧ place.arms = [false] ∧ LeadsTo guard t place := by
  intro t guard
  obtain ⟨place, h⟩ := (follow_leadsTo t guard).2 (by decide)
  refine ⟨place, h, ?_, (follow_leadsTo t guard).1 place h⟩
  cases h
  rfl

/-! ## Meanings -/

theorem Interp.meaning_branch_of_arm {cond yes no : Tree}
    (h : I.outcome (I.meaning cond) = .ofArm b) :
    I.meaning (.branch cond yes no) = I.meaning (if b then yes else no) := by
  cases b <;> simp [Interp.meaning, Interp.choose, h, Outcome.ofArm]

theorem meaning_of_follow : ∀ {guard : Guard} {t : Tree} {place : GuardPlace},
    t.follow guard = .ok place → I.Congruent guard →
    I.holds (guard.take place.arms.length) = true → I.meaning t = I.meaning place.tree
  | guard, t, place, h, hI, hholds => by
    rcases follow_cases h with
      ⟨rfl, -⟩ | ⟨cond, yes, no, c, b, rest, sub, rfl, rfl, hsame, hsub, rfl⟩
    · rfl
    · simp only [length_cons, take_succ_cons, Interp.holds_cons, Bool.and_eq_true,
        decide_eq_true_eq] at hholds
      have hcond : I.outcome (I.meaning cond) = .ofArm b :=
        (hI (c, b) mem_cons_self cond hsame).trans hholds.1
      rw [Interp.meaning_branch_of_arm hcond]
      have ih := meaning_of_follow hsub hI.tail hholds.2
      exact ih

/-- Two branches on one condition that differ in the arm `b` only mean the same unless the
condition comes out as `b`. -/
theorem Interp.choose_of_not_arm {cond : Option V} (h : I.outcome cond ≠ .ofArm b)
    (yes no other : Option V) :
    (if b then I.choose cond other no else I.choose cond yes other) = I.choose cond yes no := by
  cases b <;> cases hc : I.outcome cond <;> simp_all [Interp.choose, Outcome.ofArm]

theorem meaning_of_plug : ∀ {guard : Guard} {t added u : Tree} {place : GuardPlace},
    t.follow guard = .ok place → I.Congruent guard → plug added t place.arms = .ok u →
    I.meaning u =
      if I.holds (guard.take place.arms.length) then I.meaning added else I.meaning t
  | guard, t, added, u, place, h, hI, hu => by
    rcases follow_cases h with
      ⟨rfl, -⟩ | ⟨cond, yes, no, c, b, rest, sub, rfl, rfl, hsame, hsub, rfl⟩
    · simp only [plug, pure_eq_ok] at hu
      simp [hu]
    · have hcond : I.outcome (I.meaning cond) = I.outcome (I.meaning c) :=
        hI (c, b) mem_cons_self cond hsame
      obtain ⟨arm, harm, hbranch⟩ : ∃ arm, plug added (if b then yes else no) sub.arms = .ok arm ∧
          u = if b then .branch cond arm no else .branch cond yes arm := by
        cases b <;> simp only [plug, bind_eq_ok, pure_eq_ok] at hu <;>
          obtain ⟨arm, harm, rfl⟩ := hu <;> exact ⟨arm, harm, rfl⟩
      have ih := meaning_of_plug hsub hI.tail harm
      simp only [length_cons, take_succ_cons, Interp.holds_cons]
      by_cases hb : I.outcome (I.meaning c) = .ofArm b
      · rw [Interp.meaning_branch_of_arm (hcond.trans hb)]
        have hu' : I.meaning u = I.meaning arm := by
          cases b
          · simpa [hbranch] using Interp.meaning_branch_of_arm (hcond.trans hb)
          · simpa [hbranch] using Interp.meaning_branch_of_arm (hcond.trans hb)
        simpa [hu', hb] using ih
      · have hne : I.outcome (I.meaning cond) ≠ .ofArm b := hcond ▸ hb
        simp only [hb, decide_false, Bool.false_and, Bool.false_eq_true, if_false]
        rw [Interp.meaning, ← Interp.choose_of_not_arm hne _ _ (I.meaning arm), hbranch]
        cases b <;> simp [Interp.meaning]

/-! ## The added tree -/

theorem meaning_underGuard (t : Tree) : ∀ guard : Guard,
    I.meaning (t.underGuard guard) = if I.holds guard then I.meaning t else none
  | [] => rfl
  | (c, b) :: guard => by
    have ih := meaning_underGuard t guard
    rw [Interp.holds_cons]
    cases b <;> cases hc : I.outcome (I.meaning c) <;>
      simp [underGuard, Interp.meaning, Interp.choose, hc, Outcome.ofArm, ih]

/-- What was in the place, put back where the first remaining condition fails. -/
theorem meaning_plug_underGuard {u c : Tree} {more : Guard} (hI : I.undecided ≠ .hold)
    (h : plug old (new.underGuard ((c, b) :: more)) [!b] = .ok u) :
    I.meaning u = if I.outcome (I.meaning c) = .ofArm b then
      if I.holds more then I.meaning new else none
    else I.meaning old := by
  have hu := meaning_underGuard (I := I) new more
  have hc : I.outcome (I.meaning c) ≠ .hold := fun h => hI (I.undecided_of_outcome_hold h)
  cases b <;> simp only [underGuard, plug, Bool.not_true, Bool.not_false, bind_eq_ok,
    pure_eq_ok] at h <;> obtain ⟨_, rfl, rfl⟩ := h <;>
    cases ho : I.outcome (I.meaning c) <;>
    simp_all [Interp.meaning, Interp.choose, Outcome.ofArm]

def Adds (new : Tree) (place : GuardPlace) (added : Tree) : Prop :=
  match place.rest with
  | [] => added = new
  | (c, b) :: more =>
    if place.tree.isHole then added = new.underGuard ((c, b) :: more)
    else plug place.tree (new.underGuard ((c, b) :: more)) [!b] = .ok added

theorem assign_steps (h : old.assign new guard = .ok t) :
    ∃ place added u, old.follow guard = .ok place ∧ Adds new place added ∧
      plug added old place.arms = .ok u ∧ u.reorder = .ok t := by
  simp only [assign, bind_eq_ok] at h
  obtain ⟨place, hplace, h⟩ := h
  refine ⟨place, ?_⟩
  unfold Adds
  split at h
  · rename_i hrest
    simp only [hrest, underGuard, bind_eq_ok, pure_eq_ok] at h
    obtain ⟨added, rfl, u, hu, ht⟩ := h
    exact ⟨_, u, hplace, by simp only [hrest], hu, ht⟩
  · rename_i c b more hrest
    split at h
    · rename_i hhole
      simp only [hrest, bind_eq_ok, pure_eq_ok] at h
      obtain ⟨added, rfl, u, hu, ht⟩ := h
      exact ⟨_, u, hplace, by simp [hrest, hhole], hu, ht⟩
    · rename_i hhole
      simp only [hrest, bind_eq_ok] at h
      obtain ⟨added, hadded, u, hu, ht⟩ := h
      exact ⟨added, u, hplace, by simpa [hrest, hhole] using hadded, hu, ht⟩

theorem Interp.meaning_of_isHole (h : t.isHole = true) : I.meaning t = none := by
  cases t <;> first | rfl | cases h

/-- The added tree means what is new where the remaining conditions hold, what was in the place where
the first of them fails, and holds where a later one fails. -/
theorem meaning_of_adds {added : Tree} (hI : I.undecided ≠ .hold) (h : Adds new place added) :
    I.meaning added =
      if I.holds place.rest then I.meaning new
      else if I.holds (place.rest.take 1) then none
      else I.meaning place.tree := by
  unfold Adds at h
  split at h
  · rename_i hrest
    simp [hrest, h]
  · rename_i c b more hrest
    have hfirst : I.holds (place.rest.take 1) =
        decide (I.outcome (I.meaning c) = .ofArm b) := by
      simp [hrest, Interp.holds]
    rw [hfirst, hrest, Interp.holds_cons]
    split at h
    · rename_i hhole
      rw [h, meaning_underGuard, Interp.holds_cons, Interp.meaning_of_isHole hhole]
      by_cases hc : I.outcome (I.meaning c) = .ofArm b <;> simp [hc]
    · rw [meaning_plug_underGuard hI h]
      by_cases hc : I.outcome (I.meaning c) = .ofArm b <;> simp [hc]

theorem meaning_of_assign (h : old.assign new guard = .ok t) :
    ∃ place, old.follow guard = .ok place ∧ ∀ {V : Type} (I : Interp V), I.undecided ≠ .hold →
      I.Congruent guard → I.meaning t =
        if I.holds guard then I.meaning new
        else if I.holds (guard.take (place.arms.length + 1)) then none
        else I.meaning old := by
  obtain ⟨place, added, u, hplace, hadded, hu, ht⟩ := assign_steps h
  refine ⟨place, hplace, ?_⟩
  intro V I hI hcong
  have hrest := rest_of_follow hplace
  have hholds : I.holds guard =
      (I.holds (guard.take place.arms.length) && I.holds place.rest) := by
    rw [← Interp.holds_append, hrest, take_append_drop]
  rw [meaning_eq_of_reorder ht, meaning_of_plug hplace hcong hu, take_add,
    Interp.holds_append, ← hrest, hholds]
  cases hmatched : I.holds (guard.take place.arms.length) with
  | false => simp
  | true =>
    rw [meaning_of_follow hplace hcong hmatched]
    simpa using meaning_of_adds hI hadded

end Tree

namespace Design

open Tree

variable {w : Wiring} {d : Destination} {name : Path} {new old : Tree} {guard : Guard}
    {always : Option Sensitivity} {kind : Option String} {b : Binding}

/-- The binding of one destination to `new` under a guard, where the slice of the destination was
bound to `old`. The guard leads to a place in `old`, past the conditions that `old` branches on.
Where the guard holds the destination means what `new` means. Where it fails on the way to the place
or at the next condition, the destination means what `old` meant. Where only a later condition
fails, the destination holds, whatever `old` meant. So nothing is lost if at most one condition
lies behind the place, or if nothing stands there. -/
theorem makeBinding_meaning (hname : d.name = some name) (hold : boundTree w name d = .ok old)
    (hb : makeBinding w d new guard false always kind = .ok b) :
    ∃ place, old.follow guard = .ok place ∧
      ∀ (V : Type) (I : Interp V), I.undecided ≠ .hold → I.Congruent guard →
        (I.meaning b.tree =
          if I.holds guard then I.meaning new
          else if I.holds (guard.take (place.arms.length + 1)) then none
          else I.meaning old) ∧
        (place.rest.length ≤ 1 ∨ place.tree = .hole →
          I.meaning b.tree = if I.holds guard then I.meaning new else I.meaning old) := by
  simp only [makeBinding, hname, hold, bind_eq_ok, slicedTree, Bool.false_eq_true, if_false,
    pure_eq_ok, Except.ok.injEq] at hb
  obtain ⟨_, rfl, assigned, hassign, _, rfl, rfl⟩ := hb
  obtain ⟨place, hplace, hmeaning⟩ := meaning_of_assign hassign
  refine ⟨place, hplace, ?_⟩
  intro V I hI hcong
  refine ⟨hmeaning I hI hcong, ?_⟩
  intro hfew
  rw [hmeaning I hI hcong]
  have hrest := rest_of_follow hplace
  rcases hfew with hlen | hhole
  · have htake : guard.take (place.arms.length + 1) = guard := by
      rw [hrest, length_drop] at hlen
      exact take_of_length_le (by omega)
    rw [htake]
    split <;> simp_all
  · split
    · rfl
    · split
      · rename_i hprefix
        rw [take_add, Interp.holds_append, Bool.and_eq_true] at hprefix
        rw [meaning_of_follow hplace hcong hprefix.1, hhole, Interp.meaning]
      · rfl

/-- All constants are true but `d`. -/
def exceptD : Interp Bool where
  signal _ := none
  op _ _ := none
  truth := id
  atom
    | .const _ "d" => some false
    | _ => some true

/-- A default value under no condition and a second value under two: the default is lost where the
first condition is true and the second one false. -/
theorem makeBinding_meaning_lost_default :
    let guard : Guard := [(.const .int "c", true), (.const .int "d", true)]
    ∃ (w : Wiring) (d : Destination) (name : Path) (b : Binding) (I : Interp Bool),
      d.name = some name ∧ boundTree w name d = .ok (.const .int "a") ∧
      makeBinding w d (.const .int "b") guard false none none = .ok b ∧ I.holds guard = false ∧
      I.meaning (.const .int "a") = some true ∧ I.meaning b.tree = none := by
  intro guard
  let name : Path := ⟨[⟨"x", .signal, .none⟩]⟩
  let w : Wiring :=
    { binds := ⟨[(name, [0])]⟩, slots := #[{ tree := .const .int "a", dest := name }] }
  have hI : exceptD.Congruent guard := by
    intro e he c hc
    simp only [guard, mem_cons, not_mem_nil, or_false] at he
    rcases he with rfl | rfl <;> cases c <;>
      simp [Tree.equal] at hc
    · rw [← hc.1, ← hc.2]
    · rw [← hc.1, ← hc.2]
  have hb : makeBinding w { name := some name } (.const .int "b") guard false none none = .ok _ := rfl
  refine ⟨w, { name := some name }, name, _, exceptD, rfl, rfl, hb, by decide, rfl, ?_⟩
  obtain ⟨place, hplace, hmeaning⟩ := makeBinding_meaning rfl rfl hb
  have harms : place.arms = [] := by
    cases hplace
    rfl
  rw [(hmeaning Bool exceptD (by decide) hI).1, harms]
  rfl

/-- The binding of one of several destinations to its slice of `new` under at most one condition,
where the slice of the destination was bound to `old`. Where the guard holds, the destination means
the slice of `new`. Elsewhere it means the same slice of `old`, which has only the bits of the
destination already. -/
theorem makeBinding_slice (hname : d.name = some name) (hold : boundTree w name d = .ok old)
    (hguard : guard.length ≤ 1) (hb : makeBinding w d new guard true always kind = .ok b) :
    ∀ (V : Type) (I : Interp V), I.undecided ≠ .hold → I.Congruent guard →
      I.meaning b.tree =
        I.meaning (.part (if I.holds guard then new else old) d.partMsb d.partLsb) := by
  simp only [makeBinding, hname, hold, bind_eq_ok, slicedTree, if_true, pure_eq_ok, Except.ok.injEq] at hb
  obtain ⟨_, rfl, assigned, hassign, sliced, hsliced, rfl⟩ := hb
  obtain ⟨place, -, hmeaning⟩ := meaning_of_assign hassign
  intro V I hI hcong
  have htake : guard.take (place.arms.length + 1) = guard := take_of_length_le (by omega)
  have hassigned : I.meaning assigned = I.meaning (if I.holds guard then new else old) := by
    rw [hmeaning I hI hcong, htake]
    split <;> simp_all
  rw [meaning_eq_of_reorder hsliced, Interp.meaning, hassigned, Interp.meaning]

/-- The high half of `a` is lost where it should be kept. -/
theorem makeBinding_slice_high :
    ∃ (w : Wiring) (d : Destination) (name : Path) (b : Binding) (I : Interp Nat),
      d.name = some name ∧ d.partMsb = .ofInt 7 ∧ d.partLsb = .ofInt 4 ∧
      boundTree w name d = .ok (.part (.const .int "a") (.ofInt 7) (.ofInt 4)) ∧
      makeBinding w d (.const .int "b") [(.const .int "c", true)] true none none = .ok b ∧
      I.holds [(.const .int "c", true)] = false ∧
      I.meaning (.part (.const .int "a") (.ofInt 7) (.ofInt 4)) = some 10 ∧
      I.meaning b.tree = some 0 := by
  let name : Path := ⟨[⟨"x", .signal, .none⟩]⟩
  let d : Destination := { name := some name, partMsb := .ofInt 7, partLsb := .ofInt 4 }
  let w : Wiring := { binds := ⟨[(name, [0])]⟩, slots :=
    #[{ tree := .part (.const .int "a") (.ofInt 7) (.ofInt 4), dest := name }] }
  let I : Interp Nat :=
    .ofFields (fun _ => none) fun text => some (if text = "a" then 165 else 0)
  have hI : I.Congruent [(.const .int "c", true)] := by
    intro e he c hc
    obtain rfl := mem_singleton.mp he
    cases c <;> simp [Tree.equal] at hc
    rw [← hc.1, ← hc.2]
  have hb : makeBinding w d (.const .int "b") [(.const .int "c", true)] true none none = .ok _ :=
    rfl
  refine ⟨w, d, name, _, I, rfl, rfl, rfl, rfl, hb, by decide, rfl, ?_⟩
  rw [makeBinding_slice rfl rfl (by decide) hb Nat I (by decide) hI]
  rfl

end Design

end RtlFlow
