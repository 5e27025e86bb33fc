import Mathlib
import RtlFlow.Proofs.Grammar.Engine
import RtlFlow.Proofs.Grammar.Tables

/-!
# Reading by rules

What a state does depends on its items only. So to show that an input is read as a symbol it is
enough to know the items of the state where reading begins: the items behind a symbol can be
computed, and with them the entries of the tables.
-/

namespace RtlFlow.Grammar

namespace Automaton

variable {a : Automaton} {I J : List Item} {p q s t : Nat} {i : Item}

def after (g : Indexed) (I : List Item) (s : Nat) : List Item := closure g (successors s I)

def Has (a : Automaton) (p : Nat) (I : List Item) : Prop :=
  ∃ K, a.kernels[p]? = some K ∧ closure a.grammar K = I

section

variable (ha : Complete a.grammar a)
include ha

theorem Has.stateItems (h : a.Has p I) : a.stateItems p = I := by
  obtain ⟨K, hK, rfl⟩ := h
  exact ha.stateItems hK

theorem Has.lt (h : a.Has p I) : p < a.states.size := by
  obtain ⟨K, hK, -⟩ := h
  rw [ha.size_states]
  exact lt_of_kernel hK

theorem has_start : a.Has 0 (closure a.grammar [a.grammar.startItem 0]) :=
  ⟨_, Explored.start ha, rfl⟩

theorem Has.of_goto? (h : a.Has p I) (hq : a.goto? p s = some q) :
    a.Has q (after a.grammar I s) := by
  obtain ⟨K, hK, rfl⟩ := h
  exact ⟨_, (ha.of_goto? hK hq).2, rfl⟩

theorem Has.exists_goto? (h : a.Has p I) (hi : i ∈ I) (hs : i.next? = some s) :
    ∃ q, a.goto? p s = some q := by
  obtain ⟨K, hK, rfl⟩ := h
  obtain ⟨q, hq, -⟩ := ha.exists_goto? hK (successors_ne_nil hi hs)
  exact ⟨q, hq⟩

end

theorem mem_foldl_after {g : Indexed} : ∀ {γ δ : List Nat} {I : List Item} {i : Item}, i ∈ I →
    i.rest = γ ++ δ → { i with seen := γ.reverse ++ i.seen, rest := δ } ∈ γ.foldl (after g) I
  | [], δ, _, i, hi, hrest => by
    obtain rfl : i.rest = δ := hrest
    exact hi
  | s :: γ, δ, I, i, hi, hrest => by
    have hadv : i.advance? s = some { i with seen := s :: i.seen, rest := γ ++ δ } :=
      Item.advance?_eq_some.mpr ⟨_, hrest, rfl⟩
    have hmem : _ ∈ after g I s := mem_closure_of_mem (mem_successors.mpr ⟨i, hi, hadv⟩)
    simpa using mem_foldl_after (γ := γ) hmem rfl

def doneItem (g : Indexed) (r : Nat) : Item := ⟨r, (g.rule r).left, (g.rule r).right.reverse, []⟩

theorem mem_doneItem {g : Indexed} {r : Nat} (h : g.startItem r ∈ I) :
    doneItem g r ∈ (g.rule r).right.foldl (after g) I := by
  simpa [doneItem, Indexed.startItem] using mem_foldl_after (g := g) h (List.append_nil _).symm

theorem completes_doneItem (g : Indexed) (r : Nat) :
    Traced.completes g (g.startItem r) (doneItem g r) = true := by
  simp [Traced.completes, Traced.pointed, doneItem, Item.isComplete, Indexed.startItem]

theorem Has.of_path? (ha : Complete a.grammar a) : ∀ {γ : List Nat} {I : List Item} {p q : Nat},
    a.Has p I → a.path? p γ = some q → a.Has q (γ.foldl (after a.grammar) I)
  | [], _, _, _, h, hq => by
    obtain rfl := Option.some.inj hq
    exact h
  | s :: γ, _, p, q, h, hq => by
    obtain ⟨p', hp', hq⟩ := Option.bind_eq_some_iff.mp hq
    exact (h.of_goto? ha hp').of_path? ha hq

/-! ## The end of the start rule -/

theorem eq_start_of_mem_closure {g : Indexed} (hg : g.WellFormed) {K : List Item}
    (hK : Reached g K) (h : g.startItem 0 ∈ closure g K) : K = [g.startItem 0] := by
  rcases mem_closure h with h | ⟨s, h⟩
  · cases hK with
    | start => rfl
    | successors hK s =>
      obtain ⟨j, -, hadv⟩ := mem_successors.mp h
      obtain ⟨rest, -, hj⟩ := Item.advance?_eq_some.mp hadv
      exact absurd (congrArg Item.seen hj) (List.cons_ne_nil _ _).symm
  · obtain ⟨r, hr, -, -, h⟩ := hg.mem_startItems.mp h
    have : 0 = r := congrArg Item.rule h
    omega

theorem safe_of_start {g : Indexed} (hg : g.WellFormed) (ha : Complete g a)
    (hright : (g.rule 0).right = [s])
    (honly : ∀ r < g.rules.size, (g.rule r).left = Indexed.startId → r = 0)
    (hsafe : ∀ d ∈ after g (closure g [g.startItem 0]) s, d.next? = none →
      d.left = Indexed.startId) (q : Nat) : Tables.Safe (a.stateItems q) := by
  by_cases hd : ∃ d ∈ a.stateItems q, d.next? = none ∧ d.left = Indexed.startId
  · obtain ⟨d, hd, hdone, hleft⟩ := hd
    right
    cases hK : a.kernels[q]? with
    | none =>
      have hnil : a.stateItems q = [] := by
        have hq := Array.getElem?_eq_none_iff.mp hK
        rw [← ha.size_states] at hq
        rw [Automaton.stateItems, Array.getD_eq_getD_getElem?, Array.getElem?_eq_none hq]
        rfl
      rw [hnil] at hd
      cases hd
    | some K =>
      rw [ha.stateItems hK] at hd ⊢
      have hof := closure_of hg (ha.kernel hK).of hd
      have hrule : d.rule = 0 := honly _ hof.1 (hof.2.1 ▸ hleft)
      have hrest := Item.next?_eq_none.mp hdone
      have hseen : d.seen = [s] := by
        have h := hof.2.2
        rw [hrule, hright, hrest, List.append_nil] at h
        simpa using congrArg List.reverse h
      -- The item was moved over the start symbol, so the state comes after the first one.
      rcases mem_closure hd with hmem | ⟨s', hmem⟩
      · cases (ha.kernel hK).reached with
        | start =>
          obtain rfl := List.mem_singleton.mp hmem
          cases hseen
        | successors hK' s' =>
          obtain ⟨j, hj, hadv⟩ := mem_successors.mp hmem
          obtain ⟨rest, hjrest, rfl⟩ := Item.advance?_eq_some.mp hadv
          obtain ⟨rfl, hjseen⟩ := List.cons.inj hseen
          have hjleft : j.left = (g.rule 0).left := by
            rw [← hrule]
            exact hof.2.1
          have hjstart : j = g.startItem 0 := by
            cases j
            simp_all [Indexed.startItem]
          rw [eq_start_of_mem_closure hg hK' (hjstart ▸ hj)]
          exact hsafe
      · obtain ⟨r, hr, -, -, rfl⟩ := hg.mem_startItems.mp hmem
        have : r = 0 := hrule
        omega
  · left
    exact fun d hmem hdone hleft => hd ⟨d, hmem, hdone, hleft⟩

/-! ## What can follow the parts of a rule -/

section

variable (ha : Complete a.grammar a)
include ha

theorem Has.canRead (h : a.Has p I) (hi : i ∈ I) (hnext : i.next? = some s)
    (hn : a.grammar.nonterminal.getD s false = true) (hlt : s < a.grammar.names.size) {j : Item}
    (hj : j ∈ after a.grammar I s) (hjt : j.next? = some t)
    (hterm : a.grammar.terminal.getD t false = true) : a.CanRead p s t := by
  obtain ⟨q, hq⟩ := h.exists_goto? ha hi hnext
  have hI := h.stateItems ha
  obtain ⟨x, hx⟩ := exists_find? (h.lt ha) (hI ▸ hi) hnext hn hlt
  exact .shift hx hq (((h.of_goto? ha hq).stateItems ha) ▸ hj) hjt hterm

theorem Has.canFollow_last {p' s' : Nat} (h : a.Has p I) (hfollow : a.CanFollow p s t) (hi : i ∈ I)
    (hleft : i.left = s) {γ : List Nat} (hrest : i.rest = γ ++ [s']) (hp' : a.path? p γ = some p')
    (hn : a.grammar.nonterminal.getD s' false = true) (hlt : s' < a.grammar.names.size) :
    a.CanFollow p' s' t := by
  have h' := h.of_path? ha hp'
  have hmem := mem_foldl_after (g := a.grammar) hi hrest
  obtain ⟨x, hx⟩ := exists_find? (h'.lt ha) ((h'.stateItems ha) ▸ hmem) rfl hn hlt
  refine hfollow.last ((h.stateItems ha) ▸ hi) hleft hx ?_
  rw [hrest]
  exact mem_endings hx hp'

end

end Automaton

/-! ## Entries of a state -/

/-- A terminal is shifted, whatever the lookaheads are. -/
structure ShiftsAt (g : Indexed) (I : List Item) (s : Nat) : Prop where
  next : ∃ i ∈ I, i.next? = some s
  wins : I.Pairwise fun x y =>
    (x.next? = none → y.next? = some s →
      Tables.shiftOver (g.prec.getD s {}) (g.rule x.rule).prec = .replace) ∧
    (x.next? = some s → y.next? = none →
      Tables.reduceOver (g.rule x.rule).prec (g.prec.getD s {}) = .keep)

/-- The only complete item is reduced at a terminal if this is among its lookaheads. -/
structure Settled (g : Indexed) (I : List Item) (t : Nat) : Prop where
  notStart : ∀ d ∈ I, d.next? = none → d.left ≠ Indexed.startId
  unique : ∀ d ∈ I, d.next? = none → ∀ d' ∈ I, d'.next? = none → d' = d
  wins : ∀ d ∈ I, d.next? = none → I.Pairwise (Tables.KeepsReduce g t d)

namespace Machine

variable {σ α β : Type} {m : Machine σ α} {rules : Array Rule} {a : Automaton}

/-- The machine runs on the tables of the automaton. -/
structure Driven (m : Machine σ α) (rules : Array Rule) (a : Automaton) : Prop where
  wellFormed : a.grammar.WellFormed
  complete : a.Complete a.grammar
  tables : Tables.Of a.grammar rules a m.tables
  plain : m.Plain
  length_eq : ∀ n < a.grammar.rules.size,
    (m.tables.rules.getD n default).symbols.length = (a.grammar.rule n).right.length

variable {means : Symbol α → β → Prop} {I J : List Item} {p q s t n n' : Nat} {e : β}
  {es w w' : List (Nat × β)} {d : Item}

namespace Driven

variable (hm : Driven m rules a)
include hm

theorem goto?_eq (p s : Nat) : m.tables.goto? p s = a.goto? p s := hm.tables.goto?_eq p s

theorem shift (h : a.Has p I) (hs : ShiftsAt a.grammar I s) (hne : s ≠ Indexed.endId)
    (hterm : a.grammar.terminal.getD s false = true) (hlt : s < a.grammar.names.size)
    (hq : a.goto? p s = some q) : m.tables.action? p s = some (.shift q) := by
  obtain ⟨i, hi, hnext⟩ := hs.next
  refine hm.tables.action?_eq (h.lt hm.complete) hlt ?_ (by simp)
  rw [h.stateItems hm.complete]
  refine Tables.cellOf_shift hne hterm hq ?_ hi hnext
  refine hs.wins.imp fun {x y} hxy => ⟨fun hx hy => hxy.1 hx.1 hy, fun hx hy => hxy.2 hx hy.1⟩

theorem reduce (h : a.Has q J) (hs : Settled a.grammar J t) (hlt : t < a.grammar.names.size)
    (hd : d ∈ J) (hdone : d.next? = none) (ht : t ∈ a.lookaheads.getD (q, d.rule) #[]) :
    m.tables.action? q t = some (.reduce d.rule) := by
  refine hm.tables.action?_eq (h.lt hm.complete) hlt ?_ (by simp)
  rw [h.stateItems hm.complete]
  exact Tables.cellOf_reduce ⟨hdone, hs.notStart d hd hdone, ht⟩ hd hs.notStart
    (fun y hy hred => hs.unique d hd hdone y hy hred.1) (hs.wins d hd hdone)

theorem accept (h : a.Has q J) (hterm : a.grammar.terminal.getD Indexed.endId false = false)
    (hlt : Indexed.endId < a.grammar.names.size)
    (hstart : ∀ d ∈ J, d.next? = none → d.left = Indexed.startId) (hd : d ∈ J)
    (hdone : d.next? = none) : m.tables.action? q Indexed.endId = some .accept := by
  refine hm.tables.action?_eq (h.lt hm.complete) hlt ?_ (by simp)
  rw [h.stateItems hm.complete]
  exact Tables.cellOf_accept hterm hstart hd hdone

theorem path?_of_readsAll (h : m.ReadsAll means p es w t q n) :
    a.path? p (es.map Prod.fst) = some q := by
  induction h with
  | nil p t => rfl
  | cons _ hgoto _ ih =>
    rw [goto?_eq hm] at hgoto
    exact Option.bind_eq_some_iff.mpr ⟨_, hgoto, ih⟩

theorem rule (h : a.Has p I) {r : Nat} (hr : r < a.grammar.rules.size)
    (hmem : a.grammar.startItem r ∈ I) (hnext : ∃ i ∈ I, i.next? = some (a.grammar.rule r).left)
    (hfollow : a.CanFollow p (a.grammar.rule r).left t) (hlt : t < a.grammar.names.size)
    (hes : es.map Prod.fst = (a.grammar.rule r).right)
    (hsettled : Settled a.grammar ((es.map Prod.fst).foldl (Automaton.after a.grammar) I) t)
    (hmakes : m.Makes means r es e) (hall : m.ReadsAll means p es w t q n) :
    m.Reads means p (a.grammar.rule r).left e w t (n + 1) := by
  obtain ⟨i, hi, hnext⟩ := hnext
  obtain ⟨q', hq'⟩ := h.exists_goto? hm.complete hi hnext
  have hpath := path?_of_readsAll hm hall
  have hq := h.of_path? hm.complete hpath
  rw [hes] at hpath hsettled hq
  have hd := Automaton.mem_doneItem hmem
  have hla := hfollow.lookahead ((h.stateItems hm.complete) ▸ hmem) rfl hpath
    ((hq.stateItems hm.complete) ▸ hd) (Automaton.completes_doneItem _ r)
  refine Reads.reduce hm.plain hall (hm.reduce hq hsettled hlt hd rfl hla) ?_ ?_
    (by rw [goto?_eq hm, hq']) hmakes
  · rw [← List.length_map Prod.fst, hes]
    exact hm.length_eq r hr
  · simp [leftOf, hm.tables.lefts, hr, Indexed.rule, Automaton.doneItem]

end Driven

/-! ## Part by part -/

/-- From a state on some symbols are read, up to a state with the items `J`. -/
def ReadsTo (m : Machine σ α) (means : Symbol α → β → Prop) (a : Automaton) (p : Nat)
    (es w : List (Nat × β)) (t : Nat) (J : List Item) (n : Nat) : Prop :=
  ∃ q, m.ReadsAll means p es w t q n ∧ a.Has q J

theorem ReadsTo.nil (h : a.Has p I) : m.ReadsTo means a p [] [] t I 0 := ⟨p, .nil p t, h⟩

namespace Driven

variable (hm : Driven m rules a)
include hm

theorem part (h : a.Has p I) (hnext : ∃ i ∈ I, i.next? = some s)
    (hread : m.Reads means p s e w (first w' t) n)
    (hrest : ∀ q, a.goto? p s = some q → a.Has q (Automaton.after a.grammar I s) →
      m.ReadsTo means a q es w' t J n') :
    m.ReadsTo means a p ((s, e) :: es) (w ++ w') t J (n + n') := by
  obtain ⟨i, hi, hnext⟩ := hnext
  obtain ⟨q, hq⟩ := h.exists_goto? hm.complete hi hnext
  obtain ⟨q', hall, hq'⟩ := hrest q hq (h.of_goto? hm.complete hq)
  exact ⟨q', .cons hread (by rw [goto?_eq hm, hq]) hall, hq'⟩

theorem token (h : a.Has p I) (hs : ShiftsAt a.grammar I s) (hne : s ≠ Indexed.endId)
    (hterm : a.grammar.terminal.getD s false = true) (hlt : s < a.grammar.names.size)
    (hrest : ∀ q, a.goto? p s = some q → a.Has q (Automaton.after a.grammar I s) →
      m.ReadsTo means a q es w t J n) :
    m.ReadsTo means a p ((s, e) :: es) ((s, e) :: w) t J (1 + n) := by
  obtain ⟨i, hi, hnext⟩ := hs.next
  obtain ⟨q, hq⟩ := h.exists_goto? hm.complete hi hnext
  have hgoto : m.tables.goto? p s = some q := by rw [goto?_eq hm, hq]
  exact hm.part h hs.next (.shift hm.plain (hm.shift h hs hne hterm hlt hq) hgoto) hrest

end Driven

end Machine

end RtlFlow.Grammar
