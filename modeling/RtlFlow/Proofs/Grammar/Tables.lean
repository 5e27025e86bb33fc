import Mathlib
import RtlFlow.Grammar.Tables
import RtlFlow.Proofs.Computation
import RtlFlow.Proofs.Grammar.Lookahead

/-!
# The entries of the tables

-/

namespace RtlFlow.Grammar.Tables

open List

variable {items : List Item} {j : Nat} {c : Cell}

/-! ## One entry -/

/-- The entry at a terminal `s` of a state after one more item. -/
def Cell.add (a : Automaton) (ends : Item → Array Nat) (q s : Nat) (c : Cell) (item : Item) : Cell :=
  match item.next? with
  | none =>
    if item.left = Indexed.startId then if s = Indexed.endId then ⟨some .accept, item⟩ else c
    else if s ∈ ends item then c.reduce a.grammar s item else c
  | some s' =>
    if s' = s ∧ a.grammar.terminal.getD s false = true then
      match a.goto? q s with
      | some j => c.shift a.grammar s item j
      | none => c
    else c

/-! ## The steps of a build -/

def Build.core (b : Build) : Tables :=
  { b.tables with shiftReduce := #[], reduceReduce := #[], reduced := #[], log := #[] }

/-- A build without its notes. -/
def Build.bare (b : Build) : Build := ⟨b.core, b.cells, b.logging, #[]⟩

namespace Build

variable (b : Build) (s : Nat)

@[simp] theorem bare_count (r : Nat) (k : Int) : (b.count r k).bare = b.bare := rfl

@[simp] theorem bare_put : (b.put s c).bare = b.bare.put s c := rfl

@[simp] theorem bare_say (line : String) : (b.say line).bare = b.bare := by
  unfold say
  split <;> rfl

@[simp] theorem bare_conflict (q : Nat) (prec : Precedence) (shift : Bool) :
    (b.conflict q s prec shift).bare = b.bare := by
  unfold conflict
  split
  · exact bare_say b _
  · rfl

@[simp] theorem bare_reject (a : Automaton) (q : Nat) (kept : Item) (r : Nat) :
    (b.reject a q s kept r).bare = b.bare := bare_say b _

@[simp] theorem bare_consider (item : Item) (text : Unit → String) :
    (b.consider s item text).bare = b.bare := by
  unfold consider
  split <;> rfl

/-- There is an entry for each of `n` symbols. -/
def Wide (n : Nat) (b : Build) : Prop := b.cells.size = n

theorem Wide.cell_eq {n s : Nat} {b : Build} (h : b.Wide n) (hs : n ≤ s) : b.cell s = default := by
  rw [cell, Array.getD_eq_getD_getElem?, Array.getElem?_eq_none (h ▸ hs)]
  rfl

end Build

/-- A step of a build changes the entries of a row by `f`, and of the tables only the notes. -/
structure Becomes (n : Nat) (f : Nat → Cell → Cell) (b b' : Build) : Prop where
  core : b'.core = b.core
  logging : b'.logging = b.logging
  wide : b'.Wide n
  cell : ∀ s < n, b'.cell s = f s (b.cell s)

namespace Becomes

variable {n s : Nat} {b b' b'' : Build} {f f' : Nat → Cell → Cell}

theorem trans (h : Becomes n f b b') (h' : Becomes n f' b' b'') :
    Becomes n (fun s c => f' s (f s c)) b b'' where
  core := h'.core.trans h.core
  logging := h'.logging.trans h.logging
  wide := h'.wide
  cell s hs := by rw [h'.cell s hs, h.cell s hs]

theorem refl (hb : b.Wide n) : Becomes n (fun _ c => c) b b := ⟨rfl, rfl, hb, fun _ _ => rfl⟩

theorem of_bare {b₁ : Build} (h : Becomes n f b b₁) (hbare : b'.bare = b₁.bare) :
    Becomes n f b b' where
  core := (congrArg Build.tables hbare).trans h.core
  logging := (congrArg Build.logging hbare).trans h.logging
  wide := (congrArg (fun b : Build => b.cells.size) hbare).trans h.wide
  cell s hs := (congrArg (·.cell s) hbare).trans (h.cell s hs)

theorem congr (h : Becomes n f b b') (hf : ∀ s < n, f s (b.cell s) = f' s (b.cell s)) :
    Becomes n f' b b' :=
  { h with cell := fun s hs => (h.cell s hs).trans (hf s hs) }

theorem put (hb : b.Wide n) {s : Nat} {k : Cell → Cell} (hc : c = k (b.cell s)) :
    Becomes n (fun s' c => if s' = s then k c else c) b (b.put s c) where
  core := rfl
  logging := rfl
  wide := by simpa [Build.put, Build.Wide] using hb
  cell s' hs' := by
    rw [Build.cell, Build.put, getD_setIfInBounds, hb]
    by_cases h : s' = s
    · subst h
      simp [hs', hc]
    · simp [h, Build.cell]

end Becomes

variable {a : Automaton} {n q s : Nat} {item : Item} {b : Build}

theorem addReduce_spec (hb : b.Wide n) (h : (b.cell s).action ≠ some .accept) :
    ∃ b', Build.addReduce a q item b s = .ok b' ∧
      Becomes n (fun s' c => if s' = s then c.reduce a.grammar s item else c) b b' := by
  have hput {b' : Build} (hb' : b'.bare = (b.put s ((b.cell s).reduce a.grammar s item)).bare) :=
    (Becomes.put hb (k := Cell.reduce a.grammar s item) rfl).of_bare hb'
  unfold Build.addReduce
  dsimp only
  split
  · rename_i hc
    exact absurd hc h
  all_goals exact ⟨_, rfl, hput (by simp)⟩

theorem addShift_spec (hb : b.Wide n) (h : (b.cell s).action ≠ some .accept)
    (hshift : ∀ j', (b.cell s).action = some (.shift j') → j' = j) :
    ∃ b', Build.addShift a q item s j b = .ok b' ∧
      Becomes n (fun s' c => if s' = s then c.shift a.grammar s item j else c) b b' := by
  have hput {b' : Build} (hb' : b'.bare = (b.put s ((b.cell s).shift a.grammar s item j)).bare) :=
    (Becomes.put hb (k := Cell.shift a.grammar s item j) rfl).of_bare hb'
  unfold Build.addShift
  dsimp only
  split
  · rename_i hc
    exact absurd hc h
  · rename_i j' hc
    rw [if_pos (hshift j' hc)]
    exact ⟨_, rfl, hput (by simp)⟩
  all_goals exact ⟨_, rfl, hput (by simp)⟩

/-! ## One state -/

/-- What an entry says comes from its item, one of the items of the state. -/
structure Cell.Sound (a : Automaton) (q s : Nat) (items : List Item) (c : Cell) : Prop where
  /-- A shift leads to the state behind the terminal. -/
  shift : ∀ j, c.action = some (.shift j) →
    a.goto? q s = some j ∧ c.item ∈ items ∧ c.item.next? = some s
  reduce : ∀ r, c.action = some (.reduce r) →
    c.item ∈ items ∧ c.item.next? = none ∧ c.item.rule = r ∧ c.item.left ≠ Indexed.startId
  /-- The input is accepted at its end, after the start rule. -/
  accept : c.action = some .accept →
    s = Indexed.endId ∧ c.item ∈ items ∧ c.item.next? = none ∧ c.item.left = Indexed.startId

theorem Cell.Sound.turn {x : Action} (h : c.Sound a q s items)
    (hnew : (⟨some x, item⟩ : Cell).Sound a q s items) (v : Verdict) :
    (c.turn x item v).Sound a q s items := by
  cases v with
  | replace => exact hnew
  | refuse => exact ⟨by simp [Cell.turn], by simp [Cell.turn], by simp [Cell.turn]⟩
  | keep => exact h

theorem Cell.Sound.add {ends : Item → Array Nat} (h : c.Sound a q s items) (hitem : item ∈ items) :
    (c.add a ends q s item).Sound a q s items := by
  unfold Cell.add
  split
  · rename_i hnext
    split
    · rename_i hleft
      split
      · rename_i hs
        exact ⟨by simp, by simp, fun _ => ⟨hs, hitem, hnext, hleft⟩⟩
      · exact h
    · rename_i hleft
      split
      · refine h.turn ⟨by simp, fun r hr => ?_, by simp⟩ _
        exact ⟨hitem, hnext, by simpa using hr, hleft⟩
      · exact h
  · rename_i s' hnext
    split
    · rename_i hs
      split
      · rename_i j hj
        refine h.turn ⟨fun j' hj' => ?_, by simp, by simp⟩ _
        obtain rfl : j = j' := by simpa using hj'
        exact ⟨hj, hitem, hs.1 ▸ hnext⟩
      · exact h
    · exact h

def cellOf (a : Automaton) (ends : Item → Array Nat) (q s : Nat) (items : List Item) : Cell :=
  items.foldl (Cell.add a ends q s) default

theorem foldlM_addReduce :
    ∀ (ss : List Nat) (b : Build), ss.Nodup → b.Wide n →
      (∀ s ∈ ss, (b.cell s).action ≠ some .accept) →
      ∃ b', ss.foldlM (Build.addReduce a q item) b = .ok b' ∧
        Becomes n (fun s c => if s ∈ ss then c.reduce a.grammar s item else c) b b'
  | [], b, _, hb, _ => ⟨b, rfl, by simpa using .refl hb⟩
  | s :: ss, b, hnodup, hb, hne => by
    obtain ⟨hs, hss⟩ := nodup_cons.mp hnodup
    obtain ⟨b₁, hok₁, h₁⟩ := addReduce_spec (a := a) (q := q) hb
      (hne s mem_cons_self)
    have hother : ∀ s' ∈ ss, (b₁.cell s').action ≠ some .accept := by
      intro s' hs'
      by_cases hlt : s' < n
      · have hss' : s' ≠ s := fun h => hs (h ▸ hs')
        rw [h₁.cell s' hlt, if_neg hss']
        exact hne s' (mem_cons_of_mem _ hs')
      · rw [h₁.wide.cell_eq (Nat.not_lt.mp hlt)]
        rintro ⟨⟩
    obtain ⟨b₂, hok₂, h₂⟩ := foldlM_addReduce ss b₁ hss h₁.wide hother
    refine ⟨b₂, ?_, (h₁.trans h₂).congr fun s' _ => ?_⟩
    · rw [foldlM_cons, hok₁]
      exact hok₂
    · by_cases hss' : s' = s
      · subst hss'
        simp [hs]
      · simp [hss']

/-- A state has no complete item of the start rule beside complete items of other rules. -/
def Safe (items : List Item) : Prop :=
  (∀ d ∈ items, d.next? = none → d.left ≠ Indexed.startId) ∨
    ∀ d ∈ items, d.next? = none → d.left = Indexed.startId

/-- The row of a state while it is built: its entries come from its items. -/
structure Building (a : Automaton) (n q : Nat) (items : List Item) (b : Build) : Prop where
  wide : b.Wide n
  sound : ∀ s < n, (b.cell s).Sound a q s items

theorem Building.ne_accept (h : Building a n q items b)
    (hs : s ≠ Indexed.endId ∨ ∀ d ∈ items, d.next? = none → d.left ≠ Indexed.startId) :
    (b.cell s).action ≠ some .accept := by
  intro hacc
  by_cases hlt : s < n
  · obtain ⟨hend, hmem, hnext, hleft⟩ := (h.sound s hlt).accept hacc
    rcases hs with hs | hs
    · exact hs hend
    · exact hs _ hmem hnext hleft
  · rw [h.wide.cell_eq (Nat.not_lt.mp hlt)] at hacc
    cases hacc

theorem Building.target {j' : Nat} (h : Building a n q items b)
    (hj' : (b.cell s).action = some (.shift j')) (hj : a.goto? q s = some j) : j' = j := by
  by_cases hlt : s < n
  · exact Option.some.inj (((h.sound s hlt).shift j' hj').1.symm.trans hj)
  · rw [h.wide.cell_eq (Nat.not_lt.mp hlt)] at hj'
    cases hj'

variable {ends : Nat → Item → Array Nat}

theorem addItem_spec (hsafe : Safe items) (hends : ∀ i, (ends q i).toList.Nodup)
    (hterm : a.grammar.terminal.getD Indexed.endId false = false) (h : Building a n q items b)
    (hitem : item ∈ items) :
    ∃ b', Build.addItem a ends q b item = .ok b' ∧
      Becomes n (fun s c => c.add a (ends q) q s item) b b' := by
  rw [Build.addItem]
  split
  · rename_i hnext
    split
    · rename_i hleft
      refine ⟨_, rfl, (Becomes.put h.wide (k := fun _ => ⟨some .accept, item⟩) rfl).congr
        fun s hs => ?_⟩
      simp only [Cell.add, hnext, if_pos hleft]
    · rename_i hleft
      have hne : ∀ s ∈ (ends q item).toList, (b.cell s).action ≠ some .accept := by
        intro s _
        refine h.ne_accept (.inr (hsafe.resolve_right fun hall => ?_))
        exact hleft (hall item hitem hnext)
      obtain ⟨b', hok, hb'⟩ := foldlM_addReduce (a := a) (q := q) _ b (hends item)
        h.wide hne
      refine ⟨b', by rw [← Array.foldlM_toList, hok], hb'.congr fun s hs => ?_⟩
      simp [Cell.add, hnext, if_neg hleft]
  · rename_i s hnext
    split
    · rename_i hs
      have hend : s ≠ Indexed.endId := by
        rintro rfl
        rw [hterm] at hs
        cases hs
      split
      · rename_i j hj
        obtain ⟨b', hok, hb'⟩ := addShift_spec (a := a) (q := q) (s := s) (j := j)
          h.wide (h.ne_accept (.inl hend)) fun j' hj' => h.target hj' hj
        refine ⟨b', hok, hb'.congr fun s' hs' => ?_⟩
        simp only [Cell.add, hnext]
        by_cases hss : s' = s
        · subst hss
          rw [if_pos rfl, if_pos ⟨rfl, hs⟩, hj]
        · rw [if_neg hss, if_neg fun h => hss h.1.symm]
      · rename_i hj
        refine ⟨b, rfl, (Becomes.refl h.wide).congr fun s' hs' => ?_⟩
        simp only [Cell.add, hnext]
        split
        · rename_i hss
          obtain ⟨rfl, -⟩ := hss
          rw [hj]
        · rfl
    · rename_i hs
      refine ⟨b, rfl, (Becomes.refl h.wide).congr fun s' hs' => ?_⟩
      simp only [Cell.add, hnext]
      rw [if_neg]
      rintro ⟨rfl, h⟩
      exact hs h

theorem foldlM_addItem (hsafe : Safe items) (hends : ∀ i, (ends q i).toList.Nodup)
    (hterm : a.grammar.terminal.getD Indexed.endId false = false) :
    ∀ (is : List Item) (b : Build), (∀ i ∈ is, i ∈ items) → Building a n q items b →
      ∃ b', is.foldlM (Build.addItem a ends q) b = .ok b' ∧
        Becomes n (fun s c => is.foldl (Cell.add a (ends q) q s) c) b b'
  | [], b, _, hb => ⟨b, rfl, .refl hb.wide⟩
  | i :: is, b, his, hb => by
    have hi := his i mem_cons_self
    obtain ⟨b₁, hok₁, h₁⟩ := addItem_spec hsafe hends hterm hb hi
    have hb₁ : Building a n q items b₁ := ⟨h₁.wide, fun s hs => by
      rw [h₁.cell s hs]
      exact (hb.sound s hs).add hi⟩
    obtain ⟨b₂, hok₂, h₂⟩ := foldlM_addItem hsafe hends hterm is b₁
      (fun j hj => his j (mem_cons_of_mem _ hj)) hb₁
    refine ⟨b₂, ?_, h₁.trans h₂⟩
    rw [foldlM_cons, hok₁]
    exact hok₂

theorem Build.say_of_quiet (h : b.logging = false) (line : String) : b.say line = b := by
  rw [Build.say, h]
  rfl

/-- A row has the entries that the items of a state make. -/
structure RowOf (a : Automaton) (ends : Nat → Item → Array Nat) (q : Nat)
    (row : Array (Option Action)) : Prop where
  size_eq : row.size = a.grammar.names.size
  entry : ∀ s < a.grammar.names.size,
    row.getD s none = (cellOf a (ends q) q s (a.stateItems q)).action

theorem addState_spec (hsafe : Safe (a.stateItems q)) (hends : ∀ i, (ends q i).toList.Nodup)
    (hterm : a.grammar.terminal.getD Indexed.endId false = false) (hlog : b.logging = false) :
    ∃ b' row, Build.addState a ends b q = .ok b' ∧ b'.logging = false ∧ RowOf a ends q row ∧
      b'.core = { b.core with actions := b.core.actions.push row } := by
  set n := a.grammar.names.size with hn
  set b₁ : Build := ⟨b.tables, Array.replicate n default, false, #[]⟩ with hb₁
  have hcell : ∀ s, b₁.cell s = default := fun s => getD_replicate_default ..
  have hbuild : Building a n q (a.stateItems q) b₁ := by
    refine ⟨by simp [hb₁, Build.Wide], fun s _ => ?_⟩
    rw [hcell]
    exact ⟨by rintro _ ⟨⟩, by rintro _ ⟨⟩, by rintro ⟨⟩⟩
  obtain ⟨b₂, hok, h₂⟩ := foldlM_addItem hsafe hends hterm _ b₁ (fun _ h => h) hbuild
  have hlog₂ : b₂.logging = false := h₂.logging
  refine ⟨{ b₂ with tables := { b₂.tables with
    actions := b₂.tables.actions.push (b₂.cells.map (·.action)) } }, b₂.cells.map (·.action), ?_,
    hlog₂, ⟨Array.size_map.trans h₂.wide, fun s hs => ?_⟩, ?_⟩
  · rw [Build.addState]
    simp only [Build.say_of_quiet hlog, hlog, Bool.false_eq_true, if_false]
    rw [← hn, ← hb₁, hok]
    simp only [hlog₂, Bool.false_eq_true, if_false, ok_bind]
    rfl
  · rw [cellOf, ← hcell s, ← h₂.cell s hs, Build.cell]
    simp [Array.getElem?_eq_getElem (h₂.wide.symm ▸ hn ▸ hs)]
  · have hcore : b₂.core = b.core := h₂.core
    calc _ = { b₂.core with actions := b₂.core.actions.push (b₂.cells.map Cell.action) } := rfl
      _ = _ := by rw [hcore]

/-! ## All states -/

/-- The states up to a number have their rows. -/
structure Filled (a : Automaton) (ends : Nat → Item → Array Nat) (m : Nat) (start : Tables)
    (b : Build) : Prop where
  logging : b.logging = false
  /-- Of the tables only the rows have changed. -/
  core : { b.core with actions := start.actions } = start
  size_eq : b.core.actions.size = m
  row : ∀ q < m, RowOf a ends q (b.core.actions.getD q #[])

theorem foldlM_addState (start : Tables) (hsafe : ∀ q, Safe (a.stateItems q))
    (hends : ∀ q i, (ends q i).toList.Nodup)
    (hterm : a.grammar.terminal.getD Indexed.endId false = false)
    (hb : Filled a ends 0 start b) (m : Nat) :
    ∃ b', (List.range m).foldlM (Build.addState a ends) b = .ok b' ∧ Filled a ends m start b' := by
  induction m with
  | zero => exact ⟨b, rfl, hb⟩
  | succ m ih =>
    obtain ⟨b₁, hok₁, h₁⟩ := ih
    obtain ⟨b₂, row, hok₂, hlog, hrow, hcore⟩ := addState_spec (hsafe m) (hends m) hterm h₁.logging
    refine ⟨b₂, ?_, hlog, ?_, ?_, fun q hq => ?_⟩
    · rw [range_succ, foldlM_append, hok₁]
      simp only [foldlM_cons, foldlM_nil, hok₂, ok_bind]
      rfl
    · rw [hcore]
      exact h₁.core
    · rw [hcore, Array.size_push, h₁.size_eq]
    · rw [hcore, getD_push, h₁.size_eq]
      by_cases hqm : q = m
      · rw [if_pos hqm, hqm]
        exact hrow
      · rw [if_neg hqm]
        exact h₁.row q (by omega)

def endsOf (a : Automaton) (q : Nat) (item : Item) : Array Nat :=
  a.lookaheads.getD (q, item.rule) #[]

/-- The tables of an automaton: the entries are those that the items of the states make. -/
structure Of (g : Indexed) (rules : Array Rule) (a : Automaton) (t : Tables) : Prop where
  names : t.names = g.names
  ids : t.ids = g.ids
  rules : t.rules = rules
  lefts : t.lefts = g.rules.map (·.left)
  next : t.next = a.next
  size_eq : t.actions.size = a.states.size
  row : ∀ q < a.states.size, RowOf a (endsOf a) q (t.actions.getD q #[])

theorem ofIndexed_spec (g : Indexed) (rules : Array Rule)
    (hg : (Automaton.ofIndexed g).grammar = g)
    (hsafe : ∀ q, Safe ((Automaton.ofIndexed g).stateItems q))
    (hterm : g.terminal.getD Indexed.endId false = false) :
    ∃ t, ofIndexed g rules .lalr false = .ok t ∧ Of g rules (Automaton.ofIndexed g) t := by
  set a := Automaton.ofIndexed g with ha
  set start : Tables := {
    method := .lalr, names := g.names, ids := g.ids, nonterminal := g.nonterminal
    rules, lefts := g.rules.map (·.left), next := a.next } with hstart
  have hends : ∀ q i, (endsOf a q i).toList.Nodup :=
    fun q i => Automaton.nodup_lookaheads a (q, i.rule)
  obtain ⟨b, hok, hb⟩ := foldlM_addState (a := a)
    (b := ⟨{ start with reduced := Array.replicate rules.size 0 }, #[], false, #[]⟩) start hsafe
    hends (by rw [hg]; exact hterm)
    ⟨rfl, rfl, rfl, by simp⟩ a.states.size
  have hcore := hb.core
  refine ⟨b.tables, ?_, ?_, ?_, ?_, ?_, ?_, hb.size_eq, hb.row⟩
  · rw [ofIndexed]
    simp only [Build.say_of_quiet]
    rw [← ha]
    change (List.foldlM (Build.addState a (endsOf a)) _ _ >>= _) = _
    rw [hok]
    rfl
  · exact congrArg (·.names) hcore
  · exact congrArg (·.ids) hcore
  · exact congrArg (·.rules) hcore
  · exact congrArg (·.lefts) hcore
  · exact congrArg (·.next) hcore

/-! ## Which entry is kept -/

section

variable {items : List Item} {ends : Item → Array Nat} {j : Nat}
variable {c : Cell} {d y : Item}

def Reduces (ends : Item → Array Nat) (s : Nat) (i : Item) : Prop :=
  i.next? = none ∧ i.left ≠ Indexed.startId ∧ s ∈ ends i

/-- What an item adds to an entry, apart from the end of the input behind the start rule. -/
theorem Cell.add_cases (a : Automaton) (ends : Item → Array Nat) (q s : Nat) (c : Cell) (y : Item)
    (hy : s = Indexed.endId → y.next? = none → y.left ≠ Indexed.startId) :
    (y.next? = some s ∧ ∃ j, a.goto? q s = some j ∧
        c.add a ends q s y = c.shift a.grammar s y j) ∨
      (Reduces ends s y ∧ c.add a ends q s y = c.reduce a.grammar s y) ∨
      (¬ Reduces ends s y ∧ c.add a ends q s y = c ∧
        (a.grammar.terminal.getD s false = true → (a.goto? q s).isSome → y.next? ≠ some s)) := by
  unfold Cell.add
  split
  · rename_i hnext
    by_cases hleft : y.left = Indexed.startId
    · rw [if_pos hleft, if_neg fun hs => hy hs hnext hleft]
      exact .inr (.inr ⟨fun h => h.2.1 hleft, rfl, by simp [hnext]⟩)
    · rw [if_neg hleft]
      split
      · rename_i hmem
        exact .inr (.inl ⟨⟨hnext, hleft, hmem⟩, rfl⟩)
      · rename_i hmem
        exact .inr (.inr ⟨fun h => hmem h.2.2, rfl, by simp [hnext]⟩)
  · rename_i s' hnext
    have hnot : ¬ Reduces ends s y := fun h => by simp [h.1] at hnext
    split
    · rename_i hs'
      obtain ⟨rfl, -⟩ := hs'
      split
      · rename_i j hj
        exact .inl ⟨hnext, j, hj, rfl⟩
      · rename_i hj
        exact .inr (.inr ⟨hnot, rfl, by simp [hj]⟩)
    · rename_i hs'
      refine .inr (.inr ⟨hnot, rfl, fun hterm _ h => hs' ⟨?_, hterm⟩⟩)
      simpa [hnext] using h

theorem cellOf_induction {P : List Item → Cell → Prop} (hnil : P [] default)
    (hadd : ∀ seen y rest c, items = seen ++ y :: rest → P seen c →
      P (seen ++ [y]) (c.add a ends q s y)) : P items (cellOf a ends q s items) := by
  have hfold : ∀ (rest seen : List Item) (c : Cell), items = seen ++ rest → P seen c →
      P items (rest.foldl (Cell.add a ends q s) c) := by
    intro rest
    induction rest with
    | nil =>
      intro seen c hitems h
      rw [hitems, append_nil]
      exact h
    | cons y rest ih =>
      intro seen c hitems h
      exact ih (seen ++ [y]) _ (by rw [hitems, append_assoc, singleton_append])
        (hadd seen y rest c hitems h)
  exact hfold items [] _ rfl hnil

/-- An entry of a kind that is kept, once one of the items asks for it. Before that, entries of
another kind may be there. -/
theorem cellOf_kept {A : Item → Prop} {R : Item → Item → Prop} {K O : Cell → Prop}
    (hpairs : items.Pairwise R)
    (hkept : ∀ y ∈ items, ∀ c, K c → R c.item y → c.add a ends q s y = c)
    (hother : ∀ y ∈ items, ∀ c, (c.action = none ∨ O c ∧ R c.item y) →
      (A y → K (c.add a ends q s y) ∧ (c.add a ends q s y).item = y) ∧
      (¬ A y → c.add a ends q s y = c ∨
        O (c.add a ends q s y) ∧ (c.add a ends q s y).item = y))
    (hi : item ∈ items) (hask : A item) : K (cellOf a ends q s items) := by
  have h : (K (cellOf a ends q s items) ∧ (cellOf a ends q s items).item ∈ items) ∨
      ((∀ i ∈ items, ¬ A i) ∧ ((cellOf a ends q s items).action = none ∨
        O (cellOf a ends q s items) ∧ (cellOf a ends q s items).item ∈ items)) := by
    refine cellOf_induction (P := fun seen c => (K c ∧ c.item ∈ seen) ∨
      ((∀ i ∈ seen, ¬ A i) ∧ (c.action = none ∨ O c ∧ c.item ∈ seen)))
      (.inr ⟨by simp, .inl rfl⟩) fun seen y rest c hitems h => ?_
    have hy : y ∈ items := by simp [hitems]
    rw [hitems] at hpairs
    have hR : ∀ x ∈ seen, R x y := fun x hx =>
      (pairwise_append.mp hpairs).2.2 x hx y mem_cons_self
    rcases h with ⟨hk, hmem⟩ | ⟨hseen, hc⟩
    · rw [hkept y hy c hk (hR _ hmem)]
      exact .inl ⟨hk, mem_append_left _ hmem⟩
    · obtain ⟨hyes, hno⟩ := hother y hy c (hc.imp_right fun h => ⟨h.1, hR _ h.2⟩)
      by_cases hasks : A y
      · exact .inl ⟨(hyes hasks).1, by simp [(hyes hasks).2]⟩
      · refine .inr ⟨by simpa [or_imp, forall_and] using ⟨hseen, hasks⟩, ?_⟩
        rcases hno hasks with hsame | ⟨hnew, hitem⟩
        · rw [hsame]
          exact hc.imp_right fun h => ⟨h.1, mem_append_left _ h.2⟩
        · exact .inr ⟨hnew, by simp [hitem]⟩
  rcases h with h | h
  · exact h.1
  · exact absurd hask (h.1 item hi)

/-- Of two items of a state, the first of which comes earlier, a shift of the terminal is kept. -/
def KeepsShift (g : Indexed) (ends : Item → Array Nat) (s : Nat) (x y : Item) : Prop :=
  (Reduces ends s x → y.next? = some s →
    shiftOver (g.prec.getD s {}) (g.rule x.rule).prec = .replace) ∧
  (x.next? = some s → Reduces ends s y →
    reduceOver (g.rule x.rule).prec (g.prec.getD s {}) = .keep)

/-- Of two items of a state, the first of which comes earlier, a reduction at the terminal is kept. -/
def KeepsReduce (g : Indexed) (s : Nat) (d x y : Item) : Prop :=
  (x = d → y.next? = some s → shiftOver (g.prec.getD s {}) (g.rule d.rule).prec = .keep) ∧
  (x.next? = some s → y = d → reduceOver (g.rule x.rule).prec (g.prec.getD s {}) = .replace)

theorem cellOf_shift (hs : s ≠ Indexed.endId) (hterm : a.grammar.terminal.getD s false = true)
    (hj : a.goto? q s = some j) (hkeeps : items.Pairwise (KeepsShift a.grammar ends s))
    (hi : item ∈ items) (hnext : item.next? = some s) :
    (cellOf a ends q s items).action = some (.shift j) := by
  refine (cellOf_kept (A := fun i => i.next? = some s)
    (K := fun c => c.action = some (.shift j) ∧ c.item.next? = some s)
    (O := fun c => ∃ r, c.action = some (.reduce r) ∧ Reduces ends s c.item) hkeeps ?_ ?_ hi
    hnext).1
  · rintro y - c ⟨hact, hitem⟩ hkeep
    rcases Cell.add_cases a ends q s c y (absurd · hs) with
      ⟨-, _, -, hadd⟩ | ⟨hred, hadd⟩ | ⟨-, hadd, -⟩
    · simp only [hadd, Cell.shift, Cell.onShift, hact, Cell.turn]
    · simp only [hadd, Cell.reduce, Cell.onReduce, hact, hkeep.2 hitem hred, Cell.turn]
    · exact hadd
  · intro y _ c hc
    rcases Cell.add_cases a ends q s c y (absurd · hs) with
      ⟨hy, j', hj', hadd⟩ | ⟨hred, hadd⟩ | ⟨-, hadd, hy⟩
    · obtain rfl := Option.some.inj (hj'.symm.trans hj)
      refine ⟨fun _ => ?_, fun h => absurd hy h⟩
      rcases hc with hact | ⟨⟨r, hact, hred⟩, hkeep⟩
      · simp only [hadd, Cell.shift, Cell.onShift, hact, Cell.turn]
        exact ⟨⟨trivial, hy⟩, trivial⟩
      · simp only [hadd, Cell.shift, Cell.onShift, hact, hkeep.1 hred hy, Cell.turn]
        exact ⟨⟨trivial, hy⟩, trivial⟩
    · refine ⟨fun h => by simp [hred.1] at h, fun _ => ?_⟩
      rcases hc with hact | ⟨⟨r, hact, -⟩, -⟩
      · simp only [hadd, Cell.reduce, Cell.onReduce, hact, Cell.turn]
        exact .inr ⟨⟨_, rfl, hred⟩, trivial⟩
      · simp only [hadd, Cell.reduce, Cell.onReduce, hact]
        split
        · exact .inr ⟨⟨_, rfl, hred⟩, rfl⟩
        · exact .inl rfl
    · exact ⟨fun h => absurd h (hy hterm (by simp [hj])), fun _ => .inl hadd⟩

theorem cellOf_reduce (hd : Reduces ends s d) (hmem : d ∈ items)
    (hstart : ∀ y ∈ items, y.next? = none → y.left ≠ Indexed.startId)
    (hunique : ∀ y ∈ items, Reduces ends s y → y = d)
    (hkeeps : items.Pairwise (KeepsReduce a.grammar s d)) :
    (cellOf a ends q s items).action = some (.reduce d.rule) := by
  have h : cellOf a ends q s items = ⟨some (.reduce d.rule), d⟩ := by
    refine cellOf_kept (A := (· = d)) (K := (· = ⟨some (.reduce d.rule), d⟩))
      (O := fun c => ∃ j, c.action = some (.shift j) ∧ c.item.next? = some s) hkeeps ?_ ?_ hmem
      rfl
    · rintro y hy c rfl hkeep
      rcases Cell.add_cases a ends q s ⟨some (.reduce d.rule), d⟩ y fun _ => hstart y hy with
        ⟨hnext, _, -, hadd⟩ | ⟨hred, hadd⟩ | ⟨-, hadd, -⟩
      · simp only [hadd, Cell.shift, Cell.onShift, hkeep.1 rfl hnext, Cell.turn]
      · obtain rfl := hunique y hy hred
        simp [hadd, Cell.reduce, Cell.onReduce, Cell.turn]
      · exact hadd
    · intro y hy c hc
      rcases Cell.add_cases a ends q s c y fun _ => hstart y hy with
        ⟨hnext, j, -, hadd⟩ | ⟨hred, hadd⟩ | ⟨hnot, hadd, -⟩
      · refine ⟨?_, fun _ => ?_⟩
        · rintro rfl
          simp [hd.1] at hnext
        rcases hc with hact | ⟨⟨j', hact, -⟩, -⟩
        · simp only [hadd, Cell.shift, Cell.onShift, hact, Cell.turn]
          exact .inr ⟨⟨j, rfl, hnext⟩, trivial⟩
        · simp only [hadd, Cell.shift, Cell.onShift, hact, Cell.turn]
          exact .inl trivial
      · obtain rfl := hunique y hy hred
        refine ⟨fun _ => ?_, fun h => absurd rfl h⟩
        rcases hc with hact | ⟨⟨j, hact, hin⟩, hkeep⟩
        · simp only [hadd, Cell.reduce, Cell.onReduce, hact, Cell.turn]
          trivial
        · simp only [hadd, Cell.reduce, Cell.onReduce, hact, hkeep.2 hin rfl, Cell.turn]
          trivial
      · refine ⟨?_, fun _ => .inl hadd⟩
        rintro rfl
        exact absurd hd hnot
  rw [h]

theorem cellOf_accept (hs : a.grammar.terminal.getD Indexed.endId false = false)
    (hstart : ∀ d ∈ items, d.next? = none → d.left = Indexed.startId)
    (hi : item ∈ items) (hnext : item.next? = none) :
    (cellOf a ends q Indexed.endId items).action = some .accept := by
  have h : (∃ d ∈ items, d.next? = none) →
      (cellOf a ends q Indexed.endId items).action = some .accept := by
    refine cellOf_induction (P := fun seen c =>
      (∃ d ∈ seen, d.next? = none) → c.action = some .accept) (by simp) fun seen y rest c hitems h => ?_
    rintro ⟨d, hd, hdone⟩
    rw [Cell.add]
    split
    · rename_i hy
      rw [if_pos (hstart y (by simp [hitems]) hy), if_pos rfl]
    · rename_i s' hy
      rw [if_neg (by simp [hs])]
      rcases mem_append.mp hd with hd | hd
      · exact h ⟨d, hd, hdone⟩
      · rw [mem_singleton.mp hd, hy] at hdone
        cases hdone
  exact h ⟨item, hi, hnext⟩

end

/-! ## Reading the tables -/

section

variable {g : Indexed} {rules : Array Rule} {t : Tables} {x : Action}

theorem Of.action?_eq (h : Of g rules a t) (hq : q < a.states.size) (hs : s < a.grammar.names.size)
    (hx : (cellOf a (endsOf a q) q s (a.stateItems q)).action = some x) (hne : x ≠ .refuse) :
    t.action? q s = some x := by
  rw [action?, (h.row q hq).entry s hs, hx]
  cases x with
  | refuse => exact absurd rfl hne
  | _ => rfl

theorem Of.goto?_eq (h : Of g rules a t) (q s : Nat) : t.goto? q s = a.goto? q s := by
  cases hnext : (a.next.getD q #[]).getD s 0 <;>
    simp only [Tables.goto?, Automaton.goto?, h.next, hnext]

end

end RtlFlow.Grammar.Tables
