import Mathlib
import RtlFlow.Proofs.Ast
import RtlFlow.Proofs.Verilog.Lexemes
import RtlFlow.Proofs.Verilog.Tables

/-!
# Reading Verilog by productions

Reading is counted up to places: the value of a symbol is a tree, and what is known of it is the tree
without places. All that is read here is read with expressions as the start of the grammar.
-/

namespace RtlFlow.Verilog

open Grammar

attribute [local irreducible] tablesFrom grammarFrom productions

variable {I : List Item} {t : Tables} {es : List (Nat × Ast)} {ws : Workspace} {k : Nat}
    {p : Production} {s : Sym}

/-! ## Values -/

/-- A production makes a tree of the values of its symbols, up to places, and reads nothing. -/
def Production.Makes (p : Production) (vs : List Ast) (e : Ast) : Prop :=
  ∀ (parts : List Ast) (lines : Array Int) (ws : Workspace), parts.map Ast.unplaced = vs →
    ∃ v ws', p.action ⟨parts.toArray, lines⟩ ws = .ok v ws' ∧ ws'.lexer = ws.lexer ∧
      v.unplaced = e

def Shows (x : Grammar.Symbol Ast) (e : Ast) : Prop := ∃ v, x.value = some v ∧ v.unplaced = e

theorem values_of_shows {right : List (Grammar.Symbol Ast)}
    (h : List.Forall₂ (Machine.Is Shows) es right) :
    (right.map fun x => x.value.getD .absent).map Ast.unplaced = es.map Prod.snd := by
  induction h with
  | nil => rfl
  | @cons b x es right hx _ ih =>
    obtain ⟨-, v, hv, he⟩ := hx
    simp [hv, he, ih]

theorem fetch_of_nextToken {token : Option Token} {lexer : Lexer}
    (h : ws.lexer.nextToken = .ok (token, lexer)) :
    fetch t ws = .ok (token.map (symbolOf t)) { ws with lexer } := by
  simp [fetch, bind, EStateM.bind, get, getThe, MonadStateOf.get, EStateM.get, h, set,
    MonadStateOf.set, EStateM.set, pure, EStateM.pure]

theorem nextToken_of_fetch {ws' : Workspace} {o : Option (Grammar.Symbol Ast)}
    (h : fetch t ws = .ok o ws') : ∃ token lexer, ws.lexer.nextToken = .ok (token, lexer) ∧
      o = token.map (symbolOf t) ∧ ws' = { ws with lexer } := by
  cases hnext : ws.lexer.nextToken with
  | error e =>
    simp [fetch, bind, EStateM.bind, get, getThe, MonadStateOf.get, EStateM.get, hnext, throw,
      throwThe, MonadExceptOf.throw, EStateM.throw] at h
  | ok r =>
    rw [fetch_of_nextToken hnext] at h
    obtain ⟨rfl, rfl⟩ := EStateM.Result.ok.inj h
    exact ⟨r.1, r.2, rfl, rfl, rfl⟩

theorem ahead_of_nextToken :
    ∀ {ts : List (Grammar.Symbol Ast)} {ws ws' : Workspace}, (machineOf t).Ahead ts ws →
      ws'.lexer.nextToken = ws.lexer.nextToken → (machineOf t).Ahead ts ws'
  | [], _, _, _, _ => trivial
  | x :: ts, ws, ws', ⟨o, s, hfetch, ho, hs⟩, hlexer => by
    obtain ⟨token, lexer, hnext, rfl, rfl⟩ := nextToken_of_fetch hfetch
    exact ⟨_, _, fetch_of_nextToken (hlexer.trans hnext), ho, ahead_of_nextToken hs rfl⟩

theorem getD_actions (hp : productions[k]? = some p) :
    actions.getD (k + 1) (pass .empty []) = p := by
  simp [actions, hp]

abbrev exprMachine : Grammar.Machine Workspace Ast := machineOf (tablesFrom .expression)

theorem Production.Makes.machine (hp : productions[k]? = some p) {e : Ast}
    (hmakes : p.Makes (es.map Prod.snd) e) : exprMachine.Makes Shows (k + 1) es e := by
  intro right frames ts ws hright hahead
  have hnumber : (exprMachine.reductionOf (k + 1) right frames).rule.number = k + 1 := by
    rw [Machine.reductionOf, tables_machineOf, (tablesFrom_of endsAlone_expression).rules]
    exact (getD_rulesFrom hp).1
  set lines := (right.map Symbol.lineOrZero).toArray with hlines
  set values := right.map fun x => x.value.getD .absent with hvalues
  obtain ⟨v, ws', hact, hlexer, hv⟩ := hmakes values lines ws (values_of_shows hright)
  refine ⟨v, p.lineFrom.map (Parts.line ⟨values.toArray, lines⟩), ws', ?_,
    ahead_of_nextToken hahead (by rw [hlexer]), v, rfl, hv⟩
  change reduce _ ws = _
  rw [reduce, hnumber, getD_actions hp]
  simp only [bind, EStateM.bind, Machine.reductionOf, ← hvalues, ← hlines, hact]
  rfl

/-! ## Words -/

def word (w : Wording) : List (Nat × Ast) := w.map fun x => (x.1.id, .text x.2)

/-- The number of the first of some tokens, in front of `t`. -/
def firstOf (w : Wording) (t : Nat) : Nat :=
  match w with
  | [] => t
  | x :: _ => x.1.id

def numbered (es : List (Sym × Ast)) : List (Nat × Ast) := es.map fun x => (x.1.id, x.2)

theorem first_word (w : Wording) (t : Nat) :
    Machine.first (word w) t = firstOf w t := by
  cases w <;> rfl

theorem word_append (w w' : Wording) : word (w ++ w') = word w ++ word w' :=
  List.map_append

theorem map_fst_numbered (es : List (Sym × Ast)) :
    (numbered es).map Prod.fst = (es.map Prod.fst).map Sym.id := by
  simp [numbered]

theorem map_snd_numbered (es : List (Sym × Ast)) :
    (numbered es).map Prod.snd = es.map Prod.snd := by
  simp [numbered]

/-- From a state on, tokens in front of `t` are read as a symbol with a value, in at most `n`
steps. -/
def Reads (p : Nat) (s : Sym) (e : Ast) (w : Wording) (t n : Nat) : Prop :=
  exprMachine.Reads Shows p s.id e (word w) t n

theorem Reads.mono {p n n' : Nat} {e : Ast} {w : Wording} {t : Nat}
    (h : Reads p s e w t n) (hn : n ≤ n') : Reads p s e w t n' := by
  intro ts x rest frames r st hw hx htop hat
  obtain ⟨k, hk, hread⟩ := h ts x rest frames r st hw hx htop hat
  exact ⟨k, hk.trans hn, hread⟩

/-- From a state on, tokens in front of `t` are read as symbols with values, up to a state with the
items `J`, in at most `n` steps. -/
def ReadsTo (p : Nat) (es : List (Sym × Ast)) (w : Wording) (t : Nat) (J : List Item)
    (n : Nat) : Prop :=
  exprMachine.ReadsTo Shows exprAutomaton p (numbered es) (word w) t J n

def along (I : List Item) (γ : List Sym) : List Item := γ.foldl itemsAfter I

theorem foldl_after (I : List Item) (γ : List Sym) :
    (γ.map Sym.id).foldl (Automaton.after exprGrammar) I = along I γ := by
  rw [along, List.foldl_map]
  congr 1
  exact funext fun I => funext fun s => after_grammarFrom I s

/-! ## Entries -/

def rulePrec (r : Nat) : Precedence :=
  match r with
  | 0 => {}
  | k + 1 => (productions[k]?.map Production.prec).getD {}

theorem prec_rule {start : Sym} (r : Nat) : ((grammarFrom start).rule r).prec = rulePrec r := by
  cases r with
  | zero => rw [rule_zero, rulePrec]
  | succ k =>
    cases hp : productions[k]? with
    | some p => simp [rule_succ hp, rulePrec, hp, Production.indexed]
    | none =>
      rw [grammarFrom_eq, Indexed.rule_assemble]
      simp [indexedRules, rulePrec, hp]
      rfl

/-- Whether a terminal is shifted: it comes next in an item, it wins against all complete items, and
these come before it or lose against its items. -/
def shifts (I : List Item) (s : Sym) : Bool :=
  (I.any fun i => i.next? == some s.id) &&
    (I.all fun d => !d.isComplete || Tables.shiftOver s.prec (rulePrec d.rule) = .replace) &&
    ((I.dropWhile fun i => i.next? != some s.id).all (!·.isComplete) ||
      (I.all fun i => i.next? != some s.id ||
        Tables.reduceOver (rulePrec i.rule) s.prec = .keep))

theorem exists_next_of_shifts (h : shifts I s = true) : ∃ i ∈ I, i.next? = some s.id := by
  simp only [shifts, Bool.and_eq_true] at h
  simpa using h.1.1

theorem isComplete_iff {i : Item} : i.isComplete = true ↔ i.next? = none := by
  simp [Item.isComplete, Item.next?]

/-- What holds of all elements from the first one on that is `P` holds of all that come after an
element that is `P`. -/
theorem pairwise_of_dropWhile {α : Type} {P Q : α → Bool} : ∀ {l : List α},
    (l.dropWhile P).all Q = true → l.Pairwise fun x y => P x = false → Q y = true
  | [], _ => .nil
  | a :: l, h => by
    cases hP : P a with
    | false =>
      rw [List.dropWhile_cons_of_neg (by simp [hP]), List.all_cons, Bool.and_eq_true,
        List.all_eq_true] at h
      exact List.pairwise_of_forall_mem_list fun x _ y hy _ =>
        (List.mem_cons.mp hy).elim (fun hy => hy ▸ h.1) (h.2 y)
    | true =>
      rw [List.dropWhile_cons_of_pos hP] at h
      refine List.pairwise_cons.mpr ⟨fun y _ ha => ?_, pairwise_of_dropWhile h⟩
      rw [hP] at ha
      cases ha

theorem shiftsAt_of_shifts (hs : s.isTerminal = true) (h : shifts I s = true) :
    ShiftsAt exprGrammar I s.id := by
  simp only [shifts, Bool.and_eq_true] at h
  obtain ⟨⟨hnext, hwins⟩, horder⟩ := h
  refine ⟨by simpa using hnext, ?_⟩
  have hfront : I.Pairwise fun x y => x.next? = none → y.next? = some s.id →
      Tables.shiftOver s.prec (rulePrec x.rule) = .replace := by
    refine List.pairwise_of_forall_mem_list fun x hx y _ hdone _ => ?_
    have := List.all_eq_true.mp hwins x hx
    simpa [isComplete_iff.mpr hdone] using this
  have hback : I.Pairwise fun x y => x.next? = some s.id → y.next? = none →
      Tables.reduceOver (rulePrec x.rule) s.prec = .keep := by
    rcases Bool.or_eq_true_iff.mp horder with h | h
    · refine (pairwise_of_dropWhile h).imp fun hxy hx hy => ?_
      have := hxy (by simp [hx])
      simp [isComplete_iff.mpr hy] at this
    · refine List.pairwise_of_forall_mem_list fun x hx y _ hnext _ => ?_
      have := List.all_eq_true.mp h x hx
      simpa [hnext] using this
  refine hfront.imp₂ (fun x y h h' => ?_) hback
  rw [prec_id hs, prec_rule]
  exact ⟨h, h'⟩

/-- Whether the only complete item is reduced at `t`, which comes next in no item. -/
def settles (I : List Item) (t : Nat) : Bool :=
  ((I.filter (·.isComplete)).length == 1) &&
    (I.all fun i => (!i.isComplete || i.left != Indexed.startId) && i.next? != some t)

/-- Whether the first item is the only complete one and is reduced at `t`, against which it wins. -/
def settlesOver (I : List Item) (t : Sym) : Bool :=
  match I with
  | [] => false
  | d :: I => d.isComplete && I.all (!·.isComplete) && d.left != Indexed.startId &&
      Tables.shiftOver t.prec (rulePrec d.rule) = .keep

theorem eq_of_length_filter (h : (I.filter (·.isComplete)).length = 1) :
    ∀ d ∈ I, d.next? = none → ∀ d' ∈ I, d'.next? = none → d' = d := by
  intro d hd hdone d' hd' hdone'
  obtain ⟨x, hx⟩ := List.length_eq_one_iff.mp h
  have hmem : ∀ d ∈ I, d.next? = none → d = x := fun d hd hdone => by
    have : d ∈ I.filter (·.isComplete) := List.mem_filter.mpr ⟨hd, isComplete_iff.mpr hdone⟩
    rw [hx] at this
    exact List.mem_singleton.mp this
  rw [hmem d hd hdone, hmem d' hd' hdone']

theorem settled_of_settles {t : Nat} (h : settles I t = true) : Settled exprGrammar I t := by
  simp only [settles, Bool.and_eq_true, List.all_eq_true] at h
  obtain ⟨hlen, hall⟩ := h
  have hne : ∀ i ∈ I, i.next? ≠ some t := fun i hi => by simpa using (hall i hi).2
  refine ⟨fun d hd hdone => ?_, eq_of_length_filter (by simpa using hlen), fun d _ _ => ?_⟩
  · simpa [isComplete_iff.mpr hdone] using (hall d hd).1
  · exact List.pairwise_of_forall_mem_list fun x hx y hy =>
      ⟨fun _ hnext => absurd hnext (hne y hy), fun hnext => absurd hnext (hne x hx)⟩

theorem settled_of_settlesOver {t : Sym} (ht : t.isTerminal = true) (h : settlesOver I t = true) :
    Settled exprGrammar I t.id := by
  cases I with
  | nil => cases h
  | cons d I =>
    simp only [settlesOver, Bool.and_eq_true, List.all_eq_true] at h
    obtain ⟨⟨⟨hdone, hothers⟩, hleft⟩, hwins⟩ := h
    have honly : ∀ x ∈ d :: I, x.next? = none → x = d := fun x hx hxdone => by
      refine (List.mem_cons.mp hx).resolve_right fun hx => ?_
      have := hothers x hx
      simp [isComplete_iff.mpr hxdone] at this
    refine ⟨fun x hx hxdone => ?_, fun x hx hxdone y hy hydone => ?_, fun x hx hxdone => ?_⟩
    · rw [honly x hx hxdone]
      simpa using hleft
    · rw [honly x hx hxdone, honly y hy hydone]
    · obtain rfl := honly x hx hxdone
      refine List.pairwise_cons.mpr ⟨fun y _ => ⟨fun _ _ => ?_, fun hnext => ?_⟩, ?_⟩
      · rw [prec_id ht, prec_rule]
        simpa using hwins
      · rw [hxdone] at hnext
        cases hnext
      · have hnot : ∀ y ∈ I, y ≠ x := fun y hy hyx => by
          have := hothers y hy
          simp [hyx, hdone] at this
        exact List.pairwise_of_forall_mem_list fun y hy z hz =>
          ⟨fun hyx => absurd hyx (hnot y hy), fun _ hzx => absurd hzx (hnot z hz)⟩

/-! ## Inside of a production -/

theorem along_along (I : List Item) (γ δ : List Sym) : along (along I γ) δ = along I (γ ++ δ) := by
  simp [along]

theorem along_append (I : List Item) (γ : List Sym) (s : Sym) :
    along I (γ ++ [s]) = itemsAfter (along I γ) s := by
  simp [along]

/-- In state `p`, with the items `I`, the symbol `s` can come in front of `t`. -/
structure Stands (p : Nat) (I : List Item) (s : Sym) (t : Nat) : Prop where
  has : exprAutomaton.Has p I
  next : ∃ i ∈ I, i.next? = some s.id
  canFollow : exprAutomaton.CanFollow p s.id t
  lt : t < 256

/-- State `p'` is inside of a production that begins in state `p` with items `I` and stands in front
of `t`: the symbols `γ` have been read and the symbols `δ` are to come. -/
structure Inside (p : Nat) (I : List Item) (t : Nat) (pr : Production) (p' : Nat)
    (γ δ : List Sym) : Prop where
  mem : pr ∈ productions
  right_eq : pr.right = γ ++ δ
  stands : Stands p I pr.left t
  path : exprAutomaton.path? p (γ.map Sym.id) = some p'

section

variable {p p' q t n n' : Nat} {s : Sym} {I J : List Item} {e : Ast} {x : String}
  {es : List (Sym × Ast)} {w w' : Wording} {pr : Production} {γ δ : List Sym}
variable {k : Nat}

theorem Stands.begin (h : Stands p I pr.left t) (hpr : pr ∈ productions) :
    Inside p I t pr p [] pr.right := ⟨hpr, rfl, h, rfl⟩

theorem Stands.startItem_mem (h : Stands p I pr.left t) (hpr : productions[k]? = some pr) :
    exprGrammar.startItem (k + 1) ∈ I := by
  obtain ⟨⟨K, -, rfl⟩, ⟨i, hi, hnext⟩, -⟩ := h
  rw [grammar_automatonFrom] at hi ⊢
  refine Automaton.mem_closure_of_next (wellFormed_grammarFrom _) hi hnext
    ((wellFormed_grammarFrom _).mem_startItems.mpr ⟨k + 1, by omega, ?_, ?_, rfl⟩)
  · rw [size_rules]
    have := (List.getElem?_eq_some_iff.mp hpr).1
    omega
  · rw [rule_succ hpr]
    rfl

theorem mem_along (hpr : productions[k]? = some pr) (hright : pr.right = γ ++ δ)
    (h : exprGrammar.startItem (k + 1) ∈ I) :
    ⟨k + 1, pr.left.id, (γ.map Sym.id).reverse, δ.map Sym.id⟩ ∈ along I γ := by
  have hrest : (exprGrammar.startItem (k + 1)).rest = γ.map Sym.id ++ δ.map Sym.id := by
    rw [Indexed.startItem, rule_succ hpr]
    simp [Production.indexed, hright]
  have hafter := Automaton.mem_foldl_after (g := exprGrammar) h hrest
  rw [foldl_after, Indexed.startItem, rule_succ hpr] at hafter
  simpa [Production.indexed] using hafter

theorem complete_grammar : Automaton.Complete exprAutomaton.grammar exprAutomaton := by
  rw [grammar_automatonFrom]
  exact complete_automatonFrom _

/-! ## The first state -/

theorem has_first : exprAutomaton.Has 0 (firstItems .expression) := by
  have h := Automaton.has_start complete_grammar
  rwa [grammar_automatonFrom, closure_start] at h

theorem first_mem :
    (⟨0, Indexed.startId, [], [Sym.expression.id]⟩ : Item) ∈ firstItems .expression := by
  rw [← closure_start, startItem_zero]
  exact Automaton.mem_closure_of_mem (List.mem_singleton_self _)

theorem stands_first : Stands 0 (firstItems .expression) .expression Indexed.endId := by
  have hstate := has_first.stateItems complete_grammar
  obtain ⟨x, hx⟩ := Automaton.exists_find? (has_first.lt complete_grammar) (hstate ▸ first_mem)
    rfl (by rw [grammar_automatonFrom, nonterminal_id]; rfl)
    (by rw [grammar_automatonFrom, size_names]; exact id_lt .expression)
  refine ⟨has_first, ⟨_, first_mem, rfl⟩, (Automaton.CanRead.atEnd hx ?_).canFollow, by decide⟩
  rw [grammar_automatonFrom, rule_zero]
  rfl

theorem exists_accept : ∃ q, (tablesFrom .expression).goto? 0 Sym.expression.id = some q ∧
    (tablesFrom .expression).action? q Indexed.endId = some .accept := by
  obtain ⟨q, hq⟩ := has_first.exists_goto? complete_grammar first_mem rfl
  have hhas := has_first.of_goto? complete_grammar hq
  rw [grammar_automatonFrom, after_grammarFrom] at hhas
  have hdone : (⟨0, Indexed.startId, [Sym.expression.id], []⟩ : Item) ∈
      itemsAfter (firstItems .expression) .expression := by
    have h := Automaton.mem_foldl_after (g := exprGrammar) (γ := [Sym.expression.id]) first_mem rfl
    rwa [List.foldl_cons, List.foldl_nil, after_grammarFrom] at h
  refine ⟨q, (driven_expression.goto?_eq 0 _).trans hq,
    driven_expression.accept hhas ?_ ?_ ?_ hdone rfl⟩
  · rw [grammar_automatonFrom]
    exact terminal_endId
  · rw [grammar_automatonFrom, size_names]
    decide
  · exact fun d hd hnone => endsAlone_expression d hd (isComplete_iff.mpr hnone)

theorem path?_append {a : Automaton} : ∀ {γ : List Nat} {p p' q s : Nat},
    a.path? p γ = some p' → a.goto? p' s = some q → a.path? p (γ ++ [s]) = some q
  | [], p, p', q, s, hp, hq => by
    obtain rfl := Option.some.inj hp
    simp [Automaton.path?, hq]
  | x :: γ, p, p', q, s, hp, hq => by
    obtain ⟨r, hr, hp⟩ := Option.bind_eq_some_iff.mp hp
    exact Option.bind_eq_some_iff.mpr ⟨r, hr, path?_append hp hq⟩

namespace Inside

theorem here (h : Inside p I t pr p' γ δ) : exprAutomaton.Has p' (along I γ) := by
  have := h.stands.has.of_path? complete_grammar h.path
  rwa [grammar_automatonFrom, foldl_after] at this

theorem next_mem (h : Inside p I t pr p' γ (s :: δ)) : ∃ i ∈ along I γ, i.next? = some s.id := by
  obtain ⟨k, hk⟩ := List.getElem?_of_mem h.mem
  exact ⟨_, mem_along hk h.right_eq (h.stands.startItem_mem hk), rfl⟩

theorem step (h : Inside p I t pr p' γ (s :: δ)) (hq : exprAutomaton.goto? p' s.id = some q) :
    Inside p I t pr q (γ ++ [s]) δ := by
  refine ⟨h.mem, by simp [h.right_eq], h.stands, ?_⟩
  rw [List.map_append]
  exact path?_append h.path hq

/-- The next symbol stands in front of a terminal that can come behind it. -/
theorem stands_before {u : Sym} (h : Inside p I t pr p' γ (s :: δ)) (hs : s.isTerminal = false)
    (hu : u.isTerminal = true) (hnext : ∃ j ∈ along I (γ ++ [s]), j.next? = some u.id) :
    Stands p' (along I γ) s u.id := by
  refine ⟨h.here, h.next_mem, ?_, id_lt u⟩
  obtain ⟨i, hi, hi'⟩ := h.next_mem
  obtain ⟨j, hj, hj'⟩ := hnext
  rw [along_append] at hj
  refine (h.here.canRead complete_grammar hi hi' ?_ ?_ (j := j) ?_ hj' ?_).canFollow
  · rw [grammar_automatonFrom, nonterminal_id, hs]
    rfl
  · rw [grammar_automatonFrom, size_names]
    exact id_lt s
  · rwa [grammar_automatonFrom, after_grammarFrom]
  · rw [grammar_automatonFrom, terminal_id, hu]

theorem stands_next {u : Sym} (h : Inside p I t pr p' γ (s :: u :: δ))
    (hs : s.isTerminal = false) (hu : u.isTerminal = true) : Stands p' (along I γ) s u.id := by
  obtain ⟨i, hi, hnext⟩ := h.next_mem
  obtain ⟨q, hq⟩ := h.here.exists_goto? complete_grammar hi hnext
  exact h.stands_before hs hu (h.step hq).next_mem

theorem stands_last (h : Inside p I t pr p' γ [s]) (hs : s.isTerminal = false) :
    Stands p' (along I γ) s t := by
  obtain ⟨k, hk⟩ := List.getElem?_of_mem h.mem
  refine ⟨h.here, h.next_mem, h.stands.has.canFollow_last complete_grammar h.stands.canFollow
    (h.stands.startItem_mem hk) ?_ (γ := γ.map Sym.id) ?_ h.path ?_ ?_, h.stands.lt⟩
  · rw [Indexed.startItem, rule_succ hk]
    rfl
  · rw [Indexed.startItem, rule_succ hk]
    simp [Production.indexed, h.right_eq]
  · rw [grammar_automatonFrom, nonterminal_id, hs]
    rfl
  · rw [grammar_automatonFrom, size_names]
    exact id_lt s

theorem done (h : Inside p I t pr p' γ []) : ReadsTo p' [] [] t (along I pr.right) 0 := by
  have hright : pr.right = γ := by simpa using h.right_eq
  rw [hright]
  exact Machine.ReadsTo.nil h.here

theorem part (h : Inside p I t pr p' γ (s :: δ)) (hread : Reads p' s e w (firstOf w' t) n)
    (hrest : ∀ q, Inside p I t pr q (γ ++ [s]) δ → ReadsTo q es w' t J n') :
    ReadsTo p' ((s, e) :: es) (w ++ w') t J (n + n') := by
  rw [ReadsTo, word_append]
  exact driven_expression.part h.here h.next_mem (by rw [first_word]; exact hread) fun q hq _ =>
    hrest q (h.step hq)

theorem last (h : Inside p I t pr p' γ [s]) (hread : Reads p' s e w t n) :
    ReadsTo p' [(s, e)] w t (along I pr.right) n := by
  have hall : ReadsTo p' [(s, e)] (w ++ []) t (along I pr.right) (n + 0) :=
    h.part hread fun q hq => hq.done
  rwa [List.append_nil] at hall

theorem token (h : Inside p I t pr p' γ (s :: δ)) (hterm : s.isTerminal = true)
    (hshifts : shifts (along I γ) s = true)
    (hrest : ∀ q, Inside p I t pr q (γ ++ [s]) δ → ReadsTo q es w t J n) :
    ReadsTo p' ((s, .text x) :: es) ((s, x) :: w) t J (1 + n) := by
  refine driven_expression.token h.here ?_ s.id_ne_endId ?_ ?_ fun q hq _ => hrest q (h.step hq)
  · rw [grammar_automatonFrom]
    exact shiftsAt_of_shifts hterm hshifts
  · rw [grammar_automatonFrom, terminal_id, hterm]
  · rw [grammar_automatonFrom, size_names]
    exact id_lt s

/-- The left side of a production is read by reading its parts, if its item is the one to reduce. -/
theorem reads (h : Inside p I t pr p [] pr.right) (hall : ReadsTo p es w t J n)
    (hsettled : Settled exprGrammar (along I pr.right) t) (hes : es.map Prod.fst = pr.right)
    (hmakes : pr.Makes (es.map Prod.snd) e) (hn : n + 1 ≤ n' := by grind) :
    Reads p pr.left e w t n' := by
  obtain ⟨k, hk⟩ := List.getElem?_of_mem h.mem
  obtain ⟨q, hall, -⟩ := hall
  have hrule : exprGrammar.rule (k + 1) = pr.indexed (k + 1) := rule_succ hk
  have hsize : k + 1 < exprGrammar.rules.size := by
    have := (List.getElem?_eq_some_iff.mp hk).1
    rw [size_rules]
    omega
  have hright : (numbered es).map Prod.fst = (pr.indexed (k + 1)).right := by
    rw [map_fst_numbered, hes]
    rfl
  have hread := driven_expression.rule (r := k + 1) (e := e) h.stands.has
    (by rw [grammar_automatonFrom]; exact hsize)
    (by rw [grammar_automatonFrom]; exact h.stands.startItem_mem hk)
    (by rw [grammar_automatonFrom, hrule]; exact h.stands.next)
    (by rw [grammar_automatonFrom, hrule]; exact h.stands.canFollow)
    (by rw [grammar_automatonFrom, size_names]; exact h.stands.lt)
    (by rw [grammar_automatonFrom, hrule, hright])
    (by rw [grammar_automatonFrom, map_fst_numbered, hes, foldl_after]; exact hsettled)
    (Production.Makes.machine hk (by rw [map_snd_numbered]; exact hmakes)) hall
  rw [grammar_automatonFrom, hrule] at hread
  exact Reads.mono hread hn

end Inside

end

end RtlFlow.Verilog
