import Mathlib
import RtlFlow.Proofs.Grammar.Reading
import RtlFlow.Proofs.Verilog.Grammar

/-!
# The tables of the Verilog grammar

The tables from a start symbol on are those of the automaton of the grammar. For this no state may
have the start rule and another rule complete, which `EndsAlone` says of the only state where the
start rule is complete.
-/

namespace RtlFlow.Verilog

open Grammar

variable {start : Sym}

abbrev automatonFrom (start : Sym) : Automaton := Automaton.ofIndexed (grammarFrom start)

theorem complete_automatonFrom (start : Sym) :
    Automaton.Complete (grammarFrom start) (automatonFrom start) :=
  Automaton.complete_ofIndexed (wellFormed_grammarFrom start)

@[simp] theorem grammar_automatonFrom (start : Sym) :
    (automatonFrom start).grammar = grammarFrom start :=
  (complete_automatonFrom start).grammar_eq

def itemsAfter (I : List Item) (s : Sym) : List Item := closureOf (successors s.id I)

theorem after_grammarFrom (I : List Item) (s : Sym) :
    Automaton.after (grammarFrom start) I s.id = itemsAfter I s := closure_grammarFrom _

def firstItems (start : Sym) : List Item := closureOf [⟨0, Indexed.startId, [], [start.id]⟩]

theorem startItem_zero :
    (grammarFrom start).startItem 0 = ⟨0, Indexed.startId, [], [start.id]⟩ := by
  rw [Indexed.startItem, rule_zero]

theorem closure_start :
    Automaton.closure (grammarFrom start) [(grammarFrom start).startItem 0] = firstItems start := by
  rw [closure_grammarFrom, startItem_zero, firstItems]

/-- Behind the start symbol only the start rule is complete. -/
def EndsAlone (start : Sym) : Prop :=
  ∀ d ∈ itemsAfter (firstItems start) start, d.isComplete = true → d.left = Indexed.startId

instance : Decidable (EndsAlone start) := inferInstanceAs (Decidable (∀ d ∈ _, _))

theorem eq_zero_of_left {n : Nat} (hn : n < (grammarFrom start).rules.size)
    (hleft : ((grammarFrom start).rule n).left = Indexed.startId) : n = 0 := by
  cases n with
  | zero => rfl
  | succ k =>
    rw [size_rules] at hn
    rw [rule_succ (List.getElem?_eq_getElem (by omega))] at hleft
    exact absurd hleft (Sym.id_ne_startId _)

theorem safe_automatonFrom (h : EndsAlone start) (q : Nat) :
    Tables.Safe ((automatonFrom start).stateItems q) := by
  refine Automaton.safe_of_start (wellFormed_grammarFrom start) (complete_automatonFrom start)
    (s := start.id) (by rw [rule_zero]) (fun _ => eq_zero_of_left) (fun d hd hdone => ?_) q
  rw [closure_start, after_grammarFrom] at hd
  exact h d hd (by simpa [Item.isComplete, Item.next?] using hdone)

theorem terminal_endId : (grammarFrom start).terminal.getD Indexed.endId false = false := by
  have hlt : Indexed.endId < (Indexed.number symbolNames).1.size := by
    rw [size_number]
    decide
  rw [grammarFrom_eq, Indexed.terminal_assemble hlt, Bool.eq_false_iff]
  intro hc
  obtain ⟨s, -, hs⟩ := List.mem_map.mp (List.contains_iff_mem.mp hc)
  exact Sym.id_ne_endId s hs

theorem tablesFrom_eq {t : Tables}
    (h : Tables.ofIndexed (grammarFrom start) (rulesFrom start).toArray .lalr false = .ok t) :
    tablesFrom start = t := by
  unfold tablesFrom
  rw [h]

theorem tablesFrom_of (h : EndsAlone start) :
    Tables.Of (grammarFrom start) (rulesFrom start).toArray (automatonFrom start)
      (tablesFrom start) := by
  obtain ⟨t, ht, hof⟩ := Tables.ofIndexed_spec (grammarFrom start) (rulesFrom start).toArray
    (grammar_automatonFrom start) (safe_automatonFrom h) terminal_endId
  rw [tablesFrom_eq ht]
  exact hof

theorem getD_rulesFrom {k : Nat} {p : Production} (hp : productions[k]? = some p) :
    ((rulesFrom start).toArray.getD (k + 1) default).number = k + 1 ∧
      ((rulesFrom start).toArray.getD (k + 1) default).symbols = p.right.map Sym.name := by
  simp [rulesFrom, hp]

theorem getD_zero_toArray {α : Type} {a d : α} {l : List α} : (a :: l).toArray.getD 0 d = a := by
  simp

theorem tables_machineOf (t : Tables) : (machineOf t).tables = t := rfl

theorem driven (h : EndsAlone start) :
    (machineOf (tablesFrom start)).Driven (rulesFrom start).toArray (automatonFrom start) where
  wellFormed := by
    rw [grammar_automatonFrom]
    exact wellFormed_grammarFrom start
  complete := by
    rw [grammar_automatonFrom]
    exact complete_automatonFrom start
  tables := by
    rw [grammar_automatonFrom, tables_machineOf]
    exact tablesFrom_of h
  plain := ⟨rfl, rfl⟩
  length_eq := by
    intro n hn
    rw [grammar_automatonFrom] at hn ⊢
    rw [tables_machineOf, (tablesFrom_of h).rules]
    cases n with
    | zero =>
      rw [rule_zero, rulesFrom, getD_zero_toArray]
      rfl
    | succ k =>
      rw [size_rules] at hn
      have hp := List.getElem?_eq_getElem (l := productions) (i := k) (by omega)
      rw [rule_succ hp, (getD_rulesFrom hp).2]
      simp [Production.indexed]

/-! ## Expressions as the start -/

abbrev exprGrammar : Indexed := grammarFrom .expression

abbrev exprAutomaton : Automaton := automatonFrom .expression

theorem endsAlone_expression : EndsAlone .expression := by decide +kernel

theorem driven_expression : (machineOf (tablesFrom .expression)).Driven
    (rulesFrom .expression).toArray exprAutomaton := driven endsAlone_expression

theorem symbolId_name (s : Sym) : (tablesFrom .expression).symbolId s.name = s.id := by
  rw [Tables.symbolId, (tablesFrom_of endsAlone_expression).ids,
    Std.HashMap.getD_eq_getD_getElem?, ids_name]
  rfl

end RtlFlow.Verilog
