import Mathlib
import RtlFlow.Proofs.Grammar.Indexed
import RtlFlow.Verilog.Parser

/-!
# The numbered Verilog grammar

The tables of the grammar, read by symbols and productions.
-/

namespace RtlFlow.Verilog

open List

open Grammar

/-! ## Names -/

namespace Sym

def spelled (s : Sym) : { l : List Char // s.name = String.ofList l } := by
  cases s <;> exact ⟨_, rfl⟩

theorem ctorIdx_lt (s : Sym) : s.ctorIdx < count := by cases s <;> decide

theorem getElem?_all (s : Sym) : all[s.ctorIdx]? = some s := by
  simp [all, List.getElem?_range (ctorIdx_lt s), ofNat_ctorIdx]

theorem mem_all (s : Sym) : s ∈ all := mem_of_getElem? (getElem?_all s)

theorem length_all : all.length = 252 := by simp [all, count]

theorem id_injective {s s' : Sym} (h : s.id = s'.id) : s = s' := by
  have hidx : s.ctorIdx = s'.ctorIdx := Nat.add_right_cancel h
  rw [← ofNat_ctorIdx s, hidx, ofNat_ctorIdx]

@[simp] theorem id_inj {s s' : Sym} : s.id = s'.id ↔ s = s' := ⟨id_injective, congrArg id⟩

theorem id_ne_endId (s : Sym) : s.id ≠ Indexed.endId := Nat.succ_ne_zero _

theorem id_ne_startId (s : Sym) : s.id ≠ Indexed.startId := by
  simp [id, Indexed.startId]

end Sym

def symbolNames : List String := Indexed.reserved ++ Sym.all.map Sym.name ++ ["."]

def symbolSpellings : List (List Char) :=
  [['$', 'e', 'n', 'd'], ['S', '\''], ['<', 'e', 'm', 'p', 't', 'y', '>']] ++
    Sym.all.map (fun s => s.spelled.1) ++ [['.']]

/-- A number of a word, which is another one for every symbol. -/
def numeral (l : List Char) : Nat := l.foldl (fun n c => n * 256 + c.toNat) 0 % 4477

/-- Whether each number of a list is new, where the bits of `met` are for the numbers before it. -/
def allNew : (met : Nat) → List Nat → Bool
  | _, [] => true
  | met, n :: ns => !met.testBit n && allNew (met ||| 1 <<< n) ns

theorem nodup_of_allNew {met : Nat} {ns : List Nat} (h : allNew met ns = true) :
    ns.Nodup ∧ ∀ n ∈ ns, met.testBit n = false := by
  induction ns generalizing met with
  | nil => simp
  | cons n ns ih =>
    rw [allNew, Bool.and_eq_true, Bool.not_eq_true'] at h
    obtain ⟨hnodup, hmet⟩ := ih h.2
    have hnew : ∀ m ∈ ns, met.testBit m = false ∧ m ≠ n := by
      intro m hm
      have hbit := hmet m hm
      rw [Nat.testBit_or, Bool.or_eq_false_iff, Nat.one_shiftLeft, Nat.testBit_two_pow] at hbit
      exact ⟨hbit.1, fun heq => by simp [heq] at hbit⟩
    exact ⟨nodup_cons.mpr ⟨fun hn => (hnew n hn).2 rfl, hnodup⟩,
      forall_mem_cons.mpr ⟨h.1, fun m hm => (hnew m hm).1⟩⟩

theorem symbolNames_eq : symbolNames = symbolSpellings.map String.ofList := by
  have hall : Sym.all.map Sym.name = (Sym.all.map fun s => s.spelled.1).map String.ofList := by
    rw [map_map]
    exact map_congr_left fun s _ => s.spelled.2
  rw [symbolNames, symbolSpellings, map_append, map_append, ← hall]
  rfl

theorem symbolNames_nodup : symbolNames.Nodup := by
  have hnumerals : allNew 0 (symbolSpellings.map numeral) = true := by decide +kernel
  rw [symbolNames_eq]
  exact (nodup_of_allNew hnumerals).1.of_map.map fun _ _ h => String.ofList_injective h

theorem length_symbolNames : symbolNames.length = 256 := by
  simp [symbolNames, Indexed.reserved, Sym.length_all]

theorem getElem?_symbolNames (s : Sym) : symbolNames[s.id]? = some s.name := by
  have hlt : s.ctorIdx < (Sym.all.map Sym.name).length := by
    rw [length_map, Sym.length_all]
    exact s.ctorIdx_lt
  rw [symbolNames, append_assoc, Sym.id, Nat.add_comm]
  change (Indexed.reserved ++ (Sym.all.map Sym.name ++ ["."]))[Indexed.reserved.length +
    s.ctorIdx]? = _
  rw [List.getElem?_append_right (Nat.le_add_right ..), Nat.add_sub_cancel_left,
    List.getElem?_append_left hlt, List.getElem?_map, Sym.getElem?_all]
  rfl

/-! ## The tables of the grammar -/

def indexedRules (start : Sym) : List IndexedRule :=
  ⟨Indexed.startId, [start.id], {}, 0⟩ :: productions.mapIdx fun i p => p.indexed (i + 1)

def terminalPrecs : List (Nat × Precedence) :=
  (Sym.all.filter Sym.isTerminal).map fun s => (s.id, s.prec)

theorem grammarFrom_eq (start : Sym) : grammarFrom start =
    Indexed.assemble symbolNames ((Sym.all.filter Sym.isTerminal).map Sym.id)
      ((Sym.all.filter (!·.isTerminal)).map Sym.id) (indexedRules start) terminalPrecs := rfl

section

variable {start : Sym}

theorem numbers_grammarFrom (start : Sym) :
    Indexed.Numbers symbolNames (grammarFrom start).names (grammarFrom start).ids := by
  rw [grammarFrom_eq, Indexed.names_assemble, Indexed.ids_assemble]
  exact Indexed.numbers_number symbolNames_nodup

theorem size_number : (Indexed.number symbolNames).1.size = 256 := by
  rw [(Indexed.numbers_number symbolNames_nodup).arr_eq, size_toArray, length_symbolNames]

theorem size_names : (grammarFrom start).names.size = 256 := by
  rw [grammarFrom_eq, Indexed.names_assemble, size_number]

theorem id_lt (s : Sym) : s.id < 256 := by
  have hlt : s.ctorIdx < 252 := s.ctorIdx_lt
  rw [Sym.id]
  omega

theorem ids_name (s : Sym) : (grammarFrom start).ids[s.name]? = some s.id :=
  (numbers_grammarFrom start).get?_eq _ _ (getElem?_symbolNames s)

theorem contains_map_id {f : Sym → Bool} {s : Sym} :
    ((Sym.all.filter f).map Sym.id).contains s.id = f s := by
  rw [Bool.eq_iff_iff, contains_iff_mem, mem_map]
  constructor
  · rintro ⟨s', hs', hid⟩
    exact Sym.id_injective hid ▸ (mem_filter.mp hs').2
  · exact fun h => ⟨s, mem_filter.mpr ⟨s.mem_all, h⟩, rfl⟩

theorem terminal_id (s : Sym) : (grammarFrom start).terminal.getD s.id false = s.isTerminal := by
  rw [grammarFrom_eq, Indexed.terminal_assemble (size_number ▸ id_lt s), contains_map_id]

theorem nonterminal_id (s : Sym) :
    (grammarFrom start).nonterminal.getD s.id false = !s.isTerminal := by
  rw [grammarFrom_eq, Indexed.nonterminal_assemble (size_number ▸ id_lt s), contains_map_id]

theorem lookup_map_id {l : List Sym} {s : Sym} (hs : s ∈ l) :
    (l.map fun s => (s.id, s.prec)).lookup s.id = some s.prec := by
  induction l with
  | nil => cases hs
  | cons x l ih =>
    rw [map_cons, lookup_cons]
    by_cases hx : s = x
    · simp [hx]
    · have hid : (s.id == x.id) = false := by simpa using hx
      rw [hid]
      exact ih ((mem_cons.mp hs).resolve_left hx)

theorem prec_id {s : Sym} (hs : s.isTerminal = true) :
    (grammarFrom start).prec.getD s.id {} = s.prec := by
  rw [grammarFrom_eq, Indexed.prec_assemble (size_number ▸ id_lt s), terminalPrecs,
    lookup_map_id (mem_filter.mpr ⟨s.mem_all, hs⟩)]
  rfl

/-! ## Rules -/

theorem rule_zero : (grammarFrom start).rule 0 = ⟨Indexed.startId, [start.id], {}, 0⟩ := by
  rw [grammarFrom_eq, Indexed.rule_assemble]
  rfl

theorem size_rules : (grammarFrom start).rules.size = productions.length + 1 := by
  rw [grammarFrom_eq, Indexed.rules_assemble, size_toArray, indexedRules, length_cons,
    length_mapIdx]

theorem rule_succ {k : Nat} {p : Production} (hp : productions[k]? = some p) :
    (grammarFrom start).rule (k + 1) = p.indexed (k + 1) := by
  rw [grammarFrom_eq, Indexed.rule_assemble]
  simp [indexedRules, hp]

theorem wellFormed_grammarFrom (start : Sym) : (grammarFrom start).WellFormed := by
  have hmem : ∀ r ∈ indexedRules start, r = ⟨Indexed.startId, [start.id], {}, 0⟩ ∨
      ∃ p : Production, ∃ i, r = p.indexed i := by
    intro r hr
    refine (mem_cons.mp hr).imp_right fun hr => ?_
    obtain ⟨i, hi, rfl⟩ := mem_mapIdx.mp hr
    exact ⟨_, _, rfl⟩
  rw [grammarFrom_eq]
  refine Indexed.wellFormed_assemble (cons_ne_nil _ _) (fun r hr => ?_) fun r hr s hs => ?_
  · rw [size_number]
    rcases hmem r hr with rfl | ⟨p, i, rfl⟩
    · exact Nat.lt_of_sub_eq_succ rfl
    · exact id_lt p.left
  · rw [size_number]
    rcases hmem r hr with rfl | ⟨p, i, rfl⟩
    · rw [mem_singleton.mp hs]
      exact id_lt start
    · obtain ⟨s', -, rfl⟩ := mem_map.mp hs
      exact id_lt s'

/-- The items of a symbol with the point in front, found in productions that are numbered from `r`
on. -/
def startsIn (s : Nat) : (r : Nat) → List Production → List Item
  | _, [] => []
  | r, p :: ps =>
    bif Nat.beq p.left.id s then ⟨r, s, [], p.right.map Sym.id⟩ :: startsIn s (r + 1) ps
    else startsIn s (r + 1) ps

def starts (s : Nat) : List Item := startsIn s 1 productions

theorem filter_startOf (s : Nat) : ∀ (r j : Nat) (ps : List Production),
    (((ps.mapIdx fun i p => p.indexed (i + j)).zipIdx r).map Indexed.startOf).filter
      (fun i => i.left = s) = startsIn s r ps
  | _, _, [] => rfl
  | r, j, p :: ps => by
    have ih := filter_startOf s (r + 1) (j + 1) ps
    simp only [mapIdx_cons, zipIdx_cons, map_cons, Nat.add_right_comm _ 1 j]
    rw [startsIn]
    by_cases hp : p.left.id = s
    · rw [Nat.beq_eq.mpr hp, cond_true,
        filter_cons_of_pos (by simp [Indexed.startOf, Production.indexed, hp])]
      subst hp
      exact congrArg _ ih
    · rw [Bool.eq_false_iff.mpr fun h => hp (Nat.beq_eq.mp h), cond_false,
        filter_cons_of_neg (by simp [Indexed.startOf, Production.indexed, hp])]
      exact ih

theorem startItems_grammarFrom (s : Nat) : (grammarFrom start).startItems s = starts s := by
  rw [(wellFormed_grammarFrom start).startItems_eq, grammarFrom_eq, Indexed.allStarts_assemble,
    indexedRules, zipIdx_cons, drop_one, tail_cons, Nat.zero_add, filter_startOf,
    starts]

def closureOf (kernel : List Item) : List Item :=
  close starts (kernel.length + (productions.length + 1)) kernel []

theorem closure_grammarFrom (kernel : List Item) :
    Automaton.closure (grammarFrom start) kernel = closureOf kernel := by
  have hstarts : (grammarFrom start).startItems = starts := funext startItems_grammarFrom
  rw [Automaton.closure, closureOf, size_rules, hstarts]

end

end RtlFlow.Verilog
