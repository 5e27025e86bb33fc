import Mathlib
import RtlFlow.Flow.Simplify
import RtlFlow.Proofs.Scalar

/-!
# Conditions and their words

A condition is built from signals and constants by comparisons, logical operations and complements.
Its signals have words for values: numbers with a width. A word is true if it is not zero. The
complement turns every bit of a word; comparisons and logical operations give one bit.
-/

namespace RtlFlow

variable {name : String}

/-! ## Words -/

/-- A number with a width that it fits in. -/
structure Word where
  width : Nat
  value : Nat
  lt : value < 2 ^ width

namespace Word

variable {a : Word}

def truth (a : Word) : Bool := a.value != 0

def ofBool (b : Bool) : Word := ⟨1, b.toNat, by cases b <;> decide⟩

def complement (a : Word) : Word := ⟨a.width, 2 ^ a.width - 1 - a.value, by have := a.lt; omega⟩

@[simp] theorem truth_ofBool (b : Bool) : (ofBool b).truth = b := by
  cases b <;> rfl

@[simp] theorem width_complement (a : Word) : a.complement.width = a.width := rfl

theorem eq_ofBool (h : a.width = 1) : a = ofBool a.truth := by
  obtain ⟨width, value, hlt⟩ := a
  obtain rfl : width = 1 := h
  have hvalue : value = 0 ∨ value = 1 := by omega
  rcases hvalue with rfl | rfl <;> rfl

theorem truth_complement (h : a.width = 1) : a.complement.truth = !a.truth := by
  rw [eq_ofBool h]
  cases a.truth <;> rfl

end Word

/-! ## Conditions -/

def unaryOp? : String → Option (Word → Word)
  | "Ulnot" => some fun a => .ofBool !a.truth
  | "Unot" => some Word.complement
  | _ => none

/-- The bit that tells a relation between the values of two words. -/
def compared (r : Nat → Nat → Bool) (a b : Word) : Word := .ofBool (r a.value b.value)

def binaryOp? : String → Option (Word → Word → Word)
  | "Land" => some fun a b => .ofBool (a.truth && b.truth)
  | "Lor" => some fun a b => .ofBool (a.truth || b.truth)
  | "LessThan" => some (compared fun m n => decide (m < n))
  | "GreaterThan" => some (compared fun m n => decide (n < m))
  | "LessEq" => some (compared fun m n => decide (m ≤ n))
  | "GreaterEq" => some (compared fun m n => decide (n ≤ m))
  | "Eq" | "Eql" => some (compared fun m n => decide (m = n))
  | "NotEq" | "NotEql" => some (compared fun m n => decide (m ≠ n))
  | _ => none

/-- The truth of an operand that decides a conjunction or a disjunction. -/
def decisive? : String → Option Bool
  | "Land" => some false
  | "Lor" => some true
  | _ => none

/-- A tree that is a condition on the signals with the given names. -/
inductive IsCond (names : Path → Prop) : Tree → Prop
  | signal {p : Path} (hp : names p) : IsCond names (.term p)
  | constant {v w : Nat} (hv : v < 2 ^ w) : IsCond names (.num (.int v) (.int w))
  | unary {name : String} {a : Tree} (hname : (unaryOp? name).isSome) (ha : IsCond names a) :
      IsCond names (.op name [a])
  | binary {name : String} {a b : Tree} (hname : (binaryOp? name).isSome) (ha : IsCond names a)
      (hb : IsCond names b) : IsCond names (.op name [a, b])

/-- Words for signals; signals whose names match are one signal. -/
structure Valuation where
  names : Path → Prop
  signal : Path → Word
  congr : ∀ {p q}, names p → names q → (p == q) = true → signal p = signal q

namespace Valuation

variable (ρ : Valuation) {name : String} {a : Tree}

/-- The word that a condition means. What is no condition means zero. -/
def word : Tree → Word
  | .term p => ρ.signal p
  | .value (.int (.ofNat v)) (.int (.ofNat w)) _ _ =>
    if h : v < 2 ^ w then ⟨w, v, h⟩ else .ofBool false
  | .op name [a] =>
    match unaryOp? name with
    | some f => f (word a)
    | none => .ofBool false
  | .op name [a, b] =>
    match binaryOp? name with
    | some f => f (word a) (word b)
    | none => .ofBool false
  | _ => .ofBool false

def truth (t : Tree) : Bool := (ρ.word t).truth

def width (t : Tree) : Nat := (ρ.word t).width

theorem word_constant {v w : Nat} (hv : v < 2 ^ w) :
    ρ.word (.num (.int v) (.int w)) = ⟨w, v, hv⟩ := by
  simp only [Tree.num, word]
  exact dif_pos hv

theorem word_unary {f : Word → Word} (h : unaryOp? name = some f) (a : Tree) :
    ρ.word (.op name [a]) = f (ρ.word a) := by
  rw [word, h]

theorem word_binary {f : Word → Word → Word} (h : binaryOp? name = some f) (a b : Tree) :
    ρ.word (.op name [a, b]) = f (ρ.word a) (ρ.word b) := by
  rw [word, h]

@[simp] theorem width_bit (b : Bool) : ρ.width (Optimizer.bit b) = 1 := by
  cases b <;> rfl

@[simp] theorem truth_bit (b : Bool) : ρ.truth (Optimizer.bit b) = b := by
  cases b <;> rfl

@[simp] theorem truth_not (a : Tree) : ρ.truth (.op "Ulnot" [a]) = !ρ.truth a := by
  rw [truth, ρ.word_unary rfl, Word.truth_ofBool]
  rfl

@[simp] theorem width_complement (a : Tree) : ρ.width (.op "Unot" [a]) = ρ.width a := by
  rw [width, ρ.word_unary rfl, Word.width_complement]
  rfl

theorem width_unary (h : (unaryOp? name).isSome) (hname : name ≠ "Unot") :
    ρ.width (.op name [a]) = 1 := by
  obtain ⟨f, hf⟩ := Option.isSome_iff_exists.mp h
  rw [width, ρ.word_unary hf]
  unfold unaryOp? at hf
  split at hf
  · cases hf
    rfl
  · exact absurd rfl hname
  · cases hf

theorem width_binary {b : Tree} (h : (binaryOp? name).isSome) : ρ.width (.op name [a, b]) = 1 := by
  obtain ⟨f, hf⟩ := Option.isSome_iff_exists.mp h
  rw [width, ρ.word_binary hf]
  unfold binaryOp? at hf
  split at hf <;> cases hf <;> rfl

theorem word_eq_of_width {s t : Tree} (hs : ρ.width s = 1) (ht : ρ.width t = 1)
    (h : ρ.truth s = ρ.truth t) : ρ.word s = ρ.word t := by
  rw [Word.eq_ofBool hs, Word.eq_ofBool ht]
  exact congrArg Word.ofBool h

@[simp] theorem truth_land (a b : Tree) :
    ρ.truth (.op "Land" [a, b]) = (ρ.truth a && ρ.truth b) := by
  rw [truth, ρ.word_binary rfl, Word.truth_ofBool]
  rfl

@[simp] theorem truth_lor (a b : Tree) :
    ρ.truth (.op "Lor" [a, b]) = (ρ.truth a || ρ.truth b) := by
  rw [truth, ρ.word_binary rfl, Word.truth_ofBool]
  rfl

theorem truth_eq (a b : Tree) :
    ρ.truth (.op "Eq" [a, b]) = true ↔ (ρ.word a).value = (ρ.word b).value := by
  rw [truth, ρ.word_binary rfl, compared, Word.truth_ofBool, decide_eq_true_iff]

theorem truth_decisive {d : Bool} (h : decisive? name = some d) (a b : Tree) :
    ρ.truth (.op name [a, b]) = d ↔ ρ.truth a = d ∨ ρ.truth b = d := by
  unfold decisive? at h
  split at h
  · cases h
    rw [truth_land, Bool.and_eq_false_iff]
  · cases h
    rw [truth_lor, Bool.or_eq_true]
  · cases h

end Valuation

theorem decisive_eq_none_of_unary (h : (unaryOp? name).isSome) : decisive? name = none := by
  unfold unaryOp? at h
  split at h
  · rfl
  · rfl
  · cases h

theorem isSome_of_decisive {d : Bool} (h : decisive? name = some d) : (binaryOp? name).isSome := by
  unfold decisive? at h
  split at h
  · rfl
  · rfl
  · cases h

namespace IsCond

variable {names : Path → Prop} {name : String} {args : List Tree}

theorem isHole_eq {t : Tree} (h : IsCond names t) : t.isHole = false := by
  cases h <;> rfl

theorem bit (b : Bool) : IsCond names (Optimizer.bit b) := by
  cases b
  · exact @constant names 0 1 (by decide)
  · exact @constant names 1 1 (by decide)

theorem args_cases (h : IsCond names (.op name args)) :
    (∃ a, args = [a] ∧ (unaryOp? name).isSome ∧ IsCond names a) ∨
      ∃ a b, args = [a, b] ∧ (binaryOp? name).isSome ∧ IsCond names a ∧ IsCond names b := by
  cases h with
  | unary hname ha => exact .inl ⟨_, rfl, hname, ha⟩
  | binary hname ha hb => exact .inr ⟨_, _, rfl, hname, ha, hb⟩

theorem unary_args (h : IsCond names (.op name args)) (hname : binaryOp? name = none) :
    ∃ a, args = [a] ∧ IsCond names a := by
  rcases h.args_cases with ⟨a, rfl, _, ha⟩ | ⟨_, _, _, hsome, _⟩
  · exact ⟨a, rfl, ha⟩
  · rw [hname] at hsome
    cases hsome

theorem binary_args (h : IsCond names (.op name args)) (hname : unaryOp? name = none) :
    ∃ a b, args = [a, b] ∧ IsCond names a ∧ IsCond names b := by
  rcases h.args_cases with ⟨_, _, hsome, _⟩ | ⟨a, b, rfl, _, ha, hb⟩
  · rw [hname] at hsome
    cases hsome
  · exact ⟨a, b, rfl, ha, hb⟩

theorem value_eq {v w : Scalar} {r t : Bool} (h : IsCond names (.value v w r t)) :
    ∃ m n : Nat, ∃ hm : m < 2 ^ n, v = .int m ∧
      ∀ ρ : Valuation, ρ.word (.value v w r t) = ⟨n, m, hm⟩ := by
  generalize htree : Tree.value v w r t = tree at h
  cases h with
  | @constant m n hv =>
    cases htree
    exact ⟨m, n, hv, rfl, fun ρ => ρ.word_constant hv⟩
  | signal | unary | binary => cases htree

end IsCond

/-! ## Equality and texts of conditions -/

section

variable (ρ : Valuation) {args args' : List Tree}

theorem equalAll_yields {ts us : List Tree}
    (h : ∀ t ∈ ts, ∀ u ∈ us, Yields (fun b => b = true → ρ.word t = ρ.word u) (t.equal u)) :
    Yields (fun b => b = true → ts.map ρ.word = us.map ρ.word) (Tree.equalAll ts us) := by
  induction ts generalizing us with
  | nil =>
    cases us with
    | nil => exact .pure fun _ => rfl
    | cons u us => exact .pure_false
  | cons t ts ih =>
    cases us with
    | nil => exact .pure_false
    | cons u us =>
      refine (h t (by simp) u (by simp)).bind fun b hb => ?_
      cases b with
      | false => exact .pure_false
      | true =>
        refine (ih fun t ht u hu => h t (.tail _ ht) u (.tail _ hu)).mono fun b hrest heq => ?_
        rw [List.map_cons, List.map_cons, hb rfl, hrest heq]

theorem Valuation.word_op_congr {name : String} (h : args.map ρ.word = args'.map ρ.word) :
    ρ.word (.op name args) = ρ.word (.op name args') := by
  have hlength : args.length = args'.length := by simpa using congrArg List.length h
  match args, args', h with
  | [], [], _ => rfl
  | [a], [a'], h =>
    simp only [List.map_cons, List.map_nil, List.cons.injEq, and_true] at h
    simp only [word, h]
  | [a, b], [a', b'], h =>
    simp only [List.map_cons, List.map_nil, List.cons.injEq, and_true] at h
    simp only [word, h.1, h.2]
  | _ :: _ :: _ :: _, _ :: _ :: _ :: _, _ => rfl

theorem equal_op_yields {name name' : String}
    (h : ∀ t ∈ args, ∀ u ∈ args', Yields (fun b => b = true → ρ.word t = ρ.word u) (t.equal u)) :
    Yields (fun b => b = true → ρ.word (.op name args) = ρ.word (.op name' args'))
      ((Tree.op name args).equal (.op name' args')) := by
  rw [Tree.equal]
  split
  · next hname =>
    obtain rfl : name = name' := eq_of_beq hname
    exact (equalAll_yields ρ h).mono fun b hb heq => ρ.word_op_congr (hb heq)
  · exact .pure_false

theorem equal_yields {t u : Tree} (ht : IsCond ρ.names t) (hu : IsCond ρ.names u) :
    Yields (fun b => b = true → ρ.word t = ρ.word u) (t.equal u) := by
  induction ht generalizing u with
  | signal hp =>
    cases hu with
    | signal hq => exact .pure fun h => ρ.congr hp hq h
    | constant | unary | binary => exact .pure fun h => absurd h (by decide)
  | @constant v w hv =>
    cases hu with
    | @constant v' w' hv' =>
      refine .pure fun h => ?_
      simp only [Bool.and_eq_true, Scalar.int_same_iff] at h
      obtain ⟨⟨⟨hvalue, hwidth⟩, _⟩, _⟩ := h
      obtain rfl : v = v' := Int.ofNat.inj hvalue
      obtain rfl : w = w' := Int.ofNat.inj hwidth
      rfl
    | signal | unary | binary => exact .pure fun h => absurd h (by decide)
  | unary hname ha iha =>
    cases hu with
    | signal | constant => exact .pure fun h => absurd h (by decide)
    | unary hname' ha' =>
      refine equal_op_yields ρ ?_
      simpa using iha ha'
    | binary hname' ha' hb' =>
      refine equal_op_yields ρ ?_
      simpa using ⟨iha ha', iha hb'⟩
  | binary hname ha hb iha ihb =>
    cases hu with
    | signal | constant => exact .pure fun h => absurd h (by decide)
    | unary hname' ha' =>
      refine equal_op_yields ρ ?_
      simpa using ⟨iha ha', ihb ha'⟩
    | binary hname' ha' hb' =>
      refine equal_op_yields ρ ?_
      simpa using ⟨⟨iha ha', iha hb'⟩, ihb ha', ihb hb'⟩

end

theorem markOf_yields (h : (unaryOp? name).isSome ∨ (binaryOp? name).isSome) :
    Yields (fun _ => True) (Tree.markOf name) := by
  rcases h with h | h
  · unfold unaryOp? at h
    split at h
    · exact ⟨_, rfl, trivial⟩
    · exact ⟨_, rfl, trivial⟩
    · cases h
  · unfold binaryOp? at h
    split at h
    all_goals first | exact ⟨_, rfl, trivial⟩ | cases h

theorem toCode_yields {names : Path → Prop} {dest : Option String} {t : Tree}
    (h : IsCond names t) : Yields (fun _ => True) (t.toCode dest) := by
  induction h with
  | signal hp =>
    rw [Tree.toCode]
    exact .pure trivial
  | constant hv =>
    rw [Tree.num, Tree.toCode]
    exact ⟨_, rfl, trivial⟩
  | unary hname ha iha =>
    rw [Tree.toCode]
    exact (markOf_yields (.inl hname)).bind fun _ _ => iha.bind fun _ _ => .pure trivial
  | binary hname ha hb iha ihb =>
    rw [Tree.toCode]
    exact iha.bind fun _ _ => (markOf_yields (.inr hname)).bind fun _ _ =>
      ihb.bind fun _ _ => .pure trivial

end RtlFlow
