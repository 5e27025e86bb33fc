import Mathlib
import RtlFlow.Verilog.Symbols
import RtlFlow.Verilog.Token

/-!
# Lexemes in other surroundings

A lexeme is recognised by looking at the text from its front on. Whether a number or a name is
recognised does not depend on what comes behind it, if this begins with a character that cannot go on
with it.
-/

namespace RtlFlow.Verilog

open List

variable {c : Char} {cs ds r rest : List Char} {n : Nat} {k : String}

/-! ## Runs of characters -/

section

variable {p : Char → Bool} {cs ds : List Char}

theorem run_append_of_all (hds : ∀ c ∈ ds, p c = true) : run p (ds ++ cs) = ds.length + run p cs := by
  rw [run, run, takeWhile_append_of_pos hds, length_append]

theorem run_eq_zero (h : ∀ c, cs.head? = some c → p c = false) : run p cs = 0 := by
  cases cs with
  | nil => rfl
  | cons c cs => simp [run, h c rfl]

theorem exists_run (p : Char → Bool) (cs : List Char) :
    ∃ ds rest, cs = ds ++ rest ∧ (∀ c ∈ ds, p c = true) ∧ run p cs = ds.length ∧
      ∀ c, rest.head? = some c → p c = false :=
  ⟨cs.takeWhile p, cs.dropWhile p, takeWhile_append_dropWhile.symm,
    fun _ hc => mem_takeWhile_imp hc, rfl, fun c hc => by
      have := List.head?_dropWhile_not p cs
      rw [hc] at this
      simpa using this⟩

end

/-! ## Stops -/

def stops : List Char := [' ', '\n', '(', ')', '[', ']', '{', '}', ',', ';', ':']

def Stops (r : List Char) : Prop := ∀ c, r.head? = some c → c ∈ stops

def Goes (p : Char → Bool) : Prop := ∀ c ∈ stops, p c = false

instance (p : Char → Bool) : Decidable (Goes p) :=
  List.decidableBAll (fun c => p c = false) stops

/-- A class of lexemes for which the surroundings do not matter. -/
structure Local (f : List Char → Option Nat) : Prop where
  persists : ∀ {x r r' : List Char}, x ≠ [] → f (x ++ r) = some x.length → Stops r' →
    f (x ++ r') = some x.length
  /-- What does not begin with a lexeme does not either in front of a stop. -/
  fails : ∀ {x r r' : List Char}, x ≠ [] → f (x ++ r) = none → Stops r' → f (x ++ r') = none

/-! ## Spellings -/

section

variable {t : Stretch} {ts : List Stretch} {ways : List (List Stretch)} {x : List Char}

theorem spell_cons (t : Stretch) (ts : List Stretch) (cs : List Char) : spell (t :: ts) cs =
    if t.needed && t.reach cs = 0 then none
    else (spell ts (cs.drop (t.reach cs))).map (t.reach cs + ·) := rfl

theorem spell_cons_eq_some : spell (t :: ts) cs = some n ↔ ¬(t.needed = true ∧ t.reach cs = 0) ∧
    ∃ m, spell ts (cs.drop (t.reach cs)) = some m ∧ t.reach cs + m = n := by
  simp [spell_cons]

theorem Stretch.reach_le (t : Stretch) (cs : List Char) : t.reach cs ≤ cs.length := by
  refine ( takeWhile_prefix t.is).length_le.trans ?_
  split
  · exact le_rfl
  · simp

theorem Stretch.reach_eq_zero (h : ∀ c, cs.head? = some c → t.is c = false) : t.reach cs = 0 := by
  refine run_eq_zero fun c hc => h c ?_
  split at hc
  · exact hc
  · rwa [head?_take, if_neg one_ne_zero] at hc

/-- More text only matters to a stretch that reaches to the end of the text. -/
theorem Stretch.reach_append (t : Stretch) (x r : List Char) :
    t.reach (x ++ r) = t.reach x ∨ t.reach x = x.length ∧ x.length ≤ t.reach (x ++ r) := by
  cases hrep : t.repeats with
  | true =>
    simp only [reach, run, hrep, if_true, takeWhile_append]
    split
    · next h => exact .inr ⟨h, by simp⟩
    · exact .inl rfl
  | false =>
    cases x with
    | nil => exact .inr ⟨by simp [reach, run], Nat.zero_le _⟩
    | cons c x => exact .inl (by simp [reach, hrep])

theorem Stretch.reach_stops (ht : Goes t.is) (hr : Stops r) : t.reach (x ++ r) = t.reach x := by
  cases hrep : t.repeats with
  | true =>
    obtain ⟨ds, rest, rfl, hds, -, hrest⟩ := exists_run t.is x
    simp only [reach, hrep, if_true, append_assoc, run_append_of_all hds, run_eq_zero hrest]
    congr 1
    refine run_eq_zero fun c hc => ?_
    cases rest with
    | nil => exact ht c (hr c hc)
    | cons d rest => exact hrest c hc
  | false =>
    cases x with
    | nil =>
      rw [nil_append, reach_eq_zero fun c hc => ht c (hr c hc), reach_eq_zero (by simp)]
    | cons c x => simp [reach, hrep]

theorem spell_stops (hr : Stops r) (hts : ∀ t ∈ ts, Goes t.is) : spell ts (x ++ r) = spell ts x := by
  induction ts generalizing x with
  | nil => rfl
  | cons t ts ih =>
    rw [spell_cons, spell_cons, Stretch.reach_stops (hts t mem_cons_self) hr,
      drop_append_of_le_length (t.reach_le x), ih fun t ht => hts t (mem_cons_of_mem _ ht)]

theorem spell_eq_none (h : spell ts (x ++ r) = none) : spell ts x = none := by
  induction ts generalizing x r with
  | nil => cases h
  | cons t ts ih =>
    rw [spell_cons] at h ⊢
    rcases t.reach_append x r with heq | ⟨hx, hle⟩
    · rw [heq] at h
      split at h
      · next hnone => rw [if_pos hnone]
      · next hsome =>
        rw [if_neg hsome]
        rw [drop_append_of_le_length (t.reach_le x), Option.map_eq_none_iff] at h
        rw [ih h, Option.map_none]
    · -- Nothing is left for what follows, which fails there if it fails anywhere.
      rw [hx, drop_length]
      split
      · rfl
      · next hsome =>
        rw [if_neg, Option.map_eq_none_iff] at h
        · rw [ih (x := []) h, Option.map_none]
        · simp only [Bool.and_eq_true, decide_eq_true_eq] at hsome ⊢
          exact fun h => hsome ⟨h.1, by omega⟩

theorem spell_eq_some (h : spell ts (x ++ r) = some n) (hn : n ≤ x.length) : spell ts x = some n := by
  induction ts generalizing x n with
  | nil => exact h
  | cons t ts ih =>
    obtain ⟨hneeded, m, hm, rfl⟩ := spell_cons_eq_some.mp h
    have heq : t.reach (x ++ r) = t.reach x := by
      rcases t.reach_append x r with heq | ⟨hx, hle⟩
      · exact heq
      · omega
    rw [heq] at hm hneeded hn ⊢
    rw [drop_append_of_le_length (t.reach_le x)] at hm
    exact spell_cons_eq_some.mpr ⟨hneeded, m, ih hm (by rw [length_drop]; omega), rfl⟩

theorem local_spell (hts : ∀ t ∈ ts, Goes t.is) : Local (spell ts) where
  persists _ h hr' := by rw [spell_stops hr' hts, spell_eq_some h le_rfl]
  fails _ h hr' := by rw [spell_stops hr' hts, spell_eq_none h]

theorem spellAny_of_head (h : spell ts cs = some n) : spellAny (ts :: ways) cs = some n := by
  rw [spellAny, findSome?_cons, h]

theorem local_spellAny (hways : ∀ ts ∈ ways, ∀ t ∈ ts, Goes t.is) : Local (spellAny ways) where
  persists {x r r'} hx h hr' := by
    induction ways with
    | nil => cases h
    | cons ts ways ih =>
      have hts := local_spell (hways ts mem_cons_self)
      rw [spellAny, findSome?_cons] at h ⊢
      split at h
      · next n hn =>
        obtain rfl := Option.some.inj h
        rw [hts.persists hx hn hr']
      · next hn =>
        rw [hts.fails hx hn hr']
        exact ih (fun ts h => hways ts (mem_cons_of_mem _ h)) h
  fails {x r r'} hx h hr' := by
    rw [spellAny, findSome?_eq_none_iff] at h ⊢
    exact fun ts hts => (local_spell (hways ts hts)).fails hx (h ts hts) hr'

/-- The texts that stretches make up. -/
inductive MadeOf : List Stretch → List Char → Prop
  | nil : MadeOf [] []
  | cons {t : Stretch} {ts : List Stretch} {x y : List Char} (all : ∀ c ∈ x, t.is c = true)
    (needed : t.needed = true → x ≠ []) (single : t.repeats = false → x.length ≤ 1)
    (rest : MadeOf ts y) : MadeOf (t :: ts) (x ++ y)

theorem madeOf_of_eq_some (h : spell ts cs = some n) :
    ∃ x rest, cs = x ++ rest ∧ x.length = n ∧ MadeOf ts x := by
  induction ts generalizing cs n with
  | nil => exact ⟨[], cs, rfl, Option.some.inj h, .nil⟩
  | cons t ts ih =>
    obtain ⟨hneeded, m, hm, rfl⟩ := spell_cons_eq_some.mp h
    obtain ⟨y, rest, hy, rfl, hmade⟩ := ih hm
    have hlen : (cs.take (t.reach cs)).length = t.reach cs := by
      rw [length_take, Nat.min_eq_left (t.reach_le cs)]
    refine ⟨cs.take (t.reach cs) ++ y, rest, ?_, by rw [length_append, hlen],
      .cons (fun c hc => ?_) (fun ht hnil => ?_) (fun ht => ?_) hmade⟩
    · rw [append_assoc, ← hy, take_append_drop]
    · have htake : cs.take (t.reach cs) =
          (if t.repeats then cs else cs.take 1).takeWhile t.is := by
        refine (prefix_of_prefix_length_le ( take_prefix _ _) ?_ hlen.le).eq_of_length hlen
        refine ( takeWhile_prefix _).trans ?_
        split
        · exact prefix_rfl
        · exact take_prefix _ _
      rw [htake] at hc
      exact mem_takeWhile_imp hc
    · rw [hnil] at hlen
      exact hneeded ⟨ht, hlen.symm⟩
    · rw [hlen, Stretch.reach, ht]
      exact ( takeWhile_prefix _).length_le.trans (by simp)

theorem MadeOf.not_mem (h : MadeOf ts x) (hc : ∀ t ∈ ts, t.is c = false) : c ∉ x := by
  induction h with
  | nil => exact not_mem_nil
  | cons all _ _ _ ih =>
    rw [forall_mem_cons] at hc
    rw [mem_append, not_or]
    exact ⟨fun hx => by simp [all c hx] at hc, ih hc.2⟩

theorem MadeOf.ne_nil (h : MadeOf ts x) (hts : ∃ t ∈ ts, t.needed = true) : x ≠ [] := by
  induction h with
  | nil => simp at hts
  | cons _ needed _ _ ih =>
    rw [exists_mem_cons_iff] at hts
    rcases hts with ht | hts
    · simp [needed ht]
    · simp [ih hts]

theorem MadeOf.one {p : Char → Bool} (h : MadeOf (.one p :: ts) x) :
    ∃ c y, x = c :: y ∧ p c = true ∧ MadeOf ts y := by
  cases h with
  | cons all needed single rest =>
    obtain ⟨c, y, rfl⟩ := exists_cons_of_ne_nil (needed rfl)
    obtain rfl : y = [] := by simpa using single rfl
    exact ⟨c, _, rfl, all c mem_cons_self, rest⟩

theorem MadeOf.last (h : MadeOf [t] x) : ∀ c ∈ x, t.is c = true := by
  cases h with
  | cons all _ _ rest =>
    cases rest
    simpa using all

theorem exists_madeOf (h : spellAny ways cs = some n) :
    ∃ ts ∈ ways, ∃ x rest, cs = x ++ rest ∧ x.length = n ∧ MadeOf ts x := by
  obtain ⟨ts, hts, h⟩ := exists_of_findSome?_eq_some h
  exact ⟨ts, hts, madeOf_of_eq_some h⟩

/-- Whether a spelling can begin with a character. -/
def mayStart : List Stretch → Char → Bool
  | [], _ => true
  | t :: ts, c => t.is c || (!t.needed && mayStart ts c)

theorem mayStart_of_eq_some (h : spell ts (c :: cs) = some n) : mayStart ts c = true := by
  induction ts generalizing n with
  | nil => rfl
  | cons t ts ih =>
    cases hc : t.is c with
    | true => simp [mayStart, hc]
    | false =>
      have hzero : t.reach (c :: cs) = 0 := Stretch.reach_eq_zero (by simpa using hc)
      obtain ⟨hneeded, m, hm, -⟩ := spell_cons_eq_some.mp h
      rw [hzero, drop_zero] at hm
      simp_all [mayStart]

theorem spell_of_mayStart (h : mayStart ts c = false) (cs : List Char) : spell ts (c :: cs) = none := by
  cases hspell : spell ts (c :: cs) with
  | none => rfl
  | some n =>
    rw [mayStart_of_eq_some hspell] at h
    cases h

end

/-! ## The first rule that applies -/

def firstAmong (rs : List Rule) (cs : List Char) : Option (Role × Nat) :=
  rs.findSome? fun r => (r.length? cs).map fun n => (r.role, n)

theorem firstAmong_append (rs rs' : List Rule) (cs : List Char) :
    firstAmong (rs ++ rs') cs = (firstAmong rs cs).or (firstAmong rs' cs) := List.findSome?_append

theorem firstAmong_cons (r : Rule) (rs : List Rule) (cs : List Char) :
    firstAmong (r :: rs) cs = ((r.length? cs).map fun n => (r.role, n)).or (firstAmong rs cs) := by
  rw [firstAmong, List.findSome?_cons]
  cases r.length? cs <;> rfl

theorem exists_rule {rs : List Rule} {role : Role} (h : firstAmong rs cs = some (role, n)) :
    ∃ r ∈ rs, r.role = role ∧ r.length? cs = some n := by
  obtain ⟨r, hr, hm⟩ := exists_of_findSome?_eq_some h
  obtain ⟨n', hn, heq⟩ := Option.map_eq_some_iff.mp hm
  obtain ⟨hrole, rfl⟩ := Prod.mk.inj heq
  exact ⟨r, hr, hrole, hn⟩

theorem firstAmong_stops {x r' : List Char} {role : Role} (hx : x ≠ []) (hr' : Stops r') :
    ∀ {rs : List Rule}, (∀ rule ∈ rs, Local rule.length?) →
      firstAmong rs (x ++ r) = some (role, x.length) → firstAmong rs (x ++ r') = some (role, x.length)
  | [], _, h => h
  | rule :: rs, hlocal, h => by
    have hrule := hlocal rule mem_cons_self
    rw [firstAmong_cons] at h ⊢
    cases hl : rule.length? (x ++ r) with
    | some n =>
      rw [hl] at h
      obtain ⟨rfl, rfl⟩ := Prod.mk.inj (Option.some.inj h)
      rw [hrule.persists hx hl hr']
      rfl
    | none =>
      rw [hl] at h
      rw [hrule.fails hx hl hr']
      exact firstAmong_stops hx hr' (fun r hr => hlocal r (mem_cons_of_mem _ hr)) h

def quotedRules : List Rule := openRules.take 4

def numeralRules : List Rule := (openRules.drop 4).take 9

def otherRules : List Rule :=
  openRules.drop 13 ++ marks.map fun (m, kind) => ⟨.token kind, mark m.toList⟩

theorem firstMatch_eq (cs : List Char) : firstMatch cs =
    (firstAmong quotedRules cs).or ((firstAmong numeralRules cs).or (firstAmong otherRules cs)) := by
  rw [← firstAmong_append, ← firstAmong_append]
  rfl

theorem local_of_mem_numeralRules : ∀ r ∈ numeralRules, Local r.length? := by
  intro r hr
  fin_cases hr
  · exact local_spellAny (by decide)
  iterate 7 exact local_spell (by decide)
  · exact local_spellAny (by decide)

/-- A character that directives, comments and strings do not begin with. -/
def IsPlain (c : Char) : Prop := c ≠ '`' ∧ c ≠ '/' ∧ c ≠ '"'

theorem firstAmong_quotedRules (hc : IsPlain c) (cs : List Char) :
    firstAmong quotedRules (c :: cs) = none := by
  obtain ⟨h₁, h₂, h₃⟩ := hc
  rw [firstAmong, List.findSome?_eq_none_iff]
  intro r hr
  fin_cases hr <;> simp [h₁, h₂, h₃]

def isNumberStart (c : Char) : Bool := c.isDigit || c = '\'' || c = '.'

theorem isNumberStart.isPlain (h : isNumberStart c = true) : IsPlain c := by
  refine ⟨?_, ?_, ?_⟩ <;> rintro rfl <;> cases h

theorem isNumberStart_of_mem {r : Rule} (hr : r ∈ numeralRules) (h : r.length? (c :: cs) = some n) :
    isNumberStart c = true := by
  have hany {ways : List (List Stretch)} (h : spellAny ways (c :: cs) = some n) :
      ∃ ts ∈ ways, mayStart ts c = true := by
    obtain ⟨ts, hts, h⟩ := exists_of_findSome?_eq_some h
    exact ⟨ts, hts, mayStart_of_eq_some h⟩
  have hbased {base : List (Char → Bool)} {first digit : Char → Bool}
      (h : spell (basedNumber base first digit) (c :: cs) = some n) : isNumberStart c = true := by
    have := mayStart_of_eq_some h
    simp only [basedNumber, mayStart, Stretch.any, Stretch.one] at this
    simp_all [isNumberStart]
  fin_cases hr
  · obtain ⟨ts, hts, h⟩ := hany h
    fin_cases hts <;> simp_all [mayStart, exponent, Stretch.many, Stretch.one, isNumberStart]
  iterate 7 exact hbased h
  · obtain ⟨ts, hts, h⟩ := hany h
    fin_cases hts <;> simp_all [mayStart, basedNumber, Stretch.any, Stretch.one, isNumberStart]

theorem firstAmong_numeralRules (hc : isNumberStart c = false) (cs : List Char) :
    firstAmong numeralRules (c :: cs) = none := by
  cases h : firstAmong numeralRules (c :: cs) with
  | none => rfl
  | some m =>
    obtain ⟨r, hr, -, hlen⟩ := exists_rule h
    rw [isNumberStart_of_mem hr hlen] at hc
    cases hc

/-! ## Lexemes -/

/-- The class of a token that a rule gives. -/
def Role.kindOf (r : Role) (x : String) : Option String :=
  match r with
  | .token kind => some kind
  | .word => some (wordKind x)
  | .directive => none
  | .skipped => none

/-- A text that is read as a token of a class in some surroundings. -/
def Lexeme (s : Sym) (x : String) : Prop :=
  x ≠ "" ∧ ∃ rest role, firstMatch (x.toList ++ rest) = some (role, x.toList.length) ∧
    role.kindOf x = some s.name

theorem Lexeme.toList_ne_nil {s : Sym} {x : String} (h : Lexeme s x) : x.toList ≠ [] := by
  simpa using h.1

/-- The classes of tokens with their texts. -/
abbrev Wording := List (Sym × String)

def integerSyms : List Sym :=
  [.INTNUMBER_DEC, .SIGNED_INTNUMBER_DEC, .INTNUMBER_BIN, .SIGNED_INTNUMBER_BIN, .INTNUMBER_OCT,
    .SIGNED_INTNUMBER_OCT, .INTNUMBER_HEX, .SIGNED_INTNUMBER_HEX]

theorem mem_of_lookup {α β : Type} [BEq α] [LawfulBEq α] {x : α} {k : β} {l : List (α × β)}
    (h : l.lookup x = some k) : (x, k) ∈ l := by
  obtain ⟨l₁, l₂, rfl, -⟩ := lookup_eq_some_iff.mp h
  simp

def wordKinds : List String := "ID" :: keywords.map Prod.snd

theorem wordKind_mem (x : String) : wordKind x ∈ wordKinds := by
  rw [wordKind]
  cases h : keywords.lookup x with
  | none => exact mem_cons_self
  | some k =>
    exact mem_cons_of_mem _ (mem_map.mpr ⟨(x, k), mem_of_lookup h, rfl⟩)

theorem numeralKinds : (Sym.FLOATNUMBER :: integerSyms).map Sym.name =
    ["FLOATNUMBER", "INTNUMBER_DEC", "SIGNED_INTNUMBER_DEC", "INTNUMBER_BIN", "SIGNED_INTNUMBER_BIN",
      "INTNUMBER_OCT", "SIGNED_INTNUMBER_OCT", "INTNUMBER_HEX", "SIGNED_INTNUMBER_HEX"] := rfl

theorem kindOf_numeralRules {r : Rule} (hr : r ∈ numeralRules) {x : String}
    (hk : r.role.kindOf x = some k) :
    k ∈ (Sym.FLOATNUMBER :: integerSyms).map Sym.name ∧ r.role = .token k := by
  rw [numeralKinds]
  fin_cases hr <;> obtain rfl := Option.some.inj hk <;> simp

variable {s : Sym} {x : String}

/-! ## Words -/

/-- A character inside of a name without a backslash. -/
def isNameChar (c : Char) : Bool := c.isAlphanum || c = '_' || c = '$'

def Escaped (cs : List Char) : Prop :=
  ∃ ds, cs = '\\' :: ds ∧ ds ≠ [] ∧ ∀ c ∈ ds, Text.isBlank c = false

/-- A name without a backslash, or another word. -/
def Simple (cs : List Char) : Prop :=
  ∃ c ds, cs = c :: ds ∧ (c.isAlpha || c = '_') = true ∧ ∀ d ∈ ds, isNameChar d = true

theorem escaped_or_simple (h : spellAny identifier (cs ++ rest) = some cs.length) :
    Escaped cs ∨ Simple cs := by
  obtain ⟨ts, hts, x, rest', heq, hlen, hx⟩ := exists_madeOf h
  obtain rfl := append_inj_left heq hlen.symm
  fin_cases hts
  · obtain ⟨c, ds, rfl, hc, hds⟩ := hx.one
    obtain rfl : c = '\\' := by simpa using hc
    exact .inl ⟨ds, rfl, hds.ne_nil ⟨_, mem_cons_self, rfl⟩,
      fun c hc => by simpa [Stretch.many] using hds.last c hc⟩
  · obtain ⟨c, ds, rfl, hc, hds⟩ := hx.one
    exact .inr ⟨c, ds, rfl, hc, hds.last⟩

abbrev WordStart (c : Char) : Prop := (c.isAlpha || c = '_' || c = '\\') = true

theorem isNumberStart_eq_false (hc : WordStart c) :
    isNumberStart c = false := by
  have hdigit : c.isDigit = false := by
    rw [Bool.eq_false_iff]
    intro hdigit
    have h9 : '9'.val.toNat = 57 := rfl
    have hA : 'A'.val.toNat = 65 := rfl
    have ha : 'a'.val.toNat = 97 := rfl
    simp only [Char.isAlpha, Char.isUpper, Char.isLower, Char.isDigit, Bool.or_eq_true,
      Bool.and_eq_true, decide_eq_true_eq, ge_iff_le, UInt32.le_iff_toNat_le] at hc hdigit
    rcases hc with ((⟨hc, -⟩ | ⟨hc, -⟩) | rfl) | rfl
    · omega
    · omega
    · revert hdigit
      decide
    · revert hdigit
      decide
  have hne : c ≠ '\'' ∧ c ≠ '.' := by
    constructor <;> rintro rfl <;> revert hc <;> decide
  simp [isNumberStart, hdigit, hne]

theorem identifier_eq_none (hc : (c.isAlpha || c = '_' || c = '\\') = false) (cs : List Char) :
    spellAny identifier (c :: cs) = none := by
  simp only [Bool.or_eq_false_iff, decide_eq_false_iff_not] at hc
  rw [spellAny, findSome?_eq_none_iff]
  intro ts hts
  fin_cases hts <;> exact spell_of_mayStart (by simp [mayStart, Stretch.one, hc]) cs

theorem firstMatch_of_identifier (hc : WordStart c)
    (h : spellAny identifier (c :: cs) = some n) : firstMatch (c :: cs) = some (.word, n) := by
  have hplain : IsPlain c := by
    refine ⟨?_, ?_, ?_⟩ <;> rintro rfl <;> revert hc <;> decide
  have hother : firstAmong otherRules (c :: cs) = some (.word, n) := by
    have hrules : otherRules = ⟨.word, spellAny identifier⟩ :: otherRules.tail := rfl
    rw [hrules, firstAmong_cons]
    simp [h]
  rw [firstMatch_eq, firstAmong_quotedRules hplain, firstAmong_numeralRules (isNumberStart_eq_false hc), hother]
  rfl

theorem spell_one_run {p q : Char → Bool} {needed : Bool} (hc : p c = true) (hds : ∀ d ∈ ds, q d = true)
    (hne : needed = true → ds ≠ []) (hr : ∀ c, r.head? = some c → q c = false) :
    spell [.one p, ⟨q, needed, true⟩] (c :: (ds ++ r)) = some (c :: ds).length := by
  have hone : (Stretch.one p).reach (c :: (ds ++ r)) = 1 := by simp [Stretch.reach, Stretch.one, run, hc]
  have hmany : Stretch.reach ⟨q, needed, true⟩ (ds ++ r) = ds.length := by
    rw [Stretch.reach, if_pos rfl, run_append_of_all hds, run_eq_zero hr]
    rfl
  have hsome : ¬((needed && decide (ds.length = 0)) = true) := by simpa using hne
  rw [spell_cons, hone, drop_one, tail_cons, spell_cons, hmany, if_neg hsome]
  simp [spell, Nat.add_comm]

theorem Escaped.firstMatch (h : Escaped cs) (hr : ∀ c, r.head? = some c → Text.isBlank c = true) :
    firstMatch (cs ++ r) = some (.word, cs.length) := by
  obtain ⟨ds, rfl, hne, hds⟩ := h
  refine firstMatch_of_identifier (by simp) ?_
  exact spellAny_of_head (spell_one_run rfl (fun d hd => by simp [hds d hd]) (fun _ => hne)
    fun c hc => by simp [hr c hc])

theorem Simple.firstMatch (h : Simple cs) (hr : ∀ c, r.head? = some c → isNameChar c = false) :
    firstMatch (cs ++ r) = some (.word, cs.length) := by
  obtain ⟨c, ds, rfl, hc, hds⟩ := h
  refine firstMatch_of_identifier (by simp [WordStart, hc]) ?_
  have hne : c ≠ '\\' := by
    rintro rfl
    revert hc
    decide
  have hescaped : spell [.one (· = '\\'), .many fun c => !Text.isBlank c] (c :: (ds ++ r)) = none :=
    spell_of_mayStart (by simp [mayStart, Stretch.one, hne]) _
  change spellAny identifier (c :: (ds ++ r)) = _
  rw [identifier, spellAny, findSome?_cons, hescaped]
  exact spellAny_of_head (spell_one_run hc hds (by simp) hr)

theorem exists_quote {r : Rule} (hr : r ∈ quotedRules) (hk : r.role.kindOf x = some k)
    (hlen : r.length? (cs ++ rest) = some cs.length) (hne : cs ≠ []) :
    k = "STRING_LITERAL" ∧ ∃ ds, cs = '"' :: ds ∧ throughQuote (ds ++ rest) = some ds.length := by
  obtain ⟨c, cs, rfl⟩ := exists_cons_of_ne_nil hne
  fin_cases hr <;> cases hk
  rw [cons_append] at hlen
  dsimp only at hlen
  split at hlen
  · rename_i rest' heq
    obtain ⟨rfl, rfl⟩ := List.cons.inj heq
    exact ⟨rfl, cs, rfl, by simpa using hlen⟩
  · cases hlen

/-- The classes of tokens, with what their lexemes look like. -/
theorem Lexeme.cases (h : Lexeme s x) :
    (s.name = "STRING_LITERAL" ∧ ∃ cs rest, x.toList = '"' :: cs ∧
      throughQuote (cs ++ rest) = some cs.length) ∨
    (s.name ∈ (Sym.FLOATNUMBER :: integerSyms).map Sym.name ∧ ∃ rest,
      firstAmong numeralRules (x.toList ++ rest) = some (.token s.name, x.toList.length)) ∨
    (wordKind x = s.name ∧ (Escaped x.toList ∨ Simple x.toList)) ∨ (x, s.name) ∈ marks := by
  have hne := h.toList_ne_nil
  obtain ⟨-, rest, role, hm, hk⟩ := h
  rw [firstMatch_eq] at hm
  rcases Option.or_eq_some_iff.mp hm with hq | ⟨-, hm⟩
  · obtain ⟨rule, hrule, rfl, hlen⟩ := exists_rule hq
    obtain ⟨hname, cs, hx, hquote⟩ := exists_quote hrule hk hlen hne
    exact .inl ⟨hname, cs, rest, hx, hquote⟩
  · rcases Option.or_eq_some_iff.mp hm with hn | ⟨-, ho⟩
    · obtain ⟨rule, hrule, rfl, -⟩ := exists_rule hn
      obtain ⟨hname, hrole⟩ := kindOf_numeralRules hrule hk
      exact .inr (.inl ⟨hname, rest, hrole ▸ hn⟩)
    · obtain ⟨rule, hrule, rfl, hlen⟩ := exists_rule ho
      rw [otherRules, mem_append] at hrule
      rcases hrule with hrule | hrule
      · fin_cases hrule
        · exact .inr (.inr (.inl ⟨Option.some.inj hk, escaped_or_simple hlen⟩))
        · cases hk
      · obtain ⟨p, hp, rfl⟩ := mem_map.mp hrule
        obtain ⟨hpre, hlen⟩ := Option.ite_none_right_eq_some.mp hlen
        have hx : p.1.toList = x.toList := by
          rw [prefix_iff_eq_take.mp (List.isPrefixOf_iff_prefix.mp hpre), Option.some.inj hlen,
            take_left]
        have hkind : p.2 = s.name := Option.some.inj hk
        rw [← String.toList_inj.mp hx, ← hkind]
        exact .inr (.inr (.inr hp))

theorem not_mem_numerals (hk : k ∈ "STRING_LITERAL" :: wordKinds ++ marks.map Prod.snd) :
    k ∉ (Sym.FLOATNUMBER :: integerSyms).map Sym.name := by
  rw [numeralKinds]
  intro hmem
  fin_cases hmem <;> simp [wordKinds, keywords, marks] at hk

theorem Lexeme.word (h : Lexeme s x) (hs : s.name ∈ wordKinds) (hmark : s.name ∉ marks.map Prod.snd) :
    wordKind x = s.name ∧ (Escaped x.toList ∨ Simple x.toList) := by
  rcases h.cases with ⟨hq, -⟩ | ⟨hn, -⟩ | hw | hm
  · rw [hq] at hs
    simp [wordKinds, keywords] at hs
  · exact absurd hn (not_mem_numerals (by simp [hs]))
  · exact hw
  · exact absurd (mem_map_of_mem hm) hmark

theorem Lexeme.numeral (h : Lexeme s x) (hs : s ∈ Sym.FLOATNUMBER :: integerSyms) :
    ∃ rest, firstAmong numeralRules (x.toList ++ rest) = some (.token s.name, x.toList.length) := by
  have hname := mem_map_of_mem (f := Sym.name) hs
  rcases h.cases with ⟨hq, -⟩ | ⟨-, hn⟩ | ⟨hw, -⟩ | hm
  · exact absurd hname (not_mem_numerals (by simp [hq]))
  · exact hn
  · exact absurd hname (not_mem_numerals (mem_append_left _ (.tail _ (hw ▸ wordKind_mem x))))
  · exact absurd hname (not_mem_numerals (mem_append_right _ (mem_map_of_mem hm)))

theorem Lexeme.numberStart (h : Lexeme s x) (hs : s ∈ Sym.FLOATNUMBER :: integerSyms) :
    ∃ c cs, x.toList = c :: cs ∧ isNumberStart c = true := by
  obtain ⟨rest, hnumber⟩ := h.numeral hs
  obtain ⟨rule, hrule, -, hlen⟩ := exists_rule hnumber
  obtain ⟨c, cs, hx⟩ := exists_cons_of_ne_nil h.toList_ne_nil
  rw [hx, cons_append] at hlen
  exact ⟨c, cs, hx, isNumberStart_of_mem hrule hlen⟩

theorem Lexeme.firstMatch_number (h : Lexeme s x) (hs : s ∈ Sym.FLOATNUMBER :: integerSyms)
    (hr : Stops r) : firstMatch (x.toList ++ r) = some (.token s.name, x.toList.length) := by
  obtain ⟨rest, hnumber⟩ := h.numeral hs
  have hnumber' := firstAmong_stops h.toList_ne_nil hr local_of_mem_numeralRules hnumber
  have hquoted : firstAmong quotedRules (x.toList ++ r) = none := by
    obtain ⟨c, cs, hx, hc⟩ := h.numberStart hs
    rw [hx, cons_append]
    exact firstAmong_quotedRules (isNumberStart.isPlain hc) _
  rw [firstMatch_eq, hquoted, hnumber']
  rfl

/-! ## Strings -/

theorem throughQuote_pos (h : throughQuote cs = some n) : 0 < n := by
  fun_cases throughQuote cs <;> simp_all [throughQuote] <;> omega

theorem throughQuote_plain (hquote : c ≠ '"') (hback : c ≠ '\\') (cs : List Char) :
    throughQuote (c :: cs) = if c = '\n' then none else (throughQuote cs).map (· + 1) := by
  rw [throughQuote.eq_4]
  · exact fun h => hquote h
  · exact fun _ _ h => absurd h hback
  · exact fun h => absurd h hback

theorem throughQuote_append (r : List Char) (h : throughQuote (cs ++ rest) = some cs.length) :
    throughQuote (cs ++ r) = some cs.length ∧ ∃ ds, cs = ds ++ ['"'] := by
  -- A backslash takes two characters at once, so the induction is on the length.
  induction hn : cs.length using Nat.strong_induction_on generalizing cs with
  | _ n ih =>
    subst hn
    cases cs with
    | nil => exact absurd (throughQuote_pos h) (Nat.lt_irrefl 0)
    | cons c cs =>
      by_cases hquote : c = '"'
      · subst hquote
        rw [cons_append, throughQuote] at h
        obtain rfl : cs = [] := by simpa using h
        exact ⟨rfl, [], rfl⟩
      by_cases hback : c = '\\'
      · subst hback
        cases cs with
        | nil =>
          -- The backslash takes a character of the rest along, so the lexeme would be longer.
          cases rest with
          | nil => cases h
          | cons d rest =>
            simp only [cons_append, nil_append, throughQuote] at h
            split at h
            · obtain ⟨n, -, hn⟩ := Option.map_eq_some_iff.mp h
              simp at hn
            · cases h
        | cons c cs =>
          simp only [cons_append, throughQuote] at h ⊢
          split at h
          · rename_i hc
            obtain ⟨n, hn, hlen⟩ := Option.map_eq_some_iff.mp h
            obtain rfl : n = cs.length := by simpa using hlen
            obtain ⟨hr, ds, rfl⟩ := ih _ (by simp only [length_cons]; omega) hn rfl
            exact ⟨by rw [if_pos hc, hr]; rfl, '\\' :: c :: ds, rfl⟩
          · cases h
      · rw [cons_append, throughQuote_plain hquote hback] at h ⊢
        split at h
        · cases h
        · rename_i hfeed
          obtain ⟨n, hn, hlen⟩ := Option.map_eq_some_iff.mp h
          obtain rfl : n = cs.length := by simpa using hlen
          obtain ⟨hr, ds, rfl⟩ := ih _ (by simp) hn rfl
          exact ⟨by rw [if_neg hfeed, hr]; rfl, c :: ds, rfl⟩

theorem Lexeme.string (h : Lexeme .STRING_LITERAL x) :
    (∃ ds, x.toList = '"' :: (ds ++ ['"'])) ∧
      ∀ r, firstMatch (x.toList ++ r) = some (.token "STRING_LITERAL", x.toList.length) := by
  have hname : Sym.STRING_LITERAL.name = "STRING_LITERAL" := rfl
  obtain ⟨cs, rest, hx, hquote⟩ : ∃ cs rest, x.toList = '"' :: cs ∧
      throughQuote (cs ++ rest) = some cs.length := by
    rcases h.cases with ⟨-, hq⟩ | ⟨hn, -⟩ | ⟨hw, -⟩ | hm
    · exact hq
    · exact absurd hn (not_mem_numerals (by simp [hname]))
    · have hmem := wordKind_mem x
      rw [hw, hname] at hmem
      simp [wordKinds, keywords] at hmem
    · simp [hname, marks] at hm
  rw [hx]
  obtain ⟨-, ds, rfl⟩ := throughQuote_append [] hquote
  refine ⟨⟨ds, rfl⟩, fun r => ?_⟩
  have hquoted : firstAmong quotedRules ('"' :: ((ds ++ ['"']) ++ r)) =
      some (.token "STRING_LITERAL", (ds ++ ['"']).length + 1) := by
    simpa [firstAmong, quotedRules, openRules] using (throughQuote_append r hquote).1
  rw [cons_append, firstMatch_eq, hquoted]
  rfl

end RtlFlow.Verilog
