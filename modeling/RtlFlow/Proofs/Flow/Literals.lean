import Mathlib
import RtlFlow.Flow.Literal

/-!
# Integer literals

* `Literal.Written.value`: the value of a literal is that of its digits in its base.
* `Literal.width_of_quote`: the size of a literal with a quote.

Letters for a base are looked for in the whole text, where `d` and `b` can also be hexadecimal digits.
That the right one is found depends on the order: the letters that are looked for before the one of a
base are not among the digits of that base.
-/

namespace RtlFlow

open List

/-! ## Numerals -/

namespace Text

variable {cs : List Char} {base : Nat} {c : Char}

/-- The digits, by their values; those above nine again as capitals. -/
def numeralChars : List Char :=
  ['0', '1', '2', '3', '4', '5', '6', '7', '8', '9', 'a', 'b', 'c', 'd', 'e', 'f',
    'A', 'B', 'C', 'D', 'E', 'F']

/-- The value of a digit. -/
def worth (c : Char) : Nat := numeralChars.idxOf c.toLower

/-- Characters that are digits in a base. -/
def Digits (base : Nat) (cs : List Char) : Prop := ∀ c ∈ cs, c ∈ numeralChars ∧ worth c < base

/-- The number that digits stand for in a base. -/
def numberOf (base : Nat) (cs : List Char) : Nat := cs.foldl (fun n c => n * base + worth c) 0

theorem of_range {a z : Char} {P : Char → Bool}
    (h : ((range' a.toNat (z.toNat + 1 - a.toNat)).all fun k => P (Char.ofNat k)) = true)
    (hc : (a ≤ c && c ≤ z) = true) : P c = true := by
  simp only [Bool.and_eq_true, decide_eq_true_eq, Char.le_def, UInt32.le_iff_toNat_le] at hc
  have hlow : a.toNat ≤ c.toNat := hc.1
  have hhigh : c.toNat ≤ z.toNat := hc.2
  have hP := all_eq_true.mp h c.toNat (mem_range'_1.mpr ⟨hlow, by omega⟩)
  rwa [Char.ofNat_toNat] at hP

theorem worth_of_isDigit (h : c.isDigit = true) :
    c ∈ numeralChars ∧ worth c < 10 ∧ worth c = c.toNat - '0'.toNat := by
  have hfacts := of_range (a := '0') (z := '9') (P := fun c => decide (c ∈ numeralChars ∧
    worth c < 10 ∧ worth c = c.toNat - '0'.toNat)) (by decide) h
  exact of_decide_eq_true hfacts

theorem numeralChars_facts (h : c ∈ numeralChars) : digitValue? c = some (worth c) ∧
    isBlank c = false ∧ c ∉ ['_', '-', '+', 'x', 'X', 'o', 'O'] ∧ (worth c < 2 → c ∉ ['b', 'B']) := by
  have hall : (numeralChars.all fun c => decide (digitValue? c = some (worth c) ∧
    isBlank c = false ∧ c ∉ ['_', '-', '+', 'x', 'X', 'o', 'O'] ∧
      (worth c < 2 → c ∉ ['b', 'B']))) = true := by decide
  exact of_decide_eq_true (all_eq_true.mp hall c h)

theorem digitsValue?_of_digits (h : Digits base cs) (value : Nat) {pending : Bool}
    (hpending : cs = [] → pending = false) :
    digitsValue? base value pending cs = some (cs.foldl (fun n c => n * base + worth c) value) := by
  induction cs generalizing value pending with
  | nil => simp [digitsValue?, hpending rfl]
  | cons c cs ih =>
    obtain ⟨hc, hsmall⟩ := h c mem_cons_self
    obtain ⟨hvalue, -, hmarks, -⟩ := numeralChars_facts hc
    have hscore : (c == '_') = false := beq_eq_false_iff_ne.mpr fun h => hmarks (by simp [h])
    rw [digitsValue?, hscore, hvalue]
    simp only [Bool.false_eq_true, if_false, hsmall, if_true, foldl_cons]
    exact ih (fun c hc => h c (mem_cons_of_mem _ hc)) _ fun _ => rfl

theorem trimFront_of_digits (h : Digits base cs) : trimFront cs = cs := by
  cases cs with
  | nil => rfl
  | cons c cs =>
    have hblank := (numeralChars_facts (h c mem_cons_self).1).2.1
    rw [trimFront, dropWhile_cons_of_neg (by simp [hblank])]

theorem dropMark_of_digits (h : Digits base cs) : dropMark base cs = cs := by
  unfold dropMark
  split
  · next c rest =>
    obtain ⟨hc, hsmall⟩ := h c (by simp)
    obtain ⟨-, -, hmarks, hb⟩ := numeralChars_facts hc
    rw [if_neg]
    rintro hmarked
    simp only [Bool.or_eq_true, Bool.and_eq_true, beq_iff_eq] at hmarked
    rcases hmarked with (⟨-, rfl | rfl⟩ | ⟨-, rfl | rfl⟩) | ⟨rfl, rfl | rfl⟩
    iterate 4 exact hmarks (by decide)
    iterate 2 exact hb hsmall (by decide)
  · rfl

theorem readInt?_of_digits (h : Digits base cs) (hne : cs ≠ []) :
    readInt? base (String.ofList cs) = some (numberOf base cs : Int) := by
  have htrim : trimChars cs = cs := by
    rw [trimChars, trimFront_of_digits h, trimFront_of_digits fun c hc => h c (mem_reverse.mp hc),
      reverse_reverse]
  have hvalue : (digitsValue? base 0 true (dropMark base cs)).map Int.ofNat =
      some (numberOf base cs : Int) := by
    rw [dropMark_of_digits h, digitsValue?_of_digits h 0 fun h => absurd h hne]
    rfl
  rw [readInt?, String.toList_ofList, htrim]
  -- No digit is a sign.
  split
  · exact absurd (h '-' (by simp)).1 (by decide)
  · exact absurd (h '+' (by simp)).1 (by decide)
  · exact hvalue

theorem numberOf_toDigits (k : Nat) : numberOf 10 (Nat.toDigits 10 k) = k := by
  have hdigits : ∀ c ∈ Nat.toDigits 10 k, c.isDigit = true :=
    fun c => Nat.isDigit_of_mem_toDigits (by decide) (by decide)
  calc numberOf 10 (Nat.toDigits 10 k)
      = Nat.ofDigitChars 10 (Nat.toDigits 10 k) 0 := foldl_ext _ _ _ fun n c hc => by
        rw [(worth_of_isDigit (hdigits c hc)).2.2, Nat.mul_comm]
    _ = k := Nat.ofDigitChars_ten_toDigits

end Text

namespace Literal

open Text

variable {cs front ds : List Char} {c : Char} {l : BaseLetter} {base k : Nat}

theorem rows_eq (h : '\n' ∉ cs) : rows cs = [cs] := by
  unfold rows
  induction cs with
  | nil => rfl
  | cons c cs ih =>
    rw [mem_cons, not_or] at h
    rw [Text.splitAt, beq_eq_false_iff_ne.mpr (Ne.symm h.1), ih h.2]
    rfl

theorem digitsAfter?_eq_none (h : ∀ c ∈ cs, l.is c = false) : digitsAfter? l cs = none := by
  fun_induction digitsAfter? l cs with
  | case1 => rfl
  | case2 => rfl
  | case3 c cs _ hc => exact absurd hc (by simp [h c mem_cons_self])
  | case4 c cs _ _ ih => exact ih fun c hc => h c (mem_cons_of_mem _ hc)

theorem digitsAfter?_append (h : ∀ c ∈ front, l.is c = false) (hc : l.is c = true) (hds : ds ≠ []) :
    digitsAfter? l (front ++ c :: ds) = some ds := by
  induction front with
  | nil =>
    obtain ⟨d, ds, rfl⟩ := exists_cons_of_ne_nil hds
    simp [digitsAfter?, hc]
  | cons x front ih =>
    rw [cons_append, digitsAfter?, if_neg (by simp [h x mem_cons_self])]
    · exact ih fun c hc => h c (mem_cons_of_mem _ hc)
    · simp

/-- Digits in a base, with underscores behind the first one. -/
structure Numeral (base : Nat) (ds : List Char) : Prop where
  digits : Digits base (ds.filter (· != '_'))
  first : ∃ c ∈ ds.head?, c ≠ '_'

/-- The text of an integer with its base and its digits. They can stand alone, or behind a size, a
quote, a sign and a letter for the base. -/
inductive Written : Nat → (text digits : List Char) → Prop
  | plain {ds : List Char} (hds : Numeral 10 ds) : Written 10 ds ds
  | based {size ds : List Char} (sign : List Char) {l : BaseLetter} {c : Char}
      (hsize : ∀ d ∈ size, d.isDigit) (hsign : sign ∈ [[], ['s'], ['S']])
      (hl : l ∈ baseLetters) (hc : l.is c) (hds : Numeral l.base ds) :
      Written l.base (size ++ '\'' :: (sign ++ c :: ds)) ds

theorem Numeral.ne_nil (h : Numeral base ds) : ds.filter (· != '_') ≠ [] := by
  obtain ⟨c, hc, hscore⟩ := h.first
  exact ne_nil_of_mem (mem_filter.mpr ⟨mem_of_head? hc, by simpa using hscore⟩)

/-- The digits of a text without underscores are those behind the letter, if the letters that are
looked for before do not occur. -/
theorem digits_eq {l₁ l₂ : List BaseLetter} (hl : baseLetters = l₁ ++ l :: l₂) (hfeed : '\n' ∉ cs)
    (hbefore : ∀ l' ∈ l₁, ∀ c ∈ cs, l'.is c = false) (hds : digitsAfter? l cs = some ds) :
    digits cs = (l.base, ds) := by
  have hnone : (l₁.findSome? fun l => (digitsAfter? l cs).map (l.base, ·)) = none :=
    List.findSome?_eq_none_iff.mpr fun l' hl' => by rw [digitsAfter?_eq_none (hbefore l' hl')]; rfl
  simp only [digits, rows_eq hfeed, List.findSome?_singleton]
  rw [hl, findSome?_append, hnone, findSome?_cons, hds]
  rfl

theorem value_eq {s : String} (hs : (Text.without '_' s).toList = cs) (hfeed : '\n' ∉ cs)
    (hopen : '?' ∉ cs) (hdigits : digits cs = (base, ds)) (hds : Digits base ds) (hne : ds ≠ []) :
    value s = .ok (.int (numberOf base ds)) := by
  have hnone : hasOpenDigit cs = false := by
    rw [hasOpenDigit, contains_eq_mem, decide_eq_false_iff_not]
    exact fun hmem => hopen ((dropWhile_suffix _).mem hmem)
  simp only [value, hs, rows_eq hfeed, any_cons, any_nil, hnone, Bool.or_self, Bool.false_eq_true,
    if_false, hdigits, readInt, readInt?_of_digits hds hne]
  rfl

/-- None of the letters is a digit in the base. -/
def areApart (ls : List BaseLetter) (base : Nat) : Bool :=
  ls.all fun l => numeralChars.all fun c => base ≤ worth c || !l.is c

theorem is_eq_false_of_digits {ls : List BaseLetter} (h : areApart ls base = true)
    (hds : Digits base ds) : ∀ l ∈ ls, ∀ c ∈ ds, l.is c = false := by
  intro l hl c hc
  obtain ⟨hchar, hsmall⟩ := hds c hc
  have hapart := all_eq_true.mp (all_eq_true.mp h l hl) c hchar
  simpa [Nat.not_le.mpr hsmall] using hapart

/-- The letters that are looked for before a letter are not among the digits of its base. -/
theorem exists_letters_before (hl : l ∈ baseLetters) (hc : l.is c = true) :
    ∃ l₁ l₂, baseLetters = l₁ ++ l :: l₂ ∧ areApart l₁ l.base = true ∧
      (∀ l' ∈ l₁, l'.is c = false) ∧ c ∉ ['_', '\n', '?'] := by
  simp only [BaseLetter.is, Bool.or_eq_true, beq_iff_eq] at hc
  fin_cases hl
  · exact ⟨[], _, rfl, by decide, by rcases hc with rfl | rfl <;> decide⟩
  · exact ⟨[⟨'h', 'H', 16⟩], _, rfl, by decide, by rcases hc with rfl | rfl <;> decide⟩
  · exact ⟨[⟨'h', 'H', 16⟩, ⟨'d', 'D', 10⟩], _, rfl, by decide,
      by rcases hc with rfl | rfl <;> decide⟩
  · exact ⟨[⟨'h', 'H', 16⟩, ⟨'d', 'D', 10⟩, ⟨'o', 'O', 8⟩], _, rfl, by decide,
      by rcases hc with rfl | rfl <;> decide⟩

theorem of_mem_front {size sign : List Char} (hsize : ∀ d ∈ size, d.isDigit)
    (hsign : sign ∈ [[], ['s'], ['S']]) {x : Char} (hx : x ∈ size ++ '\'' :: sign) :
    x ∉ ['_', '\n', '?'] ∧ ∀ l ∈ baseLetters, l.is x = false := by
  rcases mem_append.mp hx with hx | hx
  · exact of_decide_eq_true (of_range (a := '0') (z := '9')
      (P := fun x => decide (x ∉ ['_', '\n', '?'] ∧ ∀ l ∈ baseLetters, l.is x = false)) (by decide)
      (hsize x hx))
  · fin_cases hsign <;> fin_cases hx <;> decide

theorem Written.value {s : String} (h : Written base s.toList ds) :
    value s = .ok (.int (numberOf base (ds.filter (· != '_')))) := by
  generalize hs : s.toList = text at h
  have hwithout : (Text.without '_' s).toList = text.filter (· != '_') := by
    rw [Text.without, String.toList_ofList, hs]
  cases h with
  | plain hds =>
    have hclean {x : Char} (hx : x ∉ numeralChars) : x ∉ ds.filter (· != '_') :=
      fun h => hx (hds.digits x h).1
    have hfeed := hclean (x := '\n') (by decide)
    refine value_eq hwithout hfeed (hclean (by decide)) ?_ hds.digits hds.ne_nil
    have hnone : (baseLetters.findSome? fun l =>
        (digitsAfter? l (ds.filter (· != '_'))).map (l.base, ·)) = none :=
      List.findSome?_eq_none_iff.mpr fun l hl => by
        rw [digitsAfter?_eq_none (is_eq_false_of_digits (by decide) hds.digits l hl)]
        rfl
    rw [digits, rows_eq hfeed]
    simp only [List.findSome?_singleton, hnone]
  | @based size _ sign l c hsize hsign hl hc hds =>
    obtain ⟨l₁, l₂, hsplit, hapart, hbefore, hplain⟩ := exists_letters_before hl hc
    have hfront {x : Char} := of_mem_front (x := x) hsize hsign
    have heq : (size ++ '\'' :: (sign ++ c :: ds)).filter (· != '_') =
        (size ++ '\'' :: sign) ++ c :: ds.filter (· != '_') := by
      have hscore : c ≠ '_' := fun h => hplain (by simp [h])
      rw [show size ++ '\'' :: (sign ++ c :: ds) = (size ++ '\'' :: sign) ++ c :: ds by simp,
        filter_append, filter_cons_of_pos (by simpa using hscore), filter_eq_self.mpr]
      intro x hx
      have hx := (hfront hx).1
      simp_all
    rw [heq] at hwithout
    have hclean {x : Char} (hx : x ∈ ['\n', '?']) :
        x ∉ (size ++ '\'' :: sign) ++ c :: ds.filter (· != '_') := by
      rw [mem_append, mem_cons]
      rintro (h | rfl | h)
      · exact (hfront h).1 (mem_cons_of_mem _ hx)
      · exact hplain (mem_cons_of_mem _ hx)
      · have hdigit := (hds.digits x h).1
        fin_cases hx <;> exact absurd hdigit (by decide)
    refine value_eq hwithout (hclean (by simp)) (hclean (by simp))
      (digits_eq hsplit (hclean (by simp)) ?_ ?_) hds.digits hds.ne_nil
    · intro l' hl' x hx
      rw [mem_append, mem_cons] at hx
      rcases hx with hx | rfl | hx
      · exact (hfront hx).2 l' (hsplit ▸ mem_append_left _ hl')
      · exact hbefore l' hl'
      · exact is_eq_false_of_digits hapart hds.digits l' hl' x hx
    · exact digitsAfter?_append (fun x hx => (hfront hx).2 l hl) hc hds.ne_nil

/-! ## Decimal digits -/

theorem isDigit_of_mem_toDigits {c : Char} (h : c ∈ Nat.toDigits 10 k) : c.isDigit = true :=
  Nat.isDigit_of_mem_toDigits (by decide) (by decide) h

theorem filter_toDigits : (Nat.toDigits 10 k).filter (· != '_') = Nat.toDigits 10 k := by
  refine filter_eq_self.mpr fun c hc => ?_
  have hscore : c ≠ '_' := by
    rintro rfl
    exact absurd (isDigit_of_mem_toDigits hc) (by decide)
  simpa using hscore

theorem numeral_toDigits : Numeral 10 (Nat.toDigits 10 k) where
  digits := by
    rw [filter_toDigits]
    exact fun c hc => (worth_of_isDigit (isDigit_of_mem_toDigits hc)).imp_right And.left
  first := by
    obtain ⟨c, cs, heq⟩ := exists_cons_of_ne_nil (Nat.toDigits_ne_nil (b := 10) (n := k))
    refine ⟨c, by simp [heq], ?_⟩
    rintro rfl
    exact absurd (isDigit_of_mem_toDigits (k := k) (by rw [heq]; exact mem_cons_self)) (by decide)

theorem value_ofInt (k : Nat) : value (Text.ofInt k) = .ok (.int k) := by
  have hwritten : Written 10 (Text.ofInt k).toList (Nat.toDigits 10 k) := by
    show Written 10 (String.ofList (Nat.toDigits 10 k)).toList _
    rw [String.toList_ofList]
    exact .plain numeral_toDigits
  rw [hwritten.value, filter_toDigits, numberOf_toDigits]

/-! ## Sizes -/

variable {b e : Char} {t size : List Char}

theorem sizeBefore?_eq_none (h : '\'' ∉ cs) : sizeBefore? l cs = none := by
  induction cs with
  | nil => rfl
  | cons c cs ih =>
    rw [mem_cons, not_or] at h
    rw [sizeBefore?, ih h.2]
    rintro b d t rfl
    simp at h

theorem sizeBefore?_quote (hsize : '\'' ∉ size) (ht : '\'' ∉ b :: e :: t) :
    sizeBefore? l (size ++ '\'' :: b :: e :: t) =
      if size ≠ [] ∧ l.is b then some size else none := by
  induction size with
  | nil =>
    rw [nil_append, sizeBefore?, sizeBefore?_eq_none ht]
    · simp
    · grind
  | cons c size ih =>
    rw [mem_cons, not_or] at hsize
    rw [cons_append, sizeBefore?.eq_def]
    simp only [ih hsize.2]
    cases size with
    | nil => by_cases hb : l.is b <;> simp [hb]
    | cons d size =>
      have hd : d ≠ '\'' := fun h => hsize.2 (by simp [h])
      by_cases hb : l.is b <;> simp [hb, hd]

theorem width_quote {x : String} (hfeed : '\n' ∉ (Text.without '_' x).toList)
    (hx : (Text.without '_' x).toList = size ++ '\'' :: b :: e :: t)
    (h : '\'' ∉ size ++ b :: e :: t) :
    width x = if size ≠ [] ∧ baseLetters.any (·.is b) then readInt 10 size else .ok 32 := by
  rw [mem_append, not_or] at h
  have hfind : (baseLetters.findSome? fun l => sizeBefore? l (size ++ '\'' :: b :: e :: t)) =
      if size ≠ [] ∧ baseLetters.any (·.is b) then some size else none := by
    simp only [sizeBefore?_quote h.1 h.2]
    induction baseLetters with
    | nil => simp
    | cons l ls ih =>
      rw [List.findSome?_cons, ih, any_cons]
      by_cases hb : l.is b <;> by_cases hne : size = [] <;> simp [hb, hne]
  have hrows := rows_eq hfeed
  rw [hx] at hrows
  simp only [width, hx, hrows, List.findSome?_singleton, hfind]
  split_ifs <;> rfl

/-- The width is the number in front of the quote, if there is one and the letter for the base
follows the quote at once. Otherwise it is 32. -/
theorem width_of_quote {x : String} (hfeed : '\n' ∉ (Text.without '_' x).toList) :
    ('\'' ∉ (Text.without '_' x).toList → width x = .ok 32) ∧ ∀ size b e t,
      (Text.without '_' x).toList = size ++ '\'' :: b :: e :: t → '\'' ∉ size ++ b :: e :: t →
        width x = if size ≠ [] ∧ baseLetters.any (·.is b) then readInt 10 size else .ok 32 := by
  refine ⟨fun h => ?_, fun size b e t => width_quote hfeed⟩
  simp only [width, rows_eq hfeed, List.findSome?_singleton, sizeBefore?_eq_none h]
  rfl

theorem width_of_quote_signed : width "8'sh3F" = .ok 32 ∧ width "8'h3F" = .ok 8 :=
  ⟨((width_of_quote (by decide)).2 ['8'] 's' 'h' ['3', 'F'] (by decide) (by decide)).trans
      (if_neg (by decide)),
    ((width_of_quote (by decide)).2 ['8'] 'h' '3' ['F'] (by decide) (by decide)).trans
      (if_pos (by decide))⟩

end Literal

end RtlFlow
