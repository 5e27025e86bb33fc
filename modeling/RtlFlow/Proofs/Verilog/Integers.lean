import Mathlib
import RtlFlow.Flow.Tree
import RtlFlow.Proofs.Flow.Literals
import RtlFlow.Proofs.Scalar
import RtlFlow.Proofs.Verilog.Lexemes

/-!
# Integer tokens

The value of an integer token is what its digits denote in its base, and printing a value undoes
reading it.
-/

namespace RtlFlow

open List

namespace Verilog

open Text Literal

variable {f p : Char → Bool} {cs : List Char} {base : Nat} {c : Char} {l : BaseLetter}

/-- All of some characters that have a value are digits in a base. -/
def Counts (base : Nat) (p : Char → Bool) : Prop :=
  ∀ c, p c = true → isOpenDigit c = false → c ∈ numeralChars ∧ worth c < base

theorem counts_of_range {a z : Char}
    (h : ((range' a.toNat (z.toNat + 1 - a.toNat)).all fun k =>
      decide (Char.ofNat k ∈ numeralChars ∧ worth (Char.ofNat k) < base)) = true)
    (hc : (a ≤ c && c ≤ z) = true) : c ∈ numeralChars ∧ worth c < base :=
  of_decide_eq_true (of_range (P := fun c => decide (c ∈ numeralChars ∧ worth c < base)) h hc)

theorem counts_isBinDigit : Counts 2 isBinDigit := by
  intro c hc hopen
  simp only [isBinDigit, hopen, Bool.or_false, Bool.or_eq_true, decide_eq_true_eq] at hc
  rcases hc with rfl | rfl <;> decide

theorem counts_isOctDigit : Counts 8 isOctDigit := by
  intro c hc hopen
  rw [isOctDigit, hopen, Bool.or_false] at hc
  exact counts_of_range (by decide) hc

theorem counts_isDecDigit : Counts 10 isDecDigit := by
  intro c hc hopen
  rw [isDecDigit, hopen, Bool.or_false] at hc
  exact counts_of_range (a := '0') (z := '9') (by decide) hc

theorem counts_isHexDigit : Counts 16 isHexDigit := by
  intro c hc hopen
  rw [isHexDigit, hopen, Bool.or_false, Bool.or_eq_true, Bool.or_eq_true] at hc
  rcases hc with (hc | hc) | hc
  · exact counts_of_range (a := '0') (z := '9') (by decide) hc
  · exact counts_of_range (by decide) hc
  · exact counts_of_range (by decide) hc

theorem numeral_of_counts (hp : Counts base p) (hopen : ∀ d ∈ c :: cs, isOpenDigit d = false)
    (hc : p c = true) (hcs : ∀ d ∈ cs, (p d || d = '_') = true) : Numeral base (c :: cs) where
  digits d hd := by
    obtain ⟨hd, hscore⟩ := mem_filter.mp hd
    refine hp d ?_ (hopen d hd)
    rcases mem_cons.mp hd with rfl | hd
    · exact hc
    · have := hcs d hd
      simp_all
  first := by
    refine ⟨c, rfl, ?_⟩
    rintro rfl
    exact absurd (hp _ hc (by decide)).1 (by decide)

theorem madeOf_of_eq_length {ts : List Stretch} (h : spell ts cs = some cs.length) : MadeOf ts cs := by
  obtain ⟨x, rest, heq, hlen, hx⟩ := madeOf_of_eq_some h
  have hfront : x <+: cs := ⟨rest, heq.symm⟩
  obtain rfl := hfront.eq_of_length hlen
  exact hx

theorem exists_written_of_basedNumber {letters : List (Char → Bool)} (hl : l ∈ baseLetters)
    (hletters : letters = [letter l.small l.capital] ∨
      letters = [signLetter, letter l.small l.capital])
    (hp : Counts l.base p) (hf : ∀ c, f c = true → p c = true)
    (hopen : ∀ c ∈ cs, isOpenDigit c = false)
    (h : spell (basedNumber letters f p) cs = some cs.length) : ∃ ds, Written l.base cs ds := by
  cases madeOf_of_eq_length h with
  | cons hsize _ _ hquote =>
    obtain ⟨q, cs, rfl, hq, hbase⟩ := hquote.one
    obtain rfl : q = '\'' := by simpa using hq
    have hnumeral {cs : List Char} (hcs : MadeOf [.one f, .any fun c => p c || c = '_'] cs)
        (hopen : ∀ c ∈ cs, isOpenDigit c = false) : Numeral l.base cs := by
      obtain ⟨c, tail, rfl, hc, htail⟩ := hcs.one
      exact numeral_of_counts hp hopen (hf c hc) htail.last
    have his {x : Char} (hx : letter l.small l.capital x = true) : l.is x = true := by
      simpa [letter, BaseLetter.is] using hx
    rcases hletters with rfl | rfl
    · obtain ⟨x, cs, rfl, hx, hcs⟩ := hbase.one
      exact ⟨_, .based [] hsize (by simp) hl (his hx) (hnumeral hcs fun c hc => hopen c (by simp [hc]))⟩
    · obtain ⟨y, cs, rfl, hy, hletter⟩ := hbase.one
      obtain ⟨x, cs, rfl, hx, hcs⟩ := hletter.one
      refine ⟨_, .based [y] hsize ?_ hl (his hx) (hnumeral hcs fun c hc => hopen c (by simp [hc]))⟩
      simpa [signLetter, letter] using hy

theorem exists_written_of_decimalNumber (hopen : ∀ c ∈ cs, isOpenDigit c = false)
    (h : spellAny decimalNumber cs = some cs.length) : ∃ ds, Written 10 cs ds := by
  obtain ⟨ts, hts, h⟩ := exists_of_findSome?_eq_some h
  fin_cases hts
  · exact exists_written_of_basedNumber (l := ⟨'d', 'D', 10⟩) (by simp [baseLetters]) (.inl rfl)
      counts_isDecDigit (fun _ => id) hopen h
  · obtain ⟨c, cs, rfl, hc, hcs⟩ := (madeOf_of_eq_length h).one
    refine ⟨_, .plain (numeral_of_counts (p := Char.isDigit) ?_ hopen hc hcs.last)⟩
    exact fun c hc _ => (worth_of_isDigit hc).imp_right And.left

def integerKinds : List (String × Nat) :=
  [("INTNUMBER_BIN", 2), ("SIGNED_INTNUMBER_BIN", 2), ("INTNUMBER_OCT", 8),
   ("SIGNED_INTNUMBER_OCT", 8), ("INTNUMBER_DEC", 10), ("SIGNED_INTNUMBER_DEC", 10),
   ("INTNUMBER_HEX", 16), ("SIGNED_INTNUMBER_HEX", 16)]

theorem exists_written {r : Rule} (hr : r ∈ rules) {kind : String}
    (hkind : (kind, base) ∈ integerKinds) (hrole : r.role = .token kind)
    (hopen : ∀ c ∈ cs, isOpenDigit c = false) (h : r.length? cs = some cs.length) :
    ∃ ds, Written base cs ds := by
  rcases mem_append.mp hr with hr | hr
  · have hletter (i : Fin 4) : baseLetters[i] ∈ baseLetters := getElem_mem _
    fin_cases hr <;> try cases hrole
    all_goals
      simp only [integerKinds, mem_cons, Prod.mk.injEq, String.reduceEq, false_and, true_and, or_false,
        false_or, not_mem_nil] at hkind
    all_goals subst hkind
    · refine exists_written_of_basedNumber (hletter 3) (.inr rfl) counts_isBinDigit ?_ hopen h
      simp +contextual
    · exact exists_written_of_basedNumber (hletter 3) (.inl rfl) counts_isBinDigit (fun _ => id) hopen h
    · exact exists_written_of_basedNumber (hletter 2) (.inr rfl) counts_isOctDigit (fun _ => id) hopen h
    · exact exists_written_of_basedNumber (hletter 2) (.inl rfl) counts_isOctDigit (fun _ => id) hopen h
    · exact exists_written_of_basedNumber (hletter 0) (.inr rfl) counts_isHexDigit (fun _ => id) hopen h
    · exact exists_written_of_basedNumber (hletter 0) (.inl rfl) counts_isHexDigit (fun _ => id) hopen h
    · exact exists_written_of_basedNumber (hletter 1) (.inr rfl) counts_isDecDigit (fun _ => id) hopen h
    · exact exists_written_of_decimalNumber hopen h
  · obtain ⟨⟨m, kind'⟩, hm, rfl⟩ := mem_map.mp hr
    cases hrole
    have : (marks.all fun m => !(integerKinds.map Prod.fst).contains m.2) = true := by decide
    have hnot := all_eq_true.mp this _ hm
    simp only [contains_eq_mem, Bool.not_eq_true', decide_eq_false_iff_not] at hnot
    exact absurd (mem_map_of_mem hkind) hnot

end Verilog

namespace Literal

open Text

theorem toText_value (v w : Nat) (isReal : Bool) :
    (Tree.value (.int v) (.int w) isReal false).toText =
      .ok ((if w = 32 then "" else Text.ofInt w) ++ "'d" ++ Text.ofInt v) := by
  have hlt : (Scalar.int v).lt (.int 0) = .ok false := by
    have hcompare : compare (v : Int) 0 ≠ .lt := by
      rw [Ne, compare_lt_iff_lt]
      omega
    simpa [Scalar.lt, Scalar.order, Scalar.int?] using hcompare
  have hwidth : Tree.widthText (.int w) = if w = 32 then "" else Text.ofInt w := by
    have hsame : (Scalar.int w == .int 32) = true ↔ w = 32 := by
      rw [Scalar.int_same_iff]
      omega
    simp only [Tree.widthText, hsame, Scalar.toText]
  rw [Tree.toText, Tree.valueText, hlt, hwidth]
  · simp [Scalar.abs, Scalar.int?, Scalar.toText]
  · rintro _ ⟨⟩

/-- The value and the width of a printed value. -/
theorem exists_printed (v w : Nat) (isReal : Bool) :
    ∃ s, (Tree.value (.int v) (.int w) isReal false).toText = .ok s ∧ value s = .ok (.int v) ∧
      width s = .ok w := by
  refine ⟨_, toText_value v w isReal, ?_⟩
  generalize hs : (if w = 32 then "" else Text.ofInt w) ++ "'d" ++ Text.ofInt v = s
  obtain ⟨e, t, het⟩ := exists_cons_of_ne_nil (Nat.toDigits_ne_nil (b := 10) (n := v))
  obtain ⟨size, htext, hdigits, hwidth⟩ : ∃ size : List Char,
      s.toList = size ++ '\'' :: 'd' :: Nat.toDigits 10 v ∧ (∀ c ∈ size, c.isDigit) ∧
        (size = [] ∧ w = 32 ∨ size = Nat.toDigits 10 w) := by
    have hofInt (k : Nat) : (Text.ofInt k).toList = Nat.toDigits 10 k := String.toList_ofList
    by_cases hw : w = 32
    · exact ⟨[], by simp [← hs, hw, hofInt], by simp, .inl ⟨rfl, hw⟩⟩
    · exact ⟨Nat.toDigits 10 w, by simp [← hs, hw, hofInt], fun c hc => isDigit_of_mem_toDigits hc,
        .inr rfl⟩
  have hwritten : Written 10 s.toList (Nat.toDigits 10 v) := by
    rw [htext]
    exact .based [] (l := ⟨'d', 'D', 10⟩) hdigits (by simp) (by simp [baseLetters]) rfl
      numeral_toDigits
  refine ⟨by rw [hwritten.value, filter_toDigits, numberOf_toDigits], ?_⟩
  have hdigit {c : Char} (hc : c ∈ size ++ Nat.toDigits 10 v) : c.isDigit = true :=
    (mem_append.mp hc).elim (hdigits c) isDigit_of_mem_toDigits
  have hmarks {c : Char} (hc : c.isDigit = false) : c ∉ size ∧ c ∉ e :: t := by
    rw [← not_or, ← mem_append, ← het]
    exact fun h => absurd (hdigit h) (by simp [hc])
  have hwithout : (Text.without '_' s).toList = size ++ '\'' :: 'd' :: e :: t := by
    have hscore := hmarks (c := '_') rfl
    rw [Text.without, String.toList_ofList, htext, het, filter_eq_self]
    rintro c hc
    rw [bne_iff_ne]
    rintro rfl
    simp_all
  have hfeed : '\n' ∉ size ++ '\'' :: 'd' :: e :: t := by
    have := hmarks (c := '\n') rfl
    simp_all
  have hquote := hmarks (c := '\'') rfl
  rw [width_quote (hwithout ▸ hfeed) hwithout (by simp_all)]
  rcases hwidth with ⟨rfl, rfl⟩ | rfl
  · rfl
  · have hne : Nat.toDigits 10 w ≠ [] := Nat.toDigits_ne_nil
    have hw := numeral_toDigits (k := w).digits
    rw [filter_toDigits] at hw
    rw [if_pos ⟨hne, rfl⟩, readInt, readInt?_of_digits hw hne, numberOf_toDigits]
    rfl

end Literal

namespace Verilog

open Text Literal

/-- A text that a rule for integers takes as a whole has the value of its digits in its base, unless
one of them is open. A printed value is read back, with its width. -/
theorem value_of_token :
    (∀ {r : Rule}, r ∈ rules → ∀ {kind base}, (kind, base) ∈ integerKinds → r.role = .token kind →
      ∀ {s : String}, r.length? s.toList = some s.toList.length →
        (∀ c ∈ s.toList, isOpenDigit c = false) →
        ∃ ds, Written base s.toList ds ∧
          value s = .ok (.int (numberOf base (ds.filter (· != '_'))))) ∧
    ∀ (v w : Nat) (isReal : Bool), ∃ s, (Tree.value (.int v) (.int w) isReal false).toText = .ok s ∧
      value s = .ok (.int v) ∧ width s = .ok w := by
  refine ⟨fun hr kind base hkind hrole s hs hopen => ?_, exists_printed⟩
  obtain ⟨ds, hds⟩ := exists_written hr hkind hrole hopen hs
  exact ⟨ds, hds, hds.value⟩

theorem value_of_token_signed : ∃ ds, Written 16 "8'sHd_3".toList ds ∧
    value "8'sHd_3" = .ok (.int (numberOf 16 (ds.filter (· != '_')))) :=
  value_of_token.1 (getElem_mem (l := rules) (n := 9) (by decide)) (by decide) rfl rfl
    (by simp [isOpenDigit])

end Verilog

end RtlFlow
