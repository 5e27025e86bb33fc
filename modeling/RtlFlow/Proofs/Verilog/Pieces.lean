import Mathlib
import RtlFlow.Proofs.Verilog.Lexemes
import RtlFlow.Verilog.Lexer

/-!
# A text and its pieces

The lexer cuts a text into pieces that follow each other without a hole: gaps, comments, directives,
tokens and single illegal characters. The line of a piece is found without looking back, by counting
line feeds in gaps, comments and directives, because no token has one.
-/

namespace RtlFlow.Verilog

open List

variable {cs : List Char} {n : Nat}

/-! ## What is skipped -/

/-- A comment to the end of the line, or one up to the first `*/`. -/
inductive IsComment : List Char → Prop
  | line {cs : List Char} (h : '\n' ∉ cs) : IsComment ('/' :: '/' :: (cs ++ ['\n']))
  | block {cs : List Char} (h : ¬ ['*', '/'] <:+: cs) :
      IsComment ('/' :: '*' :: (cs ++ ['*', '/']))

/-- A compiler directive, which goes to the end of its line. -/
inductive IsDirective : List Char → Prop
  | line {cs : List Char} (h : '\n' ∉ cs) : IsDirective ('`' :: (cs ++ ['\n']))

theorem throughLineFeed_eq_some (h : throughLineFeed cs = some n) :
    ∃ ds rest, cs = ds ++ '\n' :: rest ∧ '\n' ∉ ds ∧ n = ds.length + 1 := by
  induction cs generalizing n with
  | nil => cases h
  | cons c cs ih =>
    rw [throughLineFeed] at h
    split at h
    · next hc => exact ⟨[], cs, by rw [hc]; rfl, by simp, by simpa using h.symm⟩
    · next hc =>
      obtain ⟨m, hm, rfl⟩ := Option.map_eq_some_iff.mp h
      obtain ⟨ds, rest, rfl, hds, rfl⟩ := ih hm
      exact ⟨c :: ds, rest, rfl, by simpa [Ne.symm hc] using hds, rfl⟩

theorem throughCommentEnd_eq_some (h : throughCommentEnd cs = some n) :
    ∃ ds rest, cs = ds ++ '*' :: '/' :: rest ∧ ¬ ['*', '/'] <:+: ds ∧ n = ds.length + 2 := by
  induction cs generalizing n with
  | nil => cases h
  | cons c cs ih =>
    by_cases hend : ∃ rest, c :: cs = '*' :: '/' :: rest
    · obtain ⟨rest, heq⟩ := hend
      rw [heq, throughCommentEnd] at h
      exact ⟨[], rest, heq, by simp, (Option.some.inj h).symm⟩
    · rw [throughCommentEnd.eq_2 _ _ fun rest hc hcs => hend ⟨rest, by rw [hc, hcs]⟩] at h
      obtain ⟨m, hm, rfl⟩ := Option.map_eq_some_iff.mp h
      obtain ⟨ds, rest, rfl, hds, rfl⟩ := ih hm
      refine ⟨c :: ds, rest, rfl, ?_, rfl⟩
      rw [infix_cons_iff]
      rintro (⟨tail, htail⟩ | hinfix)
      · exact hend ⟨tail ++ '*' :: '/' :: rest, by rw [← cons_append, ← htail]; rfl⟩
      · exact hds hinfix

/-! ## Lexemes -/

/-- The lexemes of a class are not empty, and they are of some form. -/
def Takes (length? : List Char → Option Nat) (P : List Char → Prop) : Prop :=
  ∀ ⦃cs n⦄, length? cs = some n → ∃ x rest, cs = x ++ rest ∧ x.length = n ∧ x ≠ [] ∧ P x

/-- What the lexemes of a rule look like. -/
def Role.Fits : Role → List Char → Prop
  | .token _, x => '\n' ∉ x
  | .word, x => '\n' ∉ x
  | .directive, x => IsDirective x
  | .skipped, x => IsComment x ∨ ∀ c ∈ x, c = '\n'

theorem takes_spell {ts : List Stretch} (hts : ∃ t ∈ ts, t.needed = true)
    (hfeed : ∀ t ∈ ts, t.is '\n' = false) : Takes (spell ts) ('\n' ∉ ·) := by
  intro cs n h
  obtain ⟨x, rest, rfl, rfl, hx⟩ := madeOf_of_eq_some h
  exact ⟨x, rest, rfl, rfl, hx.ne_nil hts, hx.not_mem hfeed⟩

theorem takes_spellAny {ways : List (List Stretch)} (hways : ∀ ts ∈ ways,
    (∃ t ∈ ts, t.needed = true) ∧ ∀ t ∈ ts, t.is '\n' = false) : Takes (spellAny ways) ('\n' ∉ ·) := by
  intro cs n h
  obtain ⟨ts, hts, h⟩ := exists_of_findSome?_eq_some h
  exact takes_spell (hways ts hts).1 (hways ts hts).2 h

theorem throughQuote_eq_some (h : throughQuote cs = some n) :
    ∃ x rest, cs = x ++ rest ∧ x.length = n ∧ '\n' ∉ x := by
  fun_induction throughQuote cs generalizing n with
  | case1 cs => exact ⟨['"'], cs, rfl, Option.some.inj h, by decide⟩
  | case2 c cs hc ih =>
    obtain ⟨m, hm, rfl⟩ := Option.map_eq_some_iff.mp h
    obtain ⟨x, rest, rfl, rfl, hx⟩ := ih hm
    refine ⟨'\\' :: c :: x, rest, rfl, rfl, ?_⟩
    have hfeed : '\n' ≠ c := by
      rintro rfl
      revert hc
      decide
    simp [hfeed, hx]
  | case3 c cs hc => cases h
  | case4 => cases h
  | case5 cs => cases h
  | case6 c cs _ _ _ hc ih =>
    obtain ⟨m, hm, rfl⟩ := Option.map_eq_some_iff.mp h
    obtain ⟨x, rest, rfl, rfl, hx⟩ := ih hm
    exact ⟨c :: x, rest, rfl, rfl, by simp [hx, Ne.symm hc]⟩
  | case7 => cases h

theorem takes_mark {m : List Char} (hm : m ≠ [] ∧ '\n' ∉ m) : Takes (mark m) ('\n' ∉ ·) := by
  intro cs n h
  rw [mark] at h
  split at h
  · next hp =>
    obtain rfl := Option.some.inj h
    obtain ⟨rest, rfl⟩ := isPrefixOf_iff_prefix.mp hp
    exact ⟨m, rest, rfl, rfl, hm⟩
  · cases h

theorem takes_of_mem_rules : ∀ r ∈ rules, Takes r.length? r.role.Fits := by
  intro r hr
  rw [rules, mem_append] at hr
  rcases hr with hr | hr
  · fin_cases hr
    · intro cs n h
      dsimp only at h
      split at h
      · obtain ⟨m, hm, rfl⟩ := Option.map_eq_some_iff.mp h
        obtain ⟨ds, rest, rfl, hds, rfl⟩ := throughLineFeed_eq_some hm
        exact ⟨'`' :: (ds ++ ['\n']), rest, by simp, by simp, by simp, .line hds⟩
      · cases h
    · intro cs n h
      dsimp only at h
      split at h
      · obtain ⟨m, hm, rfl⟩ := Option.map_eq_some_iff.mp h
        obtain ⟨ds, rest, rfl, hds, rfl⟩ := throughLineFeed_eq_some hm
        exact ⟨'/' :: '/' :: (ds ++ ['\n']), rest, by simp, by simp, by simp, .inl (.line hds)⟩
      · cases h
    · intro cs n h
      dsimp only at h
      split at h
      · obtain ⟨m, hm, rfl⟩ := Option.map_eq_some_iff.mp h
        obtain ⟨ds, rest, rfl, hds, rfl⟩ := throughCommentEnd_eq_some hm
        exact ⟨'/' :: '*' :: (ds ++ ['*', '/']), rest, by simp, by simp, by simp, .inl (.block hds)⟩
      · cases h
    · intro cs n h
      dsimp only at h
      split at h
      · obtain ⟨m, hm, rfl⟩ := Option.map_eq_some_iff.mp h
        obtain ⟨x, rest, rfl, rfl, hx⟩ := throughQuote_eq_some hm
        exact ⟨'"' :: x, rest, rfl, rfl, by simp, by simpa [Role.Fits] using hx⟩
      · cases h
    · exact takes_spellAny (by decide)
    iterate 7 exact takes_spell (by decide) (by decide)
    iterate 2 exact takes_spellAny (by decide)
    · intro cs n h
      obtain ⟨ds, rest, rfl, hds, hrun, -⟩ := exists_run (· = '\n') cs
      simp only [hrun] at h
      cases ds with
      | nil => cases h
      | cons d ds =>
        exact ⟨d :: ds, rest, rfl, Option.some.inj h, by simp, .inr fun c hc => by simpa using hds c hc⟩
  · obtain ⟨⟨m, kind⟩, hmem, rfl⟩ := mem_map.mp hr
    have hmarks : ∀ p ∈ marks, p.1.toList ≠ [] ∧ '\n' ∉ p.1.toList := by decide
    exact takes_mark (hmarks _ hmem)

theorem firstMatch_eq_some {role : Role} (h : firstMatch cs = some (role, n)) :
    ∃ x rest, cs = x ++ rest ∧ x.length = n ∧ x ≠ [] ∧ role.Fits x := by
  obtain ⟨r, hr, rfl, hlen⟩ := exists_rule h
  exact takes_of_mem_rules r hr hlen

theorem firstMatch_feeds (cs : List Char) :
    firstMatch ('\n' :: cs) = some (.skipped, run (· = '\n') ('\n' :: cs)) := by
  have hother : firstAmong otherRules ('\n' :: cs) =
      some (.skipped, run (· = '\n') ('\n' :: cs)) := by
    rw [otherRules, firstAmong_append]
    simp [firstAmong, openRules, identifier_eq_none, run]
  rw [firstMatch_eq, firstAmong_quotedRules ⟨by decide, by decide, by decide⟩,
    firstAmong_numeralRules (by decide), hother]
  rfl

/-! ## Places -/

def lineAt (cs : List Char) (pos : Nat) : Nat := 1 + (cs.take pos).count '\n'

def illegalAt (cs : List Char) (pos : Nat) : Illegal :=
  ⟨cs.getD pos ' ', lineAt cs pos, Lexer.column (Lexer.lastFeedIn 0 0 (cs.take pos)) pos⟩

structure Span where
  pos : Nat
  length : Nat

namespace Span

def chars (s : Span) (cs : List Char) : List Char := (cs.drop s.pos).take s.length

def Covers (s : Span) (i : Nat) : Prop := s.pos ≤ i ∧ i < s.pos + s.length

/-- One stretch ends before another begins. -/
def Before (s t : Span) : Prop := s.pos + s.length ≤ t.pos

def Apart (s t : Span) : Prop := s.Before t ∨ t.Before s

theorem Apart.not_covers {s t : Span} {i : Nat} (h : s.Apart t) (hs : s.Covers i) :
    ¬ t.Covers i := by
  intro ht
  rcases h with h | h
  · exact Nat.not_lt.mpr (Nat.le_trans h ht.1) hs.2
  · exact Nat.not_lt.mpr (Nat.le_trans h hs.1) ht.2

end Span

def Token.span (t : Token) : Span := ⟨t.pos, t.text.length⟩

/-- What a piece of a text is to the lexer. -/
inductive Use where
  | gap
  | comment
  | directive
  | token (kind : String)
  | illegal
deriving DecidableEq

structure Piece where
  use : Use
  pos : Nat
  text : List Char

/-- What the characters of a piece are, and what the rules say of them and of the text behind. -/
def Use.Fits : Use → List Char → List Char → Prop
  | .gap, x, _ => ∀ c ∈ x, c = ' ' ∨ c = '\t' ∨ c = '\n'
  | .comment, x, rest => IsComment x ∧ firstMatch (x ++ rest) = some (.skipped, x.length)
  | .directive, x, rest => IsDirective x ∧ firstMatch (x ++ rest) = some (.directive, x.length)
  | .token kind, x, rest => ∃ role, firstMatch (x ++ rest) = some (role, x.length) ∧
      role.kindOf (String.ofList x) = some kind
  | .illegal, x, rest => (∃ c, x = [c] ∧ c ≠ ' ' ∧ c ≠ '\t') ∧ firstMatch (x ++ rest) = none

namespace Piece

def span (p : Piece) : Span := ⟨p.pos, p.text.length⟩

def report? (cs : List Char) (p : Piece) : Option Report :=
  match p.use with
  | .token kind => some (.token ⟨kind, String.ofList p.text, lineAt cs p.pos, p.pos⟩)
  | .illegal => some (.illegal (illegalAt cs p.pos))
  | _ => none

def spanAs? (use : Use) (p : Piece) : Option Span := if p.use = use then some p.span else none

def directive? (cs : List Char) (p : Piece) : Option (Nat × String) :=
  if p.use = .directive then some (lineAt cs p.pos, String.ofList p.text) else none

end Piece

/-! ## Reading -/

namespace Lexer

structure Behind (s : Lexer) (cs front : List Char) : Prop where
  text : cs = front ++ s.rest
  pos : s.pos = front.length
  line : s.line = 1 + front.count '\n'
  lastFeed : s.lastFeed = lastFeedIn 0 0 front

theorem lastFeedIn_append (pos last : Nat) (a b : List Char) :
    lastFeedIn pos last (a ++ b) = lastFeedIn (pos + a.length) (lastFeedIn pos last a) b := by
  induction a generalizing pos last with
  | nil => rfl
  | cons c a ih =>
    rw [cons_append, lastFeedIn, ih, lastFeedIn, length_cons, Nat.add_assoc,
      Nat.add_comm 1]

/-- One step goes over a piece. -/
structure Reads (s : Lexer) (cs front : List Char) (p : Piece) (r : Option Report) (t : Lexer) :
    Prop where
  pos : p.pos = s.pos
  ne_nil : p.text ≠ []
  text : s.rest = p.text ++ t.rest
  fits : p.use.Fits p.text t.rest
  report : r = p.report? cs
  directives : t.directives = s.directives ++ (p.directive? cs).toList
  behind : t.Behind cs (front ++ p.text)

namespace Behind

variable {s : Lexer} {cs front x rest : List Char}

theorem take_pos (h : s.Behind cs front) : cs.take s.pos = front := by
  rw [h.text, h.pos, take_left]

theorem line_eq (h : s.Behind cs front) : s.line = lineAt cs s.pos := by
  rw [lineAt, h.take_pos, h.line]

theorem passFeeds (h : s.Behind cs front) (hx : s.rest = x ++ rest) :
    ((s.pass x.length).countFeeds x).Behind cs (front ++ x) where
  text := by simp [pass, countFeeds, h.text, hx]
  pos := by simp [pass, countFeeds, h.pos]
  line := by simp [pass, countFeeds, feeds, h.line, Nat.add_assoc]
  lastFeed := by simp [pass, countFeeds, hx, lastFeedIn_append, h.pos, h.lastFeed]

theorem pass (h : s.Behind cs front) (hx : s.rest = x ++ rest) (hfeed : '\n' ∉ x) :
    (s.pass x.length).Behind cs (front ++ x) := by
  have hcount : (s.pass x.length).countFeeds x = s.pass x.length := by
    simp [countFeeds, feeds, count_eq_zero.mpr hfeed]
  rw [← hcount]
  exact h.passFeeds hx

theorem rest_pass (hx : s.rest = x ++ rest) : (s.pass x.length).rest = rest := by
  simp [Lexer.pass, hx]

theorem illegal_eq {c : Char} {ds : List Char} (h : s.Behind cs front) (hrest : s.rest = c :: ds) :
    ⟨c, s.line, column s.lastFeed s.pos⟩ = illegalAt cs s.pos := by
  have hchar : cs.getD s.pos ' ' = c := by
    rw [h.text, h.pos, hrest]
    simp
  rw [illegalAt, hchar, h.take_pos, ← h.line_eq, ← h.lastFeed]

theorem read {role : Role} (h : s.Behind cs front) (hx : s.rest = x ++ rest) (hne : x ≠ [])
    (hmatch : firstMatch s.rest = some (role, x.length)) (hfits : role.Fits x) :
    ∃ p, s.Reads cs front p (s.read role x.length).1 (s.read role x.length).2 := by
  have htake : s.rest.take x.length = x := by rw [hx, take_left]
  have hrest : (s.read role x.length).2.rest = rest := by rw [rest_read, hx, drop_left]
  have htext : s.rest = x ++ (s.read role x.length).2.rest := by rw [hrest, hx]
  have hmatch' : firstMatch (x ++ (s.read role x.length).2.rest) = some (role, x.length) := by
    rwa [← htext]
  cases role with
  | token kind =>
    exact ⟨⟨.token kind, s.pos, x⟩, rfl, hne, htext, ⟨_, hmatch', rfl⟩,
      by simp [Lexer.read, Piece.report?, h.line_eq, htake],
      by simp [Lexer.read, Piece.directive?, directives, Lexer.pass], h.pass hx hfits⟩
  | word =>
    exact ⟨⟨.token (wordKind (String.ofList x)), s.pos, x⟩, rfl, hne, htext, ⟨_, hmatch', rfl⟩,
      by simp [Lexer.read, Piece.report?, h.line_eq, htake],
      by simp [Lexer.read, Piece.directive?, directives, Lexer.pass], h.pass hx hfits⟩
  | directive =>
    have hbehind := h.passFeeds hx
    refine ⟨⟨.directive, s.pos, x⟩, rfl, hne, htext, ⟨hfits, hmatch'⟩, rfl, ?_, ?_⟩
    · simp [Lexer.read, Piece.directive?, directives, note, countFeeds, Lexer.pass, h.line_eq, htake]
    · simp only [Lexer.read, htake]
      exact ⟨hbehind.text, hbehind.pos, hbehind.line, hbehind.lastFeed⟩
  | skipped =>
    have hbehind : (s.read .skipped x.length).2.Behind cs (front ++ x) := by
      simp only [Lexer.read, htake]
      exact h.passFeeds hx
    have hdirectives : (s.read .skipped x.length).2.directives = s.directives := rfl
    rcases hfits with hcomment | hfeeds
    · exact ⟨⟨.comment, s.pos, x⟩, rfl, hne, htext, ⟨hcomment, hmatch'⟩, rfl,
        by simp [Piece.directive?, hdirectives], hbehind⟩
    · exact ⟨⟨.gap, s.pos, x⟩, rfl, hne, htext, fun c hc => .inr (.inr (hfeeds c hc)), rfl,
        by simp [Piece.directive?, hdirectives], hbehind⟩

theorem step {t : Lexer} {r : Option Report} (h : s.Behind cs front)
    (hs : s.advance? = some (r, t)) : ∃ p, s.Reads cs front p r t := by
  rw [advance?.eq_def] at hs
  split at hs
  · cases hs
  · next c ds hrest =>
    have hone : s.rest = [c] ++ ds := hrest
    have hdirectives : (s.pass 1).directives = s.directives := rfl
    split at hs
    · next hblank =>
      obtain ⟨rfl, rfl⟩ := Prod.mk.inj (Option.some.inj hs)
      simp only [Bool.or_eq_true, decide_eq_true_eq] at hblank
      refine ⟨⟨.gap, s.pos, [c]⟩, rfl, by simp, ?_, ?_, rfl, by simp [Piece.directive?, hdirectives],
        h.pass hone (by rcases hblank with rfl | rfl <;> decide)⟩
      · exact hone.trans (congrArg _ (rest_pass hone).symm)
      · intro d hd
        obtain rfl := mem_singleton.mp hd
        exact hblank.imp_right .inl
    · next hblank =>
      split at hs
      · next role n hmatch =>
        obtain ⟨x, rest, hx, rfl, hne, hfits⟩ := firstMatch_eq_some hmatch
        have hlen : x.length - 1 + 1 = x.length := Nat.succ_pred (by simpa using hne)
        rw [hlen] at hs
        have hread := h.read hx hne hmatch hfits
        rwa [Option.some.inj hs] at hread
      · next hmatch =>
        obtain ⟨rfl, rfl⟩ := Prod.mk.inj (Option.some.inj hs)
        have hfeed : '\n' ∉ [c] := by
          rw [mem_singleton]
          rintro rfl
          rw [hrest, firstMatch_feeds] at hmatch
          cases hmatch
        have htext : s.rest = [c] ++ (s.pass 1).rest := hone.trans (congrArg _ (rest_pass hone).symm)
        exact ⟨⟨.illegal, s.pos, [c]⟩, rfl, by simp, htext,
          ⟨⟨c, rfl, by simpa using hblank⟩, by rwa [← htext]⟩,
          by rw [Piece.report?, ← h.illegal_eq hrest], by simp [Piece.directive?, hdirectives],
          h.pass hone hfeed⟩

end Behind

end Lexer

/-! ## Tilings -/

/-- Pieces that follow each other and make up a text from a position on. -/
inductive Tiles : Nat → List Char → List Piece → Prop
  | nil (pos : Nat) : Tiles pos [] []
  | cons {p : Piece} {ps : List Piece} {rest : List Char} (hne : p.text ≠ [])
      (hfits : p.use.Fits p.text rest) (h : Tiles (p.pos + p.text.length) rest ps) :
      Tiles p.pos (p.text ++ rest) (p :: ps)

namespace Tiles

variable {cs front rest : List Char} {pos : Nat} {ps : List Piece}
variable {p : Piece}

theorem pos_le (h : Tiles pos rest ps) (hp : p ∈ ps) : pos ≤ p.pos := by
  induction h with
  | nil pos => cases hp
  | @cons q ps rest hne hfits h ih =>
    rcases mem_cons.mp hp with rfl | hp
    · exact Nat.le_refl _
    · exact Nat.le_trans (Nat.le_add_right ..) (ih hp)

theorem drop_pos (h : Tiles pos rest ps) (front : List Char) (hpos : pos = front.length)
    (hp : p ∈ ps) : p.text ≠ [] ∧
      ∃ behind, (front ++ rest).drop p.pos = p.text ++ behind ∧ p.use.Fits p.text behind := by
  induction h generalizing front with
  | nil pos => cases hp
  | @cons q ps rest hne hfits h ih =>
    rcases mem_cons.mp hp with rfl | hp
    · refine ⟨hne, rest, ?_, hfits⟩
      rw [hpos, drop_left]
    · rw [← append_assoc]
      exact ih (front ++ q.text) (by simp [hpos]) hp

theorem pairwise (h : Tiles pos rest ps) :
    ps.Pairwise fun p q => p.span.Before q.span ∧ p.pos < q.pos := by
  induction h with
  | nil pos => exact List.Pairwise.nil
  | @cons p ps rest hne hfits h ih =>
    refine pairwise_cons.mpr ⟨fun q hq => ⟨h.pos_le hq, ?_⟩, ih⟩
    exact Nat.lt_of_lt_of_le (Nat.lt_add_of_pos_right (length_pos_iff.mpr hne)) (h.pos_le hq)

theorem covers (h : Tiles pos rest ps) {i : Nat} (hi : pos ≤ i ∧ i < pos + rest.length) :
    ∃ p ∈ ps, p.span.Covers i := by
  induction h with
  | nil pos => simp at hi; omega
  | @cons p ps rest hne hfits h ih =>
    rw [length_append] at hi
    by_cases hp : i < p.pos + p.text.length
    · exact ⟨p, mem_cons_self, hi.1, hp⟩
    · obtain ⟨q, hq, hcovers⟩ := ih ⟨by omega, by omega⟩
      exact ⟨q, mem_cons_of_mem _ hq, hcovers⟩

theorem apart (h : Tiles pos rest ps) {q : Piece} (hp : p ∈ ps) (hq : q ∈ ps) (hne : p ≠ q) :
    p.span.Apart q.span := by
  induction h with
  | nil pos => cases hp
  | @cons x ps rest _ _ h ih =>
    rcases mem_cons.mp hp with rfl | hp' <;> rcases mem_cons.mp hq with rfl | hq'
    · exact absurd rfl hne
    · exact .inl (h.pos_le hq')
    · exact .inr (h.pos_le hp')
    · exact ih hp' hq'

end Tiles

theorem Lexer.rest_eq_nil_of_advance? {s : Lexer} (h : s.advance? = none) : s.rest = [] := by
  rw [Lexer.advance?.eq_def] at h
  split at h
  · assumption
  · split at h
    · cases h
    · split at h <;> cases h

theorem Lexer.Behind.scan {s : Lexer} {front : List Char} (h : s.Behind cs front) :
    ∃ ps, Tiles s.pos s.rest ps ∧ s.scan.1 = ps.filterMap (Piece.report? cs) ∧
      s.scan.2.directives = s.directives ++ ps.filterMap (Piece.directive? cs) := by
  induction hn : s.rest.length using Nat.strong_induction_on generalizing s front with
  | _ n ih =>
    subst hn
    -- After one step, the pieces of what is left are those of the scan from there on.
    have hcons : ∀ {r t}, s.advance? = some (r, t) →
        ∃ ps, Tiles s.pos s.rest ps ∧ r.toList ++ t.scan.1 = ps.filterMap (Piece.report? cs) ∧
          t.scan.2.directives = s.directives ++ ps.filterMap (Piece.directive? cs) := by
      intro r t hstep
      obtain ⟨p, hp⟩ := h.step hstep
      obtain ⟨ps, htiles, hreports, hnoted⟩ := ih _ (rest_length_lt_of_advance? hstep) hp.behind rfl
      have hpos : t.pos = p.pos + p.text.length := by
        rw [hp.behind.pos, hp.pos, h.pos, length_append]
      refine ⟨p :: ps, ?_, ?_, ?_⟩
      · rw [← hp.pos, hp.text]
        exact .cons hp.ne_nil hp.fits (hpos ▸ htiles)
      · rw [hreports, hp.report, filterMap_cons]
        cases p.report? cs <;> rfl
      · rw [hnoted, hp.directives, append_assoc, filterMap_cons]
        cases p.directive? cs <;> rfl
    rw [Lexer.scan]
    split
    · next hend =>
      have hrest := rest_eq_nil_of_advance? hend
      exact ⟨[], by rw [hrest]; exact .nil _, rfl, by simp⟩
    · next hstep => exact hcons hstep
    · next hstep => exact hcons hstep

/-! ## The account of a text -/

/-- An account of a text and of what the lexer says of it. The places of the comments and directives
and of the illegal characters are given with it. A comment is where the rules skip one, and not in a
string or in another comment. -/
structure Accounts (cs : List Char) (r : Scan) (comments directives : List Span)
    (illegals : List Nat) : Prop where
  token_text : ∀ t ∈ r.tokens, t.text ≠ "" ∧ t.span.chars cs = t.text.toList
  token_rule : ∀ t ∈ r.tokens, ∃ role, firstMatch (cs.drop t.pos) = some (role, t.text.length) ∧
    role.kindOf t.text = some t.kind
  token_order : r.tokens.Pairwise fun t u => t.span.Before u.span
  token_line : ∀ t ∈ r.tokens, t.line = lineAt cs t.pos
  comment_rule : ∀ s ∈ comments,
    IsComment (s.chars cs) ∧ firstMatch (cs.drop s.pos) = some (.skipped, s.length)
  directive_rule : ∀ s ∈ directives,
    IsDirective (s.chars cs) ∧ firstMatch (cs.drop s.pos) = some (.directive, s.length)
  /-- No two of the tokens, comments and directives have a character in common. -/
  apart : (r.tokens.map Token.span ++ (comments ++ directives)).Pairwise Span.Apart
  directive_order : directives.Pairwise Span.Before
  directive_noted : r.lexer.directives =
    directives.map fun s => (lineAt cs s.pos, String.ofList (s.chars cs))
  illegal_order : illegals.Pairwise (· < ·)
  illegal_reported : r.illegals = illegals.map (illegalAt cs)
  /-- No rule applies at an illegal character, and it is in nothing else. -/
  illegal_apart : ∀ i ∈ illegals, i < cs.length ∧ firstMatch (cs.drop i) = none ∧
    cs[i]? ≠ some ' ' ∧ cs[i]? ≠ some '\t' ∧
    (∀ t ∈ r.tokens, ¬ t.span.Covers i) ∧ ∀ s ∈ comments ++ directives, ¬ s.Covers i
  /-- There are no other characters than blanks, tabs and line feeds. -/
  covered : ∀ i < cs.length, (∃ t ∈ r.tokens, t.span.Covers i) ∨
    (cs[i]? = some ' ' ∨ cs[i]? = some '\t' ∨ cs[i]? = some '\n') ∨
    (∃ s ∈ comments ++ directives, s.Covers i) ∨ i ∈ illegals

theorem mem_spanAs? {ps : List Piece} {use : Use} {s : Span} :
    s ∈ ps.filterMap (Piece.spanAs? use) ↔ ∃ p ∈ ps, p.use = use ∧ p.span = s := by
  simp [Piece.spanAs?]

def Piece.token? (cs : List Char) (p : Piece) : Option Token :=
  match p.use with
  | .token kind => some ⟨kind, String.ofList p.text, lineAt cs p.pos, p.pos⟩
  | _ => none

theorem Piece.token?_eq_some {p : Piece} {t : Token} (h : p.token? cs = some t) :
    ∃ kind, p.use = .token kind ∧ t = ⟨kind, String.ofList p.text, lineAt cs p.pos, p.pos⟩ ∧
      t.span = p.span := by
  rw [token?] at h
  split at h
  · next kind hkind =>
    obtain rfl := Option.some.inj h
    exact ⟨kind, hkind, rfl, by simp [Token.span, span]⟩
  · cases h

theorem tokens_ofReports (cs : List Char) (ps : List Piece) (l : Lexer) :
    (Scan.ofReports (ps.filterMap (Piece.report? cs)) l).tokens = ps.filterMap (Piece.token? cs) := by
  simp only [Scan.ofReports, filterMap_filterMap]
  refine filterMap_congr fun p _ => ?_
  rw [Piece.report?, Piece.token?]
  cases p.use <;> rfl

theorem illegals_ofReports (cs : List Char) (ps : List Piece) (l : Lexer) :
    (Scan.ofReports (ps.filterMap (Piece.report? cs)) l).illegals =
      ((ps.filterMap (Piece.spanAs? .illegal)).map Span.pos).map (illegalAt cs) := by
  simp only [Scan.ofReports, filterMap_filterMap, map_filterMap]
  refine filterMap_congr fun p _ => ?_
  rw [Piece.report?, Piece.spanAs?]
  cases p.use <;> rfl

namespace Tiles

variable {cs : List Char} {ps : List Piece} {p : Piece}
variable {i : Nat}

theorem chars_eq (h : Tiles 0 cs ps) (hp : p ∈ ps) : p.span.chars cs = p.text := by
  obtain ⟨-, behind, hdrop, -⟩ := h.drop_pos [] rfl hp
  rw [nil_append] at hdrop
  rw [Span.chars, Piece.span, hdrop, take_left]

theorem fits (h : Tiles 0 cs ps) (hp : p ∈ ps) :
    p.text ≠ [] ∧ ∃ behind, cs.drop p.pos = p.text ++ behind ∧ p.use.Fits p.text behind :=
  h.drop_pos [] rfl hp

theorem getElem?_of_covers (h : Tiles 0 cs ps) (hp : p ∈ ps) (hi : p.span.Covers i) :
    ∃ c ∈ p.text, cs[i]? = some c := by
  obtain ⟨-, behind, hdrop, -⟩ := h.fits hp
  have hlt : i - p.pos < p.text.length := by
    have := hi.1
    have := hi.2
    simp only [Piece.span] at *
    omega
  refine ⟨p.text[i - p.pos], getElem_mem _, ?_⟩
  have hget : (cs.drop p.pos)[i - p.pos]? = cs[i]? := by
    have hle : p.pos ≤ i := hi.1
    rw [List.getElem?_drop, Nat.add_sub_cancel' hle]
  rw [← hget, hdrop, List.getElem?_append_left hlt, List.getElem?_eq_getElem hlt]

theorem pairwise_spanAs? (h : Tiles 0 cs ps) (use : Use) :
    (ps.filterMap (Piece.spanAs? use)).Pairwise fun s t => s.Before t ∧ s.pos < t.pos := by
  rw [pairwise_filterMap]
  refine h.pairwise.imp fun {p q} hpq s hs t ht => ?_
  simp only [Piece.spanAs?, Option.ite_none_right_eq_some, Option.some.injEq] at hs ht
  rw [← hs.2, ← ht.2]
  exact hpq

theorem fits_of_spanAs? (h : Tiles 0 cs ps) {use : Use} {s : Span}
    (hs : s ∈ ps.filterMap (Piece.spanAs? use)) : ∃ behind, cs.drop s.pos = s.chars cs ++ behind ∧
      s.length = (s.chars cs).length ∧ use.Fits (s.chars cs) behind := by
  obtain ⟨p, hp, rfl, rfl⟩ := mem_spanAs?.mp hs
  obtain ⟨-, behind, hdrop, hfits⟩ := h.fits hp
  rw [h.chars_eq hp]
  exact ⟨behind, hdrop, rfl, hfits⟩

theorem apart_of_use (h : Tiles 0 cs ps) {q : Piece} (hp : p ∈ ps) (hq : q ∈ ps)
    (hne : p.use ≠ q.use) : p.span.Apart q.span :=
  h.apart hp hq fun heq => hne (congrArg Piece.use heq)

theorem covered (h : Tiles 0 cs ps) (hi : i < cs.length) :
    (∃ t ∈ ps.filterMap (Piece.token? cs), t.span.Covers i) ∨
    (cs[i]? = some ' ' ∨ cs[i]? = some '\t' ∨ cs[i]? = some '\n') ∨
    (∃ s ∈ ps.filterMap (Piece.spanAs? .comment) ++ ps.filterMap (Piece.spanAs? .directive),
      s.Covers i) ∨ i ∈ (ps.filterMap (Piece.spanAs? .illegal)).map Span.pos := by
  obtain ⟨p, hp, hcovers⟩ := h.covers ⟨Nat.zero_le i, by omega⟩
  obtain ⟨c, hc, hget⟩ := h.getElem?_of_covers hp hcovers
  obtain ⟨-, behind, -, hfits⟩ := h.fits hp
  have hspan : p.span ∈ ps.filterMap (Piece.spanAs? p.use) := mem_spanAs?.mpr ⟨p, hp, rfl, rfl⟩
  cases huse : p.use with
  | gap =>
    rw [huse] at hfits
    rw [hget]
    exact .inr (.inl ((hfits c hc).imp (congrArg some) (Or.imp (congrArg some) (congrArg some))))
  | comment => exact .inr (.inr (.inl ⟨_, mem_append_left _ (huse ▸ hspan), hcovers⟩))
  | directive => exact .inr (.inr (.inl ⟨_, mem_append_right _ (huse ▸ hspan), hcovers⟩))
  | token kind =>
    have htok : p.token? cs = some ⟨kind, String.ofList p.text, lineAt cs p.pos, p.pos⟩ := by
      rw [Piece.token?, huse]
    obtain ⟨-, -, -, htspan⟩ := Piece.token?_eq_some htok
    exact .inl ⟨_, mem_filterMap.mpr ⟨p, hp, htok⟩, htspan ▸ hcovers⟩
  | illegal =>
    rw [huse] at hfits
    have hpos : p.span.pos = i := by
      obtain ⟨⟨c, htext, -⟩, -⟩ := hfits
      have hlow := hcovers.1
      have hhigh := hcovers.2
      simp only [Piece.span, htext, length_singleton] at hlow hhigh ⊢
      omega
    exact .inr (.inr (.inr (mem_map.mpr ⟨_, huse ▸ hspan, hpos⟩)))

theorem accounts (h : Tiles 0 cs ps) {l : Lexer}
    (hnoted : l.directives = ps.filterMap (Piece.directive? cs)) :
    Accounts cs (Scan.ofReports (ps.filterMap (Piece.report? cs)) l)
      (ps.filterMap (Piece.spanAs? .comment)) (ps.filterMap (Piece.spanAs? .directive))
      ((ps.filterMap (Piece.spanAs? .illegal)).map Span.pos) := by
  have htoken : ∀ t ∈ ps.filterMap (Piece.token? cs), ∃ p ∈ ps, p.use = .token t.kind ∧
      t = ⟨t.kind, String.ofList p.text, lineAt cs p.pos, p.pos⟩ ∧ t.span = p.span := by
    intro t ht
    obtain ⟨p, hp, htok⟩ := mem_filterMap.mp ht
    obtain ⟨kind, huse, rfl, hspan⟩ := Piece.token?_eq_some htok
    exact ⟨p, hp, huse, rfl, hspan⟩
  have horder : (ps.filterMap (Piece.token? cs)).Pairwise fun t u => t.span.Before u.span := by
    rw [pairwise_filterMap]
    refine h.pairwise.imp fun {p q} hpq t ht u hu => ?_
    obtain ⟨-, -, -, htspan⟩ := Piece.token?_eq_some ht
    obtain ⟨-, -, -, huspan⟩ := Piece.token?_eq_some hu
    rw [htspan, huspan]
    exact hpq.1
  have hillegal : ∀ i ∈ (ps.filterMap (Piece.spanAs? .illegal)).map Span.pos,
      ∃ p ∈ ps, p.use = .illegal ∧ p.pos = i ∧ p.span.Covers i := by
    intro i hi
    obtain ⟨s, hs, rfl⟩ := mem_map.mp hi
    obtain ⟨p, hp, huse, rfl⟩ := mem_spanAs?.mp hs
    exact ⟨p, hp, huse, rfl, Nat.le_refl _,
      Nat.lt_add_of_pos_right (length_pos_iff.mpr (h.fits hp).1)⟩
  constructor
  case token_text =>
    rw [tokens_ofReports]
    intro t ht
    obtain ⟨p, hp, -, hteq, hspan⟩ := htoken t ht
    have htext : t.text = String.ofList p.text := by rw [hteq]
    rw [hspan, h.chars_eq hp, htext]
    simpa using (h.fits hp).1
  case token_rule =>
    rw [tokens_ofReports]
    intro t ht
    obtain ⟨p, hp, huse, hteq, -⟩ := htoken t ht
    obtain ⟨-, behind, hdrop, hfits⟩ := h.fits hp
    rw [huse] at hfits
    obtain ⟨role, hmatch, hkind⟩ := hfits
    refine ⟨role, ?_, by rw [hteq]; exact hkind⟩
    rw [hteq, hdrop, hmatch]
    simp
  case token_order =>
    rw [tokens_ofReports]
    exact horder
  case token_line =>
    rw [tokens_ofReports]
    intro t ht
    obtain ⟨p, -, -, hteq, -⟩ := htoken t ht
    rw [hteq]
  case comment_rule =>
    intro s hs
    obtain ⟨behind, hdrop, hlen, hfits⟩ := h.fits_of_spanAs? hs
    rw [hdrop, hlen]
    exact hfits
  case directive_rule =>
    intro s hs
    obtain ⟨behind, hdrop, hlen, hfits⟩ := h.fits_of_spanAs? hs
    rw [hdrop, hlen]
    exact hfits
  case apart =>
    rw [tokens_ofReports]
    refine pairwise_append.mpr ⟨pairwise_map.mpr (horder.imp .inl), pairwise_append.mpr
      ⟨(h.pairwise_spanAs? _).imp fun hst => .inl hst.1,
        (h.pairwise_spanAs? _).imp fun hst => .inl hst.1, ?_⟩, ?_⟩
    · intro s hs t ht
      obtain ⟨p, hp, hpuse, rfl⟩ := mem_spanAs?.mp hs
      obtain ⟨q, hq, hquse, rfl⟩ := mem_spanAs?.mp ht
      exact h.apart_of_use hp hq (by simp [hpuse, hquse])
    · intro s hs t ht
      obtain ⟨k, hk, rfl⟩ := mem_map.mp hs
      obtain ⟨p, hp, hpuse, -, hspan⟩ := htoken k hk
      rw [hspan]
      rcases mem_append.mp ht with ht | ht
      all_goals
        obtain ⟨q, hq, hquse, rfl⟩ := mem_spanAs?.mp ht
        exact h.apart_of_use hp hq (by simp [hpuse, hquse])
  case directive_order => exact (h.pairwise_spanAs? .directive).imp And.left
  case directive_noted =>
    rw [map_filterMap]
    refine hnoted.trans (filterMap_congr fun p hp => ?_)
    rw [Piece.directive?, Piece.spanAs?]
    split
    · rw [Option.map_some, h.chars_eq hp]
      rfl
    · rfl
  case illegal_order =>
    exact pairwise_map.mpr ((h.pairwise_spanAs? .illegal).imp And.right)
  case illegal_reported => exact illegals_ofReports cs ps l
  case illegal_apart =>
    intro i hi
    obtain ⟨p, hp, huse, rfl, hcovers⟩ := hillegal i hi
    obtain ⟨-, behind, hdrop, hfits⟩ := h.fits hp
    obtain ⟨d, hd, hget⟩ := h.getElem?_of_covers hp hcovers
    rw [huse] at hfits
    obtain ⟨⟨c, htext, hblank, htab⟩, hmatch⟩ := hfits
    obtain rfl : d = c := by simpa [htext] using hd
    refine ⟨(List.getElem?_eq_some_iff.mp hget).1, by rw [hdrop]; exact hmatch,
      by simpa [hget] using hblank, by simpa [hget] using htab, ?_, ?_⟩
    · rw [tokens_ofReports]
      intro t ht
      obtain ⟨q, hq, hquse, -, hspan⟩ := htoken t ht
      rw [hspan]
      exact (h.apart_of_use hp hq (by simp [huse, hquse])).not_covers hcovers
    · intro s hs
      rcases mem_append.mp hs with hs | hs
      all_goals
        obtain ⟨q, hq, hquse, rfl⟩ := mem_spanAs?.mp hs
        exact (h.apart_of_use hp hq (by simp [huse, hquse])).not_covers hcovers
  case covered =>
    rw [tokens_ofReports]
    exact fun i hi => h.covered hi

end Tiles

theorem exists_pieces (text : String) : ∃ ps l, Tiles 0 text.toList ps ∧
    scanText text = Scan.ofReports (ps.filterMap (Piece.report? text.toList)) l ∧
    l.directives = ps.filterMap (Piece.directive? text.toList) := by
  have hstart : (Lexer.load {} text).Behind text.toList [] := ⟨rfl, rfl, rfl, rfl⟩
  obtain ⟨ps, htiles, hreports, hnoted⟩ := hstart.scan
  refine ⟨ps, _, htiles, ?_, hnoted⟩
  rw [← hreports]
  rfl

/-- Every character of a text is accounted for. The tokens are the text at their places, in order and
apart from each other; every other character is a blank, a tab or a line feed, or in a comment or
directive, or is reported as illegal; and the lines are those of the places. -/
theorem scanText_accounts (text : String) :
    ∃ comments directives illegals,
      Accounts text.toList (scanText text) comments directives illegals := by
  obtain ⟨ps, l, htiles, hscan, hnoted⟩ := exists_pieces text
  rw [hscan]
  exact ⟨_, _, _, htiles.accounts hnoted⟩

/-! ## Columns -/

/-- What is in front of a place consists of whole lines and the front of the line of the place. -/
theorem exists_line (front : List Char) : ∃ above before, front = above ++ before ∧ '\n' ∉ before ∧
    (above = [] ∧ Lexer.lastFeedIn 0 0 front = 0 ∨
      above.getLast? = some '\n' ∧ Lexer.lastFeedIn 0 0 front + 1 = above.length) := by
  induction front using reverseRecOn with
  | nil => exact ⟨[], [], rfl, by simp, .inl ⟨rfl, rfl⟩⟩
  | append_singleton front c ih =>
    rw [Lexer.lastFeedIn_append, Nat.zero_add, Lexer.lastFeedIn, Lexer.lastFeedIn]
    split
    · next hc => exact ⟨front ++ [c], [], by simp, by simp, .inr (by simp [hc])⟩
    · next hc =>
      obtain ⟨above, before, rfl, hbefore, hlast⟩ := ih
      exact ⟨above, before ++ [c], by simp, by simpa using ⟨hbefore, Ne.symm hc⟩, hlast⟩

/-- An illegal character is reported with its line, and with its place in the line. This place is
counted from 1 in the first line of the text, and from 2 in every other line. -/
theorem illegal_column (text : String) : ∀ e ∈ (scanText text).illegals, ∃ above before rest,
    text.toList = above ++ before ++ e.char :: rest ∧ firstMatch (e.char :: rest) = none ∧
      '\n' ∉ before ∧ e.line = 1 + above.count '\n' ∧
      (above = [] ∧ e.column = before.length + 1 ∨
        above.getLast? = some '\n' ∧ e.column = before.length + 2) := by
  obtain ⟨ps, l, htiles, hscan, hnoted⟩ := exists_pieces text
  have haccounts := htiles.accounts hnoted
  rw [← hscan] at haccounts
  rw [haccounts.illegal_reported]
  intro e he
  obtain ⟨i, hi, rfl⟩ := mem_map.mp he
  obtain ⟨hlt, hmatch, -⟩ := haccounts.illegal_apart i hi
  rw [drop_eq_getElem_cons hlt] at hmatch
  obtain ⟨above, before, hfront, hbefore, hlast⟩ := exists_line (text.toList.take i)
  have hchar : (illegalAt text.toList i).char = text.toList[i] := by simp [illegalAt, hlt]
  have hcolumn : (illegalAt text.toList i).column =
      i - Lexer.lastFeedIn 0 0 (text.toList.take i) + 1 := rfl
  have hlen : i = above.length + before.length := by
    simpa [Nat.min_eq_left hlt.le] using congrArg length hfront
  refine ⟨above, before, _, ?_, by rwa [hchar], hbefore, ?_, ?_⟩
  · rw [← hfront, hchar, ← drop_eq_getElem_cons hlt, take_append_drop]
  · simp [illegalAt, lineAt, hfront, count_eq_zero.mpr hbefore]
  · rcases hlast with ⟨rfl, hlast⟩ | ⟨hfeed, hlast⟩
    · exact .inl ⟨rfl, by simp only [length_nil] at hlen; omega⟩
    · exact .inr ⟨hfeed, by omega⟩

/-- A quote at the front of the second line is reported in column 2. -/
theorem illegal_column_second_line : ⟨'\'', 2, 2⟩ ∈ (scanText "a\n'").illegals ∧
    ∃ above before rest, "a\n'".toList = above ++ before ++ '\'' :: rest ∧
      firstMatch ('\'' :: rest) = none ∧ '\n' ∉ before ∧ 2 = 1 + above.count '\n' ∧
      (above = [] ∧ 2 = before.length + 1 ∨
        above.getLast? = some '\n' ∧ 2 = before.length + 2) := by
  have h : ⟨'\'', 2, 2⟩ ∈ (scanText "a\n'").illegals := by
    have hscan : (scanText "a\n'").illegals = [⟨'\'', 2, 2⟩] := by cbv
    simp [hscan]
  exact ⟨h, illegal_column _ _ h⟩

end RtlFlow.Verilog
