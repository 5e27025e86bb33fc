import Mathlib
import RtlFlow.Proofs.Verilog.Pieces
import RtlFlow.Proofs.Verilog.Reading
import RtlFlow.Verilog.Printer

/-!
# Texts laid out as tokens

A text is laid out as tokens if it consists of them and of blanks and line feeds between them, and
each token ends where the lexer ends it. Such texts are put together from the back: a piece of text
can stand in front of every text that begins in the right way.
-/

namespace RtlFlow.Verilog

open List

open Grammar

variable {l l' : Lexer} {cs m r : List Char} {next : Char → Prop}

/-! ## Tokens -/

/-- The lexer takes a text as a token of a class in front of all texts that begin like `cs`. -/
structure Matches (s : Sym) (x : String) (cs : List Char) : Prop where
  feedless : '\n' ∉ x.toList
  front : ∃ c ds, x.toList = c :: ds ∧ c ≠ ' ' ∧ c ≠ '\t'
  lexeme : ∃ role : Role, role.kindOf x = some s.name ∧
    ∀ r, r.head? = cs.head? → firstMatch (x.toList ++ r) = some (role, x.toList.length)

/-- A text of tokens with blanks and line feeds between them. -/
inductive Laid : List Char → Wording → Prop
  | nil : Laid [] []
  | gap {c : Char} {cs : List Char} {w : Wording} (hc : c = ' ' ∨ c = '\n')
      (h : Laid cs w) : Laid (c :: cs) w
  | token {s : Sym} {x : String} {cs : List Char} {w : Wording} (hx : Matches s x cs)
      (h : Laid cs w) : Laid (x.toList ++ cs) ((s, x) :: w)

/-! ## The lexer -/

theorem Lexer.next_cases (l : Lexer) : (l.advance? = none ∧ l.next = (none, l)) ∨
    (∃ x l', l.advance? = some (some x, l') ∧ l.next = (some x, l')) ∨
      ∃ l', l.advance? = some (none, l') ∧ l.next = l'.next := by
  rw [Lexer.next]
  split
  · next h => exact .inl ⟨h, rfl⟩
  · next h => exact .inr (.inl ⟨_, _, h, rfl⟩)
  · next h => exact .inr (.inr ⟨_, h, rfl⟩)

theorem Lexer.nextToken_of_advance? (h : l.advance? = some (none, l')) :
    l.nextToken = l'.nextToken := by
  rcases l.next_cases with ⟨h', -⟩ | ⟨_, _, h', -⟩ | ⟨_, h', hnext⟩ <;> cases h.symm.trans h'
  rw [Lexer.nextToken, Lexer.nextToken, hnext]

theorem Lexer.nextToken_of_token {t : Token} (h : l.advance? = some (some (.token t), l')) :
    l.nextToken = .ok (some t, l') := by
  rcases l.next_cases with ⟨h', -⟩ | ⟨_, _, h', hnext⟩ | ⟨_, h', -⟩ <;> cases h.symm.trans h'
  rw [Lexer.nextToken, hnext]
  rfl

theorem Lexer.nextToken_of_nil (h : l.rest = []) : l.nextToken = .ok (none, l) := by
  have hadvance : l.advance? = none := by rw [Lexer.advance?.eq_def, h]
  rcases l.next_cases with ⟨-, hnext⟩ | ⟨_, _, h', -⟩ | ⟨_, h', -⟩
  · rw [Lexer.nextToken, hnext]
    rfl
  · cases hadvance.symm.trans h'
  · cases hadvance.symm.trans h'

theorem Lexer.advance?_feed (h : l.rest = '\n' :: cs) :
    ∃ l', l.advance? = some (none, l') ∧ l'.rest = cs.dropWhile (· = '\n') := by
  have hrun : run (· = '\n') ('\n' :: cs) = (cs.takeWhile (· = '\n')).length + 1 := by
    simp [run]
  have hm := firstMatch_feeds cs
  rw [hrun] at hm
  refine ⟨_, by rw [Lexer.advance?.eq_def]; simp only [h]; simp [hm, Lexer.read]; rfl, ?_⟩
  simp only [Lexer.countFeeds, Lexer.pass, h, drop_succ_cons]
  have hdrop : (cs.takeWhile (· = '\n') ++ cs.dropWhile (· = '\n')).drop
      (cs.takeWhile (· = '\n')).length = cs.dropWhile (· = '\n') := drop_left
  rwa [takeWhile_append_dropWhile] at hdrop

theorem Lexer.advance?_blank (h : l.rest = ' ' :: cs) : l.advance? = some (none, l.pass 1) := by
  rw [Lexer.advance?.eq_def]
  simp [h]

theorem Lexer.advance?_token {s : Sym} {x : String} (hx : Matches s x cs)
    (h : l.rest = x.toList ++ cs) :
    l.advance? = some (some (.token ⟨s.name, x, l.line, l.pos⟩), l.pass x.toList.length) := by
  obtain ⟨c, ds, hxs, hblank, htab⟩ := hx.front
  obtain ⟨role, hkind, hm⟩ := hx.lexeme
  specialize hm cs rfl
  rw [← h] at hm
  have htake : l.rest.take x.toList.length = x.toList := by rw [h, take_left]
  have hlen : x.toList.length - 1 + 1 = x.toList.length := by simp [hxs]
  have hrest : l.rest = c :: (ds ++ cs) := by rw [h, hxs]; rfl
  rw [Lexer.advance?.eq_def]
  rw [hrest] at hm
  simp only [hrest, hm, hblank, htab, decide_false, Bool.or_self, Bool.false_eq_true, if_false, hlen]
  cases role with
  | directive => cases hkind
  | skipped => cases hkind
  | token k =>
    obtain rfl := Option.some.inj hkind
    simp [Lexer.read, htake]
  | word =>
    have hword : wordKind x = s.name := Option.some.inj hkind
    simp [Lexer.read, htake, hword]

theorem Laid.dropWhile {w : Wording} (h : Laid cs w) :
    Laid (cs.dropWhile (· = '\n')) w := by
  induction h with
  | nil => exact .nil
  | @gap c cs w hc h ih =>
    rcases hc with rfl | rfl
    · exact .gap (.inl rfl) h
    · simpa using ih
  | @token s x cs w hx h ih =>
    obtain ⟨c, ds, hxs, -, -⟩ := hx.front
    have hc : c ≠ '\n' := by
      rintro rfl
      exact hx.feedless (by simp [hxs])
    have htoken := Laid.token hx h
    rw [hxs] at htoken ⊢
    simpa [hc] using htoken

section

variable {w : Wording}

attribute [local irreducible] tablesFrom

theorem Laid.ahead {cs : List Char} (h : Laid cs w) {ws : Workspace}
    (hrest : ws.lexer.rest = cs) : ∃ ts, List.Forall₂ (Machine.Is Shows) (word w) ts ∧
      exprMachine.Ahead (ts ++ [Symbol.endMark]) ws := by
  -- Line feeds are skipped at once, so the induction is on the length.
  induction hn : cs.length using Nat.strong_induction_on generalizing cs w ws with
  | _ n ih =>
    subst hn
    have hskip : ∀ (l : Lexer) {cs' : List Char}, Laid cs' w → l.rest = cs' → cs'.length < cs.length →
        ws.lexer.nextToken = l.nextToken → ∃ ts, List.Forall₂ (Machine.Is Shows) (word w) ts ∧
          exprMachine.Ahead (ts ++ [Symbol.endMark]) ws := by
      intro l cs' h' hl hlt hnext
      have hrest' : ({ ws with lexer := l } : Workspace).lexer.rest = cs' := hl
      obtain ⟨ts, hts, hahead⟩ := ih _ hlt h' hrest' rfl
      exact ⟨ts, hts, ahead_of_nextToken hahead hnext⟩
    cases h with
    | nil =>
      exact ⟨[], .nil, none, _, fetch_of_nextToken (Lexer.nextToken_of_nil hrest), rfl, trivial⟩
    | @gap c cs w hc h =>
      rcases hc with rfl | rfl
      · exact hskip _ h (Lexer.Behind.rest_pass (x := [' ']) hrest) (by simp)
          (Lexer.nextToken_of_advance? (Lexer.advance?_blank hrest))
      · obtain ⟨l', hadvance, hl'⟩ := Lexer.advance?_feed hrest
        refine hskip l' h.dropWhile hl' ?_ (Lexer.nextToken_of_advance? hadvance)
        exact Nat.lt_succ_of_le (length_dropWhile_le _ _)
    | @token s x cs w hx h =>
      have hadvance := Lexer.advance?_token hx hrest
      obtain ⟨c, ds, hxs, -⟩ := hx.front
      have hlt : cs.length < (x.toList ++ cs).length := by
        grind
      have hrest' : ({ ws with lexer := ws.lexer.pass x.toList.length } : Workspace).lexer.rest = cs :=
        Lexer.Behind.rest_pass hrest
      obtain ⟨ts, hts, hahead⟩ := ih cs.length hlt h hrest' rfl
      refine ⟨_ :: ts, .cons ⟨?_, .text x, ?_, rfl⟩ hts, _, _,
        fetch_of_nextToken (Lexer.nextToken_of_token hadvance), rfl, hahead⟩
      · exact symbolId_name s
      · rfl

theorem Laid.length_le {cs : List Char} (h : Laid cs w) : w.length ≤ cs.length := by
  induction h with
  | nil => exact Nat.le_refl 0
  | gap _ _ ih =>
    rw [length_cons]
    omega
  | token hx _ ih =>
    obtain ⟨c, ds, hxs, -⟩ := hx.front
    grind

theorem Laid.parseFrom {text : String} {e : Ast} {n : Nat} (h : Laid text.toList w)
    (hread : Reads 0 .expression e w Indexed.endId n) (hn : n ≤ 8 * w.length) (ws : Workspace) :
    ∃ e' ws', ws.parseFrom .expression text = (.ok (some e'), ws') ∧ e'.unplaced = e := by
  have hrest : ({ ws with lexer := ws.lexer.load text } : Workspace).lexer.rest = text.toList := rfl
  obtain ⟨ts, hts, hahead⟩ := h.ahead hrest
  obtain ⟨q, hgoto, hact⟩ := exists_accept
  have henough : n < exprMachine.enough text.length := by
    have hlen := h.length_le
    rw [String.length_toList] at hlen
    rw [Machine.enough]
    generalize exprMachine.tables.rules.size + _ = size
    have hsize : (text.length + 2) * 16 ≤ (text.length + 2) * (size + 16) :=
      Nat.mul_le_mul_left _ (by omega)
    omega
  obtain ⟨X, ws', hparse, -, v, hv, he⟩ :=
    Machine.Reads.parse driven_expression.plain hread hgoto hact henough hts hahead
  refine ⟨v, ws', ?_, he⟩
  rw [Workspace.parseFrom, Workspace.parseBy, hparse, hv]

end

/-! ## Pieces of text -/

/-- A piece of text for tokens. It can stand in front of every text that begins with a character of
a class, and at the end. -/
def Lays (next : Char → Prop) (x : List Char) (w : Wording) : Prop :=
  ∀ cs w', (∀ c, cs.head? = some c → next c) → Laid cs w' → Laid (x ++ cs) (w ++ w')

def Front (next : Char → Prop) (cs : List Char) : Prop := ∃ c ds, cs = c :: ds ∧ next c

theorem Front.append (h : Front next cs) (ds : List Char) : Front next (cs ++ ds) := by
  obtain ⟨c, cs, rfl, hc⟩ := h
  exact ⟨c, cs ++ ds, rfl, hc⟩

theorem Front.toList_append {x : String} (h : Front next x.toList) (y : String) :
    Front next (x ++ y).toList := by
  rw [String.toList_append]
  exact h.append _

theorem Front.imp {next' : Char → Prop} (h : Front next cs) (himp : ∀ c, next c → next' c) :
    Front next' cs := by
  obtain ⟨c, cs, rfl, hc⟩ := h
  exact ⟨c, cs, rfl, himp c hc⟩

namespace Lays

variable {next next' : Char → Prop} {x y : List Char} {w w' : Wording}

theorem laid (h : Lays next x w) : Laid x w := by
  simpa using h [] [] (by simp) .nil

theorem nil : Lays next [] [] := fun _ _ _ h => h

theorem imp (h : Lays next x w) (himp : ∀ c, next' c → next c) : Lays next' x w :=
  fun cs w' hcs hw => h cs w' (fun c hc => himp c (hcs c hc)) hw

theorem any (h : Lays (fun _ => True) x w) : Lays next x w := h.imp fun _ _ => trivial

theorem append (h : Lays next x w) (h' : Lays next' y w') (hfront : Front next y) :
    Lays next' (x ++ y) (w ++ w') := by
  intro cs w'' hcs hw
  have hy := h' cs w'' hcs hw
  obtain ⟨c, ds, rfl, hc⟩ := hfront
  have hx := h (c :: ds ++ cs) (w' ++ w'') (by rintro d hd; exact Option.some.inj hd ▸ hc) hy
  simpa using hx

theorem append_of_any (h : Lays (fun _ => True) x w) (h' : Lays next y w') :
    Lays next (x ++ y) (w ++ w') := by
  intro cs w'' hcs hw
  have hx := h (y ++ cs) (w' ++ w'') (fun _ _ => trivial) (h' cs w'' hcs hw)
  simpa using hx

theorem blank : Lays (fun _ => True) [' '] [] := fun _ _ _ h => .gap (.inl rfl) h

theorem feed : Lays (fun _ => True) ['\n'] [] := fun _ _ _ h => .gap (.inr rfl) h

theorem token {s : Sym} {x : String} (role : Role) (hrole : role.kindOf x = some s.name)
    (hfeed : '\n' ∉ x.toList) (hfront : Front (fun c => c ≠ ' ' ∧ c ≠ '\t') x.toList)
    (h : ∀ r, (∀ c, r.head? = some c → next c) →
      firstMatch (x.toList ++ r) = some (role, x.toList.length)) :
    Lays next x.toList [(s, x)] := by
  intro cs w hcs hw
  obtain ⟨c, ds, hxs, hc⟩ := hfront
  exact .token ⟨hfeed, ⟨c, ds, hxs, hc⟩, role, hrole, fun r hr => h r (by rw [hr]; exact hcs)⟩ hw

end Lays

/-! ## Marks -/

def markRules : List Rule := marks.map fun (m, kind) => ⟨.token kind, mark m.toList⟩

def isMarkStart (c : Char) : Bool :=
  c ≠ '`' && c ≠ '/' && c ≠ '"' && !isNumberStart c && !c.isAlpha && c ≠ '_' && c ≠ '\\' &&
    c ≠ '\n' && c ≠ ' ' && c ≠ '\t'

/-- Whether no mark goes on with a character behind the front `m`. -/
def free (m : List Char) (c : Char) : Bool :=
  marks.all fun p => !(m ++ [c]).isPrefixOf p.1.toList

/-- The characters of marks behind their first ones. -/
def furtherChars : List Char := ['<', '>', '=', '|', '&', '*', '^', ':']

theorem free_of_not_mem (hm : m ≠ []) {c : Char} (hc : c ∉ furtherChars) : free m c = true := by
  have hmarks : marks.all (fun p => p.1.toList.tail.all (furtherChars.contains ·)) = true := by
    decide
  simp only [all_eq_true, contains_iff_mem] at hmarks
  refine all_eq_true.mpr fun p hp => ?_
  rw [Bool.not_eq_true', Bool.eq_false_iff, Ne, isPrefixOf_iff_prefix]
  rintro ⟨u, hu⟩
  obtain ⟨d, m, rfl⟩ := exists_cons_of_ne_nil hm
  exact hc (hmarks p hp c (by simp [← hu]))

def standsAlone (m : List Char) : Bool :=
  marks.all fun p => p.1.toList.length ≤ m.length || !m.isPrefixOf p.1.toList

theorem free_of_standsAlone (hm : standsAlone m = true) (c : Char) : free m c = true := by
  refine all_eq_true.mpr fun p hp => ?_
  have hp := all_eq_true.mp hm p hp
  rw [Bool.not_eq_true', Bool.eq_false_iff, Ne, isPrefixOf_iff_prefix]
  intro hpre
  have hlen := hpre.length_le
  have hpre' : m <+: p.1.toList := (prefix_append ..).trans hpre
  simp only [Bool.or_eq_true, decide_eq_true_eq, Bool.not_eq_true', Bool.eq_false_iff, Ne,
    isPrefixOf_iff_prefix] at hp
  simp only [length_append, length_singleton] at hlen
  exact hp.elim (by omega) (absurd hpre')

theorem mark_append {m' : List Char}
    (h : ∀ c, r.head? = some c → (m ++ [c]).isPrefixOf m' = false) :
    mark m' (m ++ r) = mark m' m := by
  have hiff : m'.isPrefixOf (m ++ r) = m'.isPrefixOf m := by
    rw [Bool.eq_iff_iff, isPrefixOf_iff_prefix, isPrefixOf_iff_prefix]
    refine ⟨fun hpre => ?_, fun hpre => hpre.trans (prefix_append ..)⟩
    obtain ⟨u, hu⟩ := hpre
    rcases append_eq_append_iff.mp hu with ⟨t, rfl, -⟩ | ⟨t, rfl, rfl⟩
    · exact prefix_append ..
    · cases t with
      | nil => simp
      | cons c t =>
        have := h c rfl
        rw [Bool.eq_false_iff, Ne, isPrefixOf_iff_prefix] at this
        exact absurd (by simp) this
  rw [mark, mark, hiff]

theorem firstAmong_congr {cs' : List Char} : ∀ {rs : List Rule},
    (∀ rule ∈ rs, rule.length? cs = rule.length? cs') → firstAmong rs cs = firstAmong rs cs'
  | [], _ => rfl
  | rule :: rs, h => by
    rw [firstAmong_cons, firstAmong_cons, h rule mem_cons_self,
      firstAmong_congr fun r hr => h r (mem_cons_of_mem _ hr)]

theorem firstAmong_markRules_append (h : ∀ c, r.head? = some c → free m c = true) :
    firstAmong markRules (m ++ r) = firstAmong markRules m := by
  have hrules : ∀ rule ∈ markRules, rule.length? (m ++ r) = rule.length? m := by
    intro rule hrule
    obtain ⟨p, hp, rfl⟩ := mem_map.mp hrule
    refine mark_append fun c hc => ?_
    simpa using all_eq_true.mp (h c hc) p hp
  exact firstAmong_congr hrules

theorem firstAmong_otherRules {c : Char} (hname : (c.isAlpha || c = '_' || c = '\\') = false)
    (hfeed : c ≠ '\n') (cs : List Char) :
    firstAmong otherRules (c :: cs) = firstAmong markRules (c :: cs) := by
  have hfeeds : run (· = '\n') (c :: cs) = 0 := run_eq_zero (by simpa using hfeed)
  rw [otherRules, firstAmong_append, firstAmong]
  simp only [openRules, drop_succ_cons, drop_zero, List.findSome?_cons,
    identifier_eq_none hname, hfeeds]
  rfl

section

variable {s : Sym} {x : String}

def IsMark (s : Sym) (x : String) : Prop :=
  firstAmong markRules x.toList = some (.token s.name, x.toList.length)

instance : Decidable (IsMark s x) :=
  inferInstanceAs (Decidable (firstAmong markRules x.toList = some (.token s.name, x.toList.length)))

theorem lays_of_mark {next : Char → Prop} (hx : IsMark s x) (hfeed : '\n' ∉ x.toList)
    (hfront : Front (fun c => c ≠ ' ' ∧ c ≠ '\t' ∧ c ≠ '\n' ∧
      (c.isAlpha || c = '_' || c = '\\') = false) x.toList)
    (hother : ∀ r, (∀ c, r.head? = some c → next c) →
      firstAmong quotedRules (x.toList ++ r) = none ∧ firstAmong numeralRules (x.toList ++ r) = none)
    (hnext : ∀ c, next c → free x.toList c = true) : Lays next x.toList [(s, x)] := by
  refine .token (.token s.name) rfl hfeed (hfront.imp fun c hc => ⟨hc.1, hc.2.1⟩) fun r hr => ?_
  have hmark := (firstAmong_markRules_append fun c hc => hnext c (hr c hc)).trans hx
  obtain ⟨hquoted, hnumeral⟩ := hother r hr
  obtain ⟨c, ds, hxs, -, -, hc, hname⟩ := hfront
  rw [firstMatch_eq, hquoted, hnumeral]
  rw [hxs, cons_append] at hmark ⊢
  rw [firstAmong_otherRules hname hc, hmark]
  rfl

/-- The symbol of a mark that begins like a mark only. -/
def IsPlainMark (s : Sym) (x : String) : Prop :=
  IsMark s x ∧ '\n' ∉ x.toList ∧ x.toList.head?.any isMarkStart = true

instance : Decidable (IsPlainMark s x) := inferInstanceAs (Decidable (_ ∧ _))

theorem lays_mark (hx : IsPlainMark s x) : Lays (free x.toList · = true) x.toList [(s, x)] := by
  obtain ⟨hx, hfeed, hstart⟩ := hx
  have hfront : Front (fun c => IsPlain c ∧ isNumberStart c = false ∧ c ≠ ' ' ∧ c ≠ '\t' ∧
      c ≠ '\n' ∧ (c.isAlpha || c = '_' || c = '\\') = false) x.toList := by
    cases hxs : x.toList with
    | nil =>
      rw [hxs] at hstart
      cases hstart
    | cons c ds =>
      rw [hxs, List.head?_cons, Option.any_some] at hstart
      simp only [isMarkStart, Bool.and_eq_true, decide_eq_true_eq, Bool.not_eq_true'] at hstart
      exact ⟨c, ds, rfl, by simp [IsPlain, hstart]⟩
  refine lays_of_mark hx hfeed (hfront.imp fun c hc => hc.2.2) (fun r _ => ?_) fun _ hc => hc
  obtain ⟨c, ds, hxs, hplain, hnumber, -⟩ := hfront
  rw [hxs, cons_append]
  exact ⟨firstAmong_quotedRules hplain _, firstAmong_numeralRules hnumber _⟩

def singles : List (Char × Sym) :=
  [('(', .LPAREN), (')', .RPAREN), ('[', .LBRACKET), (']', .RBRACKET), ('{', .LBRACE),
   ('}', .RBRACE), (',', .COMMA), (';', .SEMICOLON), (':', .COLON), ('?', .COND), ('$', .DOLLER)]

theorem lays_single {c : Char} (h : (c, s) ∈ singles) :
    Lays (fun _ => True) [c] [(s, String.singleton c)] := by
  have hsingles : ∀ p ∈ singles, IsPlainMark p.2 (String.singleton p.1) ∧
      standsAlone (String.singleton p.1).toList = true := by decide
  obtain ⟨hx, halone⟩ := hsingles _ h
  have hlays := (lays_mark hx).imp fun d (_ : True) => free_of_standsAlone halone d
  rwa [String.toList_singleton] at hlays

/-- The tokens of a text of blanks, line feeds and such marks. -/
def glue? : List Char → Option (Wording)
  | [] => some []
  | c :: cs =>
    if c = ' ' ∨ c = '\n' then glue? cs
    else do
      let s ← singles.lookup c
      return (s, String.singleton c) :: (← glue? cs)

theorem Lays.glue {cs : List Char} {w : Wording} (h : glue? cs = some w) :
    Lays (fun _ => True) cs w := by
  induction cs generalizing w with
  | nil =>
    obtain rfl := Option.some.inj h
    exact .nil
  | cons c cs ih =>
    rw [glue?] at h
    split at h
    · rename_i hc
      exact fun ds w' hds hw => .gap hc (ih h ds w' hds hw)
    · obtain ⟨s, hs, h⟩ := Option.bind_eq_some_iff.mp h
      obtain ⟨w', hw', h⟩ := Option.bind_eq_some_iff.mp h
      obtain rfl := Option.some.inj h
      exact (lays_single (mem_of_lookup hs)).append_of_any (ih hw')

section

variable {next next' : Char → Prop} {x y : List Char} {w w' v : Wording}

theorem Lays.glue_append (g : String) (hg : glue? g.toList = some v) (hx : Lays next x w) :
    Lays next (g.toList ++ x) (v ++ w) := (Lays.glue hg).append_of_any hx

theorem Lays.append_glue (hx : Lays next x w) (g : String) (hfront : Front next g.toList)
    (hg : glue? g.toList = some v) : Lays (fun _ => True) (x ++ g.toList) (w ++ v) :=
  hx.append (.glue hg) hfront

theorem Lays.join (hx : Lays next x w) (g : String) (hfront : Front next g.toList)
    (hg : glue? g.toList = some v) (hy : Lays next' y w') :
    Lays next' (x ++ (g.toList ++ y)) (w ++ (v ++ w')) :=
  hx.append (.glue_append g hg hy) (hfront.append y)

end

theorem lays_divide : Lays (· = ' ') "/".toList [(.DIVIDE, "/")] := by
  have hx : IsMark .DIVIDE "/" := by decide
  refine lays_of_mark hx (by decide) ⟨'/', [], by decide, by decide⟩ (fun r hr => ⟨?_, ?_⟩) ?_
  · -- It begins no comment.
    cases r with
    | nil => decide
    | cons c r =>
      obtain rfl := hr c rfl
      simp [firstAmong, quotedRules, openRules]
  · exact firstAmong_numeralRules (by decide) r
  · rintro c rfl
    decide

theorem firstAmong_numeralRules_dot {r : List Char} (hr : ∀ c, r.head? = some c → c.isDigit = false) :
    firstAmong numeralRules ('.' :: r) = none := by
  have hpoint {ts : List Stretch} :
      spell (.one (· = '.') :: .many Char.isDigit :: ts) ('.' :: r) = none := by
    have hone : (Stretch.one (· = '.')).reach ('.' :: r) = 1 := rfl
    have hmany : (Stretch.many Char.isDigit).reach r = 0 := Stretch.reach_eq_zero hr
    rw [spell_cons, hone, drop_one, tail_cons, spell_cons, hmany]
    rfl
  rw [firstAmong, List.findSome?_eq_none_iff]
  intro rule hrule
  rw [Option.map_eq_none_iff]
  fin_cases hrule
  · refine List.findSome?_eq_none_iff.mpr fun ts hts => ?_
    fin_cases hts
    iterate 2 exact spell_of_mayStart rfl r
    iterate 2 exact hpoint
    · exact spell_of_mayStart rfl r
  iterate 7 exact spell_of_mayStart rfl r
  · refine List.findSome?_eq_none_iff.mpr fun ts hts => ?_
    fin_cases hts <;> exact spell_of_mayStart rfl r

theorem lays_dot : Lays (·.isDigit = false) ".".toList [(.DOT, ".")] := by
  have hx : IsMark .DOT "." := by decide
  refine lays_of_mark hx (by decide) ⟨'.', [], by decide, by decide⟩ (fun r hr => ⟨?_, ?_⟩) ?_
  · exact firstAmong_quotedRules ⟨by decide, by decide, by decide⟩ r
  · exact firstAmong_numeralRules_dot hr
  · exact fun c _ => free_of_standsAlone (by decide) c

/-! ## Words, numbers and strings -/

theorem Lexeme.feedless (hx : Lexeme s x) : '\n' ∉ x.toList := by
  obtain ⟨-, rest, role, hm, hk⟩ := hx
  obtain ⟨y, rest', heq, hlen, -, hfits⟩ := firstMatch_eq_some hm
  obtain rfl := append_inj_left heq hlen.symm
  cases role with
  | token k => exact hfits
  | word => exact hfits
  | directive => cases hk
  | skipped => cases hk

theorem lays_number (hx : Lexeme s x) (hs : s ∈ Sym.FLOATNUMBER :: integerSyms) :
    Lays (· ∈ stops) x.toList [(s, x)] := by
  refine .token (.token s.name) rfl hx.feedless (Front.imp (hx.numberStart hs) ?_) fun r hr =>
    hx.firstMatch_number hs hr
  rintro c hc
  constructor <;> rintro rfl <;> cases hc

theorem lays_string (hx : Lexeme .STRING_LITERAL x) :
    Lays (fun _ => True) x.toList [(.STRING_LITERAL, x)] := by
  obtain ⟨⟨ds, hds⟩, hm⟩ := hx.string
  exact .token (.token "STRING_LITERAL") rfl hx.feedless ⟨'"', _, hds, by decide, by decide⟩
    fun r _ => hm r

theorem lays_simple (hx : Lexeme s x) (hkind : wordKind x = s.name) (hsimple : Simple x.toList) :
    Lays (isNameChar · = false) x.toList [(s, x)] := by
  refine .token .word (congrArg some hkind) hx.feedless ?_ fun r hr => hsimple.firstMatch hr
  obtain ⟨c, ds, hds, hc, -⟩ := hsimple
  refine ⟨c, ds, hds, ?_, ?_⟩ <;> rintro rfl <;> revert hc <;> decide

theorem Lexeme.wordStart (hx : Lexeme s x) (hs : s.name ∈ wordKinds)
    (hmark : s.name ∉ marks.map Prod.snd) :
    Front WordStart (Printer.escape x).toList := by
  have hfront : Front WordStart x.toList := by
    obtain ⟨-, ⟨ds, hds, -⟩ | ⟨c, ds, hds, hc, -⟩⟩ := hx.word hs hmark
    · exact ⟨'\\', ds, hds, by simp⟩
    · exact ⟨c, ds, hds, by simp [hc]⟩
  rw [Printer.escape]
  split
  · rw [String.toList_append]
    exact hfront.append _
  · exact hfront

theorem lays_escaped (hx : Lexeme s x) (hkind : wordKind x = s.name) (hescaped : Escaped x.toList) :
    Lays (· = ' ') x.toList [(s, x)] := by
  refine .token .word (congrArg some hkind) hx.feedless ?_ fun r hr =>
    hescaped.firstMatch fun c hc => by rw [hr c hc]; rfl
  obtain ⟨ds, hds, -⟩ := hescaped
  exact ⟨'\\', ds, hds, by decide, by decide⟩

theorem lays_word (hx : Lexeme s x) (hs : s.name ∈ wordKinds) (hmark : s.name ∉ marks.map Prod.snd) :
    Lays (isNameChar · = false) (Printer.escape x).toList [(s, x)] := by
  obtain ⟨hkind, hescaped | hsimple⟩ := hx.word hs hmark
  · have htoken := lays_escaped hx hkind hescaped
    have htext : (Printer.escape x).toList = x.toList ++ [' '] := by
      obtain ⟨ds, hds, -⟩ := hescaped
      simp [Printer.escape, Text.startsWith, hds, Text.startsChars]
    rw [htext]
    exact (htoken.append .blank ⟨' ', [], rfl, rfl⟩).imp fun _ _ => trivial
  · have htext : Printer.escape x = x := by
      obtain ⟨c, ds, hds, hc, -⟩ := hsimple
      have hback : c ≠ '\\' := by
        rintro rfl
        revert hc
        decide
      simp [Printer.escape, Text.startsWith, hds, Text.startsChars, hback.symm]
    rw [htext]
    exact lays_simple hx hkind hsimple

end

end RtlFlow.Verilog
