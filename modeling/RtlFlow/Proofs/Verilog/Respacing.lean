import Mathlib
import RtlFlow.Proofs.Verilog.Layout

/-!
# Tokens with single blanks between them

A lexeme ends in front of a blank wherever it was found. So the tokens of a text, written one after
the other with single blanks between them, are read again as the same tokens. More blanks at the
front of its lines do not change them either.
-/

namespace RtlFlow.Verilog

open List

variable {s : Sym} {x : String} {w : Wording}

/-! ## Lexemes in front of a blank -/

theorem Sym.name_injective {s t : Sym} (h : s.name = t.name) : s = t := by
  have hid : (grammarFrom .DOT).ids[s.name]? = some s.id := ids_name s
  rw [h, ids_name t] at hid
  exact Sym.id_injective (Option.some.inj hid).symm

theorem lays_of_mem_marks (h : (x, s.name) ∈ marks) : Lays (· = ' ') x.toList [(s, x)] := by
  have hmarks : ∀ p ∈ marks, firstAmong markRules p.1.toList = some (.token p.2, p.1.toList.length) ∧
      '\n' ∉ p.1.toList ∧ (p.1.toList.head?.any isMarkStart = true ∨ p.1 = "/" ∨ p.1 = ".") := by
    decide
  obtain ⟨hx, hfeed, hstart | rfl | rfl⟩ := hmarks _ h
  · refine (lays_mark ⟨hx, hfeed, hstart⟩).imp ?_
    rintro c rfl
    refine free_of_not_mem (fun hnil => ?_) (by decide)
    rw [hnil] at hstart
    cases hstart
  · obtain rfl : s = .DIVIDE := Sym.name_injective (show s.name = "DIVIDE" by simpa [marks] using h)
    exact lays_divide
  · obtain rfl : s = .DOT := Sym.name_injective (show s.name = "DOT" by simpa [marks] using h)
    exact lays_dot.imp (by rintro c rfl; rfl)

theorem Lexeme.lays (hx : Lexeme s x) : Lays (· = ' ') x.toList [(s, x)] := by
  obtain ⟨hs, -⟩ | ⟨hs, -⟩ | ⟨hkind, hescaped | hsimple⟩ | hmark := hx.cases
  · obtain rfl : s = .STRING_LITERAL := Sym.name_injective hs
    exact (lays_string hx).any
  · obtain ⟨s', hs', hname⟩ := mem_map.mp hs
    obtain rfl := Sym.name_injective hname
    exact (lays_number hx hs').imp (by rintro c rfl; decide)
  · exact lays_escaped hx hkind hescaped
  · exact (lays_simple hx hkind hsimple).imp (by rintro c rfl; decide)
  · exact lays_of_mem_marks hmark

theorem laid_spaced (hw : ∀ p ∈ w, Lexeme p.1 p.2) :
    Laid ([' '].intercalate (w.map fun p => p.2.toList)) w := by
  induction w with
  | nil => exact .nil
  | cons p w ih =>
    have hp := (hw p mem_cons_self).lays
    have hrest := ih fun q hq => hw q (mem_cons_of_mem _ hq)
    cases w with
    | nil => simpa using hp.laid
    | cons q w =>
      rw [map_cons, map_cons, intercalate_cons_cons, append_assoc]
      exact hp _ _ (by simp) (.gap (.inl rfl) hrest)

/-! ## Scans -/

theorem Lexer.scan_of_advance? {l l' : Lexer} {r : Option Report} (h : l.advance? = some (r, l')) :
    l.scan.1 = r.toList ++ l'.scan.1 := by
  rw [Lexer.scan]
  split <;> rename_i heq <;> rw [h] at heq <;> cases heq <;> rfl

theorem Laid.scan {l : Lexer} (h : Laid l.rest w) : ∃ ts : List Token,
    l.scan.1 = ts.map .token ∧ (ts.map fun t => (t.kind, t.text)) = w.map fun p => (p.1.name, p.2) := by
  -- Line feeds are skipped at once, so the induction is on the length.
  induction hn : l.rest.length using Nat.strong_induction_on generalizing l w with
  | _ n ih =>
    subst hn
    generalize hrest : l.rest = cs at h
    cases h with
    | nil =>
      refine ⟨[], ?_, rfl⟩
      rw [Lexer.scan]
      split <;> simp_all [Lexer.advance?.eq_def]
    | @gap c cs w hc h =>
      obtain ⟨l', hadvance, hl'⟩ : ∃ l', l.advance? = some (none, l') ∧ Laid l'.rest w := by
        rcases hc with rfl | rfl
        · exact ⟨_, Lexer.advance?_blank hrest,
            (Lexer.Behind.rest_pass (x := [' ']) hrest).symm ▸ h⟩
        · obtain ⟨l', hadvance, hl'⟩ := Lexer.advance?_feed hrest
          exact ⟨l', hadvance, hl' ▸ h.dropWhile⟩
      rw [Lexer.scan_of_advance? hadvance]
      exact ih _ (Lexer.rest_length_lt_of_advance? hadvance) hl' rfl
    | @token s x cs w hx h =>
      have hadvance := Lexer.advance?_token hx hrest
      obtain ⟨ts, hts, htexts⟩ := ih _ (Lexer.rest_length_lt_of_advance? hadvance)
        ((Lexer.Behind.rest_pass hrest).symm ▸ h) rfl
      refine ⟨⟨s.name, x, l.line, l.pos⟩ :: ts, ?_, congrArg (List.cons (s.name, x)) htexts⟩
      rw [Lexer.scan_of_advance? hadvance, hts]
      rfl

theorem Laid.scanText (h : Laid x.toList w) : (scanText x).illegals = [] ∧
    ((scanText x).tokens.map fun t => (t.kind, t.text)) = w.map fun p => (p.1.name, p.2) := by
  have hload : Laid (Lexer.load {} x).rest w := h
  obtain ⟨ts, hscan, hts⟩ := hload.scan
  have htokens : (Verilog.scanText x).tokens = ts ∧ (Verilog.scanText x).illegals = [] := by
    simp [Verilog.scanText, Scan.ofReports, hscan]
  rw [htokens.1, htokens.2, hts]
  exact ⟨rfl, rfl⟩

theorem exists_sym {role : Role} {k : String} (hrole : role ∈ rules.map Rule.role)
    (hk : role.kindOf x = some k) : ∃ s : Sym, s.name = k := by
  have hroles : ∀ role ∈ rules.map Rule.role, role ∈ [.word, .directive, .skipped] ∨
      ∃ s ∈ Sym.all, role = .token s.name := by decide +kernel
  have hwords : ∀ k ∈ "ID" :: keywords.map Prod.snd, ∃ s ∈ Sym.all, s.name = k := by decide +kernel
  rcases hroles role hrole with hother | ⟨s, -, rfl⟩
  · fin_cases hother
    · obtain ⟨s, -, hs⟩ := hwords _ (wordKind_mem x)
      exact ⟨s, hs.trans (Option.some.inj hk)⟩
    · cases hk
    · cases hk
  · exact ⟨s, Option.some.inj hk⟩

theorem exists_lexeme {text : String} {t : Token} (ht : t ∈ (scanText text).tokens) :
    ∃ s : Sym, s.name = t.kind ∧ Lexeme s t.text := by
  obtain ⟨ps, l, htiles, hscan, -⟩ := exists_pieces text
  rw [hscan, tokens_ofReports, mem_filterMap] at ht
  obtain ⟨p, hp, htoken⟩ := ht
  obtain ⟨kind, huse, rfl, -⟩ := Piece.token?_eq_some htoken
  obtain ⟨hne, rest, -, hfits⟩ := Tiles.fits htiles hp
  rw [huse] at hfits
  obtain ⟨role, hm, hkind⟩ := hfits
  obtain ⟨rule, hrule, rfl, -⟩ := exists_rule hm
  obtain ⟨s, rfl⟩ := exists_sym (mem_map_of_mem hrule) hkind
  exact ⟨s, rfl, by simpa using hne, rest, rule.role, by simpa using hm, hkind⟩

/-- The tokens of a text with single blanks between them are read again as the same tokens, and no
character of them is illegal. -/
theorem scanText_respaced (text : String) :
    let again := scanText (Text.joinWith " " ((scanText text).tokens.map Token.text))
    again.illegals = [] ∧ (again.tokens.map fun t => (t.kind, t.text)) =
      (scanText text).tokens.map fun t => (t.kind, t.text) := by
  choose! sym hname hlexeme using fun t => @exists_lexeme text t
  let w := (scanText text).tokens.map fun t => (sym t, t.text)
  have hlaid : Laid (Text.joinWith " " ((scanText text).tokens.map Token.text)).toList w := by
    have hw : ∀ p ∈ w, Lexeme p.1 p.2 := by
      intro p hp
      obtain ⟨t, ht, rfl⟩ := mem_map.mp hp
      exact hlexeme t ht
    simpa [w, Text.joinWith, Function.comp_def] using laid_spaced hw
  obtain ⟨hlegal, htokens⟩ := hlaid.scanText
  refine ⟨hlegal, htokens.trans ?_⟩
  rw [map_map]
  exact map_congr_left fun t ht => by simp [hname t ht]

/-! ## Margins -/

section Margins

variable {front : Bool} {cs ds l : List Char} {w : Wording} {n : Nat}

/-- A text with more blanks at the front of its lines. The mark says whether a line begins here. -/
inductive Indented : Bool → List Char → List Char → Prop
  | nil {front : Bool} : Indented front [] []
  | blank {cs ds : List Char} (h : Indented true cs ds) : Indented true cs (' ' :: ds)
  | keep {front : Bool} {c : Char} {cs ds : List Char} (h : Indented (c == '\n') cs ds) :
      Indented front (c :: cs) (c :: ds)

namespace Indented

theorem fill (h : Indented true cs ds) : Indented true cs (replicate n ' ' ++ ds) := by
  induction n with
  | zero => exact h
  | succ n ih => exact .blank ih

theorem feed (h : Indented true cs ds) : Indented front ('\n' :: cs) ('\n' :: ds) :=
  .keep (by rwa [beq_self_eq_true])

theorem append (h : ∀ {front}, Indented front cs ds) : Indented front (l ++ cs) (l ++ ds) := by
  induction l generalizing front with
  | nil => exact h
  | cons c l ih => exact .keep ih

/-- A token has no line feed in it, so it stays in one piece. -/
theorem exists_append {x : List Char} (hx : '\n' ∉ x) (h : Indented false (x ++ cs) ds) :
    ∃ ds', ds = x ++ ds' ∧ Indented false cs ds' := by
  induction x generalizing ds with
  | nil => exact ⟨ds, rfl, h⟩
  | cons c x ih =>
    cases h with
    | keep h =>
      rw [beq_eq_false_iff_ne.mpr (ne_of_not_mem_cons hx).symm] at h
      obtain ⟨ds', rfl, hrest⟩ := ih (not_mem_of_not_mem_cons hx) h
      exact ⟨ds', rfl, hrest⟩

theorem laid_of_false (h : Indented front cs ds) (hlaid : ∀ ds, Indented false cs ds → Laid ds w) :
    Laid ds w := by
  induction h with
  | nil => exact hlaid _ .nil
  | blank _ ih => exact .gap (.inl rfl) (ih hlaid)
  | keep h => exact hlaid _ (.keep h)

theorem laid (h : Indented front cs ds) (hcs : Laid cs w) : Laid ds w := by
  induction hcs generalizing front ds with
  | nil => exact h.laid_of_false fun _ h => by cases h; exact .nil
  | gap hc _ ih =>
    refine h.laid_of_false fun _ h => ?_
    cases h with
    | keep h => exact .gap hc (ih h)
  | @token s x cs w hx _ ih =>
    refine h.laid_of_false fun _ h => ?_
    obtain ⟨ds', rfl, hrest⟩ := h.exists_append hx.feedless
    have hhead : ds'.head? = cs.head? := by cases hrest <;> rfl
    exact .token ⟨hx.feedless, hx.front, by rw [hhead]; exact hx.lexeme⟩ (ih hrest)

end Indented

theorem indented_cutLines (hcs : ∀ c ∈ cs, Text.isLineEnd c = true → c = '\n') :
    Indented true (l.reverse ++ cs) (((Text.cutLines l cs).map fun p => p.1 ++ p.2).flatMap
      fun line => if line.all Text.isBlank then line else replicate n ' ' ++ line) := by
  have hline {cs ds ends l : List Char}
      (h : ∀ {front}, Indented front (ends ++ cs) (ends ++ ds)) :
      Indented true (l ++ (ends ++ cs)) ((if (l ++ ends).all Text.isBlank then l ++ ends
        else replicate n ' ' ++ (l ++ ends)) ++ ds) := by
    split
    · simpa using Indented.append h
    · simpa using (Indented.append h).fill
  fun_induction Text.cutLines l cs with
  | case1 => exact .nil
  | case2 l => simpa using @hline [] [] [] l.reverse .nil
  | case3 l rest => exact absurd (hcs '\r' (by simp) (by decide)) (by decide)
  | case4 l c rest _ hend ih =>
    obtain rfl := hcs c (by simp) hend
    have hrest := ih fun c hc => hcs c (mem_cons_of_mem _ hc)
    exact @hline rest _ ['\n'] l.reverse (.feed hrest)
  | case5 l c rest _ hend ih =>
    simpa using ih fun c hc => hcs c (mem_cons_of_mem _ hc)

/-- A margin of blanks before the lines of a text of tokens does not change the tokens, if its lines
end at line feeds only. -/
theorem scanText_indentWith {x : String} (h : Laid x.toList w)
    (hx : ∀ c ∈ x.toList, Text.isLineEnd c = true → c = '\n') (n : Nat) :
    let moved := scanText (Text.indentWith (Text.fill n ' ') x)
    moved.illegals = [] ∧ (moved.tokens.map fun t => (t.kind, t.text)) =
      (scanText x).tokens.map fun t => (t.kind, t.text) := by
  have hmoved : Laid (Text.indentWith (Text.fill n ' ') x).toList w := by
    have := (@indented_cutLines x.toList [] n hx).laid h
    simpa [Text.indentWith, Text.linesWithEnds, Text.fill] using this
  exact ⟨hmoved.scanText.1, hmoved.scanText.2.trans h.scanText.2.symm⟩

end Margins

end RtlFlow.Verilog
