import Mathlib
import RtlFlow.Grammar.Engine

/-!
# Runs of the engine

-/

namespace RtlFlow.Grammar.Machine

open List

variable {σ α : Type} {m : Machine σ α}

/-- A machine that leaves no trace and keeps no places. -/
structure Plain (m : Machine σ α) : Prop where
  trace : m.trace = none
  tracking : m.tracking = false

/-- The symbols that the source gives next; at the end of the input it gives the end mark. -/
def Ahead (m : Machine σ α) : List (Symbol α) → σ → Prop
  | [], _ => True
  | x :: ts, s => ∃ o s', m.fetch s = .ok o s' ∧ o.getD Symbol.endMark = x ∧ m.Ahead ts s'

def top (frames : List (Nat × Symbol α)) : Nat :=
  match frames with
  | [] => 0
  | (q, _) :: _ => q

/-- A run with the states and symbols of `frames` on its stacks and the symbols `ts` in front of
it. -/
structure At (m : Machine σ α) (frames : List (Nat × Symbol α)) (ts : List (Symbol α))
    (r : Run α) (s : σ) : Prop where
  states : r.states = frames.map Prod.fst ++ [0]
  symbols : r.symbols = frames.map Prod.snd ++ [Symbol.endMark]
  state : r.state = top frames
  pushed : r.pushed = []
  /-- The symbols in front, the first of which may have been looked at. -/
  ahead : (r.lookahead = none ∧ m.Ahead ts s) ∨
    ∃ x ts', ts = x :: ts' ∧ r.lookahead = some x ∧ m.Ahead ts' s

variable {frames : List (Nat × Symbol α)} {ts : List (Symbol α)} {r : Run α} {s : σ}
  {x : Symbol α}
variable {r' : Run α} {s' : σ} {n number q : Nat} {right : List (Nat × Symbol α)}

theorem At.look (h : m.At frames (x :: ts) r s) :
    ∃ s', m.look r s = .ok (x, { r with lookahead := some x }) s' ∧ m.Ahead ts s' := by
  rcases h.ahead with ⟨hnone, o, s', hfetch, hx, hts⟩ | ⟨x', ts', hcons, hsome, hts⟩
  · refine ⟨s', ?_, hts⟩
    simp only [Machine.look, hnone, h.pushed, bind, EStateM.bind, hfetch, pure, EStateM.pure, hx]
  · obtain ⟨rfl, rfl⟩ := List.cons.inj hcons
    refine ⟨s, ?_, hts⟩
    simp only [Machine.look, hsome, pure, EStateM.pure]
    rw [← hsome]

theorem say_eq (h : m.trace = none) (line : Trace σ α → String) : m.say line = pure () := by
  rw [say, h]

theorem At.shift (hm : m.Plain) (h : m.At frames (x :: ts) r s)
    (hq : m.tables.action? (top frames) x.id = some (.shift q)) :
    ∃ r' s', m.step r s = .ok (.inl r') s' ∧ m.At ((q, x) :: frames) ts r' s' := by
  obtain ⟨s', hlook, hts⟩ := h.look
  refine ⟨{ r with
    states := q :: r.states, symbols := x :: r.symbols, state := q, lookahead := none
    quiet := r.quiet - 1 }, s', ?_, ?_, ?_, rfl, h.pushed, .inl ⟨rfl, hts⟩⟩
  · rw [step]
    simp only [say_eq hm.trace, bind, EStateM.bind, pure, EStateM.pure, hlook, h.state, hq]
  · simp [h.states]
  · simp [h.symbols]

/-- The symbol of the left side of a rule, before its value is known. -/
def leftOf (m : Machine σ α) (number : Nat) : Symbol α :=
  { name := (m.tables.rules.getD number default).name
    id := m.tables.lefts.getD number m.tables.names.size }

def valuedLeft (m : Machine σ α) (number : Nat) (v : α) (line : Option Int) : Symbol α :=
  { m.leftOf number with value := some v, line }

def reductionOf (m : Machine σ α) (number : Nat) (right : List (Symbol α))
    (frames : List (Nat × Symbol α)) : Reduction α :=
  ⟨m.tables.rules.getD number default, m.leftOf number, right,
    frames.map Prod.snd ++ [Symbol.endMark]⟩

theorem states_eq_cons (frames : List (Nat × Symbol α)) :
    ∃ rest, frames.map Prod.fst ++ [0] = top frames :: rest := by
  cases frames with
  | nil => exact ⟨[], rfl⟩
  | cons f frames => exact ⟨frames.map Prod.fst ++ [0], rfl⟩

theorem reduceBy_eq (hm : m.Plain) (hstates : r.states = (right ++ frames).map Prod.fst ++ [0])
    (hsymbols : r.symbols = (right ++ frames).map Prod.snd ++ [Symbol.endMark])
    (hlen : (m.tables.rules.getD number default).symbols.length = right.length) (s : σ) :
    m.reduceBy r x number s =
      match m.reduce (m.reductionOf number (right.map Prod.snd).reverse frames) s with
      | .error e s' => .error e s'
      | .ok .refuse s' => m.refused { r with
          symbols := frames.map Prod.snd ++ [Symbol.endMark]
          states := frames.map Prod.fst ++ [0] } x (m.leftOf number) s'
      | .ok (.value v line) s' =>
        match m.tables.goto? (top frames) (m.leftOf number).id with
        | none => .error .noEntry s'
        | some q => .ok { r with
            states := q :: (frames.map Prod.fst ++ [0])
            symbols := m.valuedLeft number v line :: (frames.map Prod.snd ++ [Symbol.endMark])
            state := q
            lookahead := some x } s' := by
  obtain ⟨rest, hrest⟩ := states_eq_cons frames
  have hsymbols' : r.symbols.drop right.length = frames.map Prod.snd ++ [Symbol.endMark] := by
    rw [hsymbols, map_append, append_assoc, drop_left' (by simp)]
  have htake : r.symbols.take right.length = right.map Prod.snd := by
    rw [hsymbols, map_append, append_assoc, take_left' (by simp)]
  have hstates' : r.states.drop right.length = top frames :: rest := by
    rw [hstates, map_append, append_assoc, drop_left' (by simp), hrest]
  have hmore : ¬ r.symbols.length ≤ right.length := by
    rw [hsymbols]
    simp
  rw [reduceBy, hrest]
  simp only [say_eq hm.trace, bind, EStateM.bind, pure, EStateM.pure, hlen, htake, hsymbols',
    hstates', if_neg hmore, hm.tracking, Bool.false_eq_true, if_false]
  rw [reductionOf, leftOf]
  cases m.reduce _ s with
  | error e s' => rfl
  | ok o s' =>
    cases o with
    | refuse => rfl
    | value v line =>
      simp only [EStateM.bind, EStateM.pure]
      cases m.tables.goto? (top frames) (m.tables.lefts.getD number m.tables.names.size) with
      | none => rfl
      | some q =>
        simp only [Option.or_none]
        rfl

theorem At.reduce (hm : m.Plain) (h : m.At (right ++ frames) (x :: ts) r s)
    (hact : m.tables.action? (top (right ++ frames)) x.id = some (.reduce number))
    (hlen : (m.tables.rules.getD number default).symbols.length = right.length)
    (hgoto : m.tables.goto? (top frames) (m.leftOf number).id = some q) {P : α → Option Int → Prop}
    (hred : ∀ s₁, m.Ahead ts s₁ → ∃ v line s₂,
      m.reduce (m.reductionOf number (right.map Prod.snd).reverse frames) s₁ =
        .ok (.value v line) s₂ ∧ m.Ahead ts s₂ ∧ P v line) :
    ∃ r' s' v line, m.step r s = .ok (.inl r') s' ∧ P v line ∧
      m.At ((q, m.valuedLeft number v line) :: frames) (x :: ts) r' s' := by
  obtain ⟨s₁, hlook, hts⟩ := h.look
  obtain ⟨v, line, s₂, hval, hts', hv⟩ := hred s₁ hts
  refine ⟨{ r with
    states := q :: (frames.map Prod.fst ++ [0])
    symbols := m.valuedLeft number v line :: (frames.map Prod.snd ++ [Symbol.endMark])
    state := q, lookahead := some x }, s₂, v, line, ?_, hv, rfl, rfl, rfl, h.pushed,
    .inr ⟨x, ts, rfl, rfl, hts'⟩⟩
  rw [step]
  simp only [say_eq hm.trace, bind, EStateM.bind, pure, EStateM.pure, hlook, h.state, hact]
  rw [reduceBy_eq hm (r := { r with state := top (right ++ frames), lookahead := some x })
    h.states h.symbols hlen, hval]
  simp only [hgoto]

/-! ## Many steps -/

/-- A number of steps without a result. -/
inductive Steps (m : Machine σ α) : Nat → Run α → σ → Run α → σ → Prop
  | refl (r : Run α) (s : σ) : Steps m 0 r s r s
  | step {n : Nat} {r r' r'' : Run α} {s s' s'' : σ} (h : m.step r s = .ok (.inl r') s')
      (hs : Steps m n r' s' r'' s'') : Steps m (n + 1) r s r'' s''

theorem Steps.trans {n' : Nat} {r r'' : Run α} {s s'' : σ} (h : m.Steps n r s r' s')
    (h' : m.Steps n' r' s' r'' s'') : m.Steps (n + n') r s r'' s'' := by
  induction h with
  | refl r s => rwa [Nat.zero_add]
  | @step n r r' _ s s' _ hstep _ ih =>
    rw [Nat.add_right_comm]
    exact .step hstep (ih h')

theorem Steps.one {r : Run α} {s : σ} (h : m.step r s = .ok (.inl r') s') :
    m.Steps 1 r s r' s' := .step h (.refl r' s')

theorem Steps.steps_eq {r : Run α} {s : σ} (h : m.Steps n r s r' s') (fuel : Nat) :
    m.steps (n + fuel) r s = m.steps fuel r' s' := by
  induction h with
  | refl r s => rw [Nat.zero_add]
  | step hstep _ ih =>
    rw [Nat.add_right_comm, steps]
    simp only [bind, EStateM.bind, hstep]
    exact ih

/-! ## Reading a symbol -/

section

variable {β : Type} {means : Symbol α → β → Prop} {p q A t n : Nat} {e : β}
  {w : List (Nat × β)}
variable {es : List (Nat × β)}

def Is (means : Symbol α → β → Prop) (b : Nat × β) (x : Symbol α) : Prop :=
  x.id = b.1 ∧ means x b.2

/-- The number of the first symbol of a word in front of `t`. -/
def first (w : List (Nat × β)) (t : Nat) : Nat :=
  match w with
  | [] => t
  | b :: _ => b.1

/-- In state `p`, in front of a word and `t`, the engine reads the word as a symbol with a meaning,
in at most `n` steps. -/
def Reads (m : Machine σ α) (means : Symbol α → β → Prop) (p A : Nat) (e : β)
    (w : List (Nat × β)) (t n : Nat) : Prop :=
  ∀ ts x rest frames r s, List.Forall₂ (Is means) w ts → x.id = t → top frames = p →
    m.At frames (ts ++ x :: rest) r s →
    ∃ k ≤ n, ∃ q X r' s', m.tables.goto? p A = some q ∧ Is means (A, e) X ∧ m.Steps k r s r' s' ∧
      m.At ((q, X) :: frames) (x :: rest) r' s'

/-- In state `p`, in front of a word and `t`, the engine reads the word as some symbols, which lead
to state `q`, in at most `n` steps. -/
inductive ReadsAll (m : Machine σ α) (means : Symbol α → β → Prop) :
    Nat → List (Nat × β) → List (Nat × β) → Nat → Nat → Nat → Prop
  | nil (p t : Nat) : ReadsAll m means p [] [] t p 0
  | cons {p p' q t A n n' : Nat} {e : β} {es w w' : List (Nat × β)}
      (h : m.Reads means p A e w (first w' t) n) (hgoto : m.tables.goto? p A = some p')
      (hs : ReadsAll m means p' es w' t q n') :
      ReadsAll m means p ((A, e) :: es) (w ++ w') t q (n + n')

theorem Reads.shift (hm : m.Plain) (hact : m.tables.action? p A = some (.shift q))
    (hgoto : m.tables.goto? p A = some q) : m.Reads means p A e [(A, e)] t 1 := by
  intro ts x rest frames r s hts _ hp hat
  obtain ⟨y, ts', hy, hnil, rfl⟩ := List.forall₂_cons_left_iff.mp hts
  obtain rfl := List.forall₂_nil_left_iff.mp hnil
  have hid : y.id = A := hy.1
  obtain ⟨r', s', hstep, hat'⟩ := hat.shift hm (q := q) (by rw [hp, hid, hact])
  exact ⟨1, Nat.le_refl 1, q, y, r', s', hgoto, hy, .one hstep, hat'⟩

theorem exists_first {ts : List (Symbol α)} (rest : List (Symbol α)) {x : Symbol α}
    (hts : List.Forall₂ (Is means) w ts) (hx : x.id = t) :
    ∃ y rest', ts ++ x :: rest = y :: rest' ∧ y.id = first w t := by
  cases hts with
  | nil => exact ⟨x, rest, rfl, hx⟩
  | @cons b y w ts hy hts => exact ⟨y, ts ++ x :: rest, rfl, hy.1⟩

theorem ReadsAll.run (h : m.ReadsAll means p es w t q n) :
    ∀ ts x rest frames r s, List.Forall₂ (Is means) w ts → x.id = t → top frames = p →
      m.At frames (ts ++ x :: rest) r s →
      ∃ k ≤ n, ∃ right r' s', List.Forall₂ (Is means) es ((right.map Prod.snd).reverse) ∧
        top (right ++ frames) = q ∧ m.Steps k r s r' s' ∧
        m.At (right ++ frames) (x :: rest) r' s' := by
  induction h with
  | nil p t =>
    intro ts x rest frames r s hts _ hp hat
    obtain rfl := List.forall₂_nil_left_iff.mp hts
    exact ⟨0, Nat.le_refl 0, [], r, s, .nil, hp, .refl r s, hat⟩
  | @cons p p' q t A n n' e es w w' h hgoto _ ih =>
    intro ts x rest frames r s hts hx hp hat
    have h₁ : List.Forall₂ (Is means) w (ts.take w.length) := by
      simpa using List.forall₂_take w.length hts
    have h₂ : List.Forall₂ (Is means) w' (ts.drop w.length) := by
      simpa using List.forall₂_drop w.length hts
    obtain ⟨y, rest', hy, hid⟩ := exists_first rest h₂ hx
    rw [← take_append_drop w.length ts, append_assoc, hy] at hat
    obtain ⟨k, hk, p₁, X, r₁, s₁, hgoto₁, hX, hsteps₁, hat₁⟩ :=
      h _ y rest' frames r s h₁ hid hp hat
    obtain rfl : p₁ = p' := Option.some.inj (hgoto₁.symm.trans hgoto)
    rw [← hy] at hat₁
    obtain ⟨k', hk', right, r₂, s₂, hright, htop, hsteps₂, hat₂⟩ :=
      ih _ x rest ((p₁, X) :: frames) r₁ s₁ h₂ hx rfl hat₁
    refine ⟨k + k', by omega, right ++ [(p₁, X)], r₂, s₂, ?_, ?_, hsteps₁.trans hsteps₂, ?_⟩
    · simpa using ⟨hX, hright⟩
    · rw [append_assoc]
      exact htop
    · rw [append_assoc]
      exact hat₂

/-- The action of a rule makes a value of the values of its symbols, and reads nothing. -/
def Makes (m : Machine σ α) (means : Symbol α → β → Prop) (number : Nat) (es : List (Nat × β))
    (e : β) : Prop :=
  ∀ right frames ts s, List.Forall₂ (Is means) es right → m.Ahead ts s →
    ∃ v line s', m.reduce (m.reductionOf number right frames) s = .ok (.value v line) s' ∧
      m.Ahead ts s' ∧ means (m.valuedLeft number v line) e

theorem Reads.reduce (hm : m.Plain) {number q' : Nat} (h : m.ReadsAll means p es w t q n)
    (hact : m.tables.action? q t = some (.reduce number))
    (hlen : (m.tables.rules.getD number default).symbols.length = es.length)
    (hleft : (m.leftOf number).id = A) (hgoto : m.tables.goto? p A = some q')
    (hred : Makes m means number es e) :
    m.Reads means p A e w t (n + 1) := by
  intro ts x rest frames r s hts hx hp hat
  obtain ⟨k, hk, right, r₁, s₁, hright, htop, hsteps, hat₁⟩ := h.run ts x rest frames r s hts hx hp hat
  have hlen' : es.length = right.length := by simpa using hright.length_eq
  obtain ⟨r₂, s₂, v, line, hstep, hmeans, hat₂⟩ := hat₁.reduce hm (q := q')
    (P := fun v line => means (m.valuedLeft number v line) e)
    (by rw [htop, hx, hact]) (hlen.trans hlen') (by rw [hp, hleft, hgoto])
    fun s hs => hred _ frames rest s hright hs
  exact ⟨k + 1, by omega, q', m.valuedLeft number v line, r₂, s₂, hgoto, ⟨hleft, hmeans⟩,
    hsteps.trans (.one hstep), hat₂⟩

theorem At.accept (hm : m.Plain) {X : Symbol α} (h : m.At ((q, X) :: frames) (x :: ts) r s)
    (hact : m.tables.action? q x.id = some .accept) :
    ∃ s', m.step r s = .ok (.inr X.value) s' := by
  obtain ⟨s', hlook, -⟩ := h.look
  refine ⟨s', ?_⟩
  rw [step]
  simp [say_eq hm.trace, bind, EStateM.bind, pure, EStateM.pure, hlook, h.state, top, hact,
    h.symbols]

theorem Reads.parse (hm : m.Plain) (h : m.Reads means 0 A e w Indexed.endId n)
    (hgoto : m.tables.goto? 0 A = some q)
    (hact : m.tables.action? q Indexed.endId = some .accept) {k : Nat} (hk : n < m.enough k)
    (hw : List.Forall₂ (Is means) w ts) (hts : m.Ahead (ts ++ [Symbol.endMark]) s) :
    ∃ X s', m.parse k s = .ok X.value s' ∧ Is means (A, e) X := by
  have hat : m.At [] (ts ++ [Symbol.endMark]) {} s := ⟨rfl, rfl, rfl, rfl, .inl ⟨rfl, hts⟩⟩
  obtain ⟨j, hj, q', X, r', s₁, hgoto', hX, hsteps, hat'⟩ := h ts _ [] [] {} s hw rfl rfl hat
  obtain rfl : q' = q := Option.some.inj (hgoto'.symm.trans hgoto)
  obtain ⟨s₂, hstep⟩ := hat'.accept hm hact
  refine ⟨X, s₂, ?_, hX⟩
  obtain ⟨fuel, hfuel⟩ : ∃ fuel, m.enough k = j + (fuel + 1) :=
    ⟨m.enough k - j - 1, by omega⟩
  rw [Machine.parse, say_eq hm.trace]
  change m.steps (m.enough k) {} s = _
  rw [hfuel, hsteps.steps_eq, steps]
  simp only [bind, EStateM.bind, hstep]
  rfl

end

end RtlFlow.Grammar.Machine
