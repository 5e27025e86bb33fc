import Mathlib
import RtlFlow.Proofs.Design.Connecting

/-!
# Two passes in lockstep

The second pass makes the labels of the scopes anew. It comes by the same scopes as the first pass
as long as both take the same labels in the same order, and both find the same values wherever a
value decides on scopes.
-/

namespace RtlFlow.Design

open List

open Stage

/-! ## Regions -/

/-- Where a statement stands. -/
inductive Region where
  | module | generate | statement
deriving DecidableEq

namespace Region

variable {r : Region} {word : String} {p : Path}

def marks : Region → List Marks
  | .module => [{ isModule := true }]
  | .generate => [{ isGenerate := true }]
  | .statement => [{ isAlways := true }, { isGenerate := true, isAlways := true }]

/-- A scope lies in a region, outside calls and while loops. -/
structure Fits (r : Region) (p : Path) : Prop where
  concrete : Concrete p
  marks : marksOf p ∈ r.marks
  aside : isAside p = false

/-- The region of the scopes of a kind that are opened in a region, if they may be. -/
def into (r : Region) : ScopeKind → Option Region
  | .module => some .module
  | .generate => if r = .statement then none else some .generate
  | .always => if r = .statement then none else some .statement
  | .if | .for | .block => if r = .module then none else some r
  | _ => none

theorem Fits.push {r' : Region} {l : Label} (h : r.Fits p) (hl : r.into l.kind = some r') :
    r'.Fits (p.push l) := by
  have hmarks : ∀ k, r.into k = some r' →
      (∀ m ∈ r.marks, m.enter k ∈ r'.marks) ∧ k ≠ .any ∧ isAside ⟨[⟨"", k, .none⟩]⟩ = false := by
    intro k hk
    cases r <;> cases k <;> cases hk <;> decide
  obtain ⟨henter, hany, haside⟩ := hmarks l.kind hl
  refine ⟨h.concrete.push hany, ?_, ?_⟩
  · rw [marksOf_push]
    exact henter _ h.marks
  · rw [isAside_push, h.aside]
    exact haside

def words : Region → List String
  | .module => ["always", "generate"]
  | .generate => ["always", "generate", "if", "for", "block"]
  | .statement => ["if", "for", "block"]

theorem mem_words_of_ne_statement (hr : r ≠ .statement) (hword : word ∈ ["always", "generate"]) :
    word ∈ r.words := by
  revert word
  revert hr
  cases r <;> decide

theorem mem_words_of_ne_module (hr : r ≠ .module) (hword : word ∈ ["if", "for", "block"]) :
    word ∈ r.words := by
  revert word
  revert hr
  cases r <;> decide

theorem Fits.key_shared (h : r.Fits p) (hword : word ∈ r.words) :
    (marksOf p).key word ∈ sharedKeys := by
  have hmarks : ∀ m ∈ r.marks, ∀ word ∈ r.words, m.key word ∈ sharedKeys := by
    cases r <;> decide
  exact hmarks _ h.marks word hword

end Region

/-! ## Placement -/

/-- Whether all parts and their members pass a test in a region. -/
def placedBelow (found : List (Ast.Found (Region → Bool))) (r : Region) : Bool :=
  found.all fun f => f.whole r && match f.each with
    | .ok xs => xs.all fun x => x r
    | .error _ => true

def placedNode (k : Ast.Kind) (parts : List Ast) (found : List (Ast.Found (Region → Bool)))
    (r : Region) : Bool :=
  match k with
  | .always => r ≠ .statement && placedBelow found .statement
  | .generateStatement => r ≠ .statement && placedBelow found .generate
  | .inst => r ≠ .statement
  | .ifStatement | .caseStatement | .casexStatement | .casezStatement | .forStatement | .block =>
    r ≠ .module && placedBelow found r
  | .function | .task => r = .module && parts.all (allKinds isPlain)
  | .whileStatement => parts.all (allKinds isFlat)
  | .systemCall => parts.all (allKinds isMute)
  | .input | .output | .inout | .reg | .wire | .supply | .regArray | .wireArray | .tri | .integer
  | .parameter | .localparam | .genvar | .initial | .assign | .blockingSubstitution
  | .nonblockingSubstitution => true
  | _ => placedBelow found r

/-- Whether no value at a node decides on scopes: it is no loop, no array of instances, and no
condition of a generate region. -/
def decidesNothing (k : Ast.Kind) (place : Ast.Place) (parts : List Ast) (r : Region) : Bool :=
  match k with
  | .ifStatement => r ≠ .generate
  | .forStatement => false
  | .inst => !((Ast.node k place parts).part? "array").any Ast.isPresent
  | _ => true

def standsAt (settled : Bool) (k : Ast.Kind) (place : Ast.Place) (parts : List Ast)
    (found : List (Ast.Found (Region → Bool))) (r : Region) : Bool :=
  (!settled || decidesNothing k place parts r) && placedNode k parts found r

/-- Whether the statements of a tree stand in regions where they may stand, and in a settled tree
no value decides on scopes. -/
def stands (settled : Bool) (t : Ast) : Region → Bool :=
  t.fold (fun _ _ => true) (standsAt settled)

/-- Whether the statements of a tree stand in regions where they may stand. Functions and tasks
stand in modules, and the body of a while loop opens no scope but for while loops. -/
def placed : Ast → Region → Bool := stands false

section Stands

variable {settled : Bool} {k : Ast.Kind} {place : Ast.Place} {parts : List Ast} {r : Region}

def standing (settled : Bool) (parts : List Ast) : List (Ast.Found (Region → Bool)) :=
  Ast.foldParts (fun _ _ => true) (standsAt settled) parts

theorem stands_node : stands settled (.node k place parts) r =
    standsAt settled k place parts (standing settled parts) r := by
  rw [stands, Ast.fold, standing]

theorem forall_placedBelow (h : placedBelow (standing settled parts) r = true) :
    (∀ t ∈ parts, stands settled t r = true) ∧
      ∀ t ∈ parts, ∀ us, t.members = .ok us → ∀ u ∈ us, stands settled u r = true := by
  rw [standing, Ast.foldParts_eq_map, placedBelow, all_map, all_eq_true] at h
  refine ⟨fun t ht => ?_, fun t ht us hus u hu => ?_⟩
  · have := h t ht
    simp only [Function.comp_apply, Bool.and_eq_true] at this
    exact this.1
  · have := h t ht
    simp only [Function.comp_apply, Bool.and_eq_true, hus, Except.map, all_map] at this
    exact all_eq_true.mp this.2 u hu

end Stands

/-! ## Stages of both passes -/

/-- The bodies of all modules, and whether they are settled. -/
structure Bodies where
  of : String → Option Ast
  settled : Bool

instance : CoeFun Bodies fun _ => String → Option Ast := ⟨Bodies.of⟩

/-- What is found stays found, and where the bodies are settled nothing is found. -/
structure Bodies.Finds (bodies : Bodies) (t t' : Stage) : Prop where
  grown : t.findings <:+ t'.findings
  settled : bodies.settled = true → t'.findings = t.findings

theorem Bodies.Finds.trans {bodies : Bodies} {t t' t'' : Stage} (h : bodies.Finds t t')
    (h' : bodies.Finds t' t'') : bodies.Finds t t'' :=
  ⟨h.grown.trans h'.grown, fun hs => (h'.settled hs).trans (h.settled hs)⟩

variable {bodies : Bodies}
variable {r r₀ r₁ : Region} {s : Stage} {α β : Type} {l : Label} {word : String}
variable {p : Pass α} {home : Path → Path} {ι : Type} {kind : ι → Finding} {s₁ : Stage} {node : Ast}
    {enter' : Pass Path}

/-- A stage where a statement of a region may be visited, with the bodies of all modules. -/
structure Stage.Ready (bodies : Bodies) (r : Region) (s : Stage) : Prop where
  sound : s.Sound
  region : r.Fits s.frames.current
  inFunction : s.frames.inFunction = false
  inTask : s.frames.inTask = false
  bodies : ∀ m, s.bodyOf m = bodies m

/-- What a visit does to a stage: the journal grows, and modules that are known do not become black
boxes. -/
structure Stage.Grown (s s' : Stage) : Prop where
  sound : s'.Sound
  inFunction : s'.frames.inFunction = false
  inTask : s'.frames.inTask = false
  keys : s.frames.table.keys ⊆ s'.frames.table.keys
  bodies : ∀ m, s'.bodyOf m = s.bodyOf m
  opened : s.opened <:+ s'.opened
  findings : s.findings <:+ s'.findings
  blackBoxes : s.blackBoxes ⊆ s'.blackBoxes
  known : ∀ m ∈ s'.blackBoxes, (s.bodyOf m).isSome → m ∈ s.blackBoxes

/-- The scopes that were opened have frames. -/
def Stage.Lists (s s' : Stage) : Prop :=
  ∀ e ∈ s'.opened, e ∈ s.opened ∨ e.1 ∈ s'.frames.table.keys

/-- A visit that ends in a region, at a place that depends on where it began. -/
structure Stage.Walked (r : Region) (home : Path → Path) (s s' : Stage) : Prop where
  grown : s.Grown s'
  home : s'.frames.current = home s.frames.current
  region : r.Fits s'.frames.current

/-- The stages of the two passes agree: they are in the same scope, would make the same labels,
have the same journal and pass over the same modules. -/
structure Stage.Agree (s t : Stage) : Prop where
  current : t.frames.current = s.frames.current
  labels : ∀ key ∈ sharedKeys, t.labels.get? key = s.labels.get? key
  opened : t.opened = s.opened
  findings : t.findings = s.findings
  blackBoxes : ∀ m ∈ t.blackBoxes, (s.bodyOf m).isSome → m ∈ s.blackBoxes

namespace Stage

variable {r r₀ : Region} {home : Path → Path} {s s' s'' t t' : Stage} {name : String} {b : Ast}

theorem finds_of_eq (h : t'.findings = t.findings) : bodies.Finds t t' :=
  ⟨h ▸ suffix_rfl, fun _ => h⟩

theorem Grown.trans (h : s.Grown s') (h' : s'.Grown s'') : s.Grown s'' where
  sound := h'.sound
  inFunction := h'.inFunction
  inTask := h'.inTask
  keys := List.Subset.trans h.keys h'.keys
  bodies m := (h'.bodies m).trans (h.bodies m)
  opened := h.opened.trans h'.opened
  findings := h.findings.trans h'.findings
  blackBoxes := List.Subset.trans h.blackBoxes h'.blackBoxes
  known m hm hsome := h.known m (h'.known m hm (by rwa [h.bodies m])) hsome

theorem Lists.trans (h : s.Lists s') (h' : s'.Lists s'') (hgrown : s'.Grown s'') :
    s.Lists s'' := by
  intro e he
  rcases h' e he with he | he
  · exact (h e he).imp id fun he => hgrown.keys he
  · exact .inr he

theorem Kept.grown (h : s.Kept s') (hs : s.Ready bodies r) : s.Grown s' where
  sound := h.sound
  inFunction := h.frames.inFunction hs.inFunction
  inTask := h.frames.inTask.trans hs.inTask
  keys := h.frames.keys
  bodies := h.bodies
  opened := h.opened ▸ suffix_rfl
  findings := h.findings ▸ suffix_rfl
  blackBoxes := h.blackBoxes ▸ List.Subset.refl _
  known _ hm _ := h.blackBoxes ▸ hm

theorem Kept.walked (h : s.Kept s') (hs : s.Ready bodies r) : Walked r id s s' where
  grown := h.grown hs
  home := h.frames.current
  region := h.frames.current ▸ hs.region

theorem Ready.grown (hs : s.Ready bodies r) : s.Grown s := (Kept.refl hs.sound).grown hs

theorem Kept.lists (h : s.Kept s') : s.Lists s' := fun _ he => .inl (h.opened ▸ he)

theorem Ready.after (h : s.Ready bodies r) (h' : s.Grown s') (hr : r₀.Fits s'.frames.current) :
    s'.Ready bodies r₀ where
  sound := h'.sound
  region := hr
  inFunction := h'.inFunction
  inTask := h'.inTask
  bodies m := (h'.bodies m).trans (h.bodies m)

theorem Ready.walk (h : s.Ready bodies r) (h' : Walked r₀ home s s') : s'.Ready bodies r₀ :=
  h.after h'.grown h'.region

theorem Ready.get?_eq_some (h : s.Ready bodies r) (hb : bodies name = some b) :
    ∃ m, s.modules.table.get? name = some m ∧ m.body = b :=
  Option.map_eq_some_iff.mp ((h.bodies name).trans hb)

theorem Ready.get?_eq_none (h : s.Ready bodies r) (hb : bodies name = none) :
    s.modules.table.get? name = none :=
  Option.map_eq_none_iff.mp ((h.bodies name).trans hb)

theorem Ready.find (h : s.Ready bodies r) (hb : bodies name = some b) :
    ∃ m, s.modules.find name = .ok m ∧ m.body = b := by
  obtain ⟨m, hget, hbody⟩ := h.get?_eq_some hb
  exact ⟨m, by rw [Modules.find, hget]; rfl, hbody⟩

theorem Agree.kept (h : s.Agree t) (hs : s.Kept s') (ht : t.Kept t') : s'.Agree t' where
  current := by rw [ht.frames.current, hs.frames.current, h.current]
  labels key hkey := by rw [ht.labels key hkey, hs.labels key hkey, h.labels key hkey]
  opened := by rw [ht.opened, hs.opened, h.opened]
  findings := by rw [ht.findings, hs.findings, h.findings]
  blackBoxes m := by rw [ht.blackBoxes, hs.blackBoxes, hs.bodies m]; exact h.blackBoxes m

end Stage

/-! ## Computations of both passes -/

/-- A computation of the first pass and one of the second that go along together, from one region
to another, with results of which something is known from where they began. If the second finds no
other values than the first where they decide on scopes, then the stages agree at the end; if it
fails, it has opened no other scopes. -/
structure Paired {α β : Type} (bodies : Bodies) (r r₁ : Region) (home : Path → Path)
    (R : Path → α → β → Prop) (p : Pass α) (q : Pass β) : Prop where
  first : ∀ s, s.Ready bodies r →
    Ends (fun a s' => Walked r₁ home s s' ∧ s.Lists s' ∧ ∃ b, R s.frames.current a b)
      (fun _ => True) (p s)
  second : ∀ t, t.Ready bodies r →
    Ends (fun b t' => Walked r₁ home t t' ∧ t'.blackBoxes = t.blackBoxes ∧
      bodies.Finds t t' ∧ ∃ a, R t.frames.current a b) (bodies.Finds t) (q t)
  agree : ∀ (found : List Finding) s t, s.Ready bodies r → t.Ready bodies r → s.Agree t →
    ∀ a s', p s = .ok a s' → s'.findings <:+ found → s'.blackBoxes ⊆ t.blackBoxes →
      Ends (fun b t' => t'.findings <:+ found → R s.frames.current a b ∧ s'.Agree t')
        (fun t' => t'.findings <:+ found → t'.opened <:+ s'.opened) (q t)

/-- Computations of whose results nothing is known. -/
abbrev Lockstep {α β : Type} (bodies : Bodies) (r r₁ : Region) (home : Path → Path)
    (p : Pass α) (q : Pass β) : Prop := Paired bodies r r₁ home (fun _ _ _ => True) p q

/-- A computation that comes back to the scope where it began. -/
abbrev Follows {α β : Type} (bodies : Bodies) (r : Region) (p : Pass α) (q : Pass β) :
    Prop := Lockstep bodies r r id p q

/-- A computation that is quiet in a region, with what is known of its result. -/
structure Steady {α : Type} (bodies : Bodies) (r : Region) (P : α → Prop)
    (p : Pass α) : Prop where
  ends : ∀ s, s.Ready bodies r → Ends (fun a s' => s.Kept s' ∧ P a) (SameJournal s) (p s)
  result : ∀ s : Stage, s.Ready bodies r → ∃ a, P a

theorem Quiet.steady [Inhabited α] (h : Quiet .any p) : Steady bodies r (fun _ => True) p :=
  ⟨fun _ hs => (h.ends hs.sound trivial).mono (fun _ _ h => ⟨h.1, trivial⟩) fun _ h => h,
    fun _ _ => ⟨default, trivial⟩⟩

theorem bind_eq_result {k : α → Pass β} {s' : Stage} {b : β} (h : (p >>= k) s = .ok b s') :
    ∃ a s₁, p s = .ok a s₁ ∧ k a s₁ = .ok b s' := by
  change EStateM.bind p k s = _ at h
  unfold EStateM.bind at h
  split at h
  · exact ⟨_, _, ‹_›, h⟩
  · cases h

section

variable {α β : Type} {r : Region} {home : Path → Path} {p : Pass α} {q : Pass β}
variable {P : α → Prop} {Q : β → Prop} {R : Path → α → β → Prop}

theorem Paired.of_steady (hp : Steady bodies r P p) (hq : Steady bodies r Q q) :
    Paired bodies r r id (fun _ a b => P a ∧ Q b) p q where
  first s hs := by
    refine (hp.ends s hs).mono (fun a s' h => ⟨h.1.walked hs, h.1.lists, ?_⟩) fun _ _ => trivial
    exact (hq.result s hs).imp fun _ hb => ⟨h.2, hb⟩
  second t ht := by
    refine (hq.ends t ht).mono (fun b t' h => ⟨h.1.walked ht, h.1.blackBoxes,
      finds_of_eq h.1.findings, ?_⟩) fun _ h => finds_of_eq h.2
    exact (hp.result t ht).imp fun _ ha => ⟨ha, h.2⟩
  agree found s t hs ht hst a s' hrun _ _ := by
    have hkept := (hp.ends s hs).of_ok hrun
    refine (hq.ends t ht).mono (fun _ t' h _ => ⟨⟨hkept.2, h.2⟩, hst.kept hkept.1 h.1⟩)
      fun t' h _ => ?_
    simp [h.1, hst.opened, hkept.1.opened]

theorem Paired.lockstep (h : Paired bodies r r₀ home R p q) : Lockstep bodies r r₀ home p q where
  first s hs := (h.first s hs).mono
    (fun _ _ h => ⟨h.1, h.2.1, h.2.2.imp fun _ _ => trivial⟩) fun _ h => h
  second t ht := (h.second t ht).mono
    (fun _ _ h => ⟨h.1, h.2.1, h.2.2.1, h.2.2.2.imp fun _ _ => trivial⟩) fun _ h => h
  agree found s t hs ht hst a s' hrun hfound hboxes :=
    (h.agree found s t hs ht hst a s' hrun hfound hboxes).mono
      (fun _ _ h hfound => ⟨trivial, (h hfound).2⟩) fun _ h => h

end

namespace Lockstep

variable {α β γ δ : Type} {r r₀ r₁ : Region} {home : Path → Path} {p : Pass α} {q : Pass β}
variable {k : α → Pass γ}
variable {P : α → Prop} {Q : β → Prop} {k' : β → Pass δ} {ts : List γ} {f g : γ → Pass PUnit}

theorem of_paired {home₁ : Path → Path} {home₂ : α → Path → Path} {R : Path → α → β → Prop}
    {g : β → Pass δ} (h : Paired bodies r r₁ home₁ R p q)
    (hhome : ∀ path a b, R path a b → home₂ a (home₁ path) = home path)
    (hk : ∀ a b path, r.Fits path → R path a b → Lockstep bodies r₁ r₀ (home₂ a) (k a) (g b)) :
    Lockstep bodies r r₀ home (p >>= k) (q >>= g) where
  first s hs := by
    refine Ends.bind (h.first s hs) fun a s₁ _ h₁ => ?_
    obtain ⟨h₁, hlists, b, hR⟩ := h₁
    refine ((hk a b _ hs.region hR).first s₁ (hs.walk h₁)).mono (fun _ s₂ h₂ => ?_) fun _ h => h
    refine ⟨⟨h₁.grown.trans h₂.1.grown, ?_, h₂.1.region⟩, hlists.trans h₂.2.1 h₂.1.grown, h₂.2.2⟩
    rw [h₂.1.home, h₁.home, hhome _ _ _ hR]
  second t ht := by
    refine Ends.bind (h.second t ht) fun b t₁ _ h₁ => ?_
    obtain ⟨h₁, hboxes, hfinds, a, hR⟩ := h₁
    refine ((hk a b _ ht.region hR).second t₁ (ht.walk h₁)).mono (fun _ t₂ h₂ => ?_)
      fun _ h₂ => hfinds.trans h₂
    refine ⟨⟨h₁.grown.trans h₂.1.grown, ?_, h₂.1.region⟩, h₂.2.1.trans hboxes,
      hfinds.trans h₂.2.2.1, h₂.2.2.2⟩
    rw [h₂.1.home, h₁.home, hhome _ _ _ hR]
  agree found s t hs ht hst c s₂ hrun hfound hboxes := by
    obtain ⟨a, s₁, hrun₁, hrun₂⟩ := bind_eq_result hrun
    obtain ⟨h₁, -, b₀, hR₀⟩ := (h.first s hs).of_ok hrun₁
    have h₂ := ((hk a b₀ _ hs.region hR₀).first s₁ (hs.walk h₁)).of_ok hrun₂
    have hagree := h.agree found s t hs ht hst a s₁ hrun₁ (h₂.1.grown.findings.trans hfound)
      (List.Subset.trans h₂.1.grown.blackBoxes hboxes)
    refine Ends.bind (hagree.mono (fun _ _ h => h) fun t' h hfound' =>
      (h hfound').trans h₂.1.grown.opened) fun b t₁ hrun' hsame => ?_
    obtain ⟨ht₁, hboxes₁, -, a', hR'⟩ := (h.second t ht).of_ok hrun'
    -- If the second pass has found something else by now, that stays found.
    by_cases hfound₁ : t₁.findings <:+ found
    · obtain ⟨hR, hst₁⟩ := hsame hfound₁
      exact (hk a b _ hs.region hR).agree found s₁ t₁ (hs.walk h₁) (ht.walk ht₁) hst₁ c s₂ hrun₂
        hfound (hboxes₁ ▸ hboxes)
    · refine ((hk a' b _ ht.region hR').second t₁ (ht.walk ht₁)).mono
        (fun _ t₂ h₂ hfound₂ => absurd ?_ hfound₁) fun t₂ h₂ hfound₂ =>
          absurd (h₂.grown.trans hfound₂) hfound₁
      exact h₂.1.grown.findings.trans hfound₂

theorem of_steady (hp : Steady bodies r P p) (hq : Steady bodies r Q q) : Follows bodies r p q :=
  (Paired.of_steady hp hq).lockstep

theorem of_quiet [Inhabited α] [Inhabited β] [hp : Quiet .any p] [hq : Quiet .any q] :
    Follows bodies r p q :=
  of_steady (Quiet.steady hp) (Quiet.steady hq)

theorem done [Inhabited α] [Inhabited β] {a : α} {b : β} : Follows bodies r (pure a) (pure b) :=
  of_quiet

theorem failed [Inhabited α] [Inhabited β] {f g : Fault} :
    Follows bodies r (throw f : Pass α) (throw g : Pass β) := of_quiet

theorem bind {home₁ : Path → Path} (h : Lockstep bodies r r₁ home₁ p q)
    (hk : ∀ a b, Lockstep bodies r₁ r₀ home (k a) (k' b)) :
    Lockstep bodies r r₀ (home ∘ home₁) (p >>= k) (q >>= k') :=
  .of_paired h (fun _ _ _ _ => rfl) fun a b _ _ _ => hk a b

theorem seq (h : Follows bodies r p q)
    (hk : ∀ a b, Lockstep bodies r r₀ home (k a) (k' b)) :
    Lockstep bodies r r₀ home (p >>= k) (q >>= k') := bind h hk

theorem left_bind (hp : Steady bodies r P p) (hk : ∀ a, P a → Lockstep bodies r r₀ home (k a) q) :
    Lockstep bodies r r₀ home (p >>= k) q :=
  of_paired (q := pure ()) (g := fun _ => q) (.of_steady hp (Quiet.steady .pure))
    (fun _ _ _ _ => rfl) fun a _ _ _ h => hk a h.1

theorem right_bind {k : β → Pass γ} (hq : Steady bodies r Q q)
    (hk : ∀ b, Q b → Lockstep bodies r r₀ home p (k b)) :
    Lockstep bodies r r₀ home p (q >>= k) :=
  of_paired (p := pure ()) (k := fun _ => p) (.of_steady (Quiet.steady .pure) hq)
    (fun _ _ _ _ => rfl) fun _ b _ _ h => hk b h.2

theorem left_quiet [Inhabited α] [hp : Quiet .any p] (hk : ∀ a, Lockstep bodies r r₀ home (k a) q) :
    Lockstep bodies r r₀ home (p >>= k) q :=
  left_bind (Quiet.steady hp) fun a _ => hk a

theorem right_quiet [Inhabited β] {k : β → Pass γ} [hq : Quiet .any q]
    (hk : ∀ b, Lockstep bodies r r₀ home p (k b)) : Lockstep bodies r r₀ home p (q >>= k) :=
  right_bind (Quiet.steady hq) fun b _ => hk b

theorem ite {c : Prop} [Decidable c] {p' : Pass α} {q' : Pass β}
    (h : Lockstep bodies r r₀ home p q) (h' : Lockstep bodies r r₀ home p' q') :
    Lockstep bodies r r₀ home (if c then p else p') (if c then q else q') := by
  split
  · exact h
  · exact h'

theorem lift_bind {x : Result γ} {k : γ → Pass α} {k' : γ → Pass β}
    (hk : ∀ a, x = .ok a → Lockstep bodies r r₀ home (k a) (k' a)) :
    Lockstep bodies r r₀ home (lift x >>= k) (lift x >>= k') := by
  cases x with
  | ok a => exact hk a rfl
  | error f =>
    exact ⟨fun _ _ => trivial, fun _ _ => finds_of_eq rfl, fun _ _ _ _ _ _ _ _ hrun => nomatch hrun⟩

theorem forM (h : ∀ t ∈ ts, Follows bodies r (f t) (g t)) :
    Follows bodies r (ts.forM f) (ts.forM g) := by
  induction ts with
  | nil => exact done
  | cons t ts ih =>
    have hrest := ih fun u hu => h u (mem_cons_of_mem _ hu)
    exact seq (h t mem_cons_self) fun _ _ => hrest

theorem forM_map (h : ∀ t ∈ ts, Follows bodies r (f t) (g t)) :
    Follows bodies r ((ts.map f).forM id) ((ts.map g).forM id) := by
  have hmap : ∀ f : γ → Pass PUnit, (ts.map f).forM id = ts.forM f := by
    intro f
    clear h
    induction ts with
    | nil => rfl
    | cons t ts ih => exact congrArg (fun rest => f t >>= fun _ => rest) ih
  rw [hmap f, hmap g]
  exact forM h

end Lockstep

/-! ## Steps with a common result -/

/-! ### Labels -/

def Stage.labelText (s : Stage) (word : String) : String :=
  let key := (marksOf s.frames.current).key word
  key ++ Text.ofInt ((s.labels.get? key).getD 0 : Nat)

def Stage.labelled (s : Stage) (word : String) : Stage :=
  let key := (marksOf s.frames.current).key word
  { s with labels := s.labels.put key ((s.labels.get? key).getD 0 + 1) }

theorem blockLabel_ends (hs : s.Sound) :
    Ends (fun label s' => label = s.labelText word ∧ s' = s.labelled word) (fun s' => s' = s)
      (blockLabel word s) := by
  change Ends _ _ ((lift (s.frames.labelKey word) >>= newLabel) s)
  cases hkey : s.frames.labelKey word with
  | error f => exact rfl
  | ok key =>
    obtain rfl := labelKey_eq hs.frames hkey
    exact ⟨rfl, rfl⟩

namespace Stage

variable {r : Region} {s t : Stage} {word : String}

theorem Ready.labelled_walked (hs : s.Ready bodies r) : Walked r id s (s.labelled word) where
  grown := { hs.grown with sound := ⟨hs.sound.frames, hs.sound.functions⟩ }
  home := rfl
  region := hs.region

theorem Agree.labelled (h : s.Agree t) (hs : s.Ready bodies r) (hword : word ∈ r.words) :
    s.labelText word = t.labelText word ∧ (s.labelled word).Agree (t.labelled word) := by
  have hshared := hs.region.key_shared hword
  have hcount := h.labels _ hshared
  refine ⟨?_, { h with labels := fun key hkey => ?_ }⟩
  · simp only [labelText, h.current, hcount]
  · simp only [Stage.labelled, h.current, Table.get?_put, hcount, h.labels key hkey]

end Stage

theorem paired_blockLabel (hword : word ∈ r.words) :
    Paired bodies r r id (fun _ => Eq) (blockLabel word) (blockLabel word) where
  first s hs := by
    refine (blockLabel_ends hs.sound).mono ?_ fun _ _ => trivial
    rintro _ _ ⟨rfl, rfl⟩
    exact ⟨hs.labelled_walked, fun _ he => .inl he, _, rfl⟩
  second t ht := by
    refine (blockLabel_ends ht.sound).mono ?_ ?_
    · rintro _ _ ⟨rfl, rfl⟩
      exact ⟨ht.labelled_walked, rfl, finds_of_eq rfl, _, rfl⟩
    · rintro _ rfl
      exact finds_of_eq rfl
  agree found s t hs ht hst label s' hrun _ _ := by
    obtain ⟨rfl, rfl⟩ := (blockLabel_ends hs.sound).of_ok hrun
    refine (blockLabel_ends ht.sound).mono ?_ ?_
    · rintro _ _ ⟨rfl, rfl⟩ -
      exact hst.labelled hs hword
    · rintro _ rfl -
      exact hst.opened ▸ suffix_rfl

theorem Lockstep.label (hword : word ∈ r.words) {k : String → Pass α} {k' : String → Pass β}
    (hk : ∀ label, Lockstep bodies r r₀ home (k label) (k' label)) :
    Lockstep bodies r r₀ home (blockLabel word >>= k) (blockLabel word >>= k') :=
  .of_paired (paired_blockLabel hword) (fun _ _ _ _ => rfl) fun label _ _ _ h => h ▸ hk label

/-! ### Values that decide on scopes -/

def Stage.decided (s : Stage) (f : Finding) : Stage := { s with findings := f :: s.findings }

theorem noteFinding_eq (hs : s.Ready bodies r) (f : Finding) :
    (noteFinding f : Pass Unit) s = .ok ⟨⟩ (s.decided f) := by
  change EStateM.Result.ok _ (if _ then _ else _) = _
  rw [if_neg (by simp [hs.inFunction, hs.inTask, hs.region.aside])]
  rfl

theorem Stage.Ready.decided_walked (hs : s.Ready bodies r) (f : Finding) :
    Walked r id s (s.decided f) where
  grown :=
    { hs.grown with
      sound := ⟨hs.sound.frames, hs.sound.functions⟩
      findings := suffix_cons f _ }
  home := rfl
  region := hs.region

/-- Values of the same kind that the passes find at the same place: if both are among the values
that are found in the end, they are equal. -/
theorem paired_noteFinding (hfree : bodies.settled = false) (hkind : ∀ i j, kind i = kind j → i = j)
    (i j : ι) :
    Paired bodies r r id (fun _ => Eq) (noteFinding (kind i) >>= fun _ => pure i)
      (noteFinding (kind j) >>= fun _ => pure j) := by
  have hrun : ∀ i s, Stage.Ready bodies r s →
      (noteFinding (kind i) >>= fun _ => pure i : Pass ι) s = .ok i (s.decided (kind i)) := by
    intro i s hs
    change EStateM.bind _ _ s = _
    rw [EStateM.bind, noteFinding_eq hs]
    rfl
  refine ⟨fun s hs => ?_, fun t ht => ?_, fun found s t hs ht hst a s' hrun' hfound _ => ?_⟩
  · rw [hrun i s hs]
    exact ⟨hs.decided_walked _, fun _ he => .inl he, i, rfl⟩
  · rw [hrun j t ht]
    exact ⟨ht.decided_walked _, rfl, ⟨suffix_cons _ _, by simp [hfree]⟩, j, rfl⟩
  · rw [hrun i s hs] at hrun'
    cases hrun'
    rw [hrun j t ht]
    intro hfound'
    -- Both values stand on the same earlier ones at the end of one list.
    have heq : kind i :: s.findings = kind j :: s.findings := by
      change kind i :: s.findings <:+ found at hfound
      change kind j :: t.findings <:+ found at hfound'
      rw [hst.findings] at hfound'
      exact (suffix_of_suffix_length_le hfound hfound' (by simp)).eq_of_length (by simp)
    obtain rfl := hkind i j (List.cons.inj heq).1
    exact ⟨rfl, { hst with findings := congrArg (List.cons _) hst.findings }⟩

theorem Lockstep.finding (hfree : bodies.settled = false) (hkind : ∀ i j, kind i = kind j → i = j)
    {k : ι → Pass α} {k' : ι → Pass β}
    (hk : ∀ i, Lockstep bodies r r₀ home (k i) (k' i)) (i j : ι) :
    Lockstep bodies r r₀ home (noteFinding (kind i) >>= fun _ => k i)
      (noteFinding (kind j) >>= fun _ => k' j) :=
  .of_paired (k := k) (g := k') (paired_noteFinding hfree hkind i j) (fun _ _ _ _ => rfl)
    fun i _ _ _ h => h ▸ hk i

/-! ### Scopes -/

theorem Lockstep.goTo {q : Path} (hq : r₀.Fits q) :
    Lockstep bodies r r₀ (fun _ => q) (goTo q) (goTo q) := by
  have hwalked : ∀ s : Stage, s.Ready bodies r → Walked r₀ (fun _ => q) s (s.at q) := fun s hs =>
    { grown := { hs.grown with sound := ⟨⟨hq.concrete, hs.sound.frames.fits⟩, hs.sound.functions⟩ }
      home := rfl
      region := hq }
  refine ⟨fun s hs => ⟨hwalked s hs, fun _ he => .inl he, ⟨⟩, trivial⟩,
    fun t ht => ⟨hwalked t ht, rfl, finds_of_eq rfl, ⟨⟩, trivial⟩, ?_⟩
  intro found s t hs ht hst a s' hrun hfound hboxes
  cases hrun
  exact fun _ => ⟨trivial, { hst with current := rfl }⟩

theorem noted_ready (hs : s.Ready bodies r) (hl : r.into l.kind = some r₁) (node : Ast) :
    s.noted (s.frames.current.push l) node =
      { s with opened := (s.frames.current.push l, node) :: s.opened } := by
  unfold Stage.noted
  rw [if_neg (by simp [hs.inFunction, hs.inTask, (hs.region.push hl).aside])]

/-- A step into a noted scope that changes nothing else for the scopes to come. -/
structure Stage.Scoped (r₁ : Region) (l : Label) (node : Ast) (s s₁ : Stage) : Prop where
  walked : Walked r₁ (·.push l) s s₁
  opened : s₁.opened = (s.frames.current.push l, node) :: s.opened
  labels : ∀ key ∈ sharedKeys, s₁.labels.get? key = s.labels.get? key
  findings : s₁.findings = s.findings
  blackBoxes : s₁.blackBoxes = s.blackBoxes

theorem Rule.Entered.scoped (hs : s.Ready bodies r) (hl : r.into l.kind = some r₁)
    (h : quiet.Entered l (s.noted (s.frames.current.push l) node) s₁) : Scoped r₁ l node s s₁ := by
  have hsound := h.sound
  rw [noted_ready hs hl] at h
  have hgrown : s.Grown s₁ :=
    { sound := hsound
      inFunction := h.kept.frames.inFunction hs.inFunction
      inTask := h.kept.frames.inTask.trans hs.inTask
      keys := h.kept.frames.keys
      bodies := h.kept.bodies
      opened := h.kept.opened ▸ suffix_cons _ _
      findings := h.kept.findings ▸ suffix_rfl
      blackBoxes := h.kept.blackBoxes ▸ List.Subset.refl _
      known := fun _ hm _ => h.kept.blackBoxes ▸ hm }
  exact ⟨⟨hgrown, h.current, h.current ▸ hs.region.push hl⟩, h.kept.opened, h.kept.labels,
    h.kept.findings, h.kept.blackBoxes⟩

theorem Stage.Agree.scoped {t t₁ : Stage} (h : s.Agree t) (hs : Scoped r₁ l node s s₁)
    (ht : Scoped r₁ l node t t₁) : s₁.Agree t₁ where
  current := by rw [ht.walked.home, hs.walked.home, h.current]
  labels key hkey := by rw [ht.labels key hkey, hs.labels key hkey, h.labels key hkey]
  opened := by rw [ht.opened, hs.opened, h.current, h.opened]
  findings := by rw [ht.findings, hs.findings, h.findings]
  blackBoxes m := by
    rw [ht.blackBoxes, hs.blackBoxes, hs.walked.grown.bodies m]
    exact h.blackBoxes m

theorem paired_enter (node : Ast) {enter : Pass Path} (hl : r.into l.kind = some r₁)
    (henter : ∀ s, s.Ready bodies r → quiet.EntersAt .any l node
      (fun s₁ => s.frames.current.push l ∈ s₁.frames.table.keys) s enter)
    (henter' : ∀ t, t.Ready bodies r → quiet.EntersAt .any l node (fun _ => True) t enter') :
    Paired bodies r r₁ (·.push l) (fun path a b => a = path ∧ b = path) enter enter' where
  first s hs := by
    refine (henter s hs).mono (fun outer s₁ h => ?_) fun _ _ => trivial
    have hscoped := h.2.1.scoped hs hl
    refine ⟨hscoped.walked, fun e he => ?_, _, h.1, rfl⟩
    rw [hscoped.opened] at he
    rcases mem_cons.mp he with rfl | he
    · exact .inr h.2.2.2
    · exact .inl he
  second t ht := by
    refine (henter' t ht).mono (fun outer t₁ h => ?_) fun t' h => ?_
    · have hscoped := h.2.1.scoped ht hl
      exact ⟨hscoped.walked, hscoped.blackBoxes, finds_of_eq hscoped.findings, _, rfl, h.1⟩
    · rw [noted_ready ht hl] at h
      exact h.elim (fun h => finds_of_eq h.2) fun h => finds_of_eq h.2
  agree found s t hs ht hst outer s₁ hrun _ _ := by
    obtain ⟨rfl, hentered, -⟩ := (henter s hs).of_ok hrun
    have hscoped := hentered.scoped hs hl
    refine (henter' t ht).mono (fun outer' t₁ h _ => ?_) fun t' h _ => ?_
    · exact ⟨⟨rfl, h.1.trans hst.current⟩, hst.scoped hscoped (h.2.1.scoped ht hl)⟩
    · -- The second pass may fail before or after it has noted the scope.
      rw [noted_ready ht hl, hst.current] at h
      rw [hscoped.opened, ← hst.opened]
      rcases h with h | h
      · exact h.1 ▸ suffix_cons _ _
      · exact h.1 ▸ suffix_rfl

theorem Lockstep.within {enter : Pass Path}
    (h : Paired bodies r r₁ (·.push l) (fun path a b => a = path ∧ b = path) enter enter')
    {k : Path → Pass α} {k' : Path → Pass β}
    (hk : ∀ outer, r.Fits outer → Lockstep bodies r₁ r (fun _ => outer) (k outer) (k' outer)) :
    Follows bodies r (enter >>= k) (enter' >>= k') :=
  .of_paired h (fun _ _ _ h => h.1) fun a b path hpath hR => by
    obtain ⟨rfl, rfl⟩ := hR
    exact hk _ hpath

end RtlFlow.Design
