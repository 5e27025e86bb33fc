import Mathlib
import RtlFlow.Proofs.Design.Rules

/-!
# Quiet computations

Most of what the passes do opens no scope that both of them share. Such a computation is quiet: it
ends in the frame where it began, takes none of the shared labels and notes nothing in the journal.
-/

namespace RtlFlow.Design

open Stage

variable {s s' : Stage} {m : Mode} {l : Label} {word : String} {k : ScopeKind}

def Stage.bodyOf (s : Stage) (m : String) : Option Ast := (s.modules.table.get? m).map (·.body)

/-- The frames fit their paths, and all functions are plain. -/
structure Stage.Sound (s : Stage) : Prop where
  frames : s.frames.Sound
  functions : ∀ e ∈ s.wiring.functions.entries, PlainFunction e.2

/-- What a quiet computation keeps of a stage. -/
structure Stage.Kept (s s' : Stage) : Prop where
  frames : s.frames.Kept s'.frames
  functions : ∀ e ∈ s'.wiring.functions.entries, PlainFunction e.2
  labels : ∀ key ∈ sharedKeys, s'.labels.get? key = s.labels.get? key
  opened : s'.opened = s.opened
  findings : s'.findings = s.findings
  bodies : ∀ m, s'.bodyOf m = s.bodyOf m
  blackBoxes : s'.blackBoxes = s.blackBoxes

namespace Stage.Kept

theorem sound (h : s.Kept s') : s'.Sound := ⟨h.frames.sound, h.functions⟩

theorem refl (h : s.Sound) : s.Kept s where
  frames := .refl h.frames
  functions := h.functions
  labels _ _ := rfl
  opened := rfl
  findings := rfl
  bodies _ := rfl
  blackBoxes := rfl

theorem of_frames {fs : Frames} (h : s.Sound) (hfs : s.frames.Kept fs) :
    s.Kept { s with frames := fs } :=
  { refl h with frames := hfs }

end Stage.Kept

def SameJournal (s s' : Stage) : Prop := s'.opened = s.opened ∧ s'.findings = s.findings

abbrev quiet : Rule where
  Sound := Stage.Sound
  Kept := Stage.Kept
  Failed := SameJournal
  Body := PlainFunction
  concrete hs := hs.frames.current
  concrete_name hs hf := hs.frames.name_at? hf
  body hs := hs.functions
  sound h := h.sound
  sound_at hs hp := ⟨⟨hp, hs.frames.fits⟩, hs.functions⟩
  sound_noted hs p node := by
    unfold Stage.noted
    split
    · exact hs
    · exact ⟨hs.frames, hs.functions⟩
  current h := h.frames.current
  beside hs h :=
    { frames := .of_table hs.frames h.table h.current h.inFunction h.inTask
      functions := h.functions ▸ hs.functions
      labels _ _ := by rw [h.labels]
      opened := h.opened
      findings := h.findings
      bodies _ := by rw [Stage.bodyOf, h.modules]; rfl
      blackBoxes := h.blackBoxes }
  put hs hf hg := .of_frames hs (hs.frames.put hf fun _ hk => hk.of_like hg)
  declare {s f g} hs hmarks hf hg := by
    have hregion : g.toMarks ≠ {} := by
      rw [hg.marks, hs.frames.marks_at? hs.frames.current hf]
      exact hmarks
    refine .of_frames hs (hs.frames.put hf fun k hk => ?_)
    exact ⟨hk.concrete, hg.name.trans hk.name, hg.marks.trans hk.marks, hg.functions ▸ hk.functions,
      fun h => absurd h hregion⟩
  enter {s f form l fs} hs hf hform h := by
    have hmarks : (form f).toMarks = (marksOf s.frames.current).enter l.kind := by
      rw [hform.marks]
      rcases hf with hf | hl
      · rw [hs.frames.marks_at? hs.frames.current hf]
      · rw [hl]
        rfl
    exact .of_frames hs (hs.frames.add hform.kind hmarks (hform.functions f) (hform.consts f) h)
  back h h' :=
    { frames :=
        { sound := ⟨h.frames.sound.current, h'.frames.sound.fits⟩
          current := rfl
          inFunction hf := h'.frames.inFunction (h.frames.inFunction hf)
          inTask := h'.frames.inTask.trans h.frames.inTask
          keys := List.Subset.trans h.frames.keys h'.frames.keys }
      functions := h'.functions
      labels key hkey := (h'.labels key hkey).trans (h.labels key hkey)
      opened := h'.opened.trans h.opened
      findings := h'.findings.trans h.findings
      bodies m := (h'.bodies m).trans (h.bodies m)
      blackBoxes := h'.blackBoxes.trans h.blackBoxes }
  failed _ := ⟨rfl, rfl⟩
  fails h h' := ⟨h'.1.trans h.opened, h'.2.trans h.findings⟩

abbrev Quiet {α : Type} (m : Mode) (p : Pass α) : Prop := Keeps quiet m p

abbrev QuietAt {α : Type} (m : Mode) (s : Stage) (p : Pass α) : Prop := quiet.At m s p

theorem Quiet.modify {f : Stage → Stage} (h : ∀ s : Stage, s.Sound → s.Kept (f s))
    (hf : ∀ s, (f s).frames.inFunction = s.frames.inFunction) : Quiet m (modify f) :=
  ⟨fun {s} hs hm => ⟨h s hs, hm.congr (h s hs).frames.current (hf s) (h s hs).frames.inTask⟩⟩

/-! ## The journal -/

theorem noted_of_isAside {p : Path} (h : isAside p = true) (node : Ast) : s.noted p node = s := by
  unfold Stage.noted
  rw [if_pos (by simp [h])]

theorem inDeclaration_or_isAside (hm : m.Holds s) (hmode : m ≠ .any) :
    (s.frames.inFunction || s.frames.inTask || isAside s.frames.current) = true := by
  cases m with
  | any => exact absurd rfl hmode
  | calling => simp [hm.2]
  | defining => rcases hm.1 with h | h <;> simp [h]

theorem noted_eq (hm : m.Holds s) (hmode : m ≠ .any) (l : Label) (node : Ast) :
    s.noted (s.frames.current.push l) node = s := by
  have := inDeclaration_or_isAside hm hmode
  unfold Stage.noted
  rw [if_pos]
  simp only [isAside_push, Bool.or_eq_true] at this ⊢
  tauto

theorem noteFinding_quiet {f : Finding} (hmode : m ≠ .any) : Quiet m (noteFinding f) := by
  refine ⟨fun {s} hs hm => ?_⟩
  have hsame : (noteFinding f : Pass Unit) s = .ok ⟨⟩ s := by
    change EStateM.Result.ok _ (if _ then _ else _) = _
    rw [if_pos (inDeclaration_or_isAside hm hmode)]
  unfold Rule.At
  rw [hsame]
  exact ⟨.refl hs, hm⟩

/-! ## Labels -/

theorem labelKey_eq {fs : Frames} {key : String} (hfs : fs.Sound) (h : fs.labelKey word = .ok key) :
    key = (marksOf fs.current).key word := by
  obtain ⟨f, hf, h⟩ := bind_eq_ok.mp h
  cases h
  rw [← hfs.marks_at? hfs.current hf]

theorem blockLabel_quiet (h : ∀ s, m.Holds s → (marksOf s.frames.current).key word ∉ sharedKeys) :
    Quiet m (blockLabel word) := by
  refine ⟨fun {s} hs hm => .lift_bind hs fun key hkey => ?_⟩
  have hnew := labelKey_eq hs.frames hkey ▸ h s hm
  refine ⟨{ Kept.refl hs with labels := fun k hk => ?_ }, hm.congr rfl rfl rfl⟩
  change (s.labels.put key _).get? k = _
  rw [Table.get?_put, if_neg]
  intro heq
  exact hnew (eq_of_beq heq ▸ hk)

instance : Quiet m (blockLabel "functioncall") :=
  blockLabel_quiet fun _ _ => Marks.key_not_shared _ (by simp)

instance : Quiet m (blockLabel "taskcall") :=
  blockLabel_quiet fun _ _ => Marks.key_not_shared _ (by simp)

instance : Quiet m (blockLabel "while") :=
  blockLabel_quiet fun _ _ => Marks.key_not_shared _ (by simp)

/-! ## Scopes that are opened quietly -/

theorem opens_defining (hk : k = .if ∨ k = .for ∨ k = .block) : quiet.Opens .defining k where
  leads {l} hl s s₁ hm hcurrent hfunction htask := by
    have hplain : (marksOf s.frames.current).enter l.kind = {} := by
      rcases hm.2 with h | h <;> rcases hk with hk | hk | hk <;> rw [h, hl, hk] <;> rfl
    refine ⟨by rw [hfunction, htask]; exact hm.1, .inr ?_⟩
    rw [hcurrent, marksOf_push, hplain]
  noted {s l} node _ hs hm := by
    rw [noted_eq hm nofun]
    exact .refl hs

/-- The scopes of statements in declarations of functions and tasks are not shared. -/
instance : quiet.Statements .defining where
  opens _ := opens_defining
  label _ hword := blockLabel_quiet fun _ hm => Marks.key_not_shared_of_plain hm.2 hword
  finding _ := noteFinding_quiet nofun

theorem opens_calling (hk : k = .if ∨ k = .for ∨ k = .block ∨ k = .while) :
    quiet.Opens .calling k where
  leads {l} hl s s₁ hm hcurrent _ _ := by
    refine ⟨?_, ?_⟩
    · rw [hcurrent, marksOf_push, hl]
      rcases hk with hk | hk | hk | hk <;> rw [hk] <;> exact hm.1
    · rw [hcurrent, isAside_push, hm.2, Bool.true_or]
  noted {s l} node _ hs hm := by
    rw [noted_eq hm nofun]
    exact .refl hs

instance : quiet.Statements .calling where
  opens _ hk := opens_calling (hk.imp id (.imp id .inl))
  label _ hword := blockLabel_quiet fun _ hm => Marks.key_not_shared_of_isCall hm.1 hword
  finding _ := noteFinding_quiet nofun

instance [m.Outside] : quiet.Opens m .while := by
  cases m with
  | any =>
    refine ⟨fun _ _ _ _ _ _ _ => trivial, fun {s l} node hl hs _ => ?_⟩
    rw [noted_of_isAside (by rw [isAside_push]; simp [isAside, hl])]
    exact .refl hs
  | calling => exact opens_calling (by simp)
  | defining => exact absurd rfl (Mode.Outside.ne (m := .defining))

end RtlFlow.Design
