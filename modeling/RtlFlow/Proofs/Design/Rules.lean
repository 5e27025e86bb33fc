import Mathlib
import RtlFlow.Proofs.Design.Regions

/-!
# Rules for the passes

Most of what a pass does keeps something of its stage: the evaluation of constants, the reading of
expressions with the calls of functions in them, the making of bindings. A rule says what is to be
kept. That a computation keeps a rule is a class with one instance for each way of putting
computations together, so of a function that is put together of others the instance is found.
-/

namespace RtlFlow.Design

open Stage

variable {s s' s₁ s₂ : Stage} {m m₀ : Mode} {l : Label} {α β : Type}

/-! ## Modes -/

def Stage.at (s : Stage) (p : Path) : Stage := { s with frames := s.frames.goTo p }

theorem Stage.at_current (h : s'.frames.current = s.frames.current) :
    s'.at s.frames.current = s' := by
  rw [← h]
  rfl

/-- Where a computation runs: anywhere, in a call or a while loop in it, or in the declaration of a
function or a task. -/
inductive Mode where
  | any | calling | defining

namespace Mode

def Holds : Mode → Stage → Prop
  | .any, _ => True
  | .calling, s =>
    (marksOf s.frames.current).isCall = true ∧ isAside s.frames.current = true
  | .defining, s =>
    (s.frames.inFunction = true ∨ s.frames.inTask = true) ∧
      (marksOf s.frames.current = { isModule := true } ∨ marksOf s.frames.current = {})

theorem Holds.congr (h : m.Holds s) (hcurrent : s'.frames.current = s.frames.current)
    (hfunction : s'.frames.inFunction = s.frames.inFunction)
    (htask : s'.frames.inTask = s.frames.inTask) : m.Holds s' := by
  cases m with
  | any => trivial
  | calling => exact ⟨hcurrent ▸ h.1, hcurrent ▸ h.2⟩
  | defining => exact ⟨by rw [hfunction, htask]; exact h.1, by rw [hcurrent]; exact h.2⟩

theorem Holds.calling (h : Mode.calling.Holds s)
    (hcurrent : s'.frames.current = s.frames.current) : Mode.calling.Holds s' :=
  ⟨hcurrent ▸ h.1, hcurrent ▸ h.2⟩

/-- Outside the declarations of functions and tasks. -/
class Outside (m : Mode) : Prop where
  ne : m ≠ .defining

instance : Outside .any := ⟨nofun⟩

instance : Outside .calling := ⟨nofun⟩

/-- The mode where an excursion began holds again after the return to a frame. -/
class Home (m₀ m : Mode) (q : Path) : Prop where
  holds : ∀ {s : Stage}, m.Holds s → m₀.Holds (s.at q)

instance {q : Path} : Home .any m q := ⟨fun _ => trivial⟩

theorem Holds.home (h : m.Holds s) : Home m m s.frames.current where
  holds {s'} h' := by
    cases m with
    | any => trivial
    | calling => exact h
    | defining => exact ⟨h'.1, h.2⟩

/-- The step below the current frame with a label leads from one mode to another. -/
def Leads (m₀ : Mode) (l : Label) (m : Mode) : Prop :=
  ∀ s s₁ : Stage, m₀.Holds s → s₁.frames.current = s.frames.current.push l →
    s₁.frames.inFunction = s.frames.inFunction → s₁.frames.inTask = s.frames.inTask → m.Holds s₁

theorem any_leads_calling (hl : l.kind = .functioncall ∨ l.kind = .taskcall) :
    Mode.any.Leads l .calling := by
  intro s s₁ _ hcurrent _ _
  rw [Mode.Holds, hcurrent, marksOf_push, isAside_push]
  rcases hl with hl | hl
  · simp [hl, Marks.enter, Marks.isCall, isAside]
  · simp [hl, Marks.enter, Marks.isCall, isAside]

end Mode

/-- The path of a current frame. -/
abbrev Scope := {p : Path // Concrete p}

instance (p : Scope) : Concrete p := p.2

/-- The path of a frame to return to in a mode. -/
abbrev Mode.Place (m : Mode) := {q : Path // Concrete q ∧ Home m m q}

instance (q : m.Place) : Concrete q := q.2.1

instance (q : m.Place) : Mode.Home m m q := q.2.2

/-! ## Ends of computations -/

def Ends {α : Type} (Q : α → Stage → Prop) (E : Stage → Prop) :
    EStateM.Result Fault Stage α → Prop
  | .ok a s => Q a s
  | .error _ s => E s

namespace Ends

variable {Q Q' : α → Stage → Prop} {E E' : Stage → Prop} {r : EStateM.Result Fault Stage α}

theorem mono (h : Ends Q E r) (hQ : ∀ a s, Q a s → Q' a s) (hE : ∀ s, E s → E' s) :
    Ends Q' E' r := by
  cases r with
  | ok a s => exact hQ a s h
  | error f s => exact hE s h

theorem of_ok {a : α} (h : Ends Q E r) (hr : r = .ok a s) : Q a s := by
  rw [hr] at h
  exact h

theorem bind {R : β → Stage → Prop} {p : Pass α} {k : α → Pass β}
    (hp : Ends Q E (p s)) (hk : ∀ a s', p s = .ok a s' → Q a s' → Ends R E (k a s')) :
    Ends R E ((p >>= k) s) := by
  change Ends R E (EStateM.bind p k s)
  unfold EStateM.bind
  cases hrun : p s with
  | ok a s' =>
    rw [hrun] at hp
    exact hk a s' hrun hp
  | error f s' =>
    rw [hrun] at hp
    exact hp

end Ends

/-! ## Rules -/

def Stage.noted (s : Stage) (p : Path) (node : Ast) : Stage :=
  if s.frames.inFunction || s.frames.inTask || isAside p then s
  else { s with opened := (p, node) :: s.opened }

@[simp] theorem noted_frames (s : Stage) (p : Path) (node : Ast) :
    (s.noted p node).frames = s.frames := by
  unfold Stage.noted
  split <;> rfl

theorem Mode.Holds.noted (hm : m.Holds s) (p : Path) (node : Ast) :
    m.Holds (s.noted p node) := hm.congr (by simp) (by simp) (by simp)

/-- No term has the empty path. -/
def Stage.Named (s : Stage) : Prop := ∀ e ∈ s.wiring.terms.entries, e.1.labels ≠ []

/-- Temporary names are counted on, and the terms that are added have a name. -/
def Stage.Counted (s s' : Stage) : Prop := s.renames ≤ s'.renames ∧ (s.Named → s'.Named)

theorem Stage.Counted.trans (h : s.Counted s₁) (h' : s₁.Counted s₂) : s.Counted s₂ :=
  ⟨h.1.trans h'.1, h'.2 ∘ h.2⟩

/-- A step that changes neither scopes nor labels, nor what is declared in them. -/
structure Stage.Beside (s s' : Stage) : Prop where
  modules : s'.modules = s.modules := by rfl
  table : s'.frames.table = s.frames.table := by rfl
  current : s'.frames.current = s.frames.current := by rfl
  inFunction : s'.frames.inFunction = s.frames.inFunction := by rfl
  inTask : s'.frames.inTask = s.frames.inTask := by rfl
  labels : s'.labels = s.labels := by rfl
  functions : s'.wiring.functions = s.wiring.functions := by rfl
  blackBoxes : s'.blackBoxes = s.blackBoxes := by rfl
  opened : s'.opened = s.opened := by rfl
  findings : s'.findings = s.findings := by rfl
  counted : s.Counted s' := by exact ⟨le_rfl, id⟩

/-- The frames of one scope that differ only in signals, tasks, ports of functions and
assignments. -/
structure Frame.Like (f g : Frame) : Prop where
  name : g.name = f.name := by rfl
  previous : g.previous = f.previous := by rfl
  next : g.next = f.next := by rfl
  marks : g.toMarks = f.toMarks := by rfl
  functions : ∀ d ∈ g.functions.table.entries, ∃ d' ∈ f.functions.table.entries,
    d'.2.body = d.2.body := by exact fun d hd => ⟨d, hd, rfl⟩
  consts : g.vars.consts = f.vars.consts := by rfl

/-- The frames of one scope that differ only in variables, tasks and assignments. -/
structure Frame.Redeclares (f g : Frame) : Prop where
  name : g.name = f.name := by rfl
  previous : g.previous = f.previous := by rfl
  next : g.next = f.next := by rfl
  marks : g.toMarks = f.toMarks := by rfl
  functions : g.functions = f.functions := by rfl

theorem Frame.Fits.of_like {f g : Frame} {p : Path} (h : f.Fits p) (hg : f.Like g) : g.Fits p where
  concrete := h.concrete
  name := hg.name.trans h.name
  marks := hg.marks.trans h.marks
  functions d hd := by
    obtain ⟨d', hd', hbody⟩ := hg.functions d hd
    exact hbody ▸ h.functions d' hd'
  consts := by rw [hg.marks, hg.consts]; exact h.consts

/-- Frames for scopes of a kind: they have the marks of these scopes, and nothing is declared in
them. -/
structure Shapes (form : Frame → Frame) (kind : ScopeKind) : Prop where
  marks : ∀ f, (form f).toMarks = f.enter kind
  functions : ∀ f, (form f).functions.table.entries = []
  consts : ∀ f, (form f).vars.consts.entries = []
  next : ∀ f, (form f).next = []
  kind : kind ≠ .any

theorem Shapes.of_rfl {form : Frame → Frame} {kind : ScopeKind}
    (hform : ∀ f, ((form f).toMarks, (form f).functions.table.entries, (form f).vars.consts.entries,
      (form f).next, decide (kind = .any)) = (f.enter kind, [], [], [], false)) :
    Shapes form kind :=
  ⟨fun f => congrArg Prod.fst (hform f), fun f => congrArg (·.2.1) (hform f),
    fun f => congrArg (·.2.2.1) (hform f), fun f => congrArg (·.2.2.2.1) (hform f),
    of_decide_eq_false (congrArg (·.2.2.2.2) (hform {}))⟩

/-- What computations keep of sound stages. A computation without a result may leave less. -/
structure Rule where
  Sound : Stage → Prop
  Kept : Stage → Stage → Prop
  Failed : Stage → Stage → Prop
  /-- The functions that may be declared. -/
  Body : Ast → Prop
  concrete {s : Stage} (hs : Sound s) : Concrete s.frames.current
  concrete_name {s : Stage} {p : Path} {f : Frame} (hs : Sound s) (hf : s.frames.at? p = .ok f) :
    Concrete f.name
  body {s : Stage} (hs : Sound s) : ∀ e ∈ s.wiring.functions.entries, Body e.2
  sound {s s' : Stage} (h : Kept s s') : Sound s'
  sound_at {s : Stage} {p : Path} (hs : Sound s) (hp : Concrete p) : Sound (s.at p)
  sound_noted {s : Stage} (hs : Sound s) (p : Path) (node : Ast) : Sound (s.noted p node)
  current {s s' : Stage} (h : Kept s s') : s'.frames.current = s.frames.current
  beside {s s' : Stage} (hs : Sound s) (h : s.Beside s') : Kept s s'
  put {s : Stage} {p : Path} {f g : Frame} (hs : Sound s) (hf : s.frames.at? p = .ok f)
    (hg : f.Like g) : Kept s { s with frames.table := s.frames.table.put p g }
  /-- The variables of a scope in a region may change. -/
  declare {s : Stage} {f g : Frame} (hs : Sound s) (hmarks : marksOf s.frames.current ≠ {})
    (hf : s.frames.here = .ok f) (hg : f.Redeclares g) :
    Kept s { s with frames.table := s.frames.table.put s.frames.current g }
  enter {s : Stage} {f : Frame} {form : Frame → Frame} {l : Label} {fs : Frames} (hs : Sound s)
    (hf : s.frames.here = .ok f ∨ l.kind = .module) (hform : Shapes form l.kind)
    (h : s.frames.add [l] (form f) = .ok fs) :
    Kept s { s with frames := fs.goTo s.frames.current }
  /-- What is kept in another frame is kept after the return. -/
  back {s t u : Stage} (h : Kept s (t.at s.frames.current)) (h' : Kept t u) :
    Kept s (u.at s.frames.current)
  failed {s : Stage} (hs : Sound s) : Failed s s
  fails {s t u : Stage} (h : Kept s (t.at s.frames.current)) (h' : Failed t u) : Failed s u

variable {R : Rule} {p : Pass α} {k : α → Pass β}

namespace Rule

theorem refl (hs : R.Sound s) : R.Kept s s := R.beside hs {}

theorem at_current (h : R.Kept s s') : R.Kept s (s'.at s.frames.current) := by
  rwa [Stage.at_current (R.current h)]

theorem trans (h : R.Kept s s') (h' : R.Kept s' s₂) : R.Kept s s₂ := by
  have hback := R.back (at_current h) h'
  rwa [Stage.at_current ((R.current h').trans (R.current h))] at hback

/-- A computation keeps a rule at a stage, with the mode. -/
def At (R : Rule) (m : Mode) (s : Stage) (p : Pass α) : Prop :=
  Ends (fun _ s' => R.Kept s s' ∧ m.Holds s') (R.Failed s) (p s)

namespace At

theorem pure {a : α} (hs : R.Sound s) (hm : m.Holds s) : R.At m s (pure a : Pass α) :=
  ⟨refl hs, hm⟩

theorem after (hs : R.Kept s s') (h : R.At m s' p) : R.At m s (fun _ => p s') :=
  h.mono (fun _ _ h => ⟨trans hs h.1, h.2⟩) fun _ h => R.fails (at_current hs) h

theorem bind (hp : R.At m s p) (hk : ∀ a s', R.Kept s s' → m.Holds s' → R.At m s' (k a)) :
    R.At m s (p >>= k) :=
  Ends.bind hp fun a s' _ h => (hk a s' h.1 h.2).after h.1

theorem lift_bind {x : Result α} (hs : R.Sound s) (h : ∀ a, x = .ok a → R.At m s (k a)) :
    R.At m s (lift x >>= k) := by
  cases x with
  | ok a => exact h a rfl
  | error f => exact R.failed hs

theorem get_bind {k : Stage → Pass β} (h : R.At m s (k s)) : R.At m s (get >>= k) := h

theorem set_bind {k : PUnit → Pass β} (hs : R.Kept s s') (h : R.At m s' (k ⟨⟩)) :
    R.At m s (set s' >>= k) := h.after hs

end At

end Rule

/-- A computation keeps a rule wherever it starts in a mode. -/
class Keeps (R : Rule) (m : Mode) {α : Type} (p : Pass α) : Prop where
  ends : ∀ {s : Stage}, R.Sound s → m.Holds s → R.At m s p

namespace Keeps

variable {f : Fault} {x : Result α} {c : Prop} [Decidable c] {as : List α}

instance pure {a : α} : Keeps R m (Pure.pure a : Pass α) := ⟨.pure⟩

instance throw : Keeps R m (MonadExcept.throw f : Pass α) := ⟨fun hs _ => R.failed hs⟩

instance bind [Keeps R m p] [∀ a, Keeps R m (k a)] : Keeps R m (p >>= k) :=
  ⟨fun hs hm => (ends hs hm).bind fun _ _ hkept hm' => ends (R.sound hkept) hm'⟩

instance throw_bind : Keeps R m ((MonadExcept.throw f : Pass α) >>= k) :=
  ⟨fun hs _ => R.failed hs⟩

instance map {f : α → β} [Keeps R m p] : Keeps R m (f <$> p) := by
  rw [map_eq_pure_bind]
  infer_instance

instance lift : Keeps R m (lift x) := by
  cases x <;> unfold RtlFlow.lift <;> infer_instance

theorem seq [Keeps R m p] (hk : ∀ a, Keeps R m (k a)) : Keeps R m (p >>= k) := inferInstance

theorem lift_bind (h : ∀ a, x = .ok a → Keeps R m (k a)) : Keeps R m (RtlFlow.lift x >>= k) :=
  ⟨fun hs hm => .lift_bind hs fun a ha => (h a ha).ends hs hm⟩

theorem get_bind {k : Stage → Pass β} (h : ∀ s, R.Sound s → Keeps R m (k s)) :
    Keeps R m (get >>= k) := ⟨fun hs hm => (h _ hs).ends hs hm⟩

instance get : Keeps R m (MonadState.get : Pass Stage) := ⟨.pure⟩

instance current : Keeps R m current := ⟨.pure⟩

instance current_bind {k : Path → Pass β} [∀ p : Scope, Keeps R m (k p)] :
    Keeps R m (Stage.current >>= k) :=
  ⟨fun {s} hs hm => ends (p := k (⟨s.frames.current, R.concrete hs⟩ : Scope)) hs hm⟩

instance here : Keeps R m here := by
  unfold Stage.here
  infer_instance

instance ite {q : Pass α} [Keeps R m p] [Keeps R m q] : Keeps R m (if c then p else q) := by
  split <;> infer_instance

theorem ite_of {q : Pass α} (hq : Keeps R m q) (hp : Keeps R m p := by infer_instance) :
    Keeps R m (if c then p else q) := inferInstance

instance when {p : Pass PUnit} {k : PUnit → Pass β} [Keeps R m p] [∀ r, Keeps R m (k r)] :
    Keeps R m (if c then p >>= k else k ⟨⟩) := by
  split <;> infer_instance

theorem forM_of_mem {f : α → Pass PUnit} (h : ∀ a ∈ as, Keeps R m (f a)) :
    Keeps R m (as.forM f) := by
  induction as with
  | nil => exact pure
  | cons a as ih =>
    have := h a List.mem_cons_self
    have := ih fun b hb => h b (List.mem_cons_of_mem _ hb)
    exact bind (p := f a) (k := fun _ => as.forM f)

instance forM {f : α → Pass PUnit} [∀ a, Keeps R m (f a)] : Keeps R m (as.forM f) :=
  forM_of_mem fun _ _ => inferInstance

theorem mapM_of_mem {f : α → Pass β} (h : ∀ a ∈ as, Keeps R m (f a)) : Keeps R m (as.mapM f) := by
  induction as with
  | nil => exact pure
  | cons a as ih =>
    rw [List.mapM_cons]
    have := h a List.mem_cons_self
    have := ih fun b hb => h b (List.mem_cons_of_mem _ hb)
    infer_instance

instance mapM {f : α → Pass β} [∀ a, Keeps R m (f a)] : Keeps R m (as.mapM f) :=
  mapM_of_mem fun _ _ => inferInstance

/-- Steps over a list, with what is known of their results. -/
theorem mapM_bind {γ : Type} {P : β → Prop} {f : α → Pass β} {k : List β → Pass γ}
    (hf : ∀ a ∈ as, ∀ k : β → Pass γ, (∀ b, P b → Keeps R m (k b)) → Keeps R m (f a >>= k))
    (hk : ∀ bs, (∀ b ∈ bs, P b) → Keeps R m (k bs)) : Keeps R m (as.mapM f >>= k) := by
  induction as generalizing k with
  | nil => exact hk [] (List.forall_mem_nil _)
  | cons a as ih =>
    rw [List.mapM_cons, bind_assoc]
    refine hf a List.mem_cons_self _ fun b hb => ?_
    rw [bind_assoc]
    refine ih (fun a ha => hf a (List.mem_cons_of_mem _ ha)) fun bs hbs => ?_
    exact hk (b :: bs) (List.forall_mem_cons.mpr ⟨hb, hbs⟩)

theorem modify {f : Stage → Stage} (h : ∀ s : Stage, s.Beside (f s)) : Keeps R m (modify f) :=
  ⟨fun hs hm => ⟨R.beside hs (h _), hm.congr (h _).current (h _).inFunction (h _).inTask⟩⟩

theorem outside [m.Outside] (h : Keeps R .any p) : Keeps R m p := by
  cases m with
  | any => exact h
  | calling =>
    refine ⟨fun hs hm => ?_⟩
    exact (h.ends hs trivial).mono (fun _ s' h => ⟨h.1, hm.calling (R.current h.1)⟩) fun _ h => h
  | defining => exact absurd rfl (Mode.Outside.ne (m := .defining))

end Keeps

/-! ## Excursions -/

/-- A step into a frame below the current one that keeps all else. -/
structure Rule.Entered (R : Rule) (l : Label) (s s₁ : Stage) : Prop where
  kept : R.Kept s (s₁.at s.frames.current)
  sound : R.Sound s₁
  current : s₁.frames.current = s.frames.current.push l

theorem Rule.Entered.trans (h : R.Entered l s s₁) (h' : R.Kept s₁ s₂) : R.Entered l s s₂ :=
  ⟨R.back h.kept h', R.sound h', (R.current h').trans h.current⟩

theorem Rule.Entered.after (h : R.Entered l s' s₁) (hs : R.Kept s s') : R.Entered l s s₁ := by
  have hcurrent := R.current hs
  have hkept := R.back (R.at_current hs) h.kept
  exact ⟨hkept, h.sound, by rw [h.current, hcurrent]⟩

theorem Shapes.add {form : Frame → Frame} {f : Frame} (hform : Shapes form l.kind)
    (hlead : m₀.Leads l m) (hs : R.Sound s) (hm : m₀.Holds s)
    (hf : s.frames.here = .ok f ∨ l.kind = .module) :
    Ends (fun _ s₁ => R.Entered l s s₁ ∧ m.Holds s₁ ∧
        s.frames.current.push l ∈ s₁.frames.table.keys)
      (R.Failed s) (changeFrames (·.add [l] (form f)) s) := by
  change Ends _ _ ((lift (s.frames.add [l] (form f)) >>= fun fs => set { s with frames := fs }) s)
  cases hadd : s.frames.add [l] (form f) with
  | error e => exact R.failed hs
  | ok fs =>
    obtain ⟨hcurrent, hfunction, htask, hkey⟩ := Frames.add_facts hadd
    have hkept := R.enter hs hf hform hadd
    have hsound := R.sound_at (R.sound hkept) ((R.concrete hs).push hform.kind)
    rw [← hcurrent] at hsound
    exact ⟨⟨hkept, hsound, hcurrent⟩, hlead s _ hm hcurrent hfunction htask, hkey⟩

/-- A computation that keeps a rule but for its end, where a certain frame is current; the mode of
its end is given first. -/
class Returns (R : Rule) (q : Path) (m₀ m : Mode) {α : Type} (p : Pass α) : Prop where
  ends : ∀ {s : Stage}, R.Sound s → m.Holds s →
    Ends (fun _ s' => R.Kept s (s'.at s.frames.current) ∧ s'.frames.current = q ∧ m₀.Holds s')
      (R.Failed s) (p s)

namespace Returns

variable {q : Path}

theorem ends_from [h : Returns R q m₀ m p] {t : Stage} (hs : R.Kept s (t.at s.frames.current))
    (ht : R.Sound t) (hm : m.Holds t) :
    Ends (fun _ s' => R.Kept s (s'.at s.frames.current) ∧ s'.frames.current = q ∧ m₀.Holds s')
      (R.Failed s) (p t) := by
  refine (h.ends ht hm).mono (fun _ s' h => ⟨?_, h.2⟩) fun _ h => R.fails hs h
  exact R.back (u := s'.at t.frames.current) hs h.1

instance bind [Keeps R m p] [∀ a, Returns R q m₀ m (k a)] : Returns R q m₀ m (p >>= k) :=
  ⟨fun hs hm => Ends.bind (Keeps.ends hs hm) fun _ _ _ h =>
    ends_from (R.at_current h.1) (R.sound h.1) h.2⟩

instance current_bind {k : Path → Pass β} [∀ p : Scope, Returns R q m₀ m (k p)] :
    Returns R q m₀ m (current >>= k) :=
  ⟨fun {s} hs hm => ends (p := k (⟨s.frames.current, R.concrete hs⟩ : Scope)) hs hm⟩

instance throw {f : Fault} : Returns R q m₀ m (MonadExcept.throw f : Pass α) :=
  ⟨fun hs _ => R.failed hs⟩

instance goTo [Mode.Home m₀ m q] : Returns R q m₀ m (goTo q) :=
  ⟨fun hs hm => ⟨R.refl hs, rfl, Mode.Home.holds hm⟩⟩

instance goTo_bind {k : PUnit → Pass β} [Concrete q] [Mode.Home m₀ m q] [Keeps R m₀ (k ⟨⟩)] :
    Returns R q m₀ m (Stage.goTo q >>= k) := by
  refine ⟨fun {s} hs hm => ?_⟩
  have hm₀ : m₀.Holds (s.at q) := Mode.Home.holds hm
  refine (Keeps.ends (p := k ⟨⟩) (R.sound_at hs ‹_›) hm₀).mono (fun _ s' h => ?_) fun _ h => ?_
  · exact ⟨R.back (t := s.at q) (R.refl hs) h.1, R.current h.1, h.2⟩
  · exact R.fails (t := s.at q) (R.refl hs) h

theorem away {k : PUnit → Pass β} {p : Path} [Concrete p] [Returns R q m₀ .any (k ⟨⟩)] :
    Returns R q m₀ .any (Stage.goTo p >>= k) :=
  ⟨fun {s} hs hm => ends_from (m := .any) (p := k ⟨⟩) (t := s.at p) (R.refl hs)
    (R.sound_at hs ‹_›) hm⟩

theorem add_bind {k : PUnit → Pass β} {m₁ : Mode} {form : Frame → Frame}
    (hform : Shapes form l.kind) (hlead : m₁.Leads l m) (hk : Returns R q m₀ m (k ⟨⟩)) :
    Returns R q m₀ m₁ (here >>= fun f => changeFrames (·.add [l] (form f)) >>= k) := by
  refine ⟨fun {s} hs hm => ?_⟩
  change Ends _ _ ((lift s.frames.here >>= _ : Pass β) s)
  cases hhere : s.frames.here with
  | error e => exact R.failed hs
  | ok f =>
    change Ends _ _ ((changeFrames (·.add [l] (form f)) >>= k) s)
    exact Ends.bind (hform.add hlead hs hm (.inl hhere)) fun _ _ _ h =>
      ends_from h.1.kept h.1.sound h.2.1

theorem at_start (h : Returns R s.frames.current m m p) (hs : R.Sound s) (hm : m.Holds s) :
    R.At m s p := by
  refine (h.ends hs hm).mono (fun _ s' h => ⟨?_, h.2.2⟩) fun _ h => h
  rw [← Stage.at_current h.2.1]
  exact h.1

theorem from_current {k : Path → Pass β} (h : ∀ q : m.Place, Returns R q m m (k q)) :
    Keeps R m (current >>= k) :=
  ⟨fun hs hm => at_start (p := k _) (h ⟨_, R.concrete hs, hm.home⟩) hs hm⟩

end Returns

/-- A computation that leads to a frame below the current one and gives the path of the frame to
return to. -/
class Enters (R : Rule) (m : Mode) (enter : Pass Path) : Prop where
  ends : ∀ {s : Stage}, R.Sound s → m.Holds s → Ends (fun outer s₁ => outer = s.frames.current ∧
    (∃ l, R.Entered l s s₁) ∧ m.Holds s₁) (R.Failed s) (enter s)

instance Enters.bind {enter : Pass Path} {body : Path → Pass α} [Enters R m enter]
    [∀ q : m.Place, Returns R q m m (body q)] :
    Keeps R m (enter >>= body) := by
  refine ⟨fun {s} hs hm => ?_⟩
  refine Ends.bind (Enters.ends hs hm) fun outer s₁ _ h => ?_
  obtain ⟨rfl, ⟨l, hentered⟩, hm₁⟩ := h
  let q : m.Place := ⟨_, R.concrete hs, hm.home⟩
  have hbody : Returns R q m m (body q) := inferInstance
  refine (hbody.ends_from hentered.kept hentered.sound hm₁).mono (fun _ s' h => ⟨?_, h.2.2⟩)
    fun _ h => h
  rw [← Stage.at_current h.2.1]
  exact h.1

/-- Scopes of a kind may be opened in a mode. -/
class Rule.Opens (R : Rule) (m : Mode) (kind : ScopeKind) : Prop where
  leads : ∀ {l : Label}, l.kind = kind → m.Leads l m
  noted : ∀ {s : Stage} {l : Label} (node : Ast), l.kind = kind → R.Sound s → m.Holds s →
    R.Kept s (s.noted (s.frames.current.push l) node)

/-- The way from a stage into the frame with a label, outside functions, tasks and while loops with a
note in the journal. It may fail before or after the note. -/
def Rule.EntersAt (R : Rule) (m : Mode) (l : Label) (node : Ast) (Q : Stage → Prop) (s : Stage)
    (enter : Pass Path) : Prop :=
  let noted := s.noted (s.frames.current.push l) node
  Ends (fun outer s₁ => outer = s.frames.current ∧ R.Entered l noted s₁ ∧ m.Holds s₁ ∧ Q s₁)
    (fun s' => R.Failed s s' ∨ R.Failed noted s') (enter s)

theorem Enters.of_entersAt {node : Ast} {Q : Stage → Stage → Prop} {enter : Pass Path}
    [R.Opens m l.kind] (h : ∀ s, R.Sound s → m.Holds s → R.EntersAt m l node (Q s) s enter) :
    Enters R m enter := by
  refine ⟨fun {s} hs hm => ?_⟩
  have hnoted := Rule.Opens.noted node (l := l) rfl hs hm
  refine (h s hs hm).mono (fun _ s₁ h => ?_) fun _ h => h.elim id (R.fails (R.at_current hnoted))
  exact ⟨h.1, ⟨l, h.2.1.after hnoted⟩, h.2.2.1⟩

/-- Statements may be visited in a mode, with their scopes, their labels and what is found where
they decide on scopes. -/
class Rule.Statements (R : Rule) (m : Mode) : Prop where
  opens : ∀ kind : ScopeKind, kind = .if ∨ kind = .for ∨ kind = .block → R.Opens m kind
  label : ∀ word ∈ ["if", "for", "block"], Keeps R m (blockLabel word)
  finding : ∀ f, Keeps R m (noteFinding f)

namespace Rule.Statements

variable [h : R.Statements m]

instance : R.Opens m .if := h.opens _ (by simp)

instance : R.Opens m .for := h.opens _ (by simp)

instance : R.Opens m .block := h.opens _ (by simp)

instance : Keeps R m (blockLabel "if") := h.label _ (by simp)

instance : Keeps R m (blockLabel "for") := h.label _ (by simp)

instance : Keeps R m (blockLabel "block") := h.label _ (by simp)

instance {f : Finding} : Keeps R m (noteFinding f) := h.finding f

end Rule.Statements

/-! ## Steps on stages -/

section Steps

variable {name : Path} {word : String} {t : Term}

theorem changeFrames_keeps {step : Frames → Result Frames}
    (h : ∀ fs fs', step fs = .ok fs' → ∃ f g, fs.here = .ok f ∧ f.Like g ∧
      fs' = { fs with table := fs.table.put fs.current g }) : Keeps R m (changeFrames step) := by
  refine ⟨fun {s} hs hm => .lift_bind hs fun fs hfs => ?_⟩
  obtain ⟨f, g, hf, hg, rfl⟩ := h _ _ hfs
  exact ⟨R.put hs hf hg, hm.congr rfl rfl rfl⟩

theorem exists_of_update {fs fs' : Frames} {step : Frame → Result Frame}
    (h : fs.update step = .ok fs') : ∃ f g, fs.here = .ok f ∧ step f = .ok g ∧
      fs' = { fs with table := fs.table.put fs.current g } := by
  obtain ⟨f, hf, h⟩ := bind_eq_ok.mp h
  obtain ⟨g, hg, h⟩ := bind_eq_ok.mp h
  cases h
  exact ⟨f, g, hf, hg, rfl⟩

theorem update_keeps {step : Frame → Result Frame} (h : ∀ f g, step f = .ok g → f.Like g) :
    Keeps R m (changeFrames (·.update step)) := by
  refine changeFrames_keeps fun fs fs' hfs => ?_
  obtain ⟨f, g, hf, hg, rfl⟩ := exists_of_update hfs
  exact ⟨f, g, hf, h f g hg, rfl⟩

theorem declare_at (hs : R.Sound s) (hmarks : marksOf s.frames.current ≠ {})
    {step : Frame → Result Frame} (hstep : ∀ f g, step f = .ok g → f.Redeclares g) :
    R.At .any s (changeFrames (·.update step)) := by
  refine .get_bind (.lift_bind hs fun fs hfs => ?_)
  obtain ⟨f, g, hf, hg, rfl⟩ := exists_of_update hfs
  exact ⟨R.declare hs hmarks hf (hstep f g hg), trivial⟩

theorem push_ne_nil {p : Path} : (p.push l).labels ≠ [] := by
  simp [Path.push]

theorem counted_addTerm (hname : name.labels ≠ []) :
    s.Counted { s with wiring := s.wiring.addTerm name t } :=
  ⟨le_rfl, fun hs => Table.forall_keys_put (P := fun p : Path => p.labels ≠ []) hs hname⟩

theorem addTerm_keeps (hname : name.labels ≠ []) :
    Keeps R m (modify fun s => { s with wiring := s.wiring.addTerm name t }) :=
  .modify fun _ => { counted := counted_addTerm hname }

instance : Keeps R m
    (modify fun s => { s with wiring := s.wiring.addTerm (signalAt name word) t }) :=
  addTerm_keeps push_ne_nil

instance : Keeps R m (modify fun s => { s with nesting := s.nesting + 1 }) := .modify fun _ => {}

instance : Keeps R m (modify fun s => { s with nesting := s.nesting - 1 }) := .modify fun _ => {}

instance {t : Ast} : Keeps R m (modify fun s => { s with netKind := t }) := .modify fun _ => {}

instance {tracing : Bool} : Keeps R m (modify fun s => { s with tracing }) :=
  .modify fun _ => {}

instance say_keeps {line : String} : Keeps R m (say line) := .modify fun _ => {}

instance optimize_keeps {t : Tree} : Keeps R m (optimize t) := by
  unfold optimize
  infer_instance

instance hasConstant_keeps : Keeps R m (hasConstant name) := by
  unfold hasConstant
  infer_instance

instance setConstant_keeps {t : Tree} : Keeps R m (setConstant name t) := .modify fun _ => {}

instance resetConstant_keeps : Keeps R m (resetConstant name) := .modify fun _ => {}

instance setTerm_keeps : Keeps R m (setTerm name t) := .modify fun _ => {}

end Steps

end RtlFlow.Design
