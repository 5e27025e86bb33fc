import Mathlib
import RtlFlow.Proofs.Design.Scopes

/-!
# The two passes over a design

The first pass makes the frames of all scopes, and the second comes by them again. If the second
pass finds no other values than the first where they decide on scopes, then it opens the same
scopes for the same nodes, each of which has a frame. In a design where no value decides on scopes
it always does.
-/

namespace RtlFlow.Design

open List

open Stage Lockstep

variable {top : String} {modules : Modules} {ignored : List String} {tracing : Bool} {α : Type}
    {declared s : Stage} (settled : Bool)

def topScope (top : String) : Path := Path.push {} ⟨top, .module, .none⟩

def Modules.bodies (ms : Modules) (settled : Bool) : Bodies :=
  ⟨fun m => (ms.table.get? m).map (·.body), settled⟩

/-- A stage at the beginning of the visit of the top module. -/
structure Stage.Prepared (bodies : Bodies) (top : String) (s : Stage) : Prop where
  ready : s.Ready bodies .module
  current : s.frames.current = topScope top
  opened : s.opened = [(topScope top, .absent)]
  findings : s.findings = []
  labels : ∀ key ∈ sharedKeys, s.labels.get? key = none

/-- A stage outside all modules, before anything is done. -/
structure Stage.Fresh (bodies : Bodies) (s : Stage) : Prop where
  sound : s.Sound
  current : s.frames.current = {}
  inFunction : s.frames.inFunction = false
  inTask : s.frames.inTask = false
  bodies : ∀ m, s.bodyOf m = bodies m
  opened : s.opened = []
  findings : s.findings = []
  labels : s.labels = {}

section Prepare

variable {bodies : Bodies} {s s' t : Stage}

theorem Stage.Prepared.agree (hs : s.Prepared bodies top) (ht : t.Prepared bodies top)
    (hboxes : ∀ m ∈ t.blackBoxes, (s.bodyOf m).isSome → m ∈ s.blackBoxes) : s.Agree t where
  current := ht.current.trans hs.current.symm
  labels key hkey := (ht.labels key hkey).trans (hs.labels key hkey).symm
  opened := ht.opened.trans hs.opened.symm
  findings := ht.findings.trans hs.findings.symm
  blackBoxes := hboxes

theorem Stage.Fresh.noted_opened (hs : s.Fresh bodies) (top : String) :
    (s.noted (topScope top) .absent).opened = [(topScope top, .absent)] ∧
      (s.noted (topScope top) .absent).findings = [] := by
  have haside : isAside (topScope top) = false := rfl
  simp [Stage.noted, hs.inFunction, hs.inTask, hs.opened, hs.findings, haside]

theorem Stage.Fresh.enter (hs : s.Fresh bodies)
    (h : quiet.Entered ⟨top, .module, .none⟩ (s.noted (topScope top) .absent) s') :
    s'.Prepared bodies top := by
  have hnoted := hs.noted_opened top
  have hkept := h.kept
  have hcurrent := h.current
  rw [noted_frames, hs.current] at hcurrent
  refine ⟨⟨h.sound, ?_, ?_, ?_, fun m => ?_⟩, hcurrent, ?_, ?_,
    fun key hkey => ?_⟩
  · rw [hcurrent]
    exact ⟨concrete_empty.push nofun, mem_singleton.mpr rfl, rfl⟩
  · exact hkept.frames.inFunction (by rw [noted_frames]; exact hs.inFunction)
  · refine hkept.frames.inTask.trans ?_
    rw [noted_frames]
    exact hs.inTask
  · refine (hkept.bodies m).trans (Eq.trans ?_ (hs.bodies m))
    unfold Stage.noted
    split <;> rfl
  · exact hkept.opened.trans hnoted.1
  · exact hkept.findings.trans hnoted.2
  · refine (hkept.labels key hkey).trans ?_
    unfold Stage.noted
    split
    · rw [hs.labels]
      rfl
    · change s.labels.get? key = none
      rw [hs.labels]
      rfl

theorem Stage.Prepared.kept (hs : s.Prepared bodies top) (h : s.Kept s') :
    s'.Prepared bodies top where
  ready := hs.ready.walk (h.walked hs.ready)
  current := h.frames.current.trans hs.current
  opened := h.opened.trans hs.opened
  findings := h.findings.trans hs.findings
  labels key hkey := (h.labels key hkey).trans (hs.labels key hkey)

theorem Stage.Prepared.setBlackBoxes (hs : s.Prepared bodies top) (boxes : List String) :
    ({ s with blackBoxes := boxes } : Stage).Prepared bodies top :=
  { hs with ready :=
    { hs.ready with sound := ⟨hs.ready.sound.frames, hs.ready.sound.functions⟩ } }

theorem fresh_modules (modules : Modules) : ({ modules := modules } : Stage).Fresh (modules.bodies settled) :=
  ⟨⟨⟨concrete_empty, forall_mem_nil _⟩, forall_mem_nil _⟩, rfl, rfl, rfl, fun _ => rfl,
    rfl, rfl, rfl⟩

end Prepare

theorem Declare.prepare_ends :
    Ends (fun _ s => s.Prepared (modules.bodies settled) top ∧ topScope top ∈ s.frames.table.keys)
      (fun _ => True) (Declare.prepare top ignored tracing { modules := modules }) := by
  have hfresh := fresh_modules settled modules
  refine Ends.bind ((Declare.enterInstance_ends (R := quiet) hfresh.sound).mono (fun _ _ h => h)
    fun _ _ => trivial) fun outer s₁ _ h₁ => ?_
  obtain ⟨s₀, hs₀, hkey⟩ := h₁.2.2.2
  have hprepared := (hfresh.enter h₁.2.1).setBlackBoxes ignored
  have : Quiet .any (modify fun s => { s with modules.current := some top }) :=
    .modify (fun _ hs => { Kept.refl hs with }) fun _ => rfl
  have hrest : Quiet .any (do
      modify fun s => { s with modules.current := some top }
      ignored.forM fun name => say ("Module definition of " ++ name ++ " ignored/black boxed")
      modify fun s => { s with tracing }) := inferInstance
  refine (hrest.ends hprepared.ready.sound trivial).mono (fun _ s h => ?_) fun _ _ => trivial
  exact ⟨hprepared.kept h.1, h.1.frames.keys (hs₀.frames.keys hkey)⟩

/-! ## The second pass -/

namespace Connect

variable {bodies : Bodies} {top : String}

theorem copyAll_quiet : Quiet .any copyAll := by
  refine copyAll_keeps fun s hs e he => Quiet.modify (fun t ht => { Kept.refl ht with
    functions := Table.forall_put ht.functions ?_ }) fun _ => rfl
  refine collect_induct (P := fun t => ∀ e ∈ t.entries, PlainFunction e.2.body)
    (forall_mem_nil _) (fun _ e he d hd hall => ?_) e he
  exact Table.forall_put (P := fun d : Definition => PlainFunction d.body) hall
    ((hs.frames.fits e he).functions d hd)

theorem fresh_frames {s : Stage} (hs : s.Sound) (hfunction : s.frames.inFunction = false)
    (htask : s.frames.inTask = false) (hbodies : ∀ m, s.bodyOf m = bodies m) (ordered : Bool)
    (lines : List String) :
    (Stage.at { modules := s.modules, frames := s.frames, ordered, lines }
      {}).Fresh bodies :=
  ⟨⟨⟨concrete_empty, hs.frames.fits⟩, forall_mem_nil _⟩, rfl, hfunction, htask, hbodies, rfl,
    rfl, rfl⟩

theorem prepare_ends {t : Stage} (ht : (t.at {}).Fresh bodies) :
    Ends (fun _ t' => t'.Prepared bodies top)
      (fun t' => t'.opened <:+ [(topScope top, .absent)] ∧ t'.findings = []) (prepare top t) := by
  refine Ends.bind (p := enterInstance (engine nestingBound) .absent top)
    ((enterInstance_ends (R := quiet) ht.sound).mono (fun _ _ h => h) fun t' h => ?_)
    fun outer t₁ _ h₁ => ?_
  · rcases h with h | h
    · exact ⟨h.1 ▸ ht.opened ▸ nil_suffix, h.2.trans ht.findings⟩
    · have hnoted := ht.noted_opened top
      exact ⟨h.1 ▸ hnoted.1 ▸ suffix_rfl, h.2.trans hnoted.2⟩
  · have hprepared := ht.enter h₁.2.1
    have hrest : Quiet .any
        (copyAll >>= fun _ => Stage.current >>= copyConstants (engine nestingBound)) :=
      have := copyAll_quiet
      inferInstance
    refine (hrest.ends hprepared.ready.sound trivial).mono (fun _ t₂ h => ?_) fun t₂ h => ?_
    · exact hprepared.kept h.1
    · exact ⟨by simp [h.1, hprepared.opened], h.2.trans hprepared.findings⟩

end Connect

/-! ## Both passes -/

theorem start_follows {bodies : Bodies}
    (hbodies : ∀ m b, bodies m = some b → stands bodies.settled b .module = true) (top : String) :
    Follows bodies .module (Declare.start top) (Connect.start top) := by
  refine left_bind get_steady fun s hs => right_bind get_steady fun t ht => ?_
  cases hb : bodies top with
  | none =>
    rw [Modules.find, Modules.find, hs.get?_eq_none hb, ht.get?_eq_none hb]
    exact failed
  | some b =>
    obtain ⟨m, hm, hbody⟩ := hs.find hb
    obtain ⟨m', hm', hbody'⟩ := ht.find hb
    rw [hm, hm', lift_ok_bind, lift_ok_bind, hbody, hbody']
    exact visit_follows hbodies nestingBound (hbodies top b hb)

theorem Ends.of_run {Q : α → Stage → Prop} {E : Stage → Prop} {p : Pass α} {s' : Stage}
    {x : Result α} (h : Ends Q E (p s)) (hrun : run p s = (x, s')) :
    (∃ a, x = .ok a ∧ Q a s') ∨ ∃ f, x = .error f ∧ E s' := by
  unfold run EStateM.run at hrun
  cases hp : p s with
  | ok a s₁ =>
    rw [hp] at h hrun
    cases hrun
    exact .inl ⟨a, rfl, h⟩
  | error f s₁ =>
    rw [hp] at h hrun
    cases hrun
    exact .inr ⟨f, rfl, h⟩

theorem Declare.run_eq_ok (h : Declare.run modules top ignored tracing = (.ok (), declared)) :
    ∃ s, s.Prepared (modules.bodies settled) top ∧ topScope top ∈ s.frames.table.keys ∧
      Declare.start top s = .ok () declared := by
  have hends : Ends (fun _ s' => ∃ s, s.Prepared (modules.bodies settled) top ∧
        topScope top ∈ s.frames.table.keys ∧ Declare.start top s = .ok () s') (fun _ => True)
      ((Declare.prepare top ignored tracing >>= fun _ => Declare.start top)
        { modules := modules }) := by
    refine Ends.bind (Declare.prepare_ends settled) fun _ s _ hs => ?_
    cases hstart : Declare.start top s with
    | ok _ s' => exact ⟨s, hs.1, hs.2, hstart⟩
    | error => trivial
  rcases hends.of_run h with ⟨_, -, hs⟩ | ⟨_, hx, -⟩
  · exact hs
  · cases hx

theorem Ends.and {Q Q' : α → Stage → Prop} {E E' : Stage → Prop} {r : EStateM.Result Fault Stage α}
    (h : Ends Q E r) (h' : Ends Q' E' r) :
    Ends (fun a s => Q a s ∧ Q' a s) (fun s => E s ∧ E' s) r := by
  cases r <;> exact ⟨h, h'⟩

theorem Connect.run_agree {bodies : Bodies} {ordered : Bool} {connected : Stage}
    {outcome : Result Unit} (hs : s.Prepared bodies top)
    (hstart : Declare.start top s = .ok () declared)
    (hfollows : Follows bodies .module (Declare.start top) (Connect.start top))
    (hrun : Connect.run declared top declared.blackBoxes ordered = (outcome, connected))
    (hfound : bodies.settled = false → connected.findings <:+ declared.findings) :
    connected.opened <:+ declared.opened ∧
      (outcome = .ok () → connected.opened = declared.opened) := by
  have hgrown := ((hfollows.first s hs.ready).of_ok hstart).1.grown
  have hfresh := Connect.fresh_frames hgrown.sound hgrown.inFunction hgrown.inTask
    (fun m => (hgrown.bodies m).trans (hs.ready.bodies m)) ordered declared.lines
  have hends : Ends
      (fun _ t => (t.findings <:+ declared.findings → t.opened = declared.opened) ∧
        (bodies.settled = true → t.findings = []))
      (fun t => (t.findings <:+ declared.findings → t.opened <:+ declared.opened) ∧
        (bodies.settled = true → t.findings = []))
      ((prepare top >>= fun _ => modify (fun t => { t with
          blackBoxes := declared.blackBoxes, tracing := declared.tracing }) >>= fun _ => start top)
        { modules := declared.modules, frames := declared.frames, ordered
          lines := declared.lines }) := by
    refine Ends.bind ((Connect.prepare_ends hfresh).mono (fun _ _ h => h) fun t h => ?_)
      fun _ t₁ _ ht₁ => ?_
    · exact ⟨fun _ => h.1.trans (hs.opened ▸ hgrown.opened), fun _ => h.2⟩
    · have htraced : Stage.Prepared bodies top { t₁ with tracing := declared.tracing } :=
        ht₁.kept { Kept.refl ht₁.ready.sound with }
      have ht₂ := htraced.setBlackBoxes declared.blackBoxes
      have hagree := hs.agree ht₂ hgrown.known
      refine ((hfollows.agree declared.findings s _ hs.ready ht₂.ready hagree () declared hstart
        suffix_rfl (List.Subset.refl _)).and (hfollows.second _ ht₂.ready)).mono (fun _ t h => ?_)
        fun t h => ⟨h.1, fun hsettled => (h.2.settled hsettled).trans ht₂.findings⟩
      exact ⟨fun hfound => (h.1 hfound).2.opened, fun hsettled =>
        (h.2.2.2.1.settled hsettled).trans ht₂.findings⟩
  have hfound' (h : bodies.settled = true → connected.findings = []) :
      connected.findings <:+ declared.findings := by
    cases hsettled : bodies.settled with
    | false => exact hfound hsettled
    | true => exact h hsettled ▸ nil_suffix
  rcases hends.of_run hrun with ⟨_, -, h⟩ | ⟨_, hx, h⟩
  · have hopened := h.1 (hfound' h.2)
    exact ⟨hopened ▸ suffix_rfl, fun _ => hopened⟩
  · refine ⟨h.1 (hfound' h.2), fun hx' => ?_⟩
    rw [hx] at hx'
    cases hx'

/-- The second pass opens the scopes that the first pass has opened, for the same nodes, each with a
frame. If it ends, it opens all of them. -/
def Reopens (declared connected : Stage) (outcome : Result Unit) : Prop :=
  connected.opened <:+ declared.opened ∧
    (∀ e ∈ connected.opened, e.1 ∈ declared.frames.table.keys) ∧
    (outcome = .ok () → connected.opened = declared.opened)

section

variable {ordered : Bool} {connected : Stage} {outcome : Result Unit}
  (hfirst : Declare.run modules top ignored tracing = (.ok (), declared))
  (hsecond : Connect.run declared top declared.blackBoxes ordered = (outcome, connected))

include hfirst hsecond

theorem reopens_of_stands
    (hstands : ∀ e ∈ modules.table.entries, stands settled e.2.body .module = true)
    (hfound : settled = false → connected.findings <:+ declared.findings) :
    Reopens declared connected outcome := by
  have hbodies : ∀ m b, modules.bodies settled m = some b → stands settled b .module = true := by
    intro m b hb
    obtain ⟨m', hget, rfl⟩ := Option.map_eq_some_iff.mp hb
    obtain ⟨e, he, -, rfl⟩ := Table.get?_eq_some hget
    exact hstands e he
  have hfollows := start_follows hbodies top
  obtain ⟨s, hs, hkey, hstart⟩ := Declare.run_eq_ok settled hfirst
  obtain ⟨hopened, hall⟩ := Connect.run_agree hs hstart hfollows hsecond hfound
  obtain ⟨hwalked, hlists, -⟩ := (hfollows.first s hs.ready).of_ok hstart
  refine ⟨hopened, fun e he => ?_, hall⟩
  rcases hlists e (hopened.subset he) with he | he
  · rw [hs.opened, mem_singleton] at he
    exact he ▸ hwalked.grown.keys hkey
  · exact he

/-- In a settled design the second pass always opens the scopes of the first again. -/
theorem reopens_of_settled
    (hsettled : ∀ e ∈ modules.table.entries, stands true e.2.body .module = true) :
    Reopens declared connected outcome :=
  reopens_of_stands true hfirst hsecond hsettled (by simp)

end

example :
    let leaf := Ast.mk .inst 0 [.text "LEAF", .text "leaf", .seq [], .seq [], .absent]
    let block := Ast.mk .block 0 [.seq [.mk .instanceList 0 [.text "LEAF", .seq [], .seq [leaf]]],
      .text "one"]
    stands true (.mk .generateStatement 0 [.seq [block]]) .module = true := by
  decide +kernel

/-- The second pass opens the scopes that the first pass has opened, for the same nodes, each with
a frame, if it finds no other values than the first pass where they decide on scopes. -/
theorem scopes_agree {modules : Modules} {top : String} {ignored : List String}
    {tracing ordered : Bool} {declared connected : Stage} {outcome : Result Unit}
    (hplaced : ∀ e ∈ modules.table.entries, placed e.2.body .module = true)
    (hfirst : Declare.run modules top ignored tracing = (.ok (), declared))
    (hsecond : Connect.run declared top declared.blackBoxes ordered = (outcome, connected))
    (hfound : connected.findings <:+ declared.findings) :
    connected.opened <:+ declared.opened ∧
      (∀ e ∈ connected.opened, e.1 ∈ declared.frames.table.keys) ∧
      (outcome = .ok () → connected.opened = declared.opened) :=
  reopens_of_stands false hfirst hsecond hplaced fun _ => hfound

/-- A module `TOP` with a parameter `P` and a generate region of two blocks. The first of them is
chosen by a condition, and there is an instance of another module in it. -/
def branching (cond : Ast) : Modules :=
  let value := Ast.mk .rvalue 0 [.mk .intConst 0 [.text "1'b1"]]
  let p := Ast.mk .parameter 0 [.text "P", value, .absent, .atom (.bool false)]
  let leaf := Ast.mk .inst 0 [.text "LEAF", .text "leaf", .seq [], .seq [], .absent]
  let leaves := Ast.mk .instanceList 0 [.text "LEAF", .seq [], .seq [leaf]]
  let block (name : String) (items : List Ast) := Ast.mk .block 0 [.seq items, .text name]
  let choice := Ast.mk .ifStatement 0 [cond, block "one" [leaves], block "two" []]
  let module (name : String) (items : List Ast) := Ast.mk .moduleDef 0
    [.text name, .mk .paramlist 0 [.seq []], .mk .portlist 0 [.seq []], .seq items, .text "wire"]
  (Modules.ofTree (.mk .description 0 [.seq [
    module "TOP" [.mk .decl 0 [.seq [p]], .mk .generateStatement 0 [.seq [choice]]],
    module "LEAF" []]])).1

/-- The first pass over such modules. -/
def branchingFirst (cond : Ast) : Result Unit × Stage :=
  Declare.run (branching cond) "TOP" [] false

def branchingSecond (cond : Ast) : Result Unit × Stage :=
  let declared := (branchingFirst cond).2
  Connect.run declared "TOP" declared.blackBoxes true

def parameterP : Ast := .mk .identifier 0 [.text "P", .absent]

/-- Both passes choose the first block for the condition `P`. -/
theorem scopes_agree_branching : (branchingSecond parameterP).2.findings = [.arm true] ∧
    (branchingSecond parameterP).2.opened.length = 5 ∧
    (branchingSecond parameterP).2.opened = (branchingFirst parameterP).2.opened := by
  obtain ⟨hplaced, hfirst, hsecond, hfound, harm, hopened⟩ :
      (∀ e ∈ (branching parameterP).table.entries, placed e.2.body .module = true) ∧
      (branchingFirst parameterP).1 = .ok () ∧ (branchingSecond parameterP).1 = .ok () ∧
      (branchingSecond parameterP).2.findings <:+ (branchingFirst parameterP).2.findings ∧
      (branchingSecond parameterP).2.findings = [.arm true] ∧
      (branchingSecond parameterP).2.opened.length = 5 := by
    decide +kernel
  have hpair : branchingFirst parameterP = (.ok (), (branchingFirst parameterP).2) := by
    rw [← hfirst]
  have hagree := @scopes_agree (branching parameterP) "TOP" [] false true
    (branchingFirst parameterP).2 (branchingSecond parameterP).2 (branchingSecond parameterP).1
    hplaced hpair (Prod.eta (branchingSecond parameterP)).symm hfound
  exact ⟨harm, hopened, hagree.2.2 hsecond⟩

/-- For the condition `~P` the first pass takes the value of `P` at its width, and the second at
the width of an integer. So the second pass chooses the other block, which has no frame, and does
not come to an end. -/
theorem branching_complement :
    (branchingFirst (.mk .unot 0 [parameterP])).1 = .ok () ∧
    (branchingFirst (.mk .unot 0 [parameterP])).2.findings = [.arm false] ∧
    (branchingSecond (.mk .unot 0 [parameterP])).2.findings = [.arm true] ∧
    (∃ e ∈ (branchingSecond (.mk .unot 0 [parameterP])).2.opened,
      ∀ p ∈ (branchingFirst (.mk .unot 0 [parameterP])).2.frames.table.keys, e.1 ≠ p) ∧
    (branchingSecond (.mk .unot 0 [parameterP])).1 ≠ .ok () := by
  decide +kernel

end RtlFlow.Design
