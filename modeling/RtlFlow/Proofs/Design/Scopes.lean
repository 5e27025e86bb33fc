import Mathlib
import RtlFlow.Proofs.Design.Lockstep

/-!
# The scopes of the two passes

Both passes open the same scopes for the same nodes, in the same order: the visits of every kind of
node go in lockstep, and so do the visits of all modules below the top one.
-/

namespace RtlFlow.Design

open List

open Stage Lockstep Region

variable {bodies : Bodies} {r r₁ : Region}

/-! ## Steps -/

section Steps

variable {α β : Type} {r₀ : Region} {home : Path → Path} {p : Pass α} {q : Pass β}

theorem lift_ok_bind {a : α} {k : α → Pass β} : (lift (.ok a) >>= k) = k a := rfl

theorem get_steady : Steady bodies r (fun s : Stage => s.Ready bodies r) get :=
  ⟨fun _ hs => ⟨.refl hs.sound, hs⟩, fun s hs => ⟨s, hs⟩⟩

theorem current_steady : Steady bodies r r.Fits current :=
  ⟨fun _ hs => ⟨.refl hs.sound, hs.region⟩, fun s hs => ⟨s.frames.current, hs.region⟩⟩

theorem here_steady : Steady bodies r (fun f : Frame => f.toMarks ∈ r.marks) here := by
  refine ⟨fun s hs => ?_, fun s hs => ?_⟩
  · change Ends _ _ (lift s.frames.here s)
    cases hhere : s.frames.here with
    | error f => exact ⟨rfl, rfl⟩
    | ok f =>
      refine ⟨.refl hs.sound, ?_⟩
      rw [hs.sound.frames.marks_at? hs.sound.frames.current hhere]
      exact hs.region.marks
  · exact ⟨{ toMarks := marksOf s.frames.current }, hs.region.marks⟩

theorem Steady.of_quietAt [Inhabited α] (h : ∀ s : Stage, s.Ready bodies r → QuietAt .any s p) :
    Steady bodies r (fun _ => True) p :=
  ⟨fun s hs => (h s hs).mono (fun _ _ h => ⟨h.1, trivial⟩) fun _ h => h,
    fun _ _ => ⟨default, trivial⟩⟩

theorem left_when {c : Prop} [Decidable c] {p : Pass PUnit} {k : PUnit → Pass α} [Quiet .any p]
    (hk : Lockstep bodies r r₀ home (k ⟨⟩) q) :
    Lockstep bodies r r₀ home (if c then p >>= k else k ⟨⟩) q := by
  split
  · exact left_quiet fun _ => hk
  · exact hk

theorem right_inDeclaration {k : Bool → Pass β} (hk : Lockstep bodies r r₀ home p (k false)) :
    Lockstep bodies r r₀ home p (inDeclaration >>= k) := by
  refine right_bind (Q := fun b => b = false) ⟨fun s hs => ?_, fun _ _ => ⟨false, rfl⟩⟩ ?_
  · change Ends _ _ ((lift s.frames.here >>= fun f => pure (s.frames.inFunction &&
      !f.isFunctionCall || s.frames.inTask && !f.isTaskCall) : Pass Bool) s)
    rw [hs.inFunction, hs.inTask]
    cases s.frames.here with
    | error f => exact ⟨rfl, rfl⟩
    | ok f => exact ⟨.refl hs.sound, rfl⟩
  · rintro _ rfl
    exact hk

end Steps

/-! ## Frames -/

section Frames

variable {form : Frame → Frame} {α β : Type} [Inhabited α] [Inhabited β] {cond' : Ast}

variable {e : Engine} [quiet.Calm e]

theorem paired_enterFrame {l : Label} {node : Ast} {form' : Frame → Frame}
    (hl : r.into l.kind = some r₁)
    (hform : Shapes (fun f => form (f.inside l.kind)) l.kind := by exact .of_rfl fun _ => rfl)
    (hform' : Shapes (fun f => form' (f.inside l.kind)) l.kind := by exact .of_rfl fun _ => rfl) :
    Paired bodies r r₁ (·.push l) (fun path a b => a = path ∧ b = path)
      (Declare.enterFrame node l form) (Connect.enterFrame e node l form') := by
  have hlead : Mode.any.Leads l .any := fun _ _ _ _ _ _ => trivial
  refine paired_enter node hl
    (fun s hs => Declare.enterFrame_ends hform hlead hs.sound trivial) fun t ht => ?_
  have := (ht.region.push hl).concrete
  exact Connect.enterFrame_ends hform' hlead ht.sound trivial fun _ ht₁ hm _ => Keeps.ends ht₁ hm

theorem goTo_bind {q : Path} (hq : r.Fits q) {f : PUnit → Pass α} {g : PUnit → Pass β}
    [Quiet .any (f ⟨⟩)] [Quiet .any (g ⟨⟩)] :
    Lockstep bodies r₁ r (fun _ => q) (goTo q >>= f) (goTo q >>= g) :=
  .bind (.goTo hq) fun _ _ => .of_quiet

theorem into_statement (hr : r ≠ .module) {k : ScopeKind} (hk : k ∈ [.if, .for, .block]) :
    r.into k = some r := by
  revert k
  simp [Region.into, hr]

variable {node cond : Ast} {visit visit' : Pass Unit} {label : String}

theorem visitArm_follows (hr : r ≠ .module) {kind : String}
    (hform : Shapes (fun f => form (f.inside .if)) .if) (hvisit : Follows bodies r visit visit') :
    Follows bodies r (Declare.inFrame node ⟨label, .if, .none⟩ form visit)
      (Connect.visitArm e node label kind cond visit') := by
  refine within (paired_enterFrame (into_statement hr (by simp)) hform) fun outer houter => ?_
  have := houter.concrete
  refine right_quiet fun _ => ?_
  exact seq hvisit fun _ _ => .goTo houter

theorem thenArm_follows (hr : r ≠ .module) (hvisit : Follows bodies r visit visit') :
    Follows bodies r
      (Declare.thenArm node label cond visit)
      (Connect.visitArm e node label "ifthen" cond' visit') :=
  visitArm_follows hr (.of_rfl fun _ => rfl) hvisit

theorem elseArm_follows (hr : r ≠ .module) (hvisit : Follows bodies r visit visit') :
    Follows bodies r
      (Declare.elseArm node label cond visit)
      (Connect.visitArm e node (label ++ "_ELSE") "ifelse" cond' visit') :=
  visitArm_follows hr (.of_rfl fun _ => rfl) hvisit

theorem inGenerateRegion_eq {s : Stage} (hs : s.Ready bodies r) {f : Frame}
    (hf : f.toMarks ∈ r.marks) : Declare.inGenerateRegion s.frames f = decide (r = .generate) := by
  have hall : ∀ m ∈ r.marks, (m.isGenerate && !m.isAlways && !m.isInitial &&
      !m.isFunctionCall && !m.isTaskCall) = decide (r = .generate) := by
    cases r <;> decide
  have hmarks : (f.isGenerate && !f.isAlways && !f.isInitial && !f.isFunctionCall &&
      !f.isTaskCall) = decide (r = .generate) := hall f.toMarks hf
  rw [Declare.inGenerateRegion, hmarks, hs.inFunction, hs.inTask, Bool.not_false, Bool.and_true,
    Bool.and_true]

section Arms

variable {first first' second second' : String → Pass Unit}

theorem labelled_follows (hr : r ≠ .module) (h : ∀ label, Follows bodies r (first label) (first' label))
    {k k' : String → Pass Unit} (hk : ∀ label, Follows bodies r (k label) (k' label)) :
    Follows bodies r ((do
        let label ← blockLabel "if"
        first label
        return label) >>= k) ((do
        let label ← blockLabel "if"
        first' label
        return label) >>= k') := by
  simp only [bind_assoc, pure_bind]
  exact label (mem_words_of_ne_module hr (by simp)) fun label => .seq (h label) fun _ _ => hk label

theorem visitIf_follows (hr : r ≠ .module) {yes no : Ast} {merge : Path → String → Pass Unit}
    [hmerge : ∀ (p : Scope) label, Quiet .any (merge p label)]
    (hfree : r = .generate → bodies.settled = false)
    (hfirst : ∀ label, Follows bodies r (first label) (first' label))
    (hsecond : ∀ label, Follows bodies r (second label) (second' label)) :
    Follows bodies r
      (Declare.visitIf Declare.evaluate cond yes no first second fun _ _ => pure ())
      (Declare.visitIf e.evaluate cond yes no first' second' merge) := by
  refine left_bind get_steady fun s hs => left_bind here_steady fun f hf => ?_
  refine right_bind get_steady fun t ht => right_bind here_steady fun g hg => ?_
  rw [inGenerateRegion_eq hs hf, inGenerateRegion_eq ht hg]
  have := ht.region.concrete
  have := hmerge ⟨_, this⟩
  by_cases hgenerate : r = .generate
  · simp only [decide_eq_true hgenerate, if_true]
    refine left_quiet fun _ => left_quiet fun holds => ?_
    refine right_quiet fun _ => right_quiet fun holds' => ?_
    revert holds holds'
    refine finding (hfree hgenerate) (fun _ _ h => Finding.arm.inj h) fun holds => .ite (.ite ?_ ?_) ?_
    · exact labelled_follows hr hfirst fun _ => .of_quiet
    · exact .of_quiet
    · refine label (mem_words_of_ne_module hr (by simp)) fun label => .ite ?_ .of_quiet
      exact .seq (hsecond label) fun _ _ => .of_quiet
  · simp only [decide_eq_false hgenerate, Bool.false_eq_true, if_false, bind_map_left]
    refine .ite (.ite .of_quiet .of_quiet) (labelled_follows hr hfirst fun label => .ite ?_ .of_quiet)
    exact .seq (hsecond label) fun _ _ => .of_quiet

end Arms

theorem visitCases_follows (hr : r ≠ .module) {selector : Ast} {visit visit' : Ast → Pass Unit}
    {items : List Ast} (h : ∀ i ∈ items, Follows bodies r (visit i) (visit' i)) :
    Follows bodies r (Declare.visitCases selector (items.map fun i => (i, visit i)))
      (Connect.visitCases e selector (items.map fun i => (i, visit' i))) := by
  induction items with
  | nil => exact .done
  | cons i rest ih =>
    have hrest := ih fun j hj => h j (mem_cons_of_mem _ hj)
    refine left_quiet fun cond => right_quiet fun cond' => ?_
    refine label (mem_words_of_ne_module hr (by simp)) fun label => ?_
    refine right_bind current_steady fun scope hscope => ?_
    refine .seq (thenArm_follows hr (h i mem_cons_self)) fun _ _ => ?_
    by_cases hempty : rest.isEmpty = true
    · simp only [isEmpty_map, hempty, Bool.not_true, Bool.false_eq_true, if_false, if_true]
      exact .of_quiet
    · simp only [isEmpty_map, hempty, Bool.not_false, Bool.false_eq_true, if_false, if_true]
      have hinto : r.into .if = some r := into_statement hr (by simp)
      refine within (paired_enterFrame hinto) fun outer houter => ?_
      have := hscope.concrete
      refine right_quiet fun _ => ?_
      exact .seq hrest fun _ _ => goTo_bind houter (f := fun _ => pure ())

theorem iterate_follows (hr : r ≠ .module) (hfree : bodies.settled = false) {post : Ast} {step step' : Pass Unit} {start : Path}
    (hvisit : Follows bodies r visit visit') (hstep : Follows bodies r step step') {n : Nat}
    {loop loop' : Scalar} :
    Follows bodies r
      (Declare.iterate Declare.evaluate (Declare.inFrame node · · visit) label cond post step n loop)
      (Declare.iterate e.evaluate (Connect.iteration e node · · visit' start) label cond post step' n
        loop') := by
  induction n generalizing loop loop' with
  | zero => exact .failed
  | succ n ih =>
    refine left_quiet fun _ => left_quiet fun _ => left_quiet fun goes => ?_
    refine right_bind current_steady fun scope hscope => ?_
    have := hscope.concrete
    refine right_quiet fun _ => right_quiet fun goes' => ?_
    -- Each pass goes on with a value of the loop variable, or is done.
    let kind (i : Option Scalar) : Finding := i.elim .done .round
    have hkind : ∀ i j, kind i = kind j → i = j := by
      intro i j h
      cases i <;> cases j <;> first | rfl | cases h
      rfl
    let round (evaluate : Ast → Path → Pass Tree) (inside : Label → (Frame → Frame) → Pass Unit)
        (step : Pass Unit) (i : Option Scalar) : Pass Unit := i.elim (pure ()) fun loop => do
      let name := (← get).frames.loopName
      inside ⟨label, .for, loop⟩ fun f => { f with kind := "for", loop, loopName := name }
      let next ← Declare.loopValue evaluate post
      step
      Declare.iterate evaluate inside label cond post step n next
    have hround : ∀ i, Follows bodies r (round Declare.evaluate (Declare.inFrame node · · visit) step i)
        (round e.evaluate (Connect.iteration e node · · visit' start) step' i) := by
      intro i
      cases i with
      | none => exact .done
      | some loop =>
        refine left_bind get_steady fun _ _ => right_bind get_steady fun _ _ => .seq ?_ fun _ _ => ?_
        · have hinto : r.into .for = some r := into_statement hr (by simp)
          refine within (paired_enterFrame hinto) fun outer houter => ?_
          refine .seq hvisit fun _ _ => right_quiet fun _ => ?_
          exact right_quiet fun _ => .goTo houter
        · refine left_quiet fun _ => right_quiet fun _ => ?_
          exact .seq hstep fun _ _ => ih
    cases goes <;> cases goes'
    · exact finding hfree hkind hround none none
    · exact finding hfree hkind hround none (some loop')
    · exact finding hfree hkind hround (some loop) none
    · exact finding hfree hkind hround (some loop) (some loop')

end Frames

/-! ## Instances -/

section Instances

variable {e : Engine} {node : Ast} {name module : String} {l : Label}
variable {enter enter' : Ast → Pass Unit} {index : Option Int}
variable {s t : Stage} {visit : Module → Pass Unit} {visit' : Pass Unit}

theorem visitModule_follows [quiet.Calm e] {m : Module} (hm : bodies module = some m.body)
    (henter : Follows bodies .module (enter m.body) (enter' m.body)) :
    Follows bodies r (Declare.visitModule enter node name module m)
      (Connect.visitModule e enter' node name module index) := by
  have hpaired : Paired bodies r .module (·.push ⟨name, .module, .none⟩)
      (fun path a b => a = path ∧ b = path) (Declare.enterInstance node name module)
      (Connect.enterInstance e node name) :=
    paired_enter node rfl
      (fun s hs => (Declare.enterInstance_ends (R := quiet) hs.sound).mono
        (fun _ _ h => ⟨h.1, h.2.1, h.2.2.1, h.2.2.2.elim fun _ h => h.1.frames.keys h.2⟩)
        fun _ h => h)
      fun t ht => Connect.enterInstance_ends ht.sound
  refine within hpaired fun outer houter => ?_
  have := houter.concrete
  have (name : Option String) :
      Quiet .any (modify fun s => { s with modules.current := name }) :=
    .modify (fun _ hs => { Kept.refl hs with }) fun _ => rfl
  refine left_quiet fun _ => left_quiet fun _ => left_quiet fun _ => left_quiet fun _ => ?_
  refine left_quiet fun _ => left_quiet fun _ => left_bind get_steady fun _ _ => ?_
  refine left_quiet fun _ => right_bind get_steady fun t ht => ?_
  obtain ⟨m', hm', hbody⟩ := ht.find hm
  rw [hm', lift_ok_bind]
  refine right_quiet fun args => right_quiet fun _ => right_quiet fun ports => ?_
  refine right_quiet fun _ => right_bind current_steady fun scope hscope => ?_
  have := hscope.concrete
  refine right_quiet fun _ => ?_
  rw [hbody]
  exact .seq henter fun _ _ => goTo_bind houter (g := fun _ => pure ())

theorem known_follows {b : Ast} (hb : bodies module = some b) {unknown : Pass Unit}
    (h : ∀ m : Module, m.body = b → Follows bodies r (visit m) visit') :
    Follows bodies r (do
        let s ← get
        if s.blackBoxes.contains module then pure ()
        else match s.modules.table.get? module with
          | none => unknown
          | some m => visit m)
      (do
        let t ← get
        if t.blackBoxes.contains module then pure () else visit') := by
  refine ⟨fun s hs => ?_, fun t ht => ?_, fun found s t hs ht hst a s' hrun hfound hboxes => ?_⟩
  · obtain ⟨m, hm, hbody⟩ := hs.get?_eq_some hb
    change Ends _ _ ((if _ then _ else _ : Pass Unit) s)
    split
    · exact (done (b := ())).first s hs
    · rw [hm]
      exact (h m hbody).first s hs
  · obtain ⟨m, -, hbody⟩ := ht.get?_eq_some hb
    change Ends _ _ ((if _ then _ else _ : Pass Unit) t)
    split
    · exact (done (a := ())).second t ht
    · exact (h m hbody).second t ht
  · obtain ⟨m, hm, hbody⟩ := hs.get?_eq_some hb
    change (if _ then _ else _ : Pass Unit) s = _ at hrun
    change Ends _ _ ((if _ then _ else _ : Pass Unit) t)
    split at hrun
    · rename_i hbox
      cases hrun
      have hmem : module ∈ t.blackBoxes := hboxes (by simpa using hbox)
      rw [if_pos (by simpa using hmem)]
      exact fun _ => ⟨trivial, hst⟩
    · rename_i hbox
      have hknown : (s.bodyOf module).isSome := by rw [hs.bodies module, hb]; rfl
      rw [if_neg fun hbox' => hbox ?_]
      · rw [hm] at hrun
        exact (h m hbody).agree found s t hs ht hst a s' hrun hfound hboxes
      · simpa using hst.blackBoxes module (by simpa using hbox') hknown

theorem unknown_follows (hb : bodies module = none) {line : String}
    (h : ∀ t : Stage, t.Ready bodies r →
      Ends (fun _ _ => False) (bodies.Finds t) (visit' t)) :
    Follows bodies r (do
        let s ← get
        if s.blackBoxes.contains module then pure ()
        else match s.modules.table.get? module with
          | none => do
            say line
            modify fun s => { s with blackBoxes := s.blackBoxes ++ [module] }
          | some m => visit m)
      (do
        let t ← get
        if t.blackBoxes.contains module then pure () else visit') := by
  have hwalked : ∀ s : Stage, s.Ready bodies r → Walked r id s
      { s with lines := line :: s.lines, blackBoxes := s.blackBoxes ++ [module] } := fun s hs =>
    { grown :=
        { hs.grown with
          sound := ⟨hs.sound.frames, hs.sound.functions⟩
          blackBoxes := subset_append_left _ _
          known := fun m hm hsome => by
            rcases mem_append.mp hm with hm | hm
            · exact hm
            · rw [mem_singleton.mp hm, hs.bodies module, hb] at hsome
              cases hsome }
      home := rfl
      region := hs.region }
  refine ⟨fun s hs => ?_, fun t ht => ?_, fun found s t hs ht hst a s' hrun hfound hboxes => ?_⟩
  · change Ends _ _ ((if _ then _ else _ : Pass Unit) s)
    split
    · exact (done (b := ())).first s hs
    · rw [hs.get?_eq_none hb]
      exact ⟨hwalked s hs, fun _ he => .inl he, ⟨⟩, trivial⟩
  · change Ends _ _ ((if _ then _ else _ : Pass Unit) t)
    split
    · exact (done (a := ())).second t ht
    · exact (h t ht).mono (fun _ _ h => h.elim) fun _ h => h
  · change (if _ then _ else _ : Pass Unit) s = _ at hrun
    have hbox : module ∈ s'.blackBoxes ∧ s'.Agree t := by
      split at hrun
      · rename_i hbox
        cases hrun
        exact ⟨by simpa using hbox, hst⟩
      · rw [hs.get?_eq_none hb] at hrun
        cases hrun
        refine ⟨mem_append_right _ mem_cons_self, { hst with blackBoxes := ?_ }⟩
        exact fun m hm hsome => mem_append_left _ (hst.blackBoxes m hm hsome)
    change Ends _ _ ((if _ then _ else _ : Pass Unit) t)
    rw [if_pos (by simpa using hboxes hbox.1)]
    exact fun _ => ⟨trivial, hbox.2⟩

theorem Connect.visitModule_fails [quiet.Calm e] (hb : bodies module = none)
    (ht : t.Ready bodies r) :
    Ends (fun _ _ => False) (bodies.Finds t)
      (Connect.visitModule e enter node name module index t) := by
  have henter := @Connect.enterInstance_ends quiet e _ node name t ht.sound
  refine Ends.bind (Ends.mono henter (fun _ _ h => h) fun t' h => ?_) fun outer t₁ _ h => ?_
  · rw [noted_ready ht rfl] at h
    exact h.elim (fun h => finds_of_eq h.2) fun h => finds_of_eq h.2
  · have hscoped := h.2.1.scoped ht rfl
    change Ends _ _ ((lift (t₁.modules.find module) >>= _ : Pass Unit) t₁)
    rw [Modules.find, (ht.walk hscoped.walked).get?_eq_none hb]
    exact finds_of_eq hscoped.findings

theorem visitInstance_follows [quiet.Calm e]
    (henter : ∀ m b, bodies m = some b → Follows bodies .module (enter b) (enter' b)) :
    Follows bodies r (Declare.visitInstance enter node name)
      (Connect.visitInstance e enter' node name index) := by
  refine lift_bind fun module _ => ?_
  cases hgate : gates.lookup module with
  | some op => exact .of_quiet (p := pure ())
  | none =>
    simp only [Option.isSome_none, Bool.false_eq_true, if_false]
    by_cases hname : (name == "") = true
    · simp only [hname, if_true]
      exact .of_quiet
    simp only [hname, Bool.false_eq_true, if_false]
    cases hb : bodies module with
    | some b =>
      refine known_follows hb fun m hm => right_bind get_steady fun t ht => ?_
      subst hm
      have hmodule : Follows bodies r (Declare.visitModule enter node name module m)
          (Connect.visitModule e enter' node name module index) :=
        visitModule_follows hb (henter module _ hb)
      split
      · exact right_quiet fun _ => hmodule
      · exact hmodule
    | none =>
      refine unknown_follows hb fun t ht => ?_
      change Ends _ _ ((if _ then _ else _ : Pass Unit) t)
      split
      · refine Ends.bind (Ends.mono ((say_keeps (R := quiet) (m := .any)).ends ht.sound trivial) (fun _ _ h => h)
          fun _ h => finds_of_eq h.2) fun _ t₁ _ h => ?_
        exact (Connect.visitModule_fails hb (ht.walk (h.1.walked ht))).mono (fun _ _ h => h)
          fun _ h' => (finds_of_eq h.1.findings).trans h'
      · exact Connect.visitModule_fails hb ht

theorem body_update {ms ms' : Modules} {step : Module → Result Module}
    (h : ms.update step = .ok ms') (hstep : ∀ m m', step m = .ok m' → m'.body = m.body)
    (n : String) : (ms'.table.get? n).map (·.body) = (ms.table.get? n).map (·.body) := by
  unfold Modules.update at h
  split at h
  · cases h
  · rename_i current _
    split at h
    · rename_i m hm
      obtain ⟨m', hm', h⟩ := bind_eq_ok.mp h
      cases h
      rw [Table.get?_put]
      split
      · rename_i heq
        rw [← eq_of_beq heq, hm]
        exact congrArg some (hstep m m' hm')
      · rfl
    · cases h

theorem noteLimits_steady {lsb msb : Scalar} :
    Steady bodies r (fun _ => True) (Declare.noteLimits node lsb msb) := by
  refine ⟨fun s hs => ?_, fun _ _ => ⟨(), trivial⟩⟩
  change Ends _ _ ((lift (s.modules.update _) >>= _ : Pass Unit) s)
  cases hupdate : s.modules.update _ with
  | error f => exact ⟨rfl, rfl⟩
  | ok ms =>
    have hbodies := body_update hupdate (by rintro _ _ ⟨⟩; rfl)
    exact ⟨{ Kept.refl hs.sound with bodies := hbodies }, trivial⟩

theorem visitInstances_follows [quiet.Calm e]
    (hfree : (node.part? "array").any Ast.isPresent = true → bodies.settled = false)
    (henter : ∀ m b, bodies m = some b → Follows bodies .module (enter b) (enter' b)) :
    Follows bodies r
      (Declare.visitInstances Declare.evaluate (Declare.noteLimits node)
        (fun name _ => Declare.visitInstance enter node name) node)
      (Declare.visitInstances e.evaluate (fun _ _ => pure ()) (Connect.visitInstance e enter' node)
        node) := by
  refine lift_bind fun array harray => lift_bind fun name _ => ?_
  split
  · exact visitInstance_follows henter
  rename_i hpresent
  have hsome := orThrow_eq_ok.mp harray
  have hfree := hfree (by simpa [hsome] using hpresent)
  refine .ite .of_quiet ?_
  refine left_quiet fun _ => left_quiet fun _ => left_quiet fun _ => left_quiet fun _ => ?_
  refine left_quiet fun _ => left_quiet fun _ => left_quiet fun _ => ?_
  refine left_bind noteLimits_steady fun _ _ => ?_
  refine left_quiet fun numbers => right_bind current_steady fun scope hscope => ?_
  have := hscope.concrete
  refine right_quiet fun _ => right_quiet fun _ => right_quiet fun _ => right_quiet fun _ => ?_
  refine right_quiet fun _ => right_quiet fun _ => right_quiet fun _ => right_quiet fun numbers' => ?_
  revert numbers numbers'
  refine finding hfree (fun _ _ h => Finding.instances.inj h) fun numbers => ?_
  exact .forM fun _ _ => visitInstance_follows henter

end Instances

/-! ## Nodes -/

section Nodes

variable {e : Engine} {enter enter' : Ast → Pass Unit}
  {k : Ast.Kind} {place : Ast.Place} {parts : List Ast}
variable {p : Path} {t : Ast} {f g : Frame}

abbrev Declare.visitsOf (enter : Ast → Pass Unit) (parts : List Ast) : Visits :=
  Ast.foldParts (fun _ => throw .noMember) (Declare.visitNode enter) parts

abbrev Connect.visitsOf (e : Engine) (enter : Ast → Pass Unit) (parts : List Ast) : Visits :=
  Ast.foldParts (fun _ => throw .noMember) (Connect.visitNode e enter) parts

/-- The visits of a tree go in lockstep. -/
abbrev VisitsFollow (bodies : Bodies) (e : Engine) (enter enter' : Ast → Pass Unit)
    (r : Region) (t : Ast) : Prop :=
  Follows bodies r (visitTree (Declare.visitNode enter) t) (visitTree (Connect.visitNode e enter') t)

/-- The visits of the parts of a node and of their members go in lockstep. -/
structure PartsFollow (bodies : Bodies) (e : Engine) (enter enter' : Ast → Pass Unit)
    (r : Region) (parts : List Ast) : Prop where
  own : ∀ t ∈ parts, VisitsFollow bodies e enter enter' r t
  members : ∀ t ∈ parts, ∀ us, t.members = .ok us → ∀ u ∈ us,
    VisitsFollow bodies e enter enter' r u

namespace PartsFollow

variable (h : PartsFollow bodies e enter enter' r parts)

include h

theorem below (k : Ast.Kind) : Follows bodies r
    (visitBelow k (Declare.visitsOf enter parts))
    (visitBelow k
      (Connect.visitsOf e enter' parts)) := by
  unfold visitBelow
  rw [Ast.gather_foldParts _ _ k default parts, Ast.gather_foldParts _ _ k default parts]
  cases hchildren : Ast.children (.node k default parts) with
  | error f => exact .failed
  | ok cs =>
    refine .forM_map fun c hc => ?_
    rcases Ast.mem_children hchildren hc with hc | ⟨t, ht, us, hus, hc⟩
    · exact h.own c hc
    · exact h.members t ht us hus c hc

theorem whole (i : Nat) : Follows bodies r
    (visitPart (Declare.visitsOf enter parts) i) (visitPart (Connect.visitsOf e enter' parts) i) := by
  simp only [visitPart, Declare.visitsOf, Connect.visitsOf, Ast.foldParts_eq_map, getElem?_map]
  cases hi : parts[i]? with
  | none => exact .done
  | some t => exact h.own t (mem_of_getElem? hi)

theorem each (i : Nat) : Follows bodies r
    (visitsIn (Declare.visitsOf enter parts) i >>= fun visits => visits.forM id)
    (visitsIn (Connect.visitsOf e enter' parts) i >>= fun visits => visits.forM id) := by
  simp only [visitsIn, Declare.visitsOf, Connect.visitsOf, Ast.foldParts_eq_map, getElem?_map]
  cases hi : parts[i]? with
  | none => exact .done
  | some t =>
    change Follows bodies r (lift (t.members.map _) >>= _) (lift (t.members.map _) >>= _)
    cases hus : t.members with
    | error f => exact .failed
    | ok us => exact .forM_map fun u hu => h.members t (mem_of_getElem? hi) us hus u hu

theorem cases [quiet.Calm e] (hr : r ≠ .module) {start : Path} : Follows bodies r
    (do
      let items ← lift (parts.getD 1 .absent).members
      let visits ← visitsIn (Declare.visitsOf enter parts) 1
      Declare.visitCases (parts.getD 0 .absent) (items.zip visits))
    (do
      let items ← lift (parts.getD 1 .absent).members
      let visits ← visitsIn (Connect.visitsOf e enter' parts) 1
      let arms ← Connect.visitCases e (parts.getD 0 .absent) (items.zip visits)
      arms.forM fun arm => Connect.copyBlocking arm start) := by
  refine lift_bind fun items hitems => ?_
  simp only [visitsIn, Declare.visitsOf, Connect.visitsOf, Ast.foldParts_eq_map, getElem?_map]
  rw [getD_eq_getElem?_getD] at hitems
  cases hi : parts[1]? with
  | none =>
    rw [hi] at hitems
    cases hitems
  | some t =>
    rw [hi] at hitems
    change t.members = .ok items at hitems
    simp only [Option.map_some, hitems]
    change Follows bodies r
      (Declare.visitCases _ (items.zip (items.map (visitTree (Declare.visitNode enter)))))
      (Connect.visitCases e _ (items.zip (items.map (visitTree (Connect.visitNode e enter')))) >>= _)
    rw [← map_prod_left_eq_zip, ← map_prod_left_eq_zip]
    have hitem := fun i hi' => h.members t (mem_of_getElem? hi) items hitems i hi'
    rw [← bind_pure_unit (x := Declare.visitCases _ _)]
    exact .seq (visitCases_follows hr hitem) fun _ _ => .of_quiet

end PartsFollow

/-! ### Declarations -/

theorem marks_ne_empty (h : r.Fits p) : marksOf p ≠ {} := by
  have hall : ∀ m ∈ r.marks, m ≠ {} := by cases r <;> decide
  exact hall _ h.marks

theorem declareConstant_steady {node : Ast} {value : Path → Pass Tree}
    [∀ p, Quiet .any (value p)] :
    Steady bodies r (fun _ => True) (Declare.declareConstant node value) := by
  refine .of_quietAt fun s hs => ?_
  refine Rule.At.bind (declare_at hs.sound (marks_ne_empty hs.region) ?_) ?_
  · intro f g h
    obtain ⟨name, -, h⟩ := bind_eq_ok.mp h
    cases h
    exact {}
  · intro _ s' hkept _
    exact Keeps.ends hkept.sound trivial

theorem fits_addFunction (ht : PlainFunction t) (h : f.addFunction t = .ok g) (hf : f.Fits p) :
    g.Fits p := by
  obtain ⟨name, -, h⟩ := bind_eq_ok.mp h
  obtain ⟨ds, hds, h⟩ := bind_eq_ok.mp h
  cases h
  refine ⟨hf.concrete, hf.name, hf.marks, ?_, hf.consts⟩
  unfold Definitions.define at hds
  split at hds
  · cases hds
  · cases hds
    exact Table.forall_put (P := fun d : Definition => PlainFunction d.body) hf.functions ht

theorem like_addTask (h : f.addTask t = .ok g) : f.Like g := by
  obtain ⟨name, -, h⟩ := bind_eq_ok.mp h
  obtain ⟨ds, -, h⟩ := bind_eq_ok.mp h
  cases h
  exact {}

/-- The declaration of a function or a task, with the mark for it. -/
theorem definition_follows (mark : Bool → Frames → Frames) {declare : Pass Unit}
    (hparts : ∀ t ∈ parts, allKinds isPlain t = true)
    (hdeclare : ∀ s : Stage, s.Ready bodies .module → QuietAt .any s declare)
    (hsame : ∀ fs, ((mark true fs).current, (mark true fs).table) = (fs.current, fs.table))
    (hdeclares : ∀ fs, (mark true fs).inFunction = true ∨ (mark true fs).inTask = true)
    (hkept : ∀ fs fs', fs.inTask = false → (mark true fs).Kept fs' → fs.Kept (mark false fs')) :
    Follows bodies .module
      (declare >>= fun _ => Declare.marked mark (visitBelow k (Declare.visitsOf enter parts)))
      (Declare.marked mark (visitBelow k (Connect.visitsOf e enter' parts))) := by
  have : KeepsFound quiet .defining (Declare.visitsOf enter parts) :=
    .of_parts hparts fun _ => Declare.visit_defining
  have : KeepsFound quiet .defining (Connect.visitsOf e enter' parts) :=
    .of_parts hparts fun _ => Connect.visit_defining
  have hmarked (found : Visits) [KeepsFound quiet .defining found] (s : Stage)
      (hs : s.Ready bodies .module) :
      QuietAt .any s (Declare.marked mark (visitBelow k found)) := by
    obtain ⟨hcurrent, htable⟩ := Prod.mk.inj (hsame s.frames)
    have hframes := hs.sound.frames
    refine marked_quietAt mark (m := .defining) ⟨⟨?_, ?_⟩, hs.sound.functions⟩ ⟨hdeclares _, .inl ?_⟩
      fun fs => hkept _ fs hs.inTask
    · exact hcurrent ▸ hframes.current
    · exact htable ▸ hframes.fits
    · exact hcurrent ▸ mem_singleton.mp hs.region.marks
  refine .of_steady (Steady.of_quietAt fun s hs => ?_) (Steady.of_quietAt (hmarked _))
  exact Rule.At.bind (hdeclare s hs) fun _ s' hkept _ => hmarked _ s' (hs.walk (hkept.walked hs))

theorem marked_follows {mark : Bool → Frames → Frames} [Declare.LoopMark mark]
    {visit visit' : Pass Unit} (h : Follows bodies r visit visit') :
    Follows bodies r (Declare.marked mark visit) (Declare.marked mark visit') := by
  refine left_quiet fun _ => right_quiet fun _ => ?_
  exact .seq h fun _ _ => .of_quiet

/-! ### All kinds of nodes -/

theorem placedNode_of_isBland {found : List (Ast.Found (Region → Bool))} (hk : isBland k = true) :
    placedNode k parts found r = placedBelow found r := by
  cases k <;> first | rfl | cases hk

theorem visitNode_follows [quiet.Calm e]
    (henter : ∀ m b, bodies m = some b → Follows bodies .module (enter b) (enter' b))
    (hplaced : stands bodies.settled (.node k place parts) r = true)
    (h : ∀ r, (∀ t ∈ parts, stands bodies.settled t r = true) →
      (∀ t ∈ parts, ∀ us, t.members = .ok us → ∀ u ∈ us, stands bodies.settled u r = true) →
      PartsFollow bodies e enter enter' r parts) :
    Follows bodies r
      (Declare.visitNode enter k place parts
        (Declare.visitsOf enter parts))
      (Connect.visitNode e enter' k place parts
        (Connect.visitsOf e enter' parts)) := by
  rw [stands_node, standsAt, Bool.and_eq_true] at hplaced
  obtain ⟨hfree, hplaced⟩ := hplaced
  have hbelow : ∀ r, placedBelow (standing bodies.settled parts) r = true →
      PartsFollow bodies e enter enter' r parts := fun r hr =>
    h r (forall_placedBelow hr).1 (forall_placedBelow hr).2
  by_cases hbland : isBland k = true
  · rw [placedNode_of_isBland hbland] at hplaced
    have hmute : isMute k = true := by
      unfold isMute
      split
      · rfl
      · exact hbland
    rw [Declare.visitNode_of_isMute hmute, Connect.visitNode_of_isBland hbland]
    exact (hbelow r hplaced).below k
  cases k with
  | moduleDef =>
    have hchildren := (hbelow r hplaced).below .moduleDef
    have hvisit := seq hchildren fun _ _ => Lockstep.of_quiet
      (p := do if (← get).tracing then say ("Exiting Module : " ++ (parts.getD 0 .absent).toText))
      (q := do
        if (← get).tracing then
          modify fun s => { s with nesting := s.nesting - 1 }
          say ("Exiting Module : " ++ (parts.getD 0 .absent).toText))
    refine right_quiet fun _ => left_bind get_steady fun _ _ => ?_
    refine right_bind get_steady fun _ _ => left_when ?_
    split
    · exact right_bind get_steady fun _ _ => right_quiet fun _ => right_quiet fun _ => hvisit
    · exact hvisit
  | parameter | localparam | genvar =>
    refine .of_steady declareConstant_steady (Quiet.steady ?_)
    unfold Connect.visitNode
    infer_instance
  | function =>
    simp only [placedNode, Bool.and_eq_true, decide_eq_true_eq, all_eq_true] at hplaced
    obtain ⟨rfl, hplain⟩ := hplaced
    refine definition_follows (fun b fs => { fs with inFunction := b }) hplain
      (fun s hs => ?_) (fun _ => rfl) (fun _ => .inl rfl) fun _ _ _ => kept_of_inFunction
    refine .get_bind (.lift_bind hs.sound fun fs hfs => ?_)
    obtain ⟨f, g, hf, hg, rfl⟩ := exists_of_update hfs
    exact ⟨.of_frames hs.sound (hs.sound.frames.put hf fun _ =>
      fits_addFunction ⟨place, parts, rfl, hplain⟩ hg), trivial⟩
  | task =>
    simp only [placedNode, Bool.and_eq_true, decide_eq_true_eq, all_eq_true] at hplaced
    obtain ⟨rfl, hplain⟩ := hplaced
    refine definition_follows (fun b fs => { fs with inTask := b }) hplain
      (fun s hs => (update_keeps fun _ _ => like_addTask).ends hs.sound trivial) (fun _ => rfl)
      (fun _ => .inr rfl) fun _ _ htask h => ?_
    exact { h with sound := ⟨h.sound.current, h.sound.fits⟩, inTask := htask.symm }
  | initial => exact .done
  | whileStatement =>
    have hflat : ∀ t ∈ parts, allKinds isFlat t = true := all_eq_true.mp hplaced
    have : KeepsFound quiet .any (Connect.visitsOf e enter' parts) :=
      .of_parts hflat fun _ => Connect.visit_flat
    exact .of_steady (Quiet.steady (p := pure ()) .pure)
      (Quiet.steady (Connect.visitNode_flat (k := .whileStatement) rfl))
  | input | output | inout | reg | wire | regArray | wireArray | tri | integer | supply
  | assign | blockingSubstitution | nonblockingSubstitution =>
    unfold Declare.visitNode Connect.visitNode
    exact .of_quiet
  | systemCall =>
    have hmute : ∀ t ∈ parts, allKinds isMute t = true := all_eq_true.mp hplaced
    have : KeepsFound quiet .any (Declare.visitsOf enter parts) :=
      .of_parts hmute fun _ => Declare.visit_mute
    exact .of_quiet (p := visitBelow .systemCall (Declare.visitsOf enter parts)) (q := say _)
  | instanceList => exact (hbelow r hplaced).each 2
  | inst =>
    refine visitInstances_follows (fun hpresent => ?_) henter
    simpa [decidesNothing, hpresent] using hfree
  | always =>
    simp only [placedNode, Bool.and_eq_true, decide_eq_true_eq] at hplaced
    have hchildren := (hbelow _ hplaced.2).below .always
    have hword : "always" ∈ r.words := mem_words_of_ne_statement hplaced.1 (by simp)
    have hinto : r.into .always = some .statement := if_neg hplaced.1
    refine label hword fun label => ?_
    refine within (paired_enterFrame (l := ⟨label, .always, .none⟩) hinto) fun outer houter => ?_
    refine right_quiet fun watch => right_quiet fun _ => ?_
    exact .seq hchildren fun _ _ => .goTo houter
  | ifStatement =>
    simp only [placedNode, Bool.and_eq_true, decide_eq_true_eq] at hplaced
    have hparts := hbelow _ hplaced.2
    have hfree : r = .generate → bodies.settled = false := by
      rintro rfl
      simpa [decidesNothing] using hfree
    refine right_inDeclaration (visitIf_follows hplaced.1 hfree (fun _ => ?_) fun _ => ?_)
    · exact thenArm_follows hplaced.1 (hparts.whole 1)
    · exact elseArm_follows hplaced.1 (hparts.whole 2)
  | caseStatement | casexStatement | casezStatement =>
    simp only [placedNode, Bool.and_eq_true, decide_eq_true_eq] at hplaced
    refine right_inDeclaration (right_quiet fun start => ?_)
    exact (hbelow _ hplaced.2).cases hplaced.1
  | caseItem => exact .ite .of_quiet ((hbelow r hplaced).whole 1)
  | forStatement =>
    simp only [placedNode, Bool.and_eq_true, decide_eq_true_eq] at hplaced
    have hparts := hbelow _ hplaced.2
    have hword : "for" ∈ r.words := mem_words_of_ne_module hplaced.1 (by simp)
    refine right_inDeclaration (left_quiet fun _ => right_quiet fun _ => ?_)
    refine .seq (marked_follows (hparts.whole 0)) fun _ _ => ?_
    refine label hword fun label => right_quiet fun start => ?_
    have hfree : bodies.settled = false := by simpa [decidesNothing] using hfree
    exact iterate_follows hplaced.1 hfree (hparts.whole 3) (marked_follows (hparts.whole 2))
  | generateStatement =>
    simp only [placedNode, Bool.and_eq_true, decide_eq_true_eq] at hplaced
    have hchildren := (hbelow _ hplaced.2).below .generateStatement
    have hword : "generate" ∈ r.words := mem_words_of_ne_statement hplaced.1 (by simp)
    have hinto : r.into .generate = some .generate := if_neg hplaced.1
    refine label hword fun label => ?_
    refine within (paired_enterFrame (l := ⟨label, .generate, .none⟩) hinto) fun outer houter => ?_
    exact .seq hchildren fun _ _ => .goTo houter
  | block =>
    simp only [placedNode, Bool.and_eq_true, decide_eq_true_eq] at hplaced
    have hchildren := (hbelow _ hplaced.2).below .block
    have hword : "block" ∈ r.words := mem_words_of_ne_module hplaced.1 (by simp)
    refine .ite (label hword fun label => ?_) (lift_bind fun label _ => ?_)
    all_goals
      refine within (paired_enterFrame (into_statement hplaced.1 (by simp))) fun outer houter => ?_
      exact .seq hchildren fun _ _ => goTo_bind houter (f := fun _ => pure ())
  | _ => exact absurd rfl hbland

theorem visitTree_follows [quiet.Calm e]
    (henter : ∀ m b, bodies m = some b → Follows bodies .module (enter b) (enter' b))
    (ht : stands bodies.settled t r = true) : VisitsFollow bodies e enter enter' r t := by
  induction t using Ast.induct generalizing r with
  | leaf t hleaf =>
    rw [VisitsFollow, visitTree, visitTree, Ast.fold_leaf _ _ hleaf, Ast.fold_leaf _ _ hleaf]
    exact .of_quiet
  | node k place parts ih ihmembers =>
    rw [VisitsFollow, visitTree, visitTree, Ast.fold, Ast.fold]
    exact visitNode_follows henter ht fun r hparts hmembers =>
      ⟨fun u hu => ih u hu (hparts u hu), fun u hu us hus v hv =>
        ihmembers u hu us hus v hv (hmembers u hu us hus v hv)⟩

end Nodes

theorem visit_follows
    (hbodies : ∀ m b, bodies m = some b → stands bodies.settled b .module = true) (n : Nat)
    {t : Ast} (ht : stands bodies.settled t r = true) :
    Follows bodies r (Declare.visit n t) ((Connect.engine n).visit t) := by
  induction n generalizing r t with
  | zero => exact .failed
  | succ n ih =>
    exact visitTree_follows (e := reading (Connect.engine n)) (fun m b hb => ih (hbodies m b hb)) ht

end RtlFlow.Design
