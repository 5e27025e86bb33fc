import Mathlib
import RtlFlow.Proofs.Design.Quiet
import RtlFlow.Proofs.Design.Reading

/-!
# Quiet visits of the first pass

What the first pass does at a node besides opening scopes keeps every rule: it declares names and
evaluates constants. Its visits of whole trees are quiet where no scope is opened that both passes
share: in the declarations of functions and tasks, and below nodes that mean nothing to it.
-/

namespace RtlFlow.Design

open Stage

set_option synthInstance.maxSize 100000

variable {R : Rule} {m : Mode}

/-! ## Statements of the first pass -/

namespace Declare

variable {scope p : Path} {cond node t : Ast} {visit : Pass Unit} {f g : Frame} {label : String}
  {n : Nat} {mark : Bool → Frames → Frames}

instance evaluate_keeps : Keeps R m (evaluate t scope) := by
  unfold evaluate treeAt
  infer_instance

instance constantTerm_keeps {name : Path} : Keeps R m (constantTerm name t scope) := by
  unfold constantTerm
  infer_instance

instance constants_keeps : Keeps R m constants := by
  unfold constants declaredOnce
  infer_instance

instance noteConstants_keeps {form : Ast → Ast} : Keeps R m (noteConstants form) := by
  unfold noteConstants
  infer_instance

instance evaluateConstants_keeps {eval : Ast → Path → Pass Tree} {entries : List (Path × Ast)}
    [∀ t, Keeps R m (eval t scope)] : Keeps R m (evaluateConstants eval entries scope n) := by
  induction n with
  | zero => exact .throw
  | succ n ih =>
    unfold evaluateConstants
    infer_instance

instance setParameters_keeps {name : String} {params : List Ast} :
    Keeps R m (setParameters node name params scope) := by
  unfold setParameters
  infer_instance

section Evaluation

variable {eval : Ast → Path → Pass Tree} [∀ (t : Ast) (p : Scope), Keeps R m (eval t p)]

instance loopValue_keeps : Keeps R m (loopValue eval t) := by
  unfold loopValue
  infer_instance

theorem iterate_keeps {inside : Label → (Frame → Frame) → Pass Unit} {post : Ast} {step : Pass Unit}
    [Keeps R m step] [∀ f, Keeps R m (noteFinding f)] {loop : Scalar}
    (h : ∀ (loop : Scalar) (name : Ast), Keeps R m (inside ⟨label, .for, loop⟩ fun f =>
      { f with kind := "for", loop, loopName := name })) :
    Keeps R m (iterate eval inside label cond post step n loop) := by
  induction n generalizing loop with
  | zero => exact .throw
  | succ n ih =>
    unfold iterate
    infer_instance

instance visitInstances_keeps {noteEnds : Scalar → Scalar → Pass Unit}
    {visit : String → Option Int → Pass Unit} [∀ lsb msb, Keeps R m (noteEnds lsb msb)]
    [∀ name i, Keeps R m (visit name i)] [∀ f, Keeps R m (noteFinding f)] :
    Keeps R m (visitInstances eval noteEnds visit node) := by
  unfold visitInstances
  infer_instance

end Evaluation

instance assignLoopVariable_keeps {left right : Ast} : Keeps R m (assignLoopVariable left right) := by
  have (path : Path) : Keeps R m
      (modify fun s => { s with frames.loopName := .path path }) :=
    .modify fun _ => {}
  unfold assignLoopVariable
  infer_instance

/-- A mark for a step of a loop. -/
class LoopMark (mark : Bool → Frames → Frames) : Prop where
  beside : ∀ (b : Bool) (s : Stage), s.Beside { s with frames := mark b s.frames }

instance : LoopMark fun b fs => { fs with inForPre := b } := ⟨fun _ _ => {}⟩

instance : LoopMark fun b fs => { fs with inForPost := b } := ⟨fun _ _ => {}⟩

instance mark_keeps [LoopMark mark] {b : Bool} :
    Keeps R m (modify fun s => { s with frames := mark b s.frames }) :=
  .modify (LoopMark.beside b)

instance marked_keeps [LoopMark mark] [Keeps R m visit] : Keeps R m (marked mark visit) := by
  unfold marked
  infer_instance

theorem like_addFunctionPort (h : f.addFunctionPort t = .ok g) : f.Like g := by
  obtain ⟨ds, hds, h⟩ := bind_eq_ok.mp h
  cases h
  obtain ⟨nd, hnd, hds⟩ := bind_eq_ok.mp hds
  cases hds
  refine { functions := fun d hd => ?_ }
  -- A port more leaves the body of the last function as it was.
  have hbody : ∃ d' ∈ f.functions.table.entries, d'.2.body = nd.2.body := by
    unfold Definitions.here at hnd
    split at hnd
    · cases hnd
    · split at hnd
      · rename_i hlast
        cases hnd
        obtain ⟨e, he, -, rfl⟩ := Table.get?_eq_some hlast
        exact ⟨e, he, rfl⟩
      · cases hnd
  have hput : ∀ e ∈ (f.functions.table.put nd.1 (nd.2.addPort t)).entries,
      ∃ d' ∈ f.functions.table.entries, d'.2.body = e.2.body :=
    Table.forall_put (P := fun d : Definition => ∃ d' ∈ f.functions.table.entries,
      d'.2.body = d.body) (fun e he => ⟨e, he, rfl⟩) hbody
  exact hput d hd

theorem like_addTaskPort (h : f.addTaskPort t = .ok g) : f.Like g := by
  obtain ⟨ds, -, h⟩ := bind_eq_ok.mp h
  cases h
  exact {}

theorem like_addSignal (h : f.addSignal t = .ok g) : f.Like g := by
  obtain ⟨name, -, h⟩ := bind_eq_ok.mp h
  cases h
  refine { consts := ?_ }
  unfold Variables.addSignal
  split <;> rfl

instance addSignal_keeps : Keeps R m (changeFrames (·.addSignal t)) := by
  refine changeFrames_keeps fun fs fs' h => ?_
  unfold Frames.addSignal at h
  split_ifs at h
  all_goals
    obtain ⟨f, g, hf, hg, rfl⟩ := exists_of_update h
    refine ⟨f, g, hf, ?_, rfl⟩
  · exact like_addFunctionPort hg
  · exact like_addTaskPort hg
  · exact like_addSignal hg

theorem enterFrame_ends {m₀ : Mode} {label : Label} {form : Frame → Frame}
    (hform : Shapes (fun f => form (f.inside label.kind)) label.kind) (hlead : m₀.Leads label m) {s : Stage}
    (hs : R.Sound s) (hm : m₀.Holds s) :
    R.EntersAt m label node (fun s₁ => s.frames.current.push label ∈ s₁.frames.table.keys) s
      (enterFrame node label form) := by
  change Ends _ _ ((lift s.frames.here >>= _ : Pass Path) s)
  cases hhere : s.frames.here with
  | error e => exact .inl (R.failed hs)
  | ok f =>
    rw [← noted_frames s (s.frames.current.push label) node] at hhere
    have hadd := hform.add hlead (R.sound_noted hs (s.frames.current.push label) node)
      (hm.noted _ _) (.inl hhere)
    refine Ends.bind (p := changeFrames _) (hadd.mono (fun _ _ h => h) fun _ h => .inr h)
      fun _ s₁ _ h => ⟨rfl, h.1, h.2.1, ?_⟩
    have hkey := h.2.2
    rw [noted_frames] at hkey
    exact hkey

theorem enterFrame_enters {label : Label} {form : Frame → Frame} [R.Opens m label.kind]
    (hform : Shapes (fun f => form (f.inside label.kind)) label.kind) :
    Enters R m (enterFrame node label form) :=
  .of_entersAt fun _ hs hm => enterFrame_ends hform (Rule.Opens.leads (R := R) rfl) hs hm

theorem inFrame_keeps {label : Label} {form : Frame → Frame} [R.Opens m label.kind]
    [Keeps R m visit] (hform : Shapes (fun f => form (f.inside label.kind)) label.kind) :
    Keeps R m (inFrame node label form visit) := by
  have : Enters R m (enterFrame node label form) := enterFrame_enters hform
  unfold inFrame
  infer_instance

theorem enterInstance_ends {name module : String} {s : Stage} (hs : R.Sound s) :
    let l : Label := ⟨name, .module, .none⟩
    R.EntersAt .any l node (fun s₁ => ∃ s₀ : Stage, R.Kept s₀ s₁ ∧
      s.frames.current.push l ∈ s₀.frames.table.keys) s (enterInstance node name module) := by
  intro l
  have hform : Shapes (fun _ => { isModule := true, moduleName := .text module }) l.kind :=
    .of_rfl fun _ => rfl
  have hlead : Mode.any.Leads l .any := fun _ _ _ _ _ _ => trivial
  have hadd := hform.add hlead (R.sound_noted hs (s.frames.current.push l) node) trivial
    (f := {}) (.inr rfl)
  refine Ends.bind (p := changeFrames _) (hadd.mono (fun _ _ h => h) fun _ => .inr) ?_
  intro _ s₁ _ h₁
  have hfails s' : R.Failed s₁ s' → R.Failed s s' ∨ R.Failed (s.noted _ node) s' :=
    fun h => .inr (R.fails h₁.1.kept h)
  change Ends _ _ ((lift (s₁.modules.find module) >>= _ : Pass Path) s₁)
  cases s₁.modules.find module with
  | error e => exact hfails _ (R.failed h₁.1.sound)
  | ok m =>
    have hmarks : marksOf s₁.frames.current ≠ {} := by
      rw [h₁.1.current, marksOf_push]
      exact nofun
    refine Ends.bind (p := changeFrames _) (Ends.mono (declare_at h₁.1.sound hmarks ?_)
      (fun _ _ h => h) hfails) ?_
    · rintro f _ ⟨⟩
      exact {}
    intro _ s₂ _ h₂
    have hkey := h₁.2.2
    rw [noted_frames] at hkey
    exact ⟨rfl, h₁.1.trans h₂.1, trivial, s₁, h₂.1, hkey⟩

instance enterInstance_enters {name module : String} [R.Opens .any .module] :
    Enters R .any (enterInstance node name module) :=
  .of_entersAt fun _ hs _ => enterInstance_ends hs

section Statements

variable [R.Statements m] [Keeps R m visit]

instance thenArm_keeps : Keeps R m (thenArm node label cond visit) :=
  inFrame_keeps (.of_rfl fun _ => rfl)

instance elseArm_keeps : Keeps R m (elseArm node label cond visit) :=
  inFrame_keeps (.of_rfl fun _ => rfl)

instance visitIf_keeps {eval : Ast → Path → Pass Tree} [h : ∀ t (p : Scope), Keeps R m (eval t p)]
    {yes no : Ast} {first second : String → Pass Unit} [∀ label, Keeps R m (first label)]
    [∀ label, Keeps R m (second label)] {merge : Path → String → Pass Unit}
    [hmerge : ∀ (p : Scope) label, Keeps R m (merge p label)] :
    Keeps R m (visitIf eval cond yes no first second merge) := by
  refine .get_bind fun s hs => .seq fun f => ?_
  have := h cond ⟨_, R.concrete hs⟩
  have := hmerge ⟨_, R.concrete hs⟩
  refine .ite_of (.ite_of (.seq fun label => ?_) (.seq fun label => ?_))
  all_goals cases label <;> infer_instance

theorem visitCases_keeps {selector : Ast} {items : List (Ast × Pass Unit)}
    (h : ∀ i ∈ items, Keeps R m i.2) : Keeps R m (visitCases selector items) := by
  induction items with
  | nil => exact .pure
  | cons i rest ih =>
    have := ih fun j hj => h j (List.mem_cons_of_mem _ hj)
    have := h i List.mem_cons_self
    unfold visitCases
    infer_instance

instance rounds_keeps {post : Ast} {step : Pass Unit} [Keeps R m step] {loop : Scalar} :
    Keeps R m (iterate evaluate (inFrame node · · visit) label cond post step n loop) :=
  iterate_keeps fun _ _ => inFrame_keeps (.of_rfl fun _ => rfl)

end Statements

end Declare

instance visitBelow_keeps {k : Ast.Kind} {found : Visits}
    [h : KeepsFound R m found] : Keeps R m (visitBelow k found) := by
  unfold visitBelow
  split
  · rename_i below hbelow
    refine .forM_of_mem fun x hx => ?_
    obtain ⟨f, hf, rfl | ⟨ys, hys, hx⟩⟩ := Ast.mem_gather hbelow hx
    · exact (h.keeps f hf).1
    · exact (h.keeps f hf).2 ys hys x hx
  · infer_instance

section Found

variable {found : Visits} {visit : Pass Unit} {s : Stage}

instance visitPart_keeps [h : KeepsFound R m found] {i : Nat} : Keeps R m (visitPart found i) := by
  unfold visitPart
  split
  · rename_i f hf
    exact (h.keeps f (List.mem_of_getElem? hf)).1
  · infer_instance

theorem visitsIn_bind [h : KeepsFound R m found] {i : Nat} {k : List (Pass Unit) → Pass Unit}
    (hk : ∀ visits, (∀ visit ∈ visits, Keeps R m visit) → Keeps R m (k visits)) :
    Keeps R m (visitsIn found i >>= k) := by
  unfold visitsIn
  split
  · rename_i f hf
    exact .lift_bind fun visits hvisits =>
      hk visits ((h.keeps f (List.mem_of_getElem? hf)).2 _ hvisits)
  · exact hk [] nofun

theorem forall_zip_snd {α β : Type} {P : β → Prop} {as : List α} {bs : List β}
    (h : ∀ b ∈ bs, P b) : ∀ i ∈ as.zip bs, P i.2 :=
  fun _ hi => h _ (List.of_mem_zip hi).2

theorem KeepsFound.of_parts {test : Ast.Kind → Bool} {parts : List Ast}
    {node : Visitor} (hparts : ∀ t ∈ parts, allKinds test t = true)
    (h : ∀ t, allKinds test t = true → Keeps R m (visitTree node t)) :
    KeepsFound R m (Ast.foldParts (fun _ => throw .noMember) node parts) :=
  ⟨Ast.forall_foldParts _ _ (fun u hu => h u (hparts u hu)) fun u hu _ hus v hv =>
    h v (allKinds_members (hparts u hu) hus v hv)⟩

theorem visitTree_keeps {test : Ast.Kind → Bool} {node : Visitor} {t : Ast}
    (ht : allKinds test t = true)
    (hnode : ∀ k place parts found, test k = true → KeepsFound R m found →
      Keeps R m (node k place parts found)) : Keeps R m (visitTree node t) := by
  induction t using Ast.induct with
  | leaf t hleaf =>
    rw [visitTree, Ast.fold_leaf _ _ hleaf]
    infer_instance
  | node k place parts ih ihmembers =>
    obtain ⟨hk, hparts⟩ := allKinds_node.mp ht
    rw [visitTree, Ast.fold]
    refine hnode k place parts _ hk
      ⟨Ast.forall_foldParts _ _ (fun u hu => ih u hu (hparts u hu)) ?_⟩
    intro u hu us hus v hv
    exact ihmembers u hu us hus v hv (allKinds_members (hparts u hu) hus v hv)

theorem marked_quietAt (mark : Bool → Frames → Frames) [hvisit : Quiet m visit]
    (hs : Stage.Sound { s with frames := mark true s.frames })
    (hm : m.Holds { s with frames := mark true s.frames })
    (hkept : ∀ fs, (mark true s.frames).Kept fs → s.frames.Kept (mark false fs)) :
    QuietAt .any s (Declare.marked mark visit) := by
  have hvisited := hvisit.ends hs hm
  refine Ends.bind (p := visit) (hvisited.mono (fun _ _ h => h) fun _ h => h) fun _ _ _ h => ?_
  exact ⟨{ h.1 with frames := hkept _ h.1.frames }, trivial⟩

/-- The declaration of a function ends as it began. -/
theorem kept_of_inFunction {fs fs' : Frames}
    (h : Frames.Kept { fs with inFunction := true } fs') :
    fs.Kept { fs' with inFunction := false } :=
  { h with sound := ⟨h.sound.current, h.sound.fits⟩, inFunction := fun _ => rfl }

end Found

namespace Declare

variable {enter : Ast → Pass Unit} {k : Ast.Kind} {t : Ast}

theorem visitNode_of_isMute (hk : isMute k = true) (place : Ast.Place) (parts : List Ast)
    (found : Visits) : visitNode enter k place parts found = visitBelow k found := by
  cases k <;> first | rfl | cases hk

section Nodes

variable {place : Ast.Place} {parts : List Ast} {found : Visits}
  [KeepsFound R m found] [R.Statements m]

theorem visitNode_keeps (hk : isPlain k = true) :
    Keeps R m (visitNode enter k place parts found) := by
  by_cases hmute : isMute k = true
  · rw [visitNode_of_isMute hmute]
    infer_instance
  cases k with
  | input | output | inout | reg | wire | regArray | wireArray | tri | integer =>
    exact addSignal_keeps
  | initial | whileStatement | assign | nonblockingSubstitution => exact .pure
  | blockingSubstitution => exact assignLoopVariable_keeps
  | ifStatement =>
    unfold visitNode
    infer_instance
  | caseStatement | casexStatement | casezStatement =>
    exact .seq fun items => visitsIn_bind fun visits hvisits =>
      visitCases_keeps (forall_zip_snd hvisits)
  | caseItem => exact .ite_of visitPart_keeps
  | forStatement =>
    unfold visitNode
    infer_instance
  | block =>
    have (label : String) : Keeps R m (inFrame (.node .block place parts) ⟨label, .block, .none⟩
        (fun f => { f with kind := "block" }) (visitBelow .block found)) :=
      inFrame_keeps (.of_rfl fun _ => rfl)
    unfold visitNode
    infer_instance
  | _ => first | exact absurd rfl hmute | cases hk

end Nodes

theorem visit_defining (ht : allKinds isPlain t = true) :
    Quiet .defining (visitTree (visitNode enter) t) :=
  visitTree_keeps ht fun _ _ _ _ hk _ => visitNode_keeps hk

theorem visit_mute (ht : allKinds isMute t = true) :
    Quiet m (visitTree (visitNode enter) t) :=
  visitTree_keeps ht fun _ place parts found hk _ => by
    rw [visitNode_of_isMute hk]
    infer_instance

end Declare

end RtlFlow.Design
