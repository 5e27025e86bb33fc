import Mathlib
import RtlFlow.Proofs.Design.Declaring

/-!
# Quiet visits of the second pass

What the second pass does at a node besides opening scopes keeps every rule: it notes terms and
makes bindings. Its visits of whole trees are quiet in the declarations of functions and tasks,
where it passes over most statements, in the calls of functions, and for while loops whose bodies
only assign.
-/

namespace RtlFlow.Design.Connect

open Stage

set_option synthInstance.maxSize 100000

variable {R : Rule} {m : Mode} {e : Engine}

/-! ## Frames and assignments -/

section Calm

variable {scope : Path} {node : Ast} {index : Option Int} {name : String} {i n : Nat}

theorem addDeclared_keeps {name : Path} {ts : List Ast} (hname : name.labels ≠ []) :
    Keeps R m (addDeclared name ts) :=
  .forM_of_mem fun _ _ => addTerm_keeps hname

/-- The constants of a table are declared. -/
theorem declaredOnce_keeps {α : Type} {table : Table Path (List Ast)}
    {k : List (Path × Ast) → Pass α} (htable : ∀ e ∈ table.entries, e.1.labels ≠ [])
    (hk : ∀ entries, Keeps R m (k entries)) :
    Keeps R m (do
      let entries ← Declare.declaredOnce table
      entries.forM fun (name, t) => addDeclared name [t]
      k entries) := by
  unfold Declare.declaredOnce
  rw [bind_assoc]
  refine .mapM_bind (P := fun es => ∀ e ∈ es, e.1.labels ≠ []) (fun e he k hk => ?_) fun es hes => ?_
  · obtain ⟨name, ts⟩ := e
    dsimp only
    split
    · exact .throw_bind
    · refine hk _ fun d hd => ?_
      obtain ⟨t, -, rfl⟩ := List.mem_map.mp hd
      exact htable _ he
  · have hall : Keeps R m (es.flatten.forM fun e => addDeclared e.1 [e.2]) := by
      refine .forM_of_mem fun e he => addDeclared_keeps ?_
      obtain ⟨es', hes', he⟩ := List.mem_flatten.mp he
      exact hes es' hes' e he
    rw [pure_bind]
    exact @Keeps.bind _ _ _ _ _ _ hall fun _ => hk _

theorem named_below {α : Type} {kind : ScopeKind} {names : List (String × α)} :
    ∀ e ∈ (Frames.below scope kind names).entries, e.1.labels ≠ [] := by
  refine List.foldlRecOn (motive := fun t : Table Path α => ∀ e ∈ t.entries, e.1.labels ≠ []) _ _
    (List.forall_mem_nil _) fun t ht e he =>
      Table.forall_keys_put (P := fun p : Path => p.labels ≠ []) ht ?_
  obtain ⟨d, -, rfl⟩ := List.mem_map.mp he
  exact push_ne_nil

theorem collect_induct {α : Type} {fs : Frames} {kind : ScopeKind}
    {names : Frame → List (String × α)} {P : Table Path α → Prop} (hempty : P {})
    (hput : ∀ t, ∀ e ∈ fs.table.entries, ∀ d ∈ names e.2, P t →
      P (t.put (e.1.push ⟨d.1, kind, .none⟩) d.2)) : P (fs.collect kind names) :=
  List.foldlRecOn (motive := P) _ _ hempty fun _ ht e he =>
    List.foldlRecOn (motive := P) _ _ ht fun t ht d hd => hput t e he d hd ht

theorem named_collect {α : Type} {fs : Frames} {kind : ScopeKind}
    {names : Frame → List (String × α)} :
    ∀ e ∈ (fs.collect kind names).entries, e.1.labels ≠ [] :=
  collect_induct (P := fun t => ∀ e ∈ t.entries, e.1.labels ≠ []) (List.forall_mem_nil _)
    fun _ _ _ _ _ ht => Table.forall_keys_put (P := fun p : Path => p.labels ≠ []) ht push_ne_nil

theorem copyAll_keeps (h : ∀ s, R.Sound s → ∀ e ∈ s.frames.allFunctions.entries, Keeps R m
      (modify fun s => { s with
        wiring.functions := s.wiring.functions.put e.1 e.2.body
        wiring.functionPorts := s.wiring.functionPorts.put e.1 e.2.ports })) :
    Keeps R m copyAll := by
  refine .get_bind fun s hs => declaredOnce_keeps named_collect fun _ => ?_
  have hsignals : Keeps R m (s.frames.allSignals.entries.forM fun e => addDeclared e.1 e.2) :=
    .forM_of_mem fun e he => addDeclared_keeps (named_collect e he)
  have hfunctions := Keeps.forM_of_mem (h s hs)
  exact .seq fun _ => .seq fun _ => .forM_of_mem fun _ _ => Keeps.modify fun _ => {}

instance copyBlocking_keeps {source target : Path} : Keeps R m (copyBlocking source target) := by
  refine .seq fun _ => .seq fun _ => .forM_of_mem fun _ _ => .forM_of_mem fun _ _ => ?_
  exact setBlockingAt_keeps

instance sensitivityOf_keeps : Keeps R m (sensitivityOf node scope) := by
  refine ⟨fun {s} hs hm => .get_bind (.lift_bind hs fun entries _ => .lift_bind hs fun w _ => ?_)⟩
  exact ⟨R.beside hs {}, hm.congr rfl rfl rfl⟩

instance {watch : Sensitivity} :
    Keeps R m (changeFrames (·.update fun f => pure { f with sensitivity := some watch })) :=
  update_keeps (by rintro _ _ ⟨⟩; exact {})

variable [m.Outside] [R.Calm e]

instance copyConstants_keeps [Concrete scope] : Keeps R m (copyConstants e scope) := by
  refine .get_bind fun s _ => .lift_bind fun table htable => declaredOnce_keeps ?_ inferInstance
  obtain ⟨f, -, htable⟩ := bind_eq_ok.mp htable
  cases htable
  exact named_below

instance copyNonblocking_keeps [Concrete scope] : Keeps R m (copyNonblocking e scope) := by
  unfold copyNonblocking
  infer_instance

instance addBind_keeps {left right : Ast} {always : Option Sensitivity} {kind : String} :
    Keeps R m (addBind e left right always kind) := by
  unfold addBind
  infer_instance

instance addConstant_keeps {value : Ast} : Keeps R m (addConstant e node value) := by
  unfold addConstant
  infer_instance

instance visitGate_keeps {op : Option Ast.Kind} : Keeps R m (visitGate e op node index) := by
  unfold visitGate
  refine .seq fun ports => .seq fun left => ?_
  split <;> infer_instance

instance bindParameter_keeps [Concrete scope] {params : List Ast} {arg : Ast} :
    Keeps R m (bindParameter e name params scope i arg) := by
  unfold bindParameter
  cases params[i]? <;> infer_instance

instance bindPort_keeps {ports : List Ast} {port : Ast} :
    Keeps R m (bindPort e name ports index i port) := by
  unfold bindPort
  cases ports[i]? <;> infer_instance

end Calm

/-! ## The way into frames -/

/-- The constants of the scopes of a kind are copied when they are entered. -/
class Copies (R : Rule) (e : Engine) (m : Mode) (kind : ScopeKind) : Prop where
  keeps : ∀ {p : Path} {l : Label} {s s₁ : Stage}, l.kind = kind → m.Holds s →
    s.frames.current = p → R.Sound s₁ → m.Holds s₁ → s₁.frames.current = p.push l →
    R.At m s₁ (copyConstants e (p.push l))

instance [m.Outside] [R.Calm e] {kind : ScopeKind} : Copies R e m kind := by
  refine ⟨fun {p l s s₁} _ _ _ hs₁ hm₁ hcurrent => ?_⟩
  have := R.concrete hs₁
  rw [hcurrent] at this
  exact Keeps.ends hs₁ hm₁

/-- In declarations of functions and tasks no constants are declared in blocks. -/
instance : Copies quiet e .defining .block := by
  refine ⟨fun {p l s s₁} hl hm hp hs₁ hm₁ hcurrent => ?_⟩
  have hplain : marksOf (p.push l) = {} := by
    rw [marksOf_push, hl, ← hp]
    rcases hm.2 with h | h <;> rw [h] <;> rfl
  rw [← hcurrent] at hplain ⊢
  refine .lift_bind hs₁ fun table htable => ?_
  obtain ⟨f, hf, htable⟩ := bind_eq_ok.mp htable
  rw [hs₁.frames.consts_at? hs₁.frames.current hplain hf] at htable
  cases htable
  exact ⟨.refl hs₁, hm₁⟩

theorem enterFrame_ends {m₀ : Mode} {node : Ast} {label : Label} {form : Frame → Frame}
    (hform : Shapes (fun f => form (f.inside label.kind)) label.kind) (hlead : m₀.Leads label m) {s : Stage}
    (hs : R.Sound s) (hm : m₀.Holds s)
    (hcopy : ∀ s₁ : Stage, R.Sound s₁ → m.Holds s₁ →
      s₁.frames.current = s.frames.current.push label →
      R.At m s₁ (copyConstants e (s.frames.current.push label))) :
    R.EntersAt m label node (fun _ => True) s (enterFrame e node label form) := by
  let noted := s.noted (s.frames.current.push label) node
  have hframes : noted.frames = s.frames := noted_frames s _ node
  have hnoted : R.Sound noted := R.sound_noted hs _ node
  change Ends _ _ ((lift s.frames.here >>= _ : Pass Path) s)
  cases hhere : s.frames.here with
  | error e => exact .inl (R.failed hs)
  | ok f =>
    -- The frame is made or not; then it becomes the current one and its constants are copied.
    have hgo : ∀ s₁ : Stage, R.Entered label noted (s₁.at (s.frames.current.push label)) →
        m.Holds (s₁.at (s.frames.current.push label)) →
        R.EntersAt m label node (fun _ => True) s fun _ => (do
          goTo (s.frames.current.push label)
          copyConstants e (s.frames.current.push label)
          return s.frames.current : Pass Path) s₁ := by
      intro s₁ hentered hm₁
      have hcopied := hcopy _ hentered.sound hm₁ rfl
      refine Ends.bind (p := copyConstants e (s.frames.current.push label))
        (hcopied.mono (fun _ _ h => h) fun s' h => .inr (R.fails hentered.kept h)) ?_
      exact fun _ s₂ _ h => ⟨rfl, hentered.trans h.1, h.2, trivial⟩
    change Ends _ _ ((if _ then _ else _ : Pass Path) noted)
    split
    · rw [← hframes] at hhere
      have hadd := hform.add hlead hnoted (hm.noted _ node) (.inl hhere)
      refine Ends.bind (hadd.mono (fun _ _ h => h) fun _ h => .inr h) fun _ s₁ _ h => ?_
      have hat : s₁.at (s.frames.current.push label) = s₁ := by
        rw [← hframes, ← h.1.current]
        rfl
      exact hgo s₁ (hat ▸ h.1) (hat ▸ h.2.1)
    · have hp : Concrete (s.frames.current.push label) := (R.concrete hs).push hform.kind
      refine hgo noted ⟨?_, R.sound_at hnoted hp, by rw [hframes]; rfl⟩ ?_
      · exact R.refl hnoted
      · exact hlead s _ hm rfl (congrArg (·.inFunction) hframes :) (congrArg (·.inTask) hframes :)

theorem enterFrame_enters {node : Ast} {label : Label} {form : Frame → Frame}
    [R.Opens m label.kind] [Copies R e m label.kind]
    (hform : Shapes (fun f => form (f.inside label.kind)) label.kind) :
    Enters R m (enterFrame e node label form) :=
  .of_entersAt fun _ hs hm => enterFrame_ends hform (Rule.Opens.leads (R := R) rfl) hs hm
    fun _ => Copies.keeps rfl hm rfl

theorem enterInstance_ends [R.Calm e] {node : Ast} {name : String} {s : Stage} (hs : R.Sound s) :
    R.EntersAt .any ⟨name, .module, .none⟩ node (fun _ => True) s (enterInstance e node name) := by
  let l : Label := ⟨name, .module, .none⟩
  let noted := s.noted (s.frames.current.push l) node
  have hconcrete := (R.concrete hs).push (l := l) nofun
  have hnoted := R.sound_noted hs (s.frames.current.push l) node
  have hentered : R.Entered l noted (noted.at (s.frames.current.push l)) := by
    refine ⟨R.refl hnoted, R.sound_at hnoted hconcrete, ?_⟩
    rw [noted_frames]
    rfl
  have hcopied : R.At .any _ (copyConstants e (s.frames.current.push l)) :=
    Keeps.ends hentered.sound trivial
  refine Ends.bind (p := copyConstants e (s.frames.current.push l))
    (hcopied.mono (fun _ _ h => h) fun _ h => .inr (R.fails hentered.kept h)) fun _ s₁ _ h => ?_
  exact ⟨rfl, hentered.trans h.1, trivial, trivial⟩

instance enterInstance_enters [R.Calm e] {node : Ast} {name : String} [R.Opens .any .module] :
    Enters R .any (enterInstance e node name) :=
  .of_entersAt fun _ hs _ => enterInstance_ends hs

/-! ## Statements -/

section Statements

variable [m.Outside] [R.Calm e] {node cond : Ast} {visit : Pass Unit} [Keeps R m visit]
  {label kind : String} {start scope : Path} {n : Nat}

instance [Concrete scope] : Concrete (armPath scope label) := by
  unfold armPath
  infer_instance

theorem iteration_keeps {label : Label} [R.Opens m label.kind] {form : Frame → Frame}
    (hform : Shapes (fun f => form (f.inside label.kind)) label.kind) :
    Keeps R m (iteration e node label form visit start) := by
  have : Enters R m (enterFrame e node label form) := enterFrame_enters hform
  unfold iteration
  infer_instance

instance iterateWhile_keeps [R.Opens m .while] {count : Nat} :
    Keeps R m (iterateWhile e node label cond visit start n count) := by
  have (loop : Scalar) : Keeps R m (iteration e node ⟨label, .while, loop⟩
      (fun f => { f with kind := "while", loop }) visit start) :=
    iteration_keeps (.of_rfl fun _ => rfl)
  induction n generalizing count with
  | zero => exact .throw
  | succ n ih =>
    unfold iterateWhile
    infer_instance

variable [R.Statements m]

instance arm_enters : Enters R m (enterFrame e node ⟨label, .if, .none⟩ fun f =>
    { f with kind, condition := cond }) :=
  enterFrame_enters (.of_rfl fun _ => rfl)

instance visitArm_keeps : Keeps R m (visitArm e node label kind cond visit) := by
  unfold visitArm
  infer_instance

instance mergeArm_keeps [Concrete scope] : Keeps R m (mergeArm scope label) := by
  unfold mergeArm
  infer_instance

theorem visitCases_keeps {selector : Ast} {items : List (Ast × Pass Unit)}
    (h : ∀ i ∈ items, Keeps R m i.2) : Keeps R m (visitCases e selector items) := by
  induction items with
  | nil => exact .pure
  | cons i rest ih =>
    have := ih fun j hj => h j (List.mem_cons_of_mem _ hj)
    have := h i List.mem_cons_self
    unfold visitCases
    infer_instance

instance rounds_keeps {post : Ast} {step : Pass Unit} [Keeps R m step] {loop : Scalar} :
    Keeps R m (Declare.iterate e.evaluate (iteration e node · · visit start) label cond post step n
      loop) :=
  Declare.iterate_keeps fun _ _ => iteration_keeps (.of_rfl fun _ => rfl)

end Statements

/-! ## Visits -/

section Visits

variable {enter : Ast → Pass Unit} {k : Ast.Kind} {place : Ast.Place} {parts : List Ast}
  {found : Visits} {t : Ast}

theorem visitNode_of_isBland (hk : isBland k = true) :
    visitNode e enter k place parts found = visitBelow k found := by
  cases k <;> first | rfl | cases hk

variable [KeepsFound R m found]

theorem visitBlock_keeps [Keeps R m (blockLabel "block")] [R.Opens m .block]
    [Copies R e m .block] : Keeps R m (visitNode e enter .block place parts found) := by
  have (label : String) : Enters R m (enterFrame e (.node .block place parts)
      ⟨label, .block, .none⟩ fun f => { f with kind := "block" }) :=
    enterFrame_enters (.of_rfl fun _ => rfl)
  unfold visitNode
  infer_instance

section Calm

variable [m.Outside] [R.Calm e] [R.Opens m .while] [Keeps R m (blockLabel "while")]

theorem visitNode_flat (hk : isFlat k = true) :
    Keeps R m (visitNode e enter k place parts found) := by
  by_cases hbland : isBland k = true
  · rw [visitNode_of_isBland hbland]
    infer_instance
  cases k with
  | assign | blockingSubstitution | nonblockingSubstitution | systemCall | whileStatement =>
    unfold visitNode
    infer_instance
  | _ => first | exact absurd rfl hbland | cases hk

theorem visitNode_plain [R.Statements m] (hk : isPlain k = true) :
    Keeps R m (visitNode e enter k place parts found) := by
  by_cases hflat : isFlat k = true
  · exact visitNode_flat hflat
  cases k with
  | input | output | inout | reg | wire | regArray | wireArray | tri | integer =>
    exact addTermHere_keeps
  | initial => exact .pure
  | ifStatement =>
    unfold visitNode
    infer_instance
  | caseStatement | casexStatement | casezStatement =>
    refine .seq fun _ => .ite_of (.seq fun start => .seq fun items => visitsIn_bind ?_)
    intro visits hvisits
    have : Keeps R m (visitCases e (parts.getD 0 .absent) (items.zip visits)) :=
      visitCases_keeps (forall_zip_snd hvisits)
    infer_instance
  | caseItem => exact .ite_of visitPart_keeps
  | forStatement =>
    unfold visitNode
    infer_instance
  | block => exact visitBlock_keeps
  | _ => first | exact absurd rfl hflat | cases hk

end Calm

/-! ### Declarations of functions and tasks -/

theorem inDeclaration_defining {α : Type} {k : Bool → Pass α} (h : Quiet .defining (k true)) :
    Quiet .defining (inDeclaration >>= k) := by
  unfold inDeclaration here
  simp only [bind_assoc, pure_bind]
  refine ⟨fun {s} hs hm => .get_bind (.get_bind (.lift_bind hs fun f hf => ?_))⟩
  have hmarks := hs.frames.marks_at? hs.frames.current hf
  have hcalls : f.isFunctionCall = false ∧ f.isTaskCall = false := by
    rcases hm.2 with hplain | hplain <;> rw [hplain] at hmarks
    all_goals exact ⟨congrArg (·.isFunctionCall) hmarks, congrArg (·.isTaskCall) hmarks⟩
  rw [hcalls.1, hcalls.2]
  rcases hm.1 with hdeclares | hdeclares <;> simpa [hdeclares] using h.ends hs hm

theorem visitNode_defining [KeepsFound quiet .defining found] (hk : isPlain k = true) :
    Quiet .defining (visitNode e enter k place parts found) := by
  have (left right : Ast) (always : Option Sensitivity) (kind : String) :
      Quiet .defining (addBind e left right always kind) := inDeclaration_defining .pure
  by_cases hbland : isBland k = true
  · rw [visitNode_of_isBland hbland]
    infer_instance
  cases k with
  | input | output | inout | reg | wire | regArray | wireArray | tri | integer
  | ifStatement | caseStatement | casexStatement | casezStatement | forStatement
  | whileStatement => exact inDeclaration_defining .pure
  | initial => exact .pure
  | assign | blockingSubstitution | nonblockingSubstitution | systemCall =>
    unfold visitNode
    infer_instance
  | caseItem => exact .ite_of visitPart_keeps
  | block => exact visitBlock_keeps
  | _ => first | exact absurd rfl hbland | cases hk

/-! ### Whole trees -/

theorem visit_defining (ht : allKinds isPlain t = true) :
    Quiet .defining (visitTree (visitNode e enter) t) :=
  visitTree_keeps ht fun _ _ _ _ hk _ => visitNode_defining hk

theorem visit_calling [quiet.Calm e] (ht : allKinds isPlain t = true) :
    Quiet .calling (visitTree (visitNode e enter) t) :=
  visitTree_keeps ht fun _ _ _ _ hk _ => visitNode_plain hk

theorem visit_flat [quiet.Calm e] (ht : allKinds isFlat t = true) :
    Quiet .any (visitTree (visitNode e enter) t) :=
  visitTree_keeps ht fun _ _ _ _ hk _ => visitNode_flat hk

end Visits

/-- The readings of all depths are quiet, with the visits of functions in calls. -/
instance engine_calm (n : Nat) : quiet.Calm (engine n) := by
  induction n with
  | zero => exact ⟨.throw, .throw, fun _ => .throw⟩
  | succ n ih =>
    have he : quiet.Calm (reading (engine n)) := inferInstance
    refine he.of_visit ?_
    rintro _ ⟨place, parts, rfl, hparts⟩
    have : KeepsFound quiet .calling (Ast.foldParts (fun _ => throw .noMember)
        (visitNode (reading (engine n)) (engine n).visit) parts) :=
      .of_parts hparts fun _ => visit_calling
    refine ⟨fun {s} hs hm => ?_⟩
    change QuietAt _ _ (Ast.fold _ _ _)
    rw [Ast.fold]
    refine Ends.mono (marked_quietAt (fun b fs => { fs with inFunction := b }) (m := .calling) ?_ hm
      fun _ => kept_of_inFunction) (fun _ s' h => ⟨h.1, hm.calling h.1.frames.current⟩) fun _ h => h
    exact ⟨⟨hs.frames.current, hs.frames.fits⟩, hs.functions⟩

end RtlFlow.Design.Connect
