import Mathlib
import RtlFlow.Proofs.Design.Rules

/-!
# Reading keeps rules

The second pass reads expressions, declares terms and makes bindings. All of this keeps every rule,
also the calls of functions in expressions, if the engine that visits the functions does.
-/

namespace RtlFlow.Design

open List

open Stage

set_option synthInstance.maxSize 100000

/-- The readings of an engine keep a rule, and so do its visits of functions in calls. -/
class Rule.Calm (R : Rule) (e : Engine) : Prop where
  tree : ∀ {scope : Path} {t : Ast} [Concrete scope], Keeps R .any (e.tree scope t)
  resolve : ∀ {scope : Path} {t : Tree} [Concrete scope], Keeps R .any (e.resolve scope t)
  visit : ∀ {f : Ast}, R.Body f → Keeps R .calling (e.visit f)

variable {R : Rule} {m : Mode} {e : Engine} {scope p dst name : Path}

theorem Rule.Calm.of_visit (he : R.Calm e) {visit : Ast → Pass Unit}
    (h : ∀ {f}, R.Body f → Keeps R .calling (visit f)) : R.Calm { e with visit } :=
  ⟨he.tree, he.resolve, h⟩

section Assignment

variable {t node right : Ast} {tree : Tree} {ds : List Destination} {f g : Frame} {b : Binding}
  {always : Option Sensitivity} {kind : Option String} {guard : Guard} {name? : Option Path}
  {word : String} {i : Nat}

theorem concrete_of_mem_conditionFrames {s : Stage} (hs : R.Sound s) {n : Nat} {frames : List Frame}
    (h : conditionFrames s.frames n p = .ok frames) : ∀ f ∈ frames, Concrete f.name := by
  induction n generalizing p frames with
  | zero => cases h
  | succ n ih =>
    obtain ⟨f, hf, h⟩ := bind_eq_ok.mp h
    have hhere : ∀ g ∈ (if f.condition.isAbsent = true then [] else [f]), Concrete g.name := by
      intro g hg
      split at hg
      · cases hg
      · obtain rfl := mem_singleton.mp hg
        exact R.concrete_name hs hf
    by_cases hmodule : f.isModule = true
    · simp only [hmodule] at h
      cases h
      exact hhere
    · simp only [hmodule] at h
      obtain ⟨rest, hrest, h⟩ := bind_eq_ok.mp h
      cases h
      intro g hg
      rcases mem_append.mp hg with hg | hg
      · exact hhere g hg
      · exact ih hrest g hg

instance [Concrete p] : Concrete ((none : Option Path).getD p) := ‹_›

instance [Concrete p] {q : Path} : Concrete ((some p).getD q) := ‹_›

instance inDeclaration_keeps : Keeps R m inDeclaration := by
  unfold inDeclaration
  infer_instance

instance searchTerm_keeps : Keeps R m (searchTerm word scope) := by
  unfold searchTerm
  infer_instance

instance termAt_keeps : Keeps R m (termAt name?) := by
  cases name? <;> unfold termAt <;> infer_instance

instance selectedName_keeps {var : Ast} : Keeps R m (selectedName var scope) := by
  unfold selectedName
  infer_instance

theorem store_kept {w w' : Wiring} (h : w.store name i = .ok w') :
    w'.functions = w.functions ∧ w'.terms = w.terms := by
  obtain ⟨stored, -, h⟩ := bind_eq_ok.mp h
  cases h
  exact ⟨rfl, rfl⟩

instance storeBinding_keeps : Keeps R m (storeBinding b) := by
  refine ⟨fun {s} hs hm => .lift_bind hs fun w hw => ?_⟩
  obtain ⟨hfunctions, hterms⟩ := store_kept hw
  have hcounted : s.Counted { s with wiring := w } :=
    ⟨le_rfl, fun hnamed => by rw [Stage.Named, hterms]; exact hnamed⟩
  exact ⟨R.beside hs { functions := hfunctions, counted := hcounted }, hm.congr rfl rfl rfl⟩

theorem like_addNonblocking (h : f.addNonblocking dst b = .ok g) : f.Like g := by
  obtain ⟨known, -, h⟩ := bind_eq_ok.mp h
  cases h
  exact {}

theorem like_setBlocking {slots slots' : Slots} (h : f.setBlocking slots dst i = .ok (g, slots')) :
    f.Like g := by
  obtain ⟨stored, -, h⟩ := bind_eq_ok.mp h
  cases h
  exact {}

instance addNonblocking_keeps : Keeps R m (changeFrames (·.update (·.addNonblocking dst b))) :=
  update_keeps fun _ _ => like_addNonblocking

def setBlockingAt (p dst : Path) (i : Nat) : Pass Unit := do
  let s ← get
  let (f, slots) ← lift (do (← s.frames.at? p).setBlocking s.wiring.slots dst i)
  set { s with
    frames.table := s.frames.table.put p f
    wiring.slots := slots }

theorem setBlockingAt_keeps : Keeps R m (setBlockingAt p dst i) := by
  refine ⟨fun {s} hs hm => .lift_bind hs fun fslots h => ?_⟩
  obtain ⟨f, slots⟩ := fslots
  obtain ⟨g, hg, h⟩ := bind_eq_ok.mp h
  have hput := R.put hs hg (like_setBlocking h)
  exact ⟨R.trans hput (R.beside (R.sound hput) {}), hm.congr rfl rfl rfl⟩

instance bindAll_keeps : Keeps R m (bindAll ds tree guard always kind) := by
  unfold bindAll noteNonblocking
  infer_instance

def IsTemporary (n : Nat) (p : Path) : Prop := ∃ name, temporaryName n name = .ok p

theorem IsTemporary.exists_push {n : Nat} (h : IsTemporary n p) :
    ∃ (q : Path) (x : String), p = q.push ⟨"_rn" ++ Text.ofInt n ++ "_" ++ x, .signal, .none⟩ := by
  obtain ⟨name, h⟩ := h
  unfold temporaryName at h
  split at h
  · cases h
    exact ⟨_, _, rfl⟩
  · cases h

theorem freshName_cases {terms : Terms} {n tries : Nat} {r : Path × Nat}
    (h : freshName terms name n tries = .ok r) :
    ∃ m, n ≤ m ∧ temporaryName m name = .ok r.1 ∧ terms.contains r.1 = false ∧ r.2 = m + 1 := by
  induction tries generalizing n with
  | zero => cases h
  | succ tries ih =>
    obtain ⟨p, hp, h⟩ := bind_eq_ok.mp h
    split at h
    · obtain ⟨m, hm, hfresh⟩ := ih h
      exact ⟨m, by omega, hfresh⟩
    · next hnew =>
      cases h
      exact ⟨n, le_rfl, hp, by simpa using hnew, rfl⟩

instance renamed_keeps {d : Destination} : Keeps R m (renamed d) := by
  unfold renamed
  split
  · infer_instance
  · refine ⟨fun {s} hs hm => .lift_bind hs fun pn hpn => ?_⟩
    obtain ⟨n, hn, hp, -, hnext⟩ := freshName_cases hpn
    have hcounted : s.Counted { s with renames := pn.2 } :=
      ⟨hnext ▸ hn.trans (Nat.le_succ n), id⟩
    have hkept := R.beside hs { counted := hcounted }
    refine .set_bind hkept (.lift_bind (R.sound hkept) fun t ht => ?_)
    have hname : pn.1.labels ≠ [] := by
      obtain ⟨p, x, heq⟩ := IsTemporary.exists_push ⟨_, hp⟩
      exact heq ▸ push_ne_nil
    exact ⟨R.beside (R.sound hkept) { counted := counted_addTerm hname }, hm.congr rfl rfl rfl⟩

instance bindTemporary_keeps : Keeps R m (bindTemporary ds tree) := by
  refine .forM_of_mem fun d _ => ?_
  split <;> infer_instance

instance bindRenamed_keeps {pairs : List (Destination × Destination)} :
    Keeps R m (bindRenamed pairs guard scope always) := by
  refine .forM_of_mem fun d _ => .get_bind fun _ _ => .seq fun b => .seq fun i => ?_
  exact setBlockingAt_keeps

instance trackValue_keeps : Keeps R m (trackValue name? tree) := by
  cases name? <;> unfold trackValue <;> infer_instance

variable [m.Outside] [R.Calm e] [Concrete scope]

instance tree_keeps : Keeps R m (e.tree scope t) := .outside Rule.Calm.tree

instance resolve_keeps : Keeps R m (e.resolve scope tree) := .outside Rule.Calm.resolve

instance read_keeps : Keeps R m (e.read t scope) := by
  unfold Engine.read
  infer_instance

instance evaluate_keeps : Keeps R m (e.evaluate t scope) := by
  unfold Engine.evaluate
  infer_instance

instance resolveConditions_keeps {cs : List Tree} : Keeps R m (resolveConditions e scope cs) := by
  induction cs generalizing scope with
  | nil => exact .pure
  | cons c cs ih =>
    unfold resolveConditions
    infer_instance

instance condFlow_keeps : Keeps R m (condFlow e scope) := by
  refine .get_bind fun s hs => .lift_bind fun frames hframes => ?_
  have : Keeps R m (frames.mapM fun f => e.tree f.name.beforeIf f.condition) :=
    .mapM_of_mem fun f hf =>
      have := concrete_of_mem_conditionFrames hs hframes f hf
      inferInstance
  infer_instance

instance declaredRange_keeps {width : Ast} : Keeps R m (declaredRange e width scope word) := by
  unfold declaredRange
  infer_instance

instance constantTerm_keeps : Keeps R m (constantTerm e name t scope) := by
  unfold constantTerm
  infer_instance

instance addTermHere_keeps : Keeps R m (addTerm e node) := by
  unfold addTerm
  infer_instance

instance addTermAt_keeps : Keeps R m (addTerm e node (some scope)) := by
  unfold addTerm
  infer_instance

instance destinationName_keeps : Keeps R m (destinationName e word scope) := by
  unfold destinationName
  refine .seq fun found => ?_
  cases found <;> infer_instance

instance indexTree_keeps : Keeps R m (indexTree e t scope) := by
  unfold indexTree
  infer_instance

instance destination_keeps : Keeps R m (destination e scope t) := by
  induction t using Ast.induct with
  | leaf t ht =>
    cases t with
    | atom a =>
      cases a with
      | text name => exact .seq fun _ => .pure
      | _ => exact .throw
    | node => cases ht
    | _ => exact .throw
  | node k place parts ih _ =>
    unfold destination
    split
    · rename_i heq
      cases heq
    · infer_instance
    · rename_i heq
      cases heq
      have := ih _ mem_cons_self
      infer_instance
    · rename_i heq
      cases heq
      have := ih _ mem_cons_self
      infer_instance
    · infer_instance

omit [m.Outside] [R.Calm e] [Concrete scope] in
theorem allDestinations_keeps {ts : List Ast} (h : ∀ t ∈ ts, Keeps R m (leftDestinations e scope t)) :
    Keeps R m (allDestinations e scope ts) := by
  induction ts with
  | nil => exact .pure
  | cons t ts ih =>
    rw [allDestinations]
    have := h t mem_cons_self
    have := ih fun u hu => h u (mem_cons_of_mem _ hu)
    infer_instance

instance leftDestinations_keeps : Keeps R m (leftDestinations e scope t) := by
  have hone : ∀ t, Keeps R m (do return [← destination e scope t]) := inferInstance
  induction t using Ast.induct with
  | leaf t ht =>
    cases t with
    | node => cases ht
    | _ => exact hone _
  | node k place parts ih ihmembers =>
    unfold leftDestinations
    split
    · rename_i heq
      cases heq
      exact ih _ mem_cons_self
    · rename_i heq
      cases heq
      exact allDestinations_keeps (ihmembers _ mem_cons_self _ rfl)
    · rename_i heq
      cases heq
      exact allDestinations_keeps (ihmembers _ mem_cons_self _ rfl)
    · exact hone _

instance destinations_keeps {left : Ast} : Keeps R m (destinations e left scope) := by
  unfold destinations
  refine .seq fun ds => ?_
  split <;> infer_instance

instance connect_keeps {rightScope : Path} [Concrete rightScope] :
    Keeps R m (connect e ds right scope rightScope always kind) := by
  unfold connect
  infer_instance

instance connectBlocking_keeps : Keeps R m (connectBlocking e ds right scope always) := by
  unfold connectBlocking
  refine .seq fun _ => .seq fun _ => .seq fun _ => .seq fun _ => .seq fun _ => ?_
  split <;> infer_instance

end Assignment

/-! ## Blocking assignments -/

section Resolution

variable {bs : List Binding} {ptr : Tree}

instance blockingBefore_keeps : Keeps R m (blockingBefore name scope) := by
  unfold blockingBefore
  infer_instance

instance assignedItem_keeps : Keeps R m (assignedItem name ptr bs) := by
  unfold assignedItem
  infer_instance

variable {below : Engine}

instance assignedTree_keeps [R.Calm below] [Concrete scope] :
    Keeps R .any (assignedTree below scope name bs) := by
  unfold assignedTree
  infer_instance

mutual

theorem resolveWith_keeps [R.Calm below] [Concrete scope] : ∀ t,
    Keeps R .any (resolveWith below scope t)
  | .term name => by
    rw [resolveWith]
    refine .seq fun t => .ite_of ?_
    refine .seq fun bs => ?_
    split <;> infer_instance
  | .branch cond yes no => by
    rw [resolveWith]
    have := resolveWith_keeps yes
    have := resolveWith_keeps no
    have := resolveWith_keeps cond
    infer_instance
  | .op name args => by
    rw [resolveWith]
    have := resolveAll_keeps args
    infer_instance
  | .concat items => by
    rw [resolveWith]
    have := resolveAll_keeps items
    infer_instance
  | .part var msb lsb => by
    rw [resolveWith]
    have := resolveWith_keeps msb
    have := resolveWith_keeps lsb
    have := resolveWith_keeps var
    infer_instance
  | .item var ptr => by
    rw [resolveWith]
    have := resolveWith_keeps ptr
    have := resolveWith_keeps var
    refine .seq fun ptr => ?_
    have harray : ∀ array : Option Path, Keeps R .any (match array with
        | some name => do assignedItem name ptr (← blockingBefore name scope)
        | none => do
          let var ← resolveWith below scope var
          if var.isBranch then lift (var.insertItem ptr) else return .item var ptr) := by
      intro array
      cases array <;> infer_instance
    split
    · exact .seq fun _ => .seq harray
    · exact .throw_bind
    · exact .seq harray
  | .unbound => .throw
  | .hole => .pure
  | .const .. => .pure
  | .value .. => .pure
  | .unknown _ | .floating _ | .delay _ | .call .. => .throw

theorem resolveAll_keeps [R.Calm below] [Concrete scope] : ∀ ts,
    Keeps R .any (resolveAll below scope ts)
  | [] => by
    rw [resolveAll]
    infer_instance
  | t :: ts => by
    rw [resolveAll]
    have := resolveWith_keeps t
    have := resolveAll_keeps ts
    infer_instance

end

end Resolution

/-! ## Calls -/

section Calls

variable {inner : Engine} [he : R.Calm inner] [Concrete scope] {call : Ast}

theorem body_of_search {w : Wiring} (hw : ∀ e ∈ w.functions.entries, R.Body e.2)
    {fs : Frames} {name : String} {labels : List Label} {found : Path × Ast}
    (h : Wiring.search fs .function w.functions name labels = .ok (some found)) :
    R.Body found.2 := by
  induction labels with
  | nil => cases h
  | cons l outer ih =>
    rw [Wiring.search] at h
    split at h
    · rename_i f hf
      cases h
      obtain ⟨e, he, -, rfl⟩ := Table.get?_eq_some hf
      exact hw e he
    · obtain ⟨g, -, h⟩ := bind_eq_ok.mp h
      split at h
      · cases h
      · exact ih h

instance bindArguments_keeps {ports args : List Ast} [m.Outside] :
    Keeps R m (bindArguments inner ports args scope) := by
  unfold bindArguments
  infer_instance

instance callTree_keeps [Keeps R .any (blockLabel "functioncall")] :
    Keeps R .any (callTree inner scope call) := by
  refine .seq fun name => .get_bind fun s₀ hs₀ => .lift_bind fun found hfound => ?_
  cases found with
  | none => infer_instance
  | some f =>
    have hf : R.Body f := by
      obtain ⟨found, hsearch, hsome⟩ := bind_eq_ok.mp hfound
      obtain ⟨found, rfl, rfl⟩ := Option.map_eq_some_iff.mp (Except.ok.inj hsome)
      exact body_of_search (R.body hs₀) hsearch
    have := he.visit hf
    refine .seq fun label => Returns.from_current fun outer => @Returns.away _ _ _ _ _ _ _ ?_
    exact .add_bind (.of_rfl fun _ => rfl) (Mode.any_leads_calling (by simp)) inferInstance

instance taskTree_keeps [Keeps R .any (blockLabel "taskcall")] :
    Keeps R .any (taskTree inner scope call) := by
  refine .seq fun name => .seq fun _ => .seq fun task => .seq fun label => ⟨fun {s} hs hm => ?_⟩
  refine Returns.at_start ?_ hs hm
  refine .add_bind (.of_rfl fun _ => rfl) (Mode.any_leads_calling (by simp)) ?_
  cases task <;> infer_instance

end Calls

/-! ## Expressions -/

section Expressions

variable {inner : Engine} {found : List (Ast.Found (Pass Tree))} {i : Nat} {k : Ast.Kind}
  {resolve : Path → Tree → Pass Tree}

/-- The visits of the parts of a node and of their members keep a rule. -/
class KeepsFound (R : Rule) (m : Mode) {α : Type} (found : List (Ast.Found (Pass α))) : Prop where
  keeps : ∀ f ∈ found, Keeps R m f.whole ∧ ∀ xs, f.each = .ok xs → ∀ x ∈ xs, Keeps R m x

instance raise_keeps {α : Type} {r : Result α} : Keeps R m (raise r : Pass α) := by
  cases r <;> unfold raise <;> infer_instance

instance operandAt_keeps [h : KeepsFound R m found] : Keeps R m (operandAt found i) := by
  unfold operandAt
  split
  · rename_i f hf
    exact (h.keeps f (mem_of_getElem? hf)).1
  · infer_instance

instance operandsAt_keeps [h : KeepsFound R m found] : Keeps R m (operandsAt found i) := by
  unfold operandsAt
  split
  · rename_i f hf
    split
    · rename_i xs hxs
      exact .mapM_of_mem ((h.keeps f (mem_of_getElem? hf)).2 xs hxs)
    · infer_instance
  · infer_instance

theorem expressionTree_keeps {isArray : Tree → Pass Bool} [∀ t, Keeps R m (isArray t)]
    [KeepsFound R m found] {p : Pass Tree} (hp : expressionTree isArray k found = some p) :
    Keeps R m p := by
  unfold expressionTree at hp
  split_ifs at hp <;> cases hp <;> infer_instance

/-- What is read from a node keeps a rule. -/
structure Reading.Calm (R : Rule) (r : Reading) : Prop where
  tree : Keeps R .any r.tree := by infer_instance
  labels : Keeps R .any r.labels := by infer_instance

variable [he : R.Calm inner] [Concrete scope] [∀ t, Keeps R .any (resolve scope t)]
  [Keeps R .any (blockLabel "functioncall")] [Keeps R .any (blockLabel "taskcall")]

theorem readNode_calm {place : Ast.Place} {parts : List Ast} {found : List (Ast.Found Reading)}
    (h : ∀ f ∈ found, f.whole.Calm R ∧ ∀ xs, f.each = .ok xs → ∀ x ∈ xs, Reading.Calm R x) :
    (readNode inner resolve scope k place parts found).Calm R := by
  unfold readNode
  extract_lets trees finish evaluated isArray
  have htrees : KeepsFound R .any trees := by
    refine ⟨fun f hf => ?_⟩
    obtain ⟨g, hg, rfl⟩ := mem_map.mp hf
    refine ⟨(h g hg).1.tree, fun xs hxs x hx => ?_⟩
    cases hys : g.each with
    | error e =>
      rw [hys] at hxs
      cases hxs
    | ok ys =>
      rw [hys] at hxs
      cases hxs
      obtain ⟨y, hy, rfl⟩ := mem_map.mp hx
      exact ((h g hg).2 ys hys y hy).tree
  have hevaluated : ∀ i, Keeps R .any (evaluated i) := by
    unfold evaluated
    infer_instance
  have harray : ∀ t, Keeps R .any (isArray t) := by
    intro t
    unfold isArray
    split <;> infer_instance
  split
  · exact {}
  · rename_i t _ ht
    exact { tree := expressionTree_keeps ht }
  split
  · refine { tree := .seq fun _ => .ite_of ?_ (.seq fun found => ?_) }
    · split
      · rename_i f hf
        have := (h f (mem_of_getElem? hf)).1.labels
        infer_instance
      · infer_instance
    · split <;> infer_instance
  · refine { labels := ?_ }
    split
    · rename_i f hf
      refine .lift_bind fun xs hxs => ?_
      have : Keeps R .any (xs.mapM Reading.labels) :=
        .mapM_of_mem fun x hx => ((h f (mem_of_getElem? hf)).2 xs hxs x hx).labels
      infer_instance
    · infer_instance
  · exact {}
  · exact {}
  · exact {}
  · exact {}
  · refine { tree := .ite_of inferInstance ?_ }
    split
    · rename_i f hf
      refine .lift_bind fun xs hxs => ?_
      split
      · exact (htrees.keeps f (mem_of_getElem? hf)).2 _ hxs _ mem_cons_self
      · infer_instance
    · infer_instance
  · exact {}

theorem treeWith_keeps (t : Ast) : Keeps R .any (treeWith inner resolve scope t) := by
  unfold treeWith
  generalize hleaf : (fun t : Ast => _) = leaf
  suffices hcalm : (t.fold leaf (readNode inner resolve scope)).Calm R from hcalm.tree
  induction t using Ast.induct with
  | leaf t ht =>
    rw [Ast.fold_leaf _ _ ht, ← hleaf]
    beta_reduce
    split
    · refine { tree := .seq fun found => ?_ }
      split <;> infer_instance
    · exact {}
  | node k place parts ih ihmembers =>
    rw [Ast.fold]
    exact readNode_calm (Ast.forall_foldParts _ _ ih ihmembers)

omit [Concrete scope] [∀ t, Keeps R .any (resolve scope t)] in
theorem readers_calm (n : Nat) : R.Calm (readers inner n) := by
  induction n with
  | zero => exact ⟨.throw, .throw, fun _ => .throw⟩
  | succ n ih =>
    have hresolve : ∀ {scope : Path} [Concrete scope] t,
        Keeps R .any (resolveWith (readers inner n) scope t) := resolveWith_keeps
    exact ⟨treeWith_keeps _, hresolve _, he.visit⟩

omit [Concrete scope] [∀ t, Keeps R .any (resolve scope t)] in
instance reading_calm : R.Calm (reading inner) where
  tree {scope t} _ :=
    have hcalm : R.Calm (readers inner (scope.length + 2)) := readers_calm _
    hcalm.tree (t := t)
  resolve {scope t} _ :=
    have hcalm : R.Calm (readers inner (scope.length + 2)) := readers_calm _
    hcalm.resolve (t := t)
  visit := he.visit

end Expressions

end RtlFlow.Design
