import Mathlib
import RtlFlow.Proofs.Design.NameSearch
import RtlFlow.Proofs.Design.Passes

/-!
# The tree of frames

Both passes come back to the scope where they began, whatever they visit, and the frames they make
form a tree. Frames are added to it, and nothing else happens to it.
-/

namespace RtlFlow

open List

theorem Table.get?_put_of_get?_eq_some {κ ν : Type} [BEq κ] {t : Table κ ν} {k q : κ} {v x : ν}
    (hq : t.get? q = some x) :
    ∃ y, (t.put k v).get? q = some y ∧ (y = x ∧ q ≠ k ∨ t.get? k = some x ∧ y = v) := by
  obtain ⟨es⟩ := t
  change ((es.find? _).map _) = _ at hq
  change ∃ y, ((putEntry k v es).find? _).map _ = _ ∧ (_ ∨ (es.find? _).map _ = _ ∧ _)
  induction es with
  | nil => cases hq
  | cons d es ih =>
    rw [putEntry]
    by_cases hd : d.1 == k
    · by_cases hdq : d.1 == q
      · exact ⟨v, by simp [hd, hdq], .inr ⟨by simpa [hd, hdq] using hq, rfl⟩⟩
      · exact ⟨x, by simpa [hd, hdq] using hq, .inl ⟨rfl, fun h => hdq (h ▸ hd)⟩⟩
    · by_cases hdq : d.1 == q
      · exact ⟨x, by simpa [hd, hdq] using hq, .inl ⟨rfl, fun h => hd (h ▸ hdq)⟩⟩
      · simpa [hd, hdq] using ih (by simpa [hdq] using hq)

namespace Design

open Stage

set_option synthInstance.maxSize 100000

variable {s s' : Stage} {fs : Frames} {p : Path} {f g : Frame} {l : Label}

/-! ## Trees -/

section Trees

variable {t t' : Table Path Frame} {new : List (Path × Frame)}

/-- A frame is stored under its name, which is that of the frame around it and one label more. It
is listed by the frame around it, and it lists frames right below it, each of them once. -/
structure Branch (t : Table Path Frame) (e : Path × Frame) : Prop where
  concrete : Concrete e.1
  name : e.2.name = e.1
  previous : ∃ l, e.1 = e.2.previous.push l
  around : e.2.previous = {} ∨ ∃ g, t.get? e.2.previous = some g ∧ e.1 ∈ g.next
  once : e.2.next.Pairwise fun p q => (p == q) = false
  next : ∀ p ∈ e.2.next, p ∈ t.keys ∧ ∃ q l, p = q.push l ∧ (e.1 == q) = true

def IsTree (t : Table Path Frame) : Prop := ∀ e ∈ t.entries, Branch t e

/-- Where only equal paths match, the frames are nested as the search for names takes it. -/
theorem IsTree.nested (ht : IsTree t) (hnodup : t.keys.Nodup)
    (hexact : ∀ p ∈ t.keys, ∀ q, q ∈ t.keys ∨ (∃ l, q.push l ∈ t.keys) →
      ((p == q) = true ↔ p = q)) : Nested t := by
  have hkey {e : Path × Frame} (he : e ∈ t.entries) : e.1 ∈ t.keys := mem_map_of_mem he
  have hfound : ∀ e ∈ t.entries, t.entries.find? (fun d => d.1 == e.1) = some e := by
    intro e he
    have hself := (hexact _ (hkey he) _ (.inl (hkey he))).mpr rfl
    cases hd : t.entries.find? fun d => d.1 == e.1 with
    | none => exact absurd hself (find?_eq_none.mp hd e he)
    | some d =>
      have hmem := mem_of_find?_eq_some hd
      have hmatch := find?_some hd
      rw [inj_on_of_nodup_map hnodup hmem he ((hexact _ (hkey hmem) _ (.inl (hkey he))).mp hmatch)]
  refine ⟨hfound, fun e he q => ⟨fun hq => ?_, ?_⟩, fun e he => ?_⟩
  · obtain ⟨hqkey, p, l, rfl, hp⟩ := (ht e he).next q hq
    rw [(hexact _ (hkey he) p (.inr ⟨l, hqkey⟩)).mp hp]
    exact ⟨hqkey, l, rfl⟩
  · rintro ⟨hq, l, rfl⟩
    obtain ⟨d, hd, hpush⟩ := mem_map.mp hq
    obtain ⟨m, hm⟩ := (ht d hd).previous
    have hprevious : d.2.previous = e.1 :=
      congrArg Path.mk (append_inj_left' (congrArg Path.labels (hm.symm.trans hpush)) rfl)
    rcases (ht d hd).around with hempty | ⟨g, hg, hmem⟩
    · obtain ⟨m, hm⟩ := (ht e he).previous
      rw [← hprevious, hempty] at hm
      exact absurd (congrArg Path.labels hm).symm push_ne_nil
    · rw [hprevious, Table.get?, hfound e he] at hg
      cases hg
      exact hpush ▸ hmem
  · obtain ⟨l, hl⟩ := (ht e he).previous
    refine ⟨⟨l, hl⟩, (ht e he).around.imp_right ?_⟩
    rintro ⟨g, hg, -⟩
    obtain ⟨d, hd, hmatch, -⟩ := Table.get?_eq_some hg
    rw [← (hexact _ (hkey hd) _ (.inr ⟨l, hl ▸ hkey he⟩)).mp hmatch]
    exact hkey hd

/-- All frames stay, with their names and the frames around them. -/
def Grows (t t' : Table Path Frame) : Prop :=
  ∀ q f, t.get? q = some f → ∃ g, t'.get? q = some g ∧ g.name = f.name ∧ g.previous = f.previous

theorem Grows.refl : Grows t t := fun _ f hf => ⟨f, hf, rfl, rfl⟩

theorem Grows.trans {u : Table Path Frame} (h : Grows t t') (h' : Grows t' u) : Grows t u := by
  intro q f hf
  obtain ⟨g, hg, hname, hprevious⟩ := h q f hf
  obtain ⟨d, hd, hname', hprevious'⟩ := h' q g hg
  exact ⟨d, hd, hname'.trans hname, hprevious'.trans hprevious⟩

/-- A frame for the same scope, which may list the new frames if they are below it. -/
structure Frame.Extends (new : List (Path × Frame)) (f g : Frame) : Prop where
  name : g.name = f.name := by rfl
  previous : g.previous = f.previous := by rfl
  next : g.next = f.next ∨ g.next = f.next ++ new.map Prod.fst ∧
    ∀ e ∈ new, (f.name == e.2.previous) = true

/-- The frames of a table stay in another one, with new frames. -/
structure Extends (new : List (Path × Frame)) (t t' : Table Path Frame) : Prop where
  frame : ∀ q f, t.get? q = some f → ∃ g, t'.get? q = some g ∧ f.Extends new g
  entry : ∀ e ∈ t'.entries, e ∈ new ∨ ∃ d, (e.1, d) ∈ t.entries ∧ d.Extends new e.2
  keys : t.keys ⊆ t'.keys

namespace Extends

theorem refl : Extends new t t where
  frame _ f hf := ⟨f, hf, { next := .inl rfl }⟩
  entry e he := .inr ⟨e.2, he, { next := .inl rfl }⟩
  keys := List.Subset.refl _

theorem put (hf : t.get? p = some f) (hg : f.Extends new g) : Extends new t (t.put p g) where
  frame q d hd := by
    obtain ⟨d', hd', ⟨rfl, -⟩ | ⟨hsame, rfl⟩⟩ := Table.get?_put_of_get?_eq_some hd
    · exact ⟨d', hd', { next := .inl rfl }⟩
    · cases hf.symm.trans hsame
      exact ⟨_, hd', hg⟩
  entry e he := by
    rcases Table.mem_put he with he | ⟨w, hw, hsome, hv⟩ | ⟨hnone, -⟩
    · exact .inr ⟨e.2, he, { next := .inl rfl }⟩
    · cases hf.symm.trans hsome
      exact .inr ⟨f, hw, hv ▸ hg⟩
    · rw [hf] at hnone
      cases hnone
  keys := Table.keys_subset_put

theorem add (h : Extends new t t') (hp : t'.get? p = none) (hf : (p, f) ∈ new) :
    Extends new t (t'.put p f) where
  frame q d hd := by
    obtain ⟨d₁, hd₁, hext⟩ := h.frame q d hd
    obtain ⟨d', hd', ⟨rfl, -⟩ | ⟨hsome, -⟩⟩ := Table.get?_put_of_get?_eq_some hd₁
    · exact ⟨d', hd', hext⟩
    · rw [hp] at hsome
      cases hsome
  entry e he := by
    rcases Table.mem_put he with he | ⟨w, -, hsome, -⟩ | ⟨-, rfl⟩
    · exact h.entry e he
    · rw [hp] at hsome
      cases hsome
    · exact .inl hf
  keys := List.Subset.trans h.keys Table.keys_subset_put

theorem grows (h : Extends new t t') : Grows t t' := by
  intro q f hf
  obtain ⟨g, hg, hext⟩ := h.frame q f hf
  exact ⟨g, hg, hext.name, hext.previous⟩

theorem isTree (h : Extends new t t') (ht : IsTree t)
    (hnew : ∀ e ∈ new, e.1 ∈ t'.keys ∧ t.get? e.1 = none ∧ Branch t' e)
    (honce : (new.map Prod.fst).Pairwise fun p q => (p == q) = false) : IsTree t' := by
  intro e he
  rcases h.entry e he with he | ⟨d, hd, hext⟩
  · exact (hnew e he).2.2
  have hold := ht _ hd
  refine ⟨hold.concrete, hext.name.trans hold.name, hext.previous ▸ hold.previous, ?_, ?_, ?_⟩
  · rw [hext.previous]
    refine hold.around.imp_right ?_
    rintro ⟨c, hc, hmem⟩
    obtain ⟨c', hc', hext'⟩ := h.frame _ c hc
    exact ⟨c', hc', by rcases hext'.next with h | ⟨h, -⟩ <;> simp [h, hmem]⟩
  · rcases hext.next with hsame | ⟨hmore, -⟩
    · exact hsame ▸ hold.once
    rw [hmore]
    refine pairwise_append.mpr ⟨hold.once, honce, fun q hq p hp => ?_⟩
    obtain ⟨e', he', rfl⟩ := mem_map.mp hp
    exact Table.get?_eq_none_iff.mp (hnew e' he').2.1 q (hold.next q hq).1
  · have hstays : ∀ q ∈ d.next, q ∈ t'.keys ∧ ∃ p l, q = p.push l ∧ (e.1 == p) = true :=
      fun q hq => (hold.next q hq).imp_left (h.keys ·)
    rcases hext.next with hsame | ⟨hmore, hbelow⟩
    · exact hsame ▸ hstays
    · rw [hmore]
      refine forall_mem_append.mpr ⟨hstays, fun q hq => ?_⟩
      obtain ⟨e', he', rfl⟩ := mem_map.mp hq
      obtain ⟨l, hl⟩ := (hnew e' he').2.2.previous
      exact ⟨(hnew e' he').1, _, l, hl, hold.name ▸ hbelow e' he'⟩

end Extends

end Trees

/-! ## Computations that come back -/

structure Stage.Rooted (s : Stage) : Prop where
  tree : IsTree s.frames.table
  current : Concrete s.frames.current

/-- The tree has grown, wherever the stage is in it. -/
structure Stage.Raised (s s' : Stage) : Prop where
  rooted : s'.Rooted
  grows : Grows s.frames.table s'.frames.table

theorem Stage.Raised.trans {s'' : Stage} (h : s.Raised s') (h' : s'.Raised s'') : s.Raised s'' :=
  ⟨h'.rooted, h.grows.trans h'.grows⟩

theorem Stage.Raised.leave {t : Stage} (h : s.Raised (t.at p)) (h' : t.Raised s') : s.Raised s' :=
  ⟨h'.rooted, Grows.trans h.grows h'.grows⟩

theorem Stage.Rooted.beside (hs : s.Rooted) (htable : s'.frames.table = s.frames.table)
    (hcurrent : Concrete s'.frames.current) : s.Raised s' :=
  ⟨⟨htable ▸ hs.tree, hcurrent⟩, htable ▸ .refl⟩

theorem Stage.Rooted.put (hs : s.Rooted) (hf : s.frames.at? p = .ok f) (hg : f.Extends [] g) :
    s.Raised { s with frames.table := s.frames.table.put p g } :=
  have hext := Extends.put (Frames.get?_of_at? hf) hg
  ⟨⟨hext.isTree hs.tree (forall_mem_nil _) .nil, hs.current⟩, hext.grows⟩

theorem Stage.Rooted.add (hs : s.Rooted) (hl : l.kind ≠ .any) (hnext : f.next = [])
    (h : s.frames.add [l] f = .ok fs) : s.Raised { s with frames := fs } := by
  obtain ⟨table, hkeys, hnone, htable, rfl⟩ := Frames.exists_of_add h
  let q := s.frames.current.push l
  let g : Frame := { f with name := q, previous := s.frames.current }
  have hq : Concrete q := hs.current.push hl
  have hext : Extends [(q, g)] s.frames.table table := by
    rcases htable with ⟨-, rfl⟩ | ⟨d, hd, rfl⟩
    · exact .refl
    · obtain ⟨k, hk, hmatch⟩ := Frames.exists_mem_of_at? hd
      have hname : (d.name == s.frames.current) = true := (hs.tree _ hk).name ▸ hmatch
      exact .put (Frames.get?_of_at? hd) { next := .inr ⟨rfl, forall_mem_singleton.mpr hname⟩ }
  have haround : s.frames.current = {} ∨
      ∃ d, (table.put q g).get? s.frames.current = some d ∧ q ∈ d.next := by
    refine htable.imp And.left ?_
    rintro ⟨d, hd, rfl⟩
    -- The frame around the new one lists it, and it stays so when the new one is stored.
    obtain ⟨d₁, hd₁, ⟨-, hne⟩ | ⟨-, rfl⟩⟩ := Table.get?_put_of_get?_eq_some
      (v := { d with next := d.next ++ [q] }) (Frames.get?_of_at? hd)
    · exact absurd rfl hne
    obtain ⟨d₂, hd₂, ⟨rfl, -⟩ | ⟨hsome, -⟩⟩ := Table.get?_put_of_get?_eq_some hd₁
    · exact ⟨_, hd₂, by simp⟩
    · rw [hnone] at hsome
      cases hsome
  have hadd := hext.add hnone mem_cons_self
  refine ⟨⟨hadd.isTree hs.tree ?_ (pairwise_singleton _ _), hq⟩, hadd.grows⟩
  intro e he
  obtain rfl := mem_singleton.mp he
  refine ⟨Table.mem_keys_put hnone, ?_, hq, rfl, ⟨l, rfl⟩, haround, hnext ▸ .nil, ?_⟩
  · rw [Table.get?_eq_none_iff, ← hkeys, ← Table.get?_eq_none_iff]
    exact hnone
  · exact hnext ▸ forall_mem_nil _

/-- The rule of computations that come back to where they began in a tree that grows. -/
abbrev rooted : Rule where
  Sound := Stage.Rooted
  Kept s s' := (s.Raised s' ∧ s.Counted s') ∧ s'.frames.current = s.frames.current
  Failed s s' := s.Raised s' ∧ s.Counted s'
  Body _ := True
  concrete hs := hs.current
  concrete_name hs hf := by
    obtain ⟨k, hk, -⟩ := Frames.exists_mem_of_at? hf
    rw [(hs.tree _ hk).name]
    exact (hs.tree _ hk).concrete
  body _ _ _ := trivial
  sound h := h.1.1.rooted
  sound_at hs hp := ⟨hs.tree, hp⟩
  sound_noted hs p node :=
    (hs.beside (by rw [noted_frames]) (by rw [noted_frames]; exact hs.current)).rooted
  current h := h.2
  beside hs h := ⟨⟨hs.beside h.table (h.current ▸ hs.current), h.counted⟩, h.current⟩
  put hs hf hg := ⟨⟨hs.put hf ⟨hg.name, hg.previous, .inl hg.next⟩, le_rfl, id⟩, rfl⟩
  declare hs _ hf hg := ⟨⟨hs.put hf ⟨hg.name, hg.previous, .inl hg.next⟩, le_rfl, id⟩, rfl⟩
  enter {s f form l fs} hs _ hform h := by
    have hadd := hs.add hform.kind (hform.next f) h
    exact ⟨⟨hadd.trans (hadd.rooted.beside rfl hs.current), le_rfl, id⟩, rfl⟩
  back h h' := ⟨⟨(h.1.1.leave h'.1.1).trans (h'.1.1.rooted.beside rfl h.1.1.rooted.current),
    h.1.2.trans h'.1.2⟩, rfl⟩
  failed hs := ⟨hs.beside rfl hs.current, le_rfl, id⟩
  fails h h' := ⟨h.1.1.leave h'.1, h.1.2.trans h'.2⟩

instance {kind : ScopeKind} : rooted.Opens .any kind where
  leads _ _ _ _ _ _ _ := trivial
  noted {s l} node _ hs _ := by
    have hframes := noted_frames s (s.frames.current.push l) node
    have hcounted : s.Counted (s.noted (s.frames.current.push l) node) := by
      unfold Stage.noted
      split <;> exact ⟨le_rfl, id⟩
    exact ⟨⟨hs.beside (by rw [hframes]) (by rw [hframes]; exact hs.current), hcounted⟩,
      by rw [hframes]⟩

theorem Rooted.modify {h : Stage → Stage} (hh : ∀ s : Stage, (h s).frames.table = s.frames.table ∧
    (h s).frames.current = s.frames.current ∧ s.Counted (h s)) : Keeps rooted .any (modify h) := by
  refine ⟨fun {s} hs _ => ?_⟩
  obtain ⟨htable, hcurrent, hcounted⟩ := hh s
  exact ⟨⟨⟨hs.beside htable (hcurrent ▸ hs.current), hcounted⟩, hcurrent⟩, trivial⟩

instance {ms : Stage → Modules} {bs : Stage → List String} :
    Keeps rooted .any (modify fun s => { s with modules := ms s, blackBoxes := bs s }) :=
  Rooted.modify fun _ => ⟨rfl, rfl, le_rfl, id⟩

instance {b : Bool} :
    Keeps rooted .any (modify fun s => { s with frames.inFunction := b }) :=
  Rooted.modify fun _ => ⟨rfl, rfl, le_rfl, id⟩

instance {b : Bool} :
    Keeps rooted .any (modify fun s => { s with frames.inTask := b }) :=
  Rooted.modify fun _ => ⟨rfl, rfl, le_rfl, id⟩

instance noteFinding_rooted {f : Finding} : Keeps rooted .any (noteFinding f) := by
  refine Rooted.modify fun s => ?_
  split <;> exact ⟨rfl, rfl, le_rfl, id⟩

instance blockLabel_rooted {word : String} : Keeps rooted .any (blockLabel word) := by
  refine ⟨fun {s} hs _ => .get_bind (.lift_bind hs fun key _ => ?_)⟩
  exact ⟨⟨⟨hs.beside rfl hs.current, le_rfl, id⟩, rfl⟩, trivial⟩

instance : rooted.Statements .any :=
  ⟨fun _ _ => inferInstance, fun _ _ => inferInstance, inferInstance⟩

theorem update_rooted {step : Frame → Result Frame}
    (h : ∀ f g, step f = .ok g → f.Extends [] g) :
    Keeps rooted .any (changeFrames (·.update step)) := by
  refine ⟨fun {s} hs _ => .get_bind (.lift_bind hs fun fs hfs => ?_)⟩
  obtain ⟨f, g, hf, hg, rfl⟩ := exists_of_update hfs
  exact ⟨⟨⟨hs.put hf (h f g hg), le_rfl, id⟩, rfl⟩, trivial⟩

instance addConst_rooted {t : Ast} :
    Keeps rooted .any (changeFrames (·.update (·.addConst t))) := by
  refine update_rooted fun f g h => ?_
  obtain ⟨name, -, h⟩ := bind_eq_ok.mp h
  cases h
  exact { next := .inl rfl }

instance addFunction_rooted {t : Ast} :
    Keeps rooted .any (changeFrames (·.update (·.addFunction t))) := by
  refine update_rooted fun f g h => ?_
  obtain ⟨name, -, h⟩ := bind_eq_ok.mp h
  obtain ⟨ds, -, h⟩ := bind_eq_ok.mp h
  cases h
  exact { next := .inl rfl }

instance addTask_rooted {t : Ast} : Keeps rooted .any (changeFrames (·.update (·.addTask t))) :=
  update_keeps fun _ _ => like_addTask

mutual

theorem allKinds_true : ∀ t, allKinds (fun _ => true) t = true
  | .atom _ => rfl
  | .path _ => rfl
  | .seq items => everywhereAll_true items
  | .node _ _ parts => by rw [allKinds, Ast.everywhere, everywhereAll_true parts]; rfl

theorem everywhereAll_true : ∀ ts, Ast.everywhereAll (fun _ _ => true) ts = true
  | [] => rfl
  | t :: ts => by
    have ht := allKinds_true t
    rw [allKinds] at ht
    rw [Ast.everywhereAll, ht, everywhereAll_true ts]
    rfl

end

/-! ## The first pass -/

namespace Declare

variable {enter : Ast → Pass Unit} [∀ t, Keeps rooted .any (enter t)] {node : Ast}

instance visitModule_rooted {name module : String} {m : Module} :
    Keeps rooted .any (visitModule enter node name module m) := by
  unfold visitModule
  infer_instance

instance visitInstance_rooted {name : String} :
    Keeps rooted .any (visitInstance enter node name) := by
  refine .seq fun module => .ite_of ?_
  split
  · infer_instance
  · refine .seq fun s => .ite_of ?_
    split <;> infer_instance

instance noteLimits_rooted {lsb msb : Scalar} : Keeps rooted .any (noteLimits node lsb msb) := by
  unfold noteLimits
  infer_instance

instance declareConstant_rooted {value : Path → Pass Tree} [∀ p, Keeps rooted .any (value p)] :
    Keeps rooted .any (declareConstant node value) := by
  unfold declareConstant
  infer_instance

theorem visitNode_rooted {k : Ast.Kind} {place : Ast.Place} {parts : List Ast}
    {found : Visits} [KeepsFound rooted .any found] :
    Keeps rooted .any (visitNode enter k place parts found) := by
  by_cases hk : isPlain k = true
  · exact visitNode_keeps hk
  cases k with
  | moduleDef | supply | parameter | localparam | genvar | inst =>
    unfold visitNode
    infer_instance
  | function | task =>
    unfold visitNode marked
    infer_instance
  | instanceList => exact visitsIn_bind fun _ hvisits => .forM_of_mem hvisits
  | always | generateStatement => exact .seq fun label => inFrame_keeps (.of_rfl fun _ => rfl)
  | _ => exact absurd rfl hk

theorem visit_rooted (n : Nat) (t : Ast) : Keeps rooted .any (visit n t) := by
  induction n generalizing t with
  | zero => exact .throw
  | succ n ih => exact visitTree_keeps (allKinds_true t) fun _ _ _ _ _ _ => visitNode_rooted

end Declare

/-! ## The second pass -/

namespace Connect

variable {e : Engine} {enter : Ast → Pass Unit} [∀ t, Keeps rooted .any (enter t)] [rooted.Calm e]
  {node : Ast} {index : Option Int}

instance visitModule_rooted {name module : String} :
    Keeps rooted .any (visitModule e enter node name module index) := by
  unfold visitModule
  infer_instance

instance visitInstance_rooted {name : String} :
    Keeps rooted .any (visitInstance e enter node name index) := by
  refine .seq fun module => ?_
  split <;> infer_instance

theorem visitNode_rooted {k : Ast.Kind} {place : Ast.Place} {parts : List Ast}
    {found : Visits} [KeepsFound rooted .any found] :
    Keeps rooted .any (visitNode e enter k place parts found) := by
  by_cases hk : isPlain k = true
  · exact visitNode_plain hk
  cases k with
  | moduleDef | supply | parameter | localparam | genvar | inst =>
    unfold visitNode
    infer_instance
  | function | task =>
    unfold visitNode Declare.marked
    infer_instance
  | instanceList => exact visitsIn_bind fun _ hvisits => .forM_of_mem hvisits
  | always =>
    have (label : String) : Enters rooted .any (enterFrame e (.node .always place parts)
        ⟨label, .always, .none⟩ id) :=
      enterFrame_enters (.of_rfl fun _ => rfl)
    unfold visitNode
    infer_instance
  | generateStatement =>
    have (label : String) : Enters rooted .any (enterFrame e (.node .generateStatement place parts)
        ⟨label, .generate, .none⟩ id) :=
      enterFrame_enters (.of_rfl fun _ => rfl)
    unfold visitNode
    infer_instance
  | _ => exact absurd rfl hk

omit [∀ t, Keeps rooted .any (enter t)] [rooted.Calm e] in
theorem visit_rooted (n : Nat) :
    rooted.Calm (engine n) ∧ ∀ t, Keeps rooted .any ((engine n).visit t) := by
  induction n with
  | zero => exact ⟨⟨.throw, .throw, fun _ => .throw⟩, fun _ => .throw⟩
  | succ n ih =>
    obtain ⟨hcalm, hvisit⟩ := ih
    have he : rooted.Calm (reading (engine n)) := inferInstance
    have hfold : ∀ t, Keeps rooted .any ((engine (n + 1)).visit t) := fun t =>
      visitTree_keeps (allKinds_true t) fun _ _ _ _ _ _ => visitNode_rooted (e := reading (engine n))
    exact ⟨he.of_visit fun _ => .outside (hfold _), hfold⟩

end Connect

/-! ## Reachable stages -/

/-- What the passes do to a stage: they visit nodes and prepare visits, with a result or without
one, and on the way they make and enter frames, declare names in them and change all else. -/
inductive Stage.Step : Stage → Stage → Prop
  | declare (s : Stage) (n : Nat) (t : Ast) : Step s (run (Declare.visit n t) s).2
  | connect (s : Stage) (n : Nat) (t : Ast) : Step s (run ((Connect.engine n).visit t) s).2
  | prepareFirst (s : Stage) (top : String) (ignored : List String) (tracing : Bool) :
    Step s (run (Declare.prepare top ignored tracing) s).2
  | prepareSecond (s : Stage) (top : String) : Step s (run (Connect.prepare top) s).2
  | add (s : Stage) (l : Label) (f : Frame) (hl : l.kind ≠ .any) (hf : f.next = []) :
    Step s (run (changeFrames (·.add [l] f)) s).2
  | goTo (s : Stage) (p : Path) (hp : ∀ l ∈ p.labels, l.kind ≠ .any) : Step s (s.at p)
  | put (s : Stage) (p : Path) (f g : Frame) (hf : s.frames.at? p = .ok f) (hname : g.name = f.name)
    (hprevious : g.previous = f.previous) (hnext : g.next = f.next) :
    Step s { s with frames.table := s.frames.table.put p g }
  | beside (s s' : Stage) (htable : s'.frames.table = s.frames.table)
    (hcurrent : s'.frames.current = s.frames.current) : Step s s'

inductive Stage.Reachable : Stage → Prop
  | initial (modules : Modules) : Reachable { modules := modules }
  | step {s s' : Stage} (hs : Reachable s) (h : s.Step s') : Reachable s'

section Reachable

variable {α β : Type}

theorem Ends.run {Q : Stage → Prop} {q : Pass α} (h : Ends (fun _ => Q) Q (q s)) :
    Q (run q s).2 := by
  unfold RtlFlow.run EStateM.run
  cases hq : q s with
  | ok a s' => rwa [hq] at h
  | error e s' => rwa [hq] at h

theorem Keeps.raised {q : Pass α} (h : Keeps rooted .any q) (hs : s.Rooted) :
    s.Raised (run q s).2 ∧ s.Counted (run q s).2 :=
  Ends.run (Q := fun s' => s.Raised s' ∧ s.Counted s')
    ((h.ends hs trivial).mono (fun _ _ h => h.1.1) fun _ h => h)

theorem Enters.raised {enter : Pass Path} {k : Path → Pass β} [Enters rooted .any enter]
    [∀ q, Keeps rooted .any (k q)] (hs : s.Rooted) :
    s.Raised (run (enter >>= k) s).2 ∧ s.Counted (run (enter >>= k) s).2 := by
  refine Ends.run (Q := fun s' => s.Raised s' ∧ s.Counted s')
    (Ends.bind (Enters.ends (R := rooted) (m := .any) hs trivial) fun _ s₁ _ h => ?_)
  obtain ⟨-, ⟨l, hl⟩, -⟩ := h
  exact (Keeps.ends (R := rooted) (m := .any) hl.sound trivial).mono
    (fun _ _ h => rooted.fails hl.kept h.1.1) fun _ h => rooted.fails hl.kept h

theorem Connect.prepare_raised {top : String} (hs : s.Rooted) :
    s.Raised (RtlFlow.run (Connect.prepare top) s).2 ∧
      s.Counted (RtlFlow.run (Connect.prepare top) s).2 := by
  have hcalm := (Connect.visit_rooted nestingBound).1
  have : Keeps rooted .any copyAll :=
    copyAll_keeps fun _ _ _ _ => Rooted.modify fun _ => ⟨rfl, rfl, le_rfl, id⟩
  have htop : s.Raised (s.at {}) := hs.beside rfl concrete_empty
  exact And.imp_left htop.trans (Enters.raised htop.rooted)

theorem Stage.Step.raised (h : s.Step s') (hs : s.Rooted) : s.Raised s' := by
  cases h with
  | declare n t => exact ((Declare.visit_rooted n t).raised hs).1
  | connect n t => exact (((Connect.visit_rooted n).2 t).raised hs).1
  | prepareFirst => exact (Enters.raised hs).1
  | prepareSecond => exact (Connect.prepare_raised hs).1
  | add l f hl hf =>
    refine Ends.run ?_
    change Ends _ _ ((lift (s.frames.add [l] f) >>= fun fs => set { s with frames := fs }) s)
    cases hadd : s.frames.add [l] f with
    | error e => exact hs.beside rfl hs.current
    | ok fs => exact hs.add hl hf hadd
  | goTo p hp => exact hs.beside rfl ⟨hp⟩
  | put p f g hf hname hprevious hnext => exact hs.put hf ⟨hname, hprevious, .inl hnext⟩
  | beside _ htable hcurrent => exact hs.beside htable (hcurrent ▸ hs.current)

theorem Stage.Reachable.rooted (h : s.Reachable) : s.Rooted := by
  induction h with
  | initial modules =>
    exact ⟨forall_mem_nil _, concrete_empty⟩
  | step _ hstep ih => exact (hstep.raised ih).rooted

/-- In every stage that the passes come by, the frames form a tree. A visit that ends leads back to
the scope where it began. No step removes a frame or renames it, and a frame that is there already
is not made again. -/
theorem visits_balanced (hs : s.Reachable) :
    IsTree s.frames.table ∧
    (∀ n t s', Declare.visit n t s = .ok () s' → s'.frames.current = s.frames.current) ∧
    (∀ n t s', (Connect.engine n).visit t s = .ok () s' →
      s'.frames.current = s.frames.current) ∧
    (∀ s', s.Step s' → Grows s.frames.table s'.frames.table) ∧
    ∀ labels f, s.frames.table.contains ⟨s.frames.current.labels ++ labels⟩ = true →
      changeFrames (·.add labels f) s = .error (.definition ("Already Exists: " ++
        Path.dotted ⟨s.frames.current.labels ++ labels⟩)) s := by
  have hrooted := hs.rooted
  refine ⟨hrooted.tree, fun n t s' h => ?_, fun n t s' h => ?_,
    fun s' h => (h.raised hrooted).grows, fun labels f h => ?_⟩
  · exact (((Declare.visit_rooted n t).ends hrooted trivial).of_ok h).1.2
  · exact ((((Connect.visit_rooted n).2 t).ends hrooted trivial).of_ok h).1.2
  · have hadd : s.frames.add labels f = .error (.definition ("Already Exists: " ++
        Path.dotted ⟨s.frames.current.labels ++ labels⟩)) := by
      rw [Frames.add]
      simp only [h]
      rfl
    change (lift (s.frames.add labels f) >>= fun fs => set { s with frames := fs }) s = _
    rw [hadd]
    rfl

/-- The stage after the visit of the module `TOP` by the first pass. -/
def branchingStage : Stage :=
  let prepared := (run (Declare.prepare "TOP" [] false) { modules := branching parameterP }).2
  (run (Declare.visit nestingBound ((prepared.bodyOf "TOP").getD .absent)) prepared).2

/-- There are frames for both modules, for the generate region and for two blocks in it. The region
gets no other frame. -/
theorem visits_balanced_branching : branchingStage.frames.table.keys.length = 5 ∧
    IsTree branchingStage.frames.table ∧
    ∀ f, changeFrames (·.add [⟨"md_generate0", .generate, .none⟩] f) branchingStage =
      .error (.definition "Already Exists: TOP.md_generate0") branchingStage := by
  have hreachable : branchingStage.Reachable :=
    .step (.step (.initial _) (.prepareFirst _ "TOP" [] false)) (.declare _ _ _)
  obtain ⟨htree, -, -, -, hagain⟩ := visits_balanced hreachable
  obtain ⟨hlength, hpath, hcontains⟩ : branchingStage.frames.table.keys.length = 5 ∧
      branchingStage.frames.current.labels = [⟨"TOP", .module, .none⟩] ∧
      branchingStage.frames.table.contains
        ⟨[⟨"TOP", .module, .none⟩, ⟨"md_generate0", .generate, .none⟩]⟩ = true := by
    decide +kernel
  refine ⟨hlength, htree, fun f => ?_⟩
  have hagain := hagain [⟨"md_generate0", .generate, .none⟩] f
  rw [hpath] at hagain
  exact hagain hcontains

end Reachable

end Design

end RtlFlow
