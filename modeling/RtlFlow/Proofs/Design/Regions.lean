import Mathlib
import RtlFlow.Design.Connect
import RtlFlow.Proofs.FlatNames
import RtlFlow.Proofs.Recursion
import RtlFlow.Proofs.Table

/-!
# Scopes and regions

The kinds of the labels of a path say in which regions the scope lies: in a module, a generate
region, an always block or a call. A frame has marks for these regions, and the keys of new labels
are made of the marks. In a sound stage the marks of every frame are those of its path, so the key
of a label depends on the path of the current frame only.
-/

namespace RtlFlow

open List

namespace Design

variable {p q : Path}

/-! ## Regions -/

def Marks.isCall (m : Marks) : Bool := m.isFunctionCall || m.isTaskCall

def marksOf (p : Path) : Marks := p.labels.foldl (fun m l => m.enter l.kind) {}

@[simp] theorem marksOf_push (p : Path) (l : Label) :
    marksOf (p.push l) = (marksOf p).enter l.kind := by
  simp [marksOf, Path.push]

class Concrete (p : Path) : Prop where
  kind_ne : ∀ l ∈ p.labels, l.kind ≠ .any

instance concrete_empty : Concrete {} := ⟨nofun⟩

theorem Concrete.push {l : Label} (hp : Concrete p) (hl : l.kind ≠ .any) : Concrete (p.push l) := by
  refine ⟨fun m hm => ?_⟩
  rcases mem_append.mp hm with hm | hm
  · exact hp.kind_ne m hm
  · obtain rfl := mem_singleton.mp hm
    exact hl

theorem Concrete.of_subset (hp : Concrete p) (h : q.labels ⊆ p.labels) : Concrete q :=
  ⟨fun l hl => hp.kind_ne l (h hl)⟩

instance Concrete.parent [hp : Concrete p] : Concrete p.parent :=
  hp.of_subset (dropLast_subset _)

instance Concrete.beforeIf [hp : Concrete p] : Concrete p.beforeIf := by
  refine hp.of_subset fun l hl => ?_
  have hl := mem_of_mem_drop (mem_reverse.mp hl)
  exact mem_reverse.mp ((dropWhile_suffix _).subset hl)

instance {label : String} {loop : Scalar} [hp : Concrete p] : Concrete (p.push ⟨label, .if, loop⟩) :=
  hp.push nofun

@[simp] theorem isAside_push (p : Path) (l : Label) :
    isAside (p.push l) = (isAside p || isAside ⟨[l]⟩) := by
  simp [isAside, Path.push]

theorem Label.kind_eq_of_same {a b : Label} (h : a == b) (ha : a.kind ≠ .any) (hb : b.kind ≠ .any) :
    a.kind = b.kind := by
  change Label.same a b = true at h
  rw [Label.same] at h
  simp only [ha, hb] at h
  simp at h
  exact h.1.2

theorem marksOf_eq_of_same (h : p == q) (hp : Concrete p) (hq : Concrete q) :
    marksOf p = marksOf q := by
  have hkinds := Path.map_labels_eq_of_same (f := Label.kind) h fun l hl m hm hlm =>
    Label.kind_eq_of_same hlm (hp.kind_ne l hl) (hq.kind_ne m hm)
  have hfold (r : Path) : marksOf r = (r.labels.map Label.kind).foldl Marks.enter {} :=
    (foldl_map ..).symm
  rw [hfold, hfold, hkinds]

/-! ## Keys of labels -/

/-- The keys of the labels that both passes make outside functions, tasks and while loops. -/
def sharedKeys : List String :=
  ["md_always", "md_generate", "ge_always", "ge_generate", "ge_if", "ge_for", "ge_block", "al_if",
   "al_for", "al_block", "ge_al_if", "ge_al_for", "ge_al_block"]

namespace Marks

variable {word : String} {m : Marks}

theorem key_not_shared (m : Marks) (hword : word ∈ ["while", "functioncall", "taskcall"]) :
    m.key word ∉ sharedKeys := by
  have hall : ∀ a b c d e f : Bool, ∀ word ∈ ["while", "functioncall", "taskcall"],
      (Marks.mk a b c d e f).key word ∉ sharedKeys := by decide
  exact hall _ _ _ _ _ _ word hword

theorem key_not_shared_of_isCall (hm : m.isCall = true) (hword : word ∈ ["if", "for", "block"]) :
    m.key word ∉ sharedKeys := by
  have hall : ∀ a b c d e f : Bool, (b || c) = true → ∀ word ∈ ["if", "for", "block"],
      (Marks.mk a b c d e f).key word ∉ sharedKeys := by decide
  exact hall _ _ _ _ _ _ hm word hword

theorem key_not_shared_of_plain (hm : m = { isModule := true } ∨ m = {})
    (hword : word ∈ ["if", "for", "block"]) : m.key word ∉ sharedKeys := by
  rcases hm with rfl | rfl
  · revert word
    decide
  · revert word
    decide

end Marks

/-! ## Bodies of functions -/

/-- Whether both passes only go through the children of a node of this kind. -/
def isBland : Ast.Kind → Bool
  | .moduleDef | .input | .output | .inout | .reg | .wire | .supply | .regArray | .wireArray
  | .tri | .integer | .parameter | .localparam | .genvar | .function | .task | .initial
  | .whileStatement | .assign | .blockingSubstitution | .nonblockingSubstitution | .instanceList
  | .inst | .always | .ifStatement | .caseStatement | .casexStatement | .casezStatement
  | .caseItem | .forStatement | .generateStatement | .block | .systemCall => false
  | _ => true

/-- Whether the first pass only goes through the children of a node of this kind, and the second at
most warns. -/
def isMute : Ast.Kind → Bool
  | .systemCall => true
  | k => isBland k

/-- Whether a node of this kind opens no scope but that of a while loop. -/
def isFlat : Ast.Kind → Bool
  | .assign | .blockingSubstitution | .nonblockingSubstitution | .systemCall
  | .whileStatement => true
  | k => isBland k

/-- Whether a node of this kind may stand in a function or a task. -/
def isPlain : Ast.Kind → Bool
  | .input | .output | .inout | .reg | .wire | .regArray | .wireArray | .tri | .integer
  | .initial | .ifStatement | .caseStatement | .casexStatement | .casezStatement | .caseItem
  | .forStatement | .block => true
  | k => isFlat k

def allKinds (test : Ast.Kind → Bool) (t : Ast) : Bool := t.everywhere fun k _ => test k

def PlainFunction (t : Ast) : Prop :=
  ∃ place parts, t = .node .function place parts ∧ ∀ u ∈ parts, allKinds isPlain u = true

section AllKinds

variable {test : Ast.Kind → Bool} {k : Ast.Kind} {place : Ast.Place} {parts : List Ast}

theorem allKinds_node : allKinds test (.node k place parts) = true ↔
    test k = true ∧ ∀ t ∈ parts, allKinds test t = true := by
  simp [allKinds, Ast.everywhere]

theorem allKinds_members {t : Ast} {us : List Ast} (ht : allKinds test t = true)
    (h : t.members = .ok us) : ∀ u ∈ us, allKinds test u = true := by
  intro u hu
  cases t with
  | seq items =>
    cases h
    rw [allKinds, Ast.everywhere] at ht
    exact Ast.everywhereAll_iff.mp ht u hu
  | atom a =>
    cases a with
    | text s =>
      cases h
      obtain ⟨c, -, rfl⟩ := mem_map.mp hu
      rfl
    | _ => cases h
  | path p =>
    cases h
    cases hu
  | node => cases h

end AllKinds

/-! ## Sound stages -/

/-- A frame fits its path: the marks are those of the path, its functions are plain, and if it lies
in no region, as in the body of a function, no constants are declared in it. -/
structure Frame.Fits (p : Path) (f : Frame) : Prop where
  concrete : Concrete p
  name : f.name = p
  marks : f.toMarks = marksOf p
  functions : ∀ d ∈ f.functions.table.entries, PlainFunction d.2.body
  consts : f.toMarks = {} → f.vars.consts.entries = []

theorem Frame.Fits.of_eq {f g : Frame} (h : f.Fits p) (hname : g.name = f.name)
    (hmarks : g.toMarks = f.toMarks) (hfunctions : g.functions = f.functions)
    (hconsts : g.vars.consts = f.vars.consts) : g.Fits p where
  concrete := h.concrete
  name := hname.trans h.name
  marks := hmarks.trans h.marks
  functions := hfunctions ▸ h.functions
  consts := by rw [hmarks, hconsts]; exact h.consts

/-- All frames fit their paths. -/
structure Frames.Sound (fs : Frames) : Prop where
  current : Concrete fs.current
  fits : ∀ e ∈ fs.table.entries, e.2.Fits e.1

/-- What most steps keep of the frames: the current one, and that no function is being declared. -/
structure Frames.Kept (fs fs' : Frames) : Prop where
  sound : fs'.Sound
  current : fs'.current = fs.current
  inFunction : fs.inFunction = false → fs'.inFunction = false
  inTask : fs'.inTask = fs.inTask
  keys : fs.table.keys ⊆ fs'.table.keys

namespace Frames

variable {fs fs' : Frames} {p : Path} {f : Frame}

theorem Kept.refl (h : fs.Sound) : fs.Kept fs := ⟨h, rfl, id, rfl, List.Subset.refl _⟩

theorem Kept.of_table (h : fs.Sound) (htable : fs'.table = fs.table)
    (hcurrent : fs'.current = fs.current) (hfunction : fs'.inFunction = fs.inFunction)
    (htask : fs'.inTask = fs.inTask) : fs.Kept fs' where
  sound := ⟨hcurrent ▸ h.current, htable ▸ h.fits⟩
  current := hcurrent
  inFunction hf := hfunction.trans hf
  inTask := htask
  keys := htable ▸ List.Subset.refl _

theorem get?_of_at? (h : fs.at? p = .ok f) : fs.table.get? p = some f := orThrow_eq_ok.mp h

theorem exists_mem_of_at? (h : fs.at? p = .ok f) : ∃ k, (k, f) ∈ fs.table.entries ∧ k == p := by
  obtain ⟨e, he, hk, rfl⟩ := Table.get?_eq_some (get?_of_at? h)
  exact ⟨e.1, he, hk⟩

theorem Sound.name_at? (hfs : fs.Sound) (h : fs.at? p = .ok f) : Concrete f.name := by
  obtain ⟨k, hk, -⟩ := exists_mem_of_at? h
  have hfits := hfs.fits _ hk
  rw [hfits.name]
  exact hfits.concrete

theorem Sound.marks_at? (hfs : fs.Sound) (hp : Concrete p) (h : fs.at? p = .ok f) :
    f.toMarks = marksOf p := by
  obtain ⟨k, hk, hsame⟩ := exists_mem_of_at? h
  have hfits := hfs.fits _ hk
  exact hfits.marks.trans (marksOf_eq_of_same hsame hfits.concrete hp)

theorem Sound.consts_at? (hfs : fs.Sound) (hp : Concrete p) (hplain : marksOf p = {})
    (h : fs.at? p = .ok f) : f.vars.consts.entries = [] := by
  obtain ⟨k, hk, -⟩ := exists_mem_of_at? h
  exact (hfs.fits _ hk).consts ((hfs.marks_at? hp h).trans hplain)

theorem Sound.put (hfs : fs.Sound) {g : Frame} (h : fs.at? p = .ok f)
    (hg : ∀ k, f.Fits k → g.Fits k) : fs.Kept { fs with table := fs.table.put p g } where
  sound := by
    refine ⟨hfs.current, fun e he => ?_⟩
    have hget := get?_of_at? h
    rcases Table.mem_put he with he | ⟨w, hw, hsome, hv⟩ | ⟨hnone, -⟩
    · exact hfs.fits e he
    · cases hget.symm.trans hsome
      rw [hv]
      exact hg _ (hfs.fits _ hw)
    · rw [hget] at hnone
      cases hnone
  current := rfl
  inFunction := id
  inTask := rfl
  keys := Table.keys_subset_put

theorem exists_of_add {l : Label} (h : fs.add [l] f = .ok fs') :
    ∃ table : Table Path Frame, table.keys = fs.table.keys ∧
      table.get? (fs.current.push l) = none ∧
      (fs.current = {} ∧ table = fs.table ∨ ∃ g, fs.at? fs.current = .ok g ∧
        table = fs.table.put fs.current { g with next := g.next ++ [fs.current.push l] }) ∧
      fs' = { fs with
        table := table.put (fs.current.push l)
          { f with name := fs.current.push l, previous := fs.current }
        current := fs.current.push l } := by
  rw [Frames.add] at h
  by_cases hold : fs.table.contains ⟨fs.current.labels ++ [l]⟩ = true
  · rw [hold] at h
    cases h
  have hnone : ∀ table : Table Path Frame, table.keys = fs.table.keys →
      table.get? (fs.current.push l) = none := by
    intro table hkeys
    rw [Table.get?_eq_none_iff, hkeys, ← Table.get?_eq_none_iff]
    simpa [Table.contains, Path.push] using hold
  simp only [hold] at h
  by_cases hempty : fs.current.labels.isEmpty
  · simp only [hempty] at h
    cases h
    refine ⟨fs.table, rfl, hnone _ rfl, .inl ⟨?_, rfl⟩, rfl⟩
    exact congrArg Path.mk (isEmpty_iff.mp hempty)
  · simp only [hempty] at h
    obtain ⟨fs₁, hfs₁, h⟩ := bind_eq_ok.mp h
    cases h
    obtain ⟨g, hg, hfs₁⟩ := bind_eq_ok.mp hfs₁
    cases hfs₁
    have hkeys : ∀ g', (fs.table.put fs.current g').keys = fs.table.keys := fun _ =>
      Table.keys_put_of_get?_eq_some (get?_of_at? hg)
    exact ⟨_, hkeys _, hnone _ (hkeys _), .inr ⟨g, hg, rfl⟩, rfl⟩

theorem add_facts {l : Label} (h : fs.add [l] f = .ok fs') :
    fs'.current = fs.current.push l ∧ fs'.inFunction = fs.inFunction ∧ fs'.inTask = fs.inTask ∧
      fs.current.push l ∈ fs'.table.keys := by
  obtain ⟨table, -, hnone, -, rfl⟩ := exists_of_add h
  exact ⟨rfl, rfl, rfl, Table.mem_keys_put hnone⟩

theorem Sound.add (hfs : fs.Sound) {l : Label} (hl : l.kind ≠ .any)
    (hmarks : f.toMarks = (marksOf fs.current).enter l.kind)
    (hfunctions : f.functions.table.entries = []) (hconsts : f.vars.consts.entries = [])
    (h : fs.add [l] f = .ok fs') : fs.Kept (fs'.goTo fs.current) := by
  obtain ⟨table, hkeys, hnone, htable, rfl⟩ := exists_of_add h
  have hfits : ∀ e ∈ table.entries, e.2.Fits e.1 := by
    rcases htable with ⟨-, rfl⟩ | ⟨g, hg, rfl⟩
    · exact hfs.fits
    · exact (hfs.put hg fun k hk => hk.of_eq
        (g := { g with next := g.next ++ [fs.current.push l] }) rfl rfl rfl rfl).sound.fits
  refine ⟨⟨hfs.current, fun e he => ?_⟩, rfl, id, rfl, ?_⟩
  · rcases Table.mem_put he with he | ⟨w, -, hsome, -⟩ | ⟨-, rfl⟩
    · exact hfits e he
    · rw [hnone] at hsome
      cases hsome
    · exact ⟨hfs.current.push hl, rfl, hmarks.trans (marksOf_push ..).symm,
        fun d hd => absurd hd (by simp [hfunctions]), fun _ => hconsts⟩
  · rw [← hkeys]
    exact Table.keys_subset_put

end Frames

end Design

end RtlFlow
