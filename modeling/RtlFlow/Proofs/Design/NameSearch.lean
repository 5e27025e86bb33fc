import Mathlib
import RtlFlow.Design.Frames
import RtlFlow.Proofs.Computation

/-!
# The search for names

A name with a scope is searched for from a frame downwards. The labels that show have to agree with
it one by one, and the others are passed over.
-/

namespace RtlFlow.Design

open List

variable {fs : Frames} {t : Table Path Frame} {p : Path} {l x : Label}

/-- A tree of frames. Each frame is found under its key, it lists the frames directly below it, and
it stands at the top or directly below another one. -/
structure Nested (t : Table Path Frame) : Prop where
  found : ∀ e ∈ t.entries, t.entries.find? (fun d => d.1 == e.1) = some e
  next : ∀ e ∈ t.entries, ∀ q, q ∈ e.2.next ↔ q ∈ t.keys ∧ ∃ l, q = e.1.push l
  around : ∀ e ∈ t.entries,
    (∃ l, e.1 = e.2.previous.push l) ∧ (e.2.previous = {} ∨ e.2.previous ∈ t.keys)

namespace Nested

theorem exists_frame (ht : Nested t) (hp : p ∈ t.keys) :
    ∃ f, (p, f) ∈ t.entries ∧ t.get? p = some f := by
  obtain ⟨⟨_, f⟩, he, rfl⟩ := mem_map.mp hp
  exact ⟨f, he, by rw [Table.get?, ht.found _ he]; rfl⟩

theorem beq_self (ht : Nested t) (hp : p.push l ∈ t.keys) :
    (p.labels == p.labels) = true ∧ (l == l) = true := by
  obtain ⟨e, he, hpush⟩ := mem_map.mp hp
  have hmatch := List.find?_some (ht.found e he)
  rw [hpush] at hmatch
  change (p.labels ++ [l] == p.labels ++ [l]) = true at hmatch
  rwa [concat_beq_concat, Bool.and_eq_true] at hmatch

theorem exists_push (ht : Nested t) (hp : p ∈ t.keys) :
    ∃ q l, p = q.push l ∧ (q = {} ∨ q ∈ t.keys) := by
  obtain ⟨e, he, rfl⟩ := mem_map.mp hp
  obtain ⟨⟨l, hl⟩, haround⟩ := ht.around e he
  exact ⟨_, l, hl, haround⟩

theorem mem_of_append (ht : Nested t) {ls ms : List Label} (hls : ls ≠ [])
    (h : ⟨ls ++ ms⟩ ∈ t.keys) : ⟨ls⟩ ∈ t.keys := by
  induction ms using List.reverseRecOn with
  | nil => rwa [append_nil] at h
  | append_singleton ms m ih =>
    obtain ⟨q, l, hpush, hq⟩ := ht.exists_push h
    have heq : q = ⟨ls ++ ms⟩ := by
      rw [Path.push, Path.mk.injEq, ← append_assoc] at hpush
      exact congrArg Path.mk (append_inj_left' hpush rfl).symm
    subst heq
    refine ih (hq.resolve_left fun hempty => hls ?_)
    exact (append_eq_nil_iff.mp (congrArg Path.labels hempty)).1

theorem length_le (ht : Nested t) (hp : p ∈ t.keys) : p.length ≤ t.size := by
  let around (i : Nat) : Path := ⟨p.labels.take (i + 1)⟩
  have hnodup : ((List.range p.length).map around).Nodup := by
    refine nodup_range.map_on fun i hi j hj h => ?_
    have hlength : (around i).labels.length = (around j).labels.length := by rw [h]
    simp only [around, length_take, mem_range, Path.length] at hlength hi hj
    omega
  have hsub : (List.range p.length).map around ⊆ t.keys := by
    intro q hq
    obtain ⟨i, hi, rfl⟩ := mem_map.mp hq
    have hsplit : ⟨p.labels.take (i + 1) ++ p.labels.drop (i + 1)⟩ ∈ t.keys := by
      rwa [take_append_drop]
    refine ht.mem_of_append (fun hempty => ?_) hsplit
    rw [mem_range, Path.length] at hi
    have hlength := congrArg List.length hempty
    rw [length_take, length_nil] at hlength
    omega
  simpa [Table.size, Table.keys] using (hnodup.subperm hsub).length_le

end Nested

theorem beq_append_left {ks ls ms : List Label} (hks : (ks == ks) = true) (h : (ls == ms) = true) :
    (ks ++ ls == ks ++ ms) = true := by
  induction ks with
  | nil => exact h
  | cons k ks ih =>
    rw [cons_beq_cons, Bool.and_eq_true] at hks
    rw [cons_append, cons_append, cons_beq_cons, hks.1, ih hks.2, Bool.and_self]

/-- The labels that show agree one by one with a hierarchical name, and the last label shows. -/
structure Named (ls target : List Label) : Prop where
  agree : List.Forall₂ (fun l x => (l == x) = true) (ls.filter (·.kind.isPrintable)) target
  last : ∃ l, ls.getLast? = some l ∧ l.kind.isPrintable = true

theorem named_hidden {ls target : List Label} (hl : l.kind.isPrintable = false) :
    Named (l :: ls) target ↔ Named ls target := by
  constructor
  · rintro ⟨hagree, m, hm, hshows⟩
    rw [filter_cons_of_neg (by simp [hl])] at hagree
    cases ls with
    | nil =>
      obtain rfl : l = m := by simpa using hm
      rw [hl] at hshows
      cases hshows
    | cons => exact ⟨hagree, m, hm, hshows⟩
  · rintro ⟨hagree, m, hm, hshows⟩
    refine ⟨by rwa [filter_cons_of_neg (by simp [hl])], m, ?_, hshows⟩
    rw [List.getLast?_cons, hm, Option.getD_some]

theorem named_shown {ls target : List Label} (hl : l.kind.isPrintable = true) :
    Named (l :: ls) (x :: target) ↔
      (l == x) = true ∧ (ls = [] ∧ target = [] ∨ Named ls target) := by
  constructor
  · rintro ⟨hagree, m, hm, hshows⟩
    rw [filter_cons_of_pos (by simp [hl])] at hagree
    obtain ⟨hx, hrest⟩ := List.forall₂_cons.mp hagree
    cases ls with
    | nil => exact ⟨hx, .inl ⟨rfl, List.forall₂_nil_left_iff.mp hrest⟩⟩
    | cons => exact ⟨hx, .inr ⟨hrest, m, hm, hshows⟩⟩
  · rintro ⟨hx, ⟨rfl, rfl⟩ | ⟨hagree, m, hm, hshows⟩⟩
    · exact ⟨by simp [hl, hx], l, rfl, hl⟩
    · refine ⟨?_, m, ?_, hshows⟩
      · rw [filter_cons_of_pos (by simp [hl])]
        exact .cons hx hagree
      · rw [List.getLast?_cons, hm, Option.getD_some]

/-- The answer to the search for a name from a frame downwards: the labels of a frame that has the
name, or none if no frame has it. -/
structure Answers (t : Table Path Frame) (p : Path) (l : Label) (target : List Label)
    (found : Option Path) : Prop where
  sound : ∀ m, found = some m → ∃ ls, ⟨p.labels ++ l :: ls⟩ ∈ t.keys ∧ Named (l :: ls) target ∧
    (l :: ls == m.labels) = true
  complete : found = none → ∀ ls, ⟨p.labels ++ l :: ls⟩ ∈ t.keys → ¬ Named (l :: ls) target

theorem exists_firstMatch {search : Path → Result (Option Path)}
    {S : Path → Option Path → Prop} {ps : List Path}
    (h : ∀ q ∈ ps, ∃ found, search q = .ok found ∧ S q found) :
    ∃ found, Frames.firstMatch search ps = .ok found ∧
      (∀ m, found = some m → ∃ q ∈ ps, S q (some m)) ∧ (found = none → ∀ q ∈ ps, S q none) := by
  induction ps with
  | nil => exact ⟨none, rfl, by simp, by simp⟩
  | cons q ps ih =>
    obtain ⟨found, hfound, hS⟩ := h q mem_cons_self
    rw [Frames.firstMatch, hfound]
    cases found with
    | some m => exact ⟨some m, rfl, fun _ h => ⟨q, mem_cons_self, h ▸ hS⟩, by simp⟩
    | none =>
      obtain ⟨found, hfound, hsome, hnone⟩ := ih fun q hq => h q (mem_cons_of_mem _ hq)
      refine ⟨found, hfound, fun m hm => ?_, fun hm => forall_mem_cons.mpr ⟨hS, hnone hm⟩⟩
      obtain ⟨r, hr, hrS⟩ := hsome m hm
      exact ⟨r, mem_cons_of_mem _ hr, hrS⟩

/-- A search below a frame, from the searches in the frames that it lists: `target` is what is left
of the name `whole` there. -/
theorem exists_onwards (ht : Nested fs.table) (search : Path → Result (Option Path))
    {whole target : List Label} (hwhole : ∀ ls, Named (l :: ls) whole ↔ Named ls target)
    (hp : p.push l ∈ fs.table.keys) (h : ∀ m, (p.push l).push m ∈ fs.table.keys →
      ∃ found, search ((p.push l).push m) = .ok found ∧ Answers fs.table (p.push l) m target found) :
    ∃ f found, fs.at? (p.push l) = .ok f ∧ Frames.firstMatch search f.next = .ok found ∧
      Answers fs.table p l whole (found.map fun q => ⟨l :: q.labels⟩) := by
  obtain ⟨f, he, hf⟩ := ht.exists_frame hp
  have hnext : ∀ r ∈ f.next, ∃ found, search r = .ok found ∧
      ∃ m, r = (p.push l).push m ∧ Answers fs.table (p.push l) m target found := by
    intro r hr
    obtain ⟨hr, m, rfl⟩ := (ht.next _ he r).mp hr
    obtain ⟨found, hfound, hanswers⟩ := h m hr
    exact ⟨found, hfound, m, rfl, hanswers⟩
  obtain ⟨found, hfound, hsome, hnone⟩ := exists_firstMatch hnext
  have hlabels : ∀ ls, (p.push l).labels ++ ls = p.labels ++ l :: ls := by simp [Path.push]
  refine ⟨f, found, by rw [Frames.at?, hf]; rfl, hfound, fun r hr => ?_, fun hr ls hls hnamed => ?_⟩
  · obtain ⟨q, hq, rfl⟩ := Option.map_eq_some_iff.mp hr
    obtain ⟨_, -, m, -, hanswers⟩ := hsome q hq
    obtain ⟨ls, hls, hnamed, hsame⟩ := hanswers.sound q rfl
    refine ⟨m :: ls, hlabels _ ▸ hls, (hwhole _).mpr hnamed, ?_⟩
    rw [cons_beq_cons, (ht.beq_self hp).2, hsame, Bool.and_self]
  · obtain ⟨m, hm, -⟩ := ((hwhole ls).mp hnamed).last
    cases ls with
    | nil => cases hm
    | cons m ls =>
      have hsplit : ⟨p.labels ++ [l] ++ [m] ++ ls⟩ ∈ fs.table.keys := by simpa using hls
      have hm : (p.push l).push m ∈ fs.table.keys := ht.mem_of_append (by simp) hsplit
      obtain ⟨m', hm', hanswers⟩ := hnone (Option.map_eq_none_iff.mp hr) _
        ((ht.next _ he _).mpr ⟨hm, m, rfl⟩)
      obtain rfl : m = m' := by simpa [Path.push] using hm'
      exact hanswers.complete rfl ls (hlabels _ ▸ hls) ((hwhole _).mp hnamed)

theorem exists_matchedBounded (ht : Nested fs.table) {target : List Label} (htarget : target ≠ [])
    (hfor : ∀ x ∈ target, x.kind ≠ .for) {n : Nat} (hp : p.push l ∈ fs.table.keys)
    (hn : fs.table.size < n + p.length + 1) :
    ∃ found, fs.matchedBounded n (p.push l) target = .ok found ∧
      Answers fs.table p l target found := by
  induction n generalizing p l target with
  | zero =>
    have hlength := ht.length_le hp
    simp only [Path.push, Path.length, length_append, length_singleton] at hn hlength
    omega
  | succ n ih =>
    obtain ⟨x, xs, rfl⟩ := exists_cons_of_ne_nil htarget
    have hlast : (p.push l).labels.getLast? = some l := by simp [Path.push]
    have hbelow : ∀ target : List Label, target ≠ [] → (∀ x ∈ target, x.kind ≠ .for) →
        ∀ m, (p.push l).push m ∈ fs.table.keys → _ := fun target htarget hfor m hm =>
      ih htarget hfor hm (by simp [Path.push, Path.length] at hn ⊢; omega)
    rw [Frames.matchedBounded, hlast]
    cases hl : l.kind.isPrintable with
    | true =>
      by_cases hx : (l == x) = true
      · cases xs with
        | nil =>
          refine ⟨some ⟨[x]⟩, by simp [hx, hl], fun m hm => ?_, by simp⟩
          obtain rfl := Option.some.inj hm
          exact ⟨[], hp, (named_shown hl).mpr ⟨hx, .inl ⟨rfl, rfl⟩⟩, by simp [hx]⟩
        | cons y ys =>
          have hwhole : ∀ ls, Named (l :: ls) (x :: y :: ys) ↔ Named ls (y :: ys) := fun ls => by
            simp [named_shown hl, hx]
          obtain ⟨f, found, hf, hfound, hanswers⟩ :=
            exists_onwards ht (fun q => fs.matchedBounded n q (y :: ys)) hwhole hp
              (hbelow _ (by simp) fun z hz => hfor z (mem_cons_of_mem _ hz))
          exact ⟨_, by simp [hl, hx, hf, hfound], hanswers⟩
      · refine ⟨none, ?_, by simp, fun _ ls _ hnamed => hx ((named_shown hl).mp hnamed).1⟩
        cases xs <;> simp [hl, hx]
    | false =>
      obtain ⟨f, found, hf, hfound, hanswers⟩ :=
        exists_onwards ht (fun q => fs.matchedBounded n q (x :: xs)) (fun ls => named_hidden hl) hp
          (hbelow _ htarget hfor)
      exact ⟨_, by simp [hl, hfor x mem_cons_self, hf, hfound], hanswers⟩

/-- The search for a hierarchical name from a frame downwards. A chain of labels is found exactly if
some frame there has the name, and in the scope around the first frame it is the key of such a
frame. -/
theorem matched_iff (ht : Nested fs.table) (hp : p.push l ∈ fs.table.keys)
    {target : List Label} (htarget : target ≠ []) (hfor : ∀ x ∈ target, x.kind ≠ .for) :
    ∃ found, fs.matched (p.push l) target = .ok found ∧
      (found.isSome = true ↔
        ∃ ls, (⟨p.labels ++ l :: ls⟩ : Path) ∈ fs.table.keys ∧ Named (l :: ls) target) ∧
      ∀ m, found = some m → ∃ ls, (⟨p.labels ++ l :: ls⟩ : Path) ∈ fs.table.keys ∧
        Named (l :: ls) target ∧ ((⟨p.labels ++ l :: ls⟩ : Path) == p.append m) = true := by
  obtain ⟨found, hfound, hanswers⟩ := exists_matchedBounded ht htarget hfor hp (n := fs.table.size + 1)
    (by omega)
  refine ⟨found, hfound, ⟨fun h => ?_, ?_⟩, fun m hm => ?_⟩
  · obtain ⟨m, hm⟩ := Option.isSome_iff_exists.mp h
    obtain ⟨ls, hls, hnamed, -⟩ := hanswers.sound m hm
    exact ⟨ls, hls, hnamed⟩
  · rintro ⟨ls, hls, hnamed⟩
    rw [Option.isSome_iff_ne_none]
    exact fun hnone => hanswers.complete hnone ls hls hnamed
  · obtain ⟨ls, hls, hnamed, hsame⟩ := hanswers.sound m hm
    refine ⟨ls, hls, hnamed, ?_⟩
    exact beq_append_left (ht.beq_self hp).1 hsame

/-- A module with a constant `P`, and in it a block with a signal `P`. -/
def shadowing : Frames :=
  let top : Path := ⟨[⟨"TOP", .module, .none⟩]⟩
  let block : Path := top.push ⟨"B", .block, .none⟩
  { table := ⟨[
      (top, { next := [block], isModule := true, vars := { consts := ⟨[("P", [])]⟩ } }),
      (block, { previous := top, vars := { signals := ⟨[("P", [])]⟩ } })]⟩ }

theorem mem_shadowing : p ∈ shadowing.table.keys ↔ p = ⟨[⟨"TOP", .module, .none⟩]⟩ ∨
    p = ⟨[⟨"TOP", .module, .none⟩, ⟨"B", .block, .none⟩]⟩ := by
  simp [shadowing, Table.keys, Path.push]

theorem nested_shadowing : Nested shadowing.table where
  found e he := by fin_cases he <;> rfl
  next e he q := by
    rw [mem_shadowing]
    fin_cases he
    · constructor
      · intro hq
        obtain rfl := mem_singleton.mp hq
        exact ⟨.inr rfl, _, rfl⟩
      · rintro ⟨hq, l, rfl⟩
        simpa [Path.push] using hq
    · constructor
      · intro hq
        cases hq
      · rintro ⟨hq, l, rfl⟩
        simp [Path.push] at hq
  around e he := by
    rw [mem_shadowing]
    fin_cases he
    · exact ⟨⟨_, rfl⟩, .inl rfl⟩
    · exact ⟨⟨_, rfl⟩, .inr (.inl rfl)⟩

theorem matched_iff_shadowing :
    let top : Label := ⟨"TOP", .module, .none⟩
    let block : Label := { name := "B" }
    ∃ found, shadowing.matched ⟨[top]⟩ [top, block] = .ok found ∧
      (found.isSome = true ↔ ∃ ls, (⟨top :: ls⟩ : Path) ∈ shadowing.table.keys ∧
        Named (top :: ls) [top, block]) ∧
      ∀ m, found = some m → ∃ ls, (⟨top :: ls⟩ : Path) ∈ shadowing.table.keys ∧
        Named (top :: ls) [top, block] ∧ ((⟨top :: ls⟩ : Path) == m) = true :=
  matched_iff (p := {}) nested_shadowing (mem_shadowing.mpr (.inl rfl)) (by decide) (by decide)

end RtlFlow.Design
