import Mathlib
import RtlFlow.Proofs.Design.FrameTree

/-!
# Temporaries

A blocking assignment gives each of its destinations a temporary, whose name has a number and the
name of the destination in it. Two temporaries with one name have one number, so a number can be
found whose name no term has. Whatever the second pass does, it counts on, so no later assignment
gets the same temporary.
-/

namespace RtlFlow.Design

open List

open Relation Stage

variable {s s' : Stage} {p q name : Path} {terms : Terms} {d : Destination} {ds : List Destination}
  {i j n tries : Nat}

/-! ## Numbered names -/

theorem names_eq_of_same (h : p == q) : p.labels.map Label.name = q.labels.map Label.name := by
  refine Path.map_labels_eq_of_same h fun l _ m _ hsame => ?_
  change Label.same l m = true at hsame
  rw [Label.same] at hsame
  split at hsame <;> simp_all

/-- The number in the name of a temporary ends at the first underscore behind it. -/
theorem number_eq {x y : String}
    (h : "_rn" ++ Text.ofInt i ++ "_" ++ x = "_rn" ++ Text.ofInt j ++ "_" ++ y) : i = j := by
  have hdigits (k : Nat) (z : String) : ("_rn" ++ Text.ofInt k ++ "_" ++ z).toList =
      ['_', 'r', 'n'] ++ (Nat.toDigits 10 k ++ '_' :: z.toList) := by
    simp [Text.ofInt]
  have htake (k : Nat) (zs : List Char) :
      (Nat.toDigits 10 k ++ '_' :: zs).takeWhile (·.isDigit) = Nat.toDigits 10 k := by
    rw [takeWhile_append_of_pos fun c => Nat.isDigit_of_mem_toDigits (by decide) (by decide)]
    simp
  have hchars := congrArg String.toList h
  rw [hdigits, hdigits, append_cancel_left_eq] at hchars
  have hsame := congrArg (takeWhile (·.isDigit)) hchars
  rw [htake, htake] at hsame
  rw [← Nat.ofDigitChars_ten_toDigits (n := i), hsame, Nat.ofDigitChars_ten_toDigits]

theorem IsTemporary.number_eq (hp : IsTemporary i p) (hq : IsTemporary j q)
    (h : p.labels.map Label.name = q.labels.map Label.name) : i = j := by
  obtain ⟨p, x, rfl⟩ := hp.exists_push
  obtain ⟨q, y, rfl⟩ := hq.exists_push
  rw [Path.push, Path.push, map_append, map_append] at h
  exact Design.number_eq (singleton_inj.mp (append_inj' h rfl).2)

/-- Each term has the name of one temporary at most, so there are not more attempts than terms. -/
theorem exists_freshName (hname : name.labels ≠ []) {ks : Finset Path} (htries : ks.card < tries)
    (hks : ∀ m p, n ≤ m → temporaryName m name = .ok p → ∀ k ∈ terms.keys, k == p → k ∈ ks) :
    ∃ r, freshName terms name n tries = .ok r := by
  induction tries generalizing n ks with
  | zero => cases htries
  | succ tries ih =>
    obtain ⟨p, hp⟩ : ∃ p, temporaryName n name = .ok p := by
      rw [temporaryName, getLast?_eq_some_getLast hname]
      exact ⟨_, rfl⟩
    rw [freshName, hp, ok_bind]
    split
    · next hknown =>
      obtain ⟨u, hu⟩ := Option.isSome_iff_exists.mp hknown
      obtain ⟨e, he, hep, -⟩ := Table.get?_eq_some hu
      have hmem : e.1 ∈ ks := hks n p le_rfl hp e.1 (mem_map_of_mem he) hep
      refine @ih _ (ks.erase e.1) ?_ ?_
      · exact (Finset.card_erase_lt_of_mem hmem).trans_le (Nat.le_of_lt_succ htries)
      · intro m q hm hq k hk hkq
        refine Finset.mem_erase.mpr ⟨?_, hks m q (by omega) hq k hk hkq⟩
        rintro rfl
        have hnumber := IsTemporary.number_eq ⟨name, hp⟩ ⟨name, hq⟩
          ((names_eq_of_same hep).symm.trans (names_eq_of_same hkq))
        omega
    · exact ⟨_, rfl⟩

/-! ## Temporaries -/

/-- The copy of a term that is declared for a temporary. -/
def temporary (p : Path) (u : Term) : Path × Term := (p, { u with name := p, kinds := ["Rename"] })

/-- A stage with further terms, and with the number of the next temporary. -/
def Stage.withTerms (s : Stage) (n : Nat) (new : List (Path × Term)) : Stage :=
  { s with
    renames := n
    wiring.terms := ⟨s.wiring.terms.entries ++ new⟩ }

theorem get?_withTerms {new : List (Path × Term)} {u : Term}
    (h : s.wiring.terms.get? p = some u) : (s.withTerms n new).wiring.terms.get? p = some u := by
  obtain ⟨e, he, rfl⟩ := Option.map_eq_some_iff.mp h
  simp [Stage.withTerms, Table.get?, find?_append, he]

theorem not_contains_withTerms {new : List (Path × Term)}
    (h : (s.withTerms n new).wiring.terms.contains p = false) :
    s.wiring.terms.contains p = false ∧ ∀ e ∈ new, (e.1 == p) = false := by
  simpa [Stage.withTerms, Table.contains, Table.get?, or_imp, forall_and] using h

theorem exists_renamed {u : Term} (hd : d.name = some name) (hname : name.labels ≠ [])
    (hu : s.wiring.terms.get? name = some u) :
    ∃ m p, s.renames ≤ m ∧ temporaryName m name = .ok p ∧ s.wiring.terms.contains p = false ∧
      renamed d s = .ok { d with name := some p } (s.withTerms (m + 1) [temporary p u]) := by
  have hsize : s.wiring.terms.keys.toFinset.card < s.wiring.terms.size + 1 := by
    refine Nat.lt_succ_of_le ((toFinset_card_le _).trans ?_)
    simp [Table.keys, Table.size]
  obtain ⟨⟨p, n⟩, hfresh⟩ := @exists_freshName name s.wiring.terms s.renames _ hname _ hsize
    fun _ _ _ _ k hk _ => mem_toFinset.mpr hk
  obtain ⟨m, hm, hp, hnew, rfl⟩ := freshName_cases hfresh
  refine ⟨m, p, hm, hp, hnew, ?_⟩
  have hnone : s.wiring.terms.get? p = none := by simpa [Table.contains] using hnew
  have hadd : s.wiring.addTerm p (temporary p u).2 =
      (s.withTerms (m + 1) [temporary p u]).wiring := by
    rw [Wiring.addTerm, hnone]
    exact congrArg (fun es => { s.wiring with terms := ⟨es⟩ }) (Table.entries_put hnone)
  rw [renamed, hd]
  change (lift (freshName _ _ _ _) >>= _ : Pass Destination) s = _
  rw [hfresh]
  change (lift (s.wiring.termAt name) >>= _ : Pass Destination) _ = _
  rw [Wiring.termAt, hu]
  exact congrArg (fun w => EStateM.Result.ok _ { s with renames := m + 1, wiring := w }) hadd

/-- The entries `new` are what the renaming of destinations adds to the terms. Their numbers are
those from the next one of the stage up to `n`. -/
structure Temporaries (s : Stage) (ds : List Destination) (n : Nat) (new : List (Path × Term)) :
    Prop where
  run : ds.mapM renamed s =
    .ok (zipWith (fun d e => { d with name := some e.1 }) ds new) (s.withTerms n new)
  copies : Forall₂ (fun d e => ∃ name u, d.name = some name ∧
    s.wiring.terms.get? name = some u ∧ e = temporary e.1 u) ds new
  fresh : ∀ e ∈ new, s.wiring.terms.contains e.1 = false
  distinct : new.Pairwise fun e f => (e.1 == f.1) = false
  renames : s.renames ≤ n
  numbers : ∀ e ∈ new, ∃ m, s.renames ≤ m ∧ m < n ∧ IsTemporary m e.1

theorem exists_temporaries (hds : ∀ d ∈ ds, ∃ name u, d.name = some name ∧ name.labels ≠ [] ∧
    s.wiring.terms.get? name = some u) : ∃ n new, Temporaries s ds n new := by
  induction ds generalizing s with
  | nil =>
    exact ⟨s.renames, [], by rw [Stage.withTerms, append_nil]; rfl, .nil, forall_mem_nil _, .nil,
      le_rfl, forall_mem_nil _⟩
  | cons d ds ih =>
    obtain ⟨⟨name, u, hd, hname, hu⟩, hds⟩ := forall_mem_cons.mp hds
    obtain ⟨m, p, hm, hp, hnew, hrun⟩ := exists_renamed hd hname hu
    have hkept : ∀ d ∈ ds, ∃ name v, d.name = some name ∧ name.labels ≠ [] ∧
        (s.withTerms (m + 1) [temporary p u]).wiring.terms.get? name = some v := by
      intro d hd
      obtain ⟨name, v, hd, hname, hv⟩ := hds d hd
      exact ⟨name, v, hd, hname, get?_withTerms hv⟩
    obtain ⟨n, new, h⟩ := ih hkept
    have hrest : ∀ e ∈ new, s.wiring.terms.contains e.1 = false ∧ (p == e.1) = false := by
      intro e he
      obtain ⟨hold, hp⟩ := not_contains_withTerms (h.fresh e he)
      exact ⟨hold, hp _ mem_cons_self⟩
    refine ⟨n, temporary p u :: new, ?_, .cons ⟨name, u, hd, hu, rfl⟩ ?_, ?_, ?_, ?_, ?_⟩
    · rw [mapM_cons]
      change EStateM.bind _ _ _ = _
      rw [EStateM.bind, hrun]
      change EStateM.bind _ _ _ = _
      rw [EStateM.bind, h.run]
      simp only [Stage.withTerms, append_assoc]
      rfl
    · refine ((forall₂_and_left _ _).mpr ⟨hds, h.copies⟩).imp ?_
      rintro d e ⟨⟨name, u, hd, -, hu⟩, name', u', hd', hu', he⟩
      obtain rfl := Option.some.inj (hd.symm.trans hd')
      exact ⟨name, u', hd, hu.trans ((get?_withTerms hu).symm.trans hu'), he⟩
    · exact forall_mem_cons.mpr ⟨hnew, fun e he => (hrest e he).1⟩
    · exact .cons (fun e he => (hrest e he).2) h.distinct
    · exact (hm.trans (Nat.le_succ m)).trans h.renames
    · refine forall_mem_cons.mpr ⟨⟨m, hm, h.renames, name, hp⟩, fun e he => ?_⟩
      obtain ⟨k, hk, hkn, htemp⟩ := h.numbers e he
      exact ⟨k, (hm.trans (Nat.le_succ m)).trans hk, hkn, htemp⟩

/-! ## The second pass -/

/-- What the second pass does to a stage: it visits nodes, makes blocking assignments with their
temporaries and declares signals, with a result or without one. All else leaves the terms alone. -/
inductive Stage.Wires : Stage → Stage → Prop
  | visit (s : Stage) (n : Nat) (t : Ast) : Wires s (run ((Connect.engine n).visit t) s).2
  | prepare (s : Stage) (top : String) : Wires s (run (Connect.prepare top) s).2
  | assign (s : Stage) (n : Nat) (ds : List Destination) (right : Ast) (scope : Path)
    (always : Option Sensitivity) (hscope : ∀ l ∈ scope.labels, l.kind ≠ .any) :
    Wires s (run (connectBlocking (Connect.engine n) ds right scope always) s).2
  | rename (s : Stage) (ds : List Destination) : Wires s (run (ds.mapM renamed) s).2
  | add (s : Stage) (p : Path) (name : String) (t : Term) :
    Wires s { s with wiring := s.wiring.addTerm (signalAt p name) t }
  | other {s s' : Stage} (h : s.Step s') (hterms : s'.wiring.terms = s.wiring.terms)
    (hrenames : s'.renames = s.renames) : Wires s s'

theorem Stage.Wires.counted (h : s.Wires s') (hs : s.Rooted) : s.Raised s' ∧ s.Counted s' := by
  cases h with
  | visit n t => exact ((Connect.visit_rooted n).2 t).raised hs
  | prepare top => exact Connect.prepare_raised hs
  | assign n ds right scope always hscope =>
    have := (Connect.visit_rooted n).1
    have : Concrete scope := ⟨hscope⟩
    exact Keeps.raised inferInstance hs
  | rename ds => exact Keeps.raised inferInstance hs
  | add p name t => exact ⟨hs.beside rfl hs.current, counted_addTerm push_ne_nil⟩
  | other h hterms hrenames =>
    refine ⟨h.raised hs, hrenames.ge, fun hnamed => ?_⟩
    rw [Stage.Named, hterms]
    exact hnamed

theorem counted_of_wires (hs : s.Rooted) (h : ReflTransGen Stage.Wires s s') :
    s'.Rooted ∧ s.Counted s' := by
  induction h with
  | refl => exact ⟨hs, le_rfl, id⟩
  | tail _ hstep ih =>
    obtain ⟨hraised, hcounted⟩ := hstep.counted ih.1
    exact ⟨hraised.rooted, ih.2.trans hcounted⟩

/-- The names of destinations are terms. -/
def Stage.Declares (s : Stage) (ds : List Destination) : Prop :=
  ∀ d ∈ ds, ∃ name, d.name = some name ∧ s.wiring.terms.contains name = true

theorem Stage.Named.exists_temporaries (hs : s.Named) (hds : s.Declares ds) :
    ∃ n new, Temporaries s ds n new := by
  refine RtlFlow.Design.exists_temporaries fun d hd => ?_
  obtain ⟨name, hname, hknown⟩ := hds d hd
  obtain ⟨u, hu⟩ := Option.isSome_iff_exists.mp hknown
  obtain ⟨e, he, hsame, -⟩ := Table.get?_eq_some hu
  refine ⟨name, u, hname, fun hempty => hs e he ?_, hu⟩
  simpa [hempty] using names_eq_of_same hsame

/-- In every stage of the second pass the temporaries of destinations are found, new and all
different, and they are all that is added to the terms. No assignment after that, whatever happens
between, gets one of them again. -/
theorem temporaries_fresh {s₀ : Stage} (h₀ : s₀.Reachable) (hempty : s₀.wiring.terms = {})
    (hs : ReflTransGen Stage.Wires s₀ s) (hds : s.Declares ds) :
    ∃ n new, Temporaries s ds n new ∧
      (∀ p u, s.wiring.terms.get? p = some u →
        (s.withTerms n new).wiring.terms.get? p = some u) ∧
      ∀ s' ds', ReflTransGen Stage.Wires (s.withTerms n new) s' → s'.Declares ds' →
        ∃ n' new', Temporaries s' ds' n' new' ∧
          ∀ e ∈ new, ∀ f ∈ new', (e.1 == f.1) = false := by
  obtain ⟨hrooted, -, hnamed⟩ := counted_of_wires h₀.rooted hs
  have hs₀ : s₀.Named := by
    rw [Stage.Named, hempty]
    exact forall_mem_nil _
  obtain ⟨n, new, h⟩ := (hnamed hs₀).exists_temporaries hds
  refine ⟨n, new, h, fun _ _ => get?_withTerms, fun s' ds' hlater hds' => ?_⟩
  have hrename : s.Wires (s.withTerms n new) := by
    have hrun := Stage.Wires.rename s ds
    rwa [run, EStateM.run, h.run] at hrun
  obtain ⟨hraised, hcounted⟩ := hrename.counted hrooted
  obtain ⟨-, hle, hnamed'⟩ := counted_of_wires hraised.rooted hlater
  obtain ⟨n', new', h'⟩ := (hnamed' (hcounted.2 (hnamed hs₀))).exists_temporaries hds'
  refine ⟨n', new', h', fun e he f hf => ?_⟩
  -- The numbers of the first temporaries lie below `n`, and those of the second do not.
  obtain ⟨i, -, hi, htemp⟩ := h.numbers e he
  obtain ⟨j, hj, -, htemp'⟩ := h'.numbers f hf
  by_contra hsame
  have hnumber := htemp.number_eq htemp' (names_eq_of_same (by simpa using hsame))
  exact absurd (hi.trans_le (hle.trans hj)) (by omega)

/-- A signal is assigned twice at once, and another signal has the name of its first temporary. -/
theorem temporaries_fresh_taken :
    let top : Path := ⟨[⟨"TOP", .module, .none⟩]⟩
    let a := signalAt top "a"
    let taken := signalAt top "_rn0_a"
    let s : Stage :=
      { wiring := { terms := ⟨[(a, { name := a }), (taken, { name := taken })]⟩ } }
    s.Declares [{ name := some a }, { name := some a }] ∧
      ∃ n new, Temporaries s [{ name := some a }, { name := some a }] n new ∧
        new.map Prod.fst = [signalAt top "_rn1_a", signalAt top "_rn2_a"] := by
  intro top a taken s
  have hs : ReflTransGen Stage.Wires {} s := .tail (.single (.add {} top "a" { name := a }))
    (.add _ top "_rn0_a" { name := taken })
  have hds : s.Declares [{ name := some a }, { name := some a }] := by
    simp only [Stage.Declares, forall_mem_cons]
    exact ⟨⟨a, rfl, rfl⟩, ⟨a, rfl, rfl⟩, forall_mem_nil _⟩
  obtain ⟨n, new, h, -, -⟩ := temporaries_fresh (.initial {}) rfl hs hds
  refine ⟨hds, n, new, h, ?_⟩
  have hrun : (run ([{ name := some a }, { name := some a }].mapM renamed) s).1.map
      (List.map Destination.name) =
        .ok [some (signalAt top "_rn1_a"), some (signalAt top "_rn2_a")] := by
    decide +kernel
  rw [run, EStateM.run, h.run] at hrun
  rcases h.copies with _ | ⟨-, _ | ⟨-, ⟨⟩⟩⟩
  simpa [Except.map] using hrun

end RtlFlow.Design
