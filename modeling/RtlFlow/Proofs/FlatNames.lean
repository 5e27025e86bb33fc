import Mathlib
import RtlFlow.Scope

/-!
# Flat names

The flat name of a signal joins the labels that show by underscores. It tells the labels as long as
all of them show and no underscore occurs in them. Otherwise two signals can have one flat name.
-/

namespace RtlFlow

/-- A label that shows, by a name without an underscore. -/
structure Label.Plain (l : Label) : Prop where
  shows : l.kind.isPrintable = true
  named : l.name ≠ ""
  joint : '_' ∉ l.name.toList

namespace Path

variable {p q : Path} {l : Label} {ls : List Label}

/-- Equal paths agree on what their equal labels agree on. -/
theorem map_labels_eq_of_same {β : Type} {f : Label → β} (h : p == q)
    (hf : ∀ l ∈ p.labels, ∀ m ∈ q.labels, l == m → f l = f m) :
    p.labels.map f = q.labels.map f := by
  obtain ⟨ls⟩ := p
  obtain ⟨ms⟩ := q
  change (ls == ms) = true at h
  induction ls generalizing ms with
  | nil => cases ms <;> simp_all
  | cons l ls ih =>
    cases ms with
    | nil => cases h
    | cons m ms =>
      rw [List.cons_beq_cons, Bool.and_eq_true] at h
      simp only [List.forall_mem_cons] at hf
      rw [List.map_cons, List.map_cons, hf.1.1 h.1, ih ms (fun a ha => (hf.2 a ha).2) h.2]

theorem codeParts_cons (hl : l.Plain) :
    codeParts none (l :: ls) = l.name :: "_" :: codeParts none ls := by
  have hkind : l.kind ≠ .for := fun h => by
    have hshows := hl.shows
    rw [h] at hshows
    cases hshows
  simp [codeParts, Label.code, hl.shows, hl.named, hkind]

theorem toList_code (hls : ∀ l ∈ ls, l.Plain) :
    (Path.code ⟨ls⟩).toList = ['_'].intercalate ((ls.map Label.name).map String.toList) := by
  rw [code]
  induction ls with
  | nil => rfl
  | cons l ls ih =>
    obtain ⟨hl, hls⟩ := List.forall_mem_cons.mp hls
    rw [codeParts_cons hl]
    cases ls with
    | nil => simp [codeParts]
    | cons m ls =>
      have hm : codeParts none (m :: ls) = _ := codeParts_cons (List.forall_mem_cons.mp hls).1
      specialize ih hls
      simp_all

/-- Signals whose labels all show and have no underscores have one flat name only if their labels
have the same names. -/
theorem code_eq_iff (hp : ∀ l ∈ p.labels, l.Plain) (hq : ∀ l ∈ q.labels, l.Plain)
    (hne : p.labels ≠ [] ∧ q.labels ≠ []) :
    p.code = q.code ↔ p.labels.map Label.name = q.labels.map Label.name := by
  constructor
  · intro h
    have hsplit : ∀ r : Path, (∀ l ∈ r.labels, l.Plain) → r.labels ≠ [] →
        r.code.toList.splitOn '_' = (r.labels.map Label.name).map String.toList := by
      intro r hr hne
      rw [toList_code hr, List.splitOn_intercalate _ _ (by simpa using hne)]
      simpa using fun l hl => (hr l hl).joint
    have hnames := hsplit p hp hne.1
    rw [h, hsplit q hq hne.2] at hnames
    exact (List.map_injective_iff.mpr (fun _ _ => String.toList_inj.mp) hnames).symm
  · intro h
    rw [← String.toList_inj, toList_code hp, toList_code hq, h]

/-- The signal `a` of a module and of an instance `s` in it. -/
theorem code_eq_iff_instance :
    let top : Label := ⟨"TOP", .module, .none⟩
    let a : Label := ⟨"a", .signal, .none⟩
    Path.code ⟨[top, a]⟩ ≠ Path.code ⟨[top, ⟨"s", .module, .none⟩, a]⟩ := by
  intro top a
  have hplain : ∀ l ∈ [top, ⟨"s", .module, .none⟩, a], l.Plain := by
    intro l hl
    fin_cases hl <;> exact ⟨rfl, by decide, by decide⟩
  refine mt (code_eq_iff (fun l hl => hplain l ?_) hplain (by decide)).mp (by decide)
  rcases List.mem_cons.mp hl with rfl | hl
  · exact List.mem_cons_self
  · exact List.mem_cons_of_mem _ (List.mem_cons_of_mem _ hl)

/-- A signal of an instance and a signal beside the instance. -/
theorem code_clash :
    let top : Label := ⟨"TOP", .module, .none⟩
    Path.code ⟨[top, ⟨"s", .module, .none⟩, ⟨"b_c", .signal, .none⟩]⟩ =
      Path.code ⟨[top, ⟨"s_b_c", .signal, .none⟩]⟩ := by
  decide

end Path

end RtlFlow
