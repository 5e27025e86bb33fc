import Mathlib
import RtlFlow.Table

/-!
# Tables

What a table holds after a value is put into it. Nothing is asked of the `==` of the keys, unless
it is said.
-/

namespace RtlFlow.Table

open List

variable {κ ν : Type} [BEq κ] {t u : Table κ ν} {k : κ} {v : ν} {e : κ × ν}

theorem get?_eq_some (h : t.get? k = some v) : ∃ e ∈ t.entries, (e.1 == k) = true ∧ e.2 = v := by
  obtain ⟨e, he, rfl⟩ := Option.map_eq_some_iff.mp h
  have hmatch := List.find?_some he
  exact ⟨e, mem_of_find?_eq_some he, hmatch, rfl⟩

theorem put_cases (t : Table κ ν) (k : κ) (v : ν) :
    (∃ l₁ e l₂, t.entries = l₁ ++ e :: l₂ ∧ (e.1 == k) = true ∧ t.get? k = some e.2 ∧
      (t.put k v).entries = l₁ ++ (e.1, v) :: l₂) ∨
    ((∀ e ∈ t.entries, (e.1 == k) = false) ∧ t.get? k = none ∧
      (t.put k v).entries = t.entries ++ [(k, v)]) := by
  obtain ⟨es⟩ := t
  simp only [put, get?]
  induction es with
  | nil => exact .inr ⟨by simp, rfl, rfl⟩
  | cons e es ih =>
    by_cases he : (e.1 == k) = true
    · exact .inl ⟨[], e, es, rfl, he, by simp [List.find?, he], by simp [putEntry, he]⟩
    · rw [Bool.not_eq_true] at he
      rcases ih with ⟨l₁, f, l₂, rfl, hf, hget, hput⟩ | ⟨hall, hget, hput⟩
      · exact .inl ⟨e :: l₁, f, l₂, rfl, hf, by simpa [List.find?, he] using hget,
          by simpa [putEntry, he] using hput⟩
      · refine .inr ⟨?_, by simpa [List.find?, he] using hget, by simpa [putEntry, he] using hput⟩
        simpa [he] using hall

theorem mem_put (h : e ∈ (t.put k v).entries) :
    e ∈ t.entries ∨ (∃ w, (e.1, w) ∈ t.entries ∧ t.get? k = some w ∧ e.2 = v) ∨
      t.get? k = none ∧ e = (k, v) := by
  rcases t.put_cases k v with ⟨l₁, d, l₂, heq, -, hget, hput⟩ | ⟨-, hget, hput⟩
  · rw [hput] at h
    rcases mem_append.mp h with h | h
    · exact .inl (heq ▸ mem_append_left _ h)
    rcases mem_cons.mp h with rfl | h
    · exact .inr (.inl ⟨d.2, heq ▸ mem_append_right _ mem_cons_self, hget, rfl⟩)
    · exact .inl (heq ▸ mem_append_right _ (mem_cons_of_mem _ h))
  · rw [hput] at h
    rcases mem_append.mp h with h | h
    · exact .inl h
    · exact .inr (.inr ⟨hget, mem_singleton.mp h⟩)

theorem forall_put {P : ν → Prop} (ht : ∀ e ∈ t.entries, P e.2) (hv : P v) :
    ∀ e ∈ (t.put k v).entries, P e.2 := by
  intro e he
  rcases mem_put he with he | ⟨w, -, -, rfl⟩ | ⟨-, rfl⟩
  · exact ht e he
  · exact hv
  · exact hv

theorem forall_keys_put {P : κ → Prop} (ht : ∀ e ∈ t.entries, P e.1) (hk : P k) :
    ∀ e ∈ (t.put k v).entries, P e.1 := by
  intro e he
  rcases mem_put he with he | ⟨w, hw, -, -⟩ | ⟨-, rfl⟩
  · exact ht e he
  · exact ht (e.1, w) hw
  · exact hk

theorem get?_eq_none_iff : t.get? k = none ↔ ∀ l ∈ t.keys, (l == k) = false := by
  simp [get?, keys]

theorem keys_put_of_get?_eq_some {w : ν} (h : t.get? k = some w) : (t.put k v).keys = t.keys := by
  rcases t.put_cases k v with ⟨l₁, d, l₂, heq, -, -, hput⟩ | ⟨-, hget, -⟩
  · simp [keys, heq, hput]
  · rw [h] at hget
    cases hget

theorem keys_subset_put : t.keys ⊆ (t.put k v).keys := by
  rcases t.put_cases k v with ⟨l₁, d, l₂, heq, -, -, hput⟩ | ⟨-, -, hput⟩
  · simp [keys, heq, hput]
  · simp [keys, hput]

theorem entries_put (h : t.get? k = none) : (t.put k v).entries = t.entries ++ [(k, v)] := by
  rcases t.put_cases k v with ⟨l₁, d, l₂, -, -, hget, -⟩ | ⟨-, -, hput⟩
  · rw [h] at hget
    cases hget
  · exact hput

theorem mem_keys_put (h : t.get? k = none) : k ∈ (t.put k v).keys := by
  simp [keys, entries_put h]

theorem get?_put [LawfulBEq κ] (t : Table κ ν) (k q : κ) (v : ν) :
    (t.put k v).get? q = if k == q then some v else t.get? q := by
  obtain ⟨es⟩ := t
  change ((putEntry k v es).find? _).map _ = _
  induction es with
  | nil => by_cases h : k == q <;> simp [putEntry, get?, h]
  | cons d es ih =>
    rw [putEntry]
    by_cases hd : d.1 == k
    · obtain rfl := eq_of_beq hd
      by_cases hq : d.1 == q <;> simp [get?, hq]
    · rw [if_neg hd]
      by_cases hq : d.1 == q
      · have hk : ¬ (k == q) := by
          intro hk
          exact hd ((eq_of_beq hq).trans (eq_of_beq hk).symm ▸ BEq.rfl)
        simp [get?, hq, hk]
      · simp only [List.find?_cons, hq, get?] at ih ⊢
        exact ih

end RtlFlow.Table
