import Mathlib
import RtlFlow.Fault

/-!
# Computations that can fail

A sequence of steps has a result exactly if each step has one. The proofs about functions in
`Result` take such sequences apart with the lemmas of this module.
-/

namespace RtlFlow

open List

variable {α β ε : Type} {f : α → Except ε β} {as : List α}

@[simp] theorem ok_bind {a : α} : (Except.ok a >>= f) = f a := rfl

@[simp] theorem error_bind {e : ε} : (Except.error e >>= f) = .error e := rfl

@[simp] theorem pure_eq {a : α} : (pure a : Except ε α) = .ok a := rfl

theorem bind_eq_ok {x : Except ε α} {r : β} : (x >>= f) = .ok r ↔ ∃ a, x = .ok a ∧ f a = .ok r := by
  cases x <;> simp

theorem pure_eq_ok {a r : α} : (pure a : Except ε α) = .ok r ↔ a = r := by
  simp

theorem throw_ne_ok {e : ε} {r : α} : (throw e : Except ε α) ≠ .ok r := by
  simp [throw, throwThe, MonadExceptOf.throw]

@[simp] theorem orThrow_some {e : Fault} {a : α} : orThrow e (some a) = .ok a := rfl

theorem orThrow_eq_ok {e : Fault} {o : Option α} {a : α} : orThrow e o = .ok a ↔ o = some a := by
  cases o with
  | none => simp [orThrow, throw_ne_ok]
  | some b => simp

/-! ## Results for the members of a list -/

theorem exists_of_mem_forall₂ {R : α → β → Prop} {bs : List β} (h : Forall₂ R as bs) :
    (∀ a ∈ as, ∃ b ∈ bs, R a b) ∧ ∀ b ∈ bs, ∃ a ∈ as, R a b := by
  induction h with
  | nil => simp
  | cons hab _ ih =>
    simp only [mem_cons, forall_eq_or_imp, exists_eq_or_imp]
    exact ⟨⟨.inl hab, fun a ha => .inr (ih.1 a ha)⟩, .inl hab, fun b hb => .inr (ih.2 b hb)⟩

theorem mapM_eq_ok {bs : List β} :
    as.mapM f = .ok bs ↔ Forall₂ (fun a b => f a = .ok b) as bs := by
  induction as generalizing bs with
  | nil => simp [eq_comm]
  | cons a as ih => simp [mapM_cons, bind_eq_ok, forall₂_cons_left_iff, ih, @eq_comm _ bs]

theorem mapM_eq_ok_map {g : α → β} (h : ∀ a ∈ as, f a = .ok (g a)) :
    as.mapM f = .ok (as.map g) :=
  mapM_eq_ok.mpr (forall₂_map_right_iff.mpr (forall₂_same.mpr h))

theorem exists_mapM_forall₂ {P : α → β → Prop} (h : ∀ a ∈ as, ∃ b, f a = .ok b ∧ P a b) :
    ∃ bs, as.mapM f = .ok bs ∧ Forall₂ P as bs := by
  induction as with
  | nil => exact ⟨[], rfl, .nil⟩
  | cons a as ih =>
    obtain ⟨b, hb, hP⟩ := h a mem_cons_self
    obtain ⟨bs, hbs, hPs⟩ := ih fun a ha => h a (mem_cons_of_mem _ ha)
    exact ⟨b :: bs, by rw [mapM_cons, hb, hbs]; rfl, .cons hP hPs⟩

/-- A function that has a result for each member of a list has results for the list. -/
theorem exists_mapM_eq_ok {P : α → β → Prop} (h : ∀ a ∈ as, ∃ b, f a = .ok b ∧ P a b) :
    ∃ bs, as.mapM f = .ok bs ∧ (∀ a ∈ as, ∃ b ∈ bs, P a b) ∧ ∀ b ∈ bs, ∃ a ∈ as, P a b := by
  obtain ⟨bs, hbs, hP⟩ := exists_mapM_forall₂ h
  exact ⟨bs, hbs, exists_of_mem_forall₂ hP⟩

theorem exists_of_mem_mapM {bs : List β} (h : as.mapM f = .ok bs) {b : β} (hb : b ∈ bs) :
    ∃ a ∈ as, f a = .ok b :=
  (exists_of_mem_forall₂ (mapM_eq_ok.mp h)).2 b hb

theorem map_eq_of_mapM {γ : Type} {g : α → γ} {g' : β → γ}
    (hf : ∀ {a b}, f a = .ok b → g' b = g a) {bs : List β} (h : as.mapM f = .ok bs) :
    bs.map g' = as.map g := by
  rw [← forall₂_eq_eq_eq, forall₂_map_left_iff, forall₂_map_right_iff]
  exact ((mapM_eq_ok.mp h).imp fun _ _ => hf).flip

/-! ## Folds -/

/-- A fold has a result if each step has one, as long as what holds of the members gone through so
far holds again after the step. -/
theorem exists_foldlM_eq_ok {σ : Type} {f : σ → α → Except ε σ} (P : List α → σ → Prop) {s : σ}
    (hstart : P [] s)
    (hstep : ∀ done a s, done ++ [a] <+: as → P done s → ∃ t, f s a = .ok t ∧ P (done ++ [a]) t) :
    ∃ t, as.foldlM f s = .ok t ∧ P as t := by
  suffices h : ∀ (rest done : List α) (s : σ), done ++ rest = as → P done s →
      ∃ t, rest.foldlM f s = .ok t ∧ P as t from h as [] s rfl hstart
  intro rest
  induction rest with
  | nil =>
    intro done s hdone hs
    rw [append_nil] at hdone
    exact ⟨s, rfl, hdone ▸ hs⟩
  | cons a rest ih =>
    intro done s hdone hs
    have hsplit : done ++ [a] ++ rest = as := by rw [append_assoc]; exact hdone
    obtain ⟨t, ht, hPt⟩ := hstep done a s ⟨rest, hsplit⟩ hs
    obtain ⟨u, hu, hPu⟩ := ih (done ++ [a]) t hsplit hPt
    exact ⟨u, by rw [foldlM_cons, ht]; exact hu, hPu⟩

/-- A fold that leaves out some members puts the others, in their order, behind what is there. -/
theorem exists_foldl_append {skip : List α → α → Bool} (as acc : List α) :
    ∃ new, as.foldl (fun acc a => if skip acc a then acc else acc ++ [a]) acc = acc ++ new ∧
      new.Sublist as := by
  induction as generalizing acc with
  | nil => exact ⟨[], by simp⟩
  | cons a as ih =>
    rw [foldl_cons]
    split
    · obtain ⟨new, hnew, hsub⟩ := ih acc
      exact ⟨new, hnew, hsub.cons a⟩
    · obtain ⟨new, hnew, hsub⟩ := ih (acc ++ [a])
      exact ⟨a :: new, by simpa using hnew, hsub.cons_cons a⟩

section Distinct

variable [BEq α] {f : β → α} (hf : ∀ a b, (f a == f b) = true ↔ a = b)
include hf

theorem contains_map_iff (bs : List β) (b : β) : (bs.map f).contains (f b) = true ↔ b ∈ bs := by
  simp [hf]

theorem exists_foldl_new (bs cs : List β) :
    ∃ ds : List β, (bs.map f).foldl (fun acc d => if acc.contains d then acc else acc ++ [d])
      (cs.map f) = ds.map f ∧ ∀ b, b ∈ ds ↔ b ∈ cs ∨ b ∈ bs := by
  induction bs generalizing cs with
  | nil => exact ⟨cs, rfl, by simp⟩
  | cons a bs ih =>
    rw [map_cons, foldl_cons]
    by_cases ha : a ∈ cs
    · obtain ⟨ds, hds, hmem⟩ := ih cs
      refine ⟨ds, by rw [if_pos ((contains_map_iff hf _ _).mpr ha), hds], fun b => ?_⟩
      rw [hmem, mem_cons]
      constructor
      · exact Or.imp_right .inr
      · rintro (hb | rfl | hb)
        · exact .inl hb
        · exact .inl ha
        · exact .inr hb
    · obtain ⟨ds, hds, hmem⟩ := ih (cs ++ [a])
      refine ⟨ds, ?_, fun b => ?_⟩
      · rw [if_neg (mt (contains_map_iff hf _ _).mp ha), ← hds, map_append]
        rfl
      · rw [hmem, mem_append, mem_singleton, mem_cons, or_assoc]

end Distinct

/-! ## Bounded recursions -/

/-- No chain of steps that starts with `x` is longer than `n`. -/
def ChainsEnd (step : α → α → Prop) : Nat → α → Prop
  | 0, x => ∀ y, ¬ step x y
  | n + 1, x => ∀ y, step x y → ChainsEnd step n y

/-- Where each step leads to a new one of some keys, there are no more steps than keys. -/
theorem ChainsEnd.of_keys {step : α → α → Prop} {P : α → Prop} {K : List β} (key : β → α → Prop)
    (hstep : ∀ {x y}, P x → step x y → P y) (hkey : ∀ {x}, P x → ∃ k ∈ K, key k x)
    (hnew : ∀ {x y}, P x → P y → Relation.TransGen step x y → ∀ k ∈ K, key k x → ¬ key k y)
    {x : α} (hx : P x) : ChainsEnd step K.length x := by
  classical
  obtain ⟨k, hk, hkx⟩ := hkey hx
  induction hn : K.length generalizing K P x k with
  | zero =>
    rw [length_eq_zero_iff.mp hn] at hk
    cases hk
  | succ n ih =>
    -- No place behind `x` has the key `k` of `x`.
    intro y hxy
    have hleft {z : α} (hz : P z) (hxz : Relation.TransGen step x z) :
        ∃ l ∈ K.erase k, key l z := by
      obtain ⟨l, hl, hlz⟩ := hkey hz
      refine ⟨l, (mem_erase_of_ne ?_).mpr hl, hlz⟩
      rintro rfl
      exact hnew hx hz hxz l hk hkx hlz
    obtain ⟨l, hl, hly⟩ := hleft (hstep hx hxy) (.single hxy)
    refine ih (P := fun z => P z ∧ Relation.TransGen step x z) (K := K.erase k)
      (fun hz hzw => ⟨hstep hz.1 hzw, hz.2.tail hzw⟩) (fun hz => hleft hz.1 hz.2)
      (fun hz hw hzw l hl => hnew hz.1 hw.1 hzw l (mem_of_mem_erase hl))
      ⟨hstep hx hxy, .single hxy⟩ l hl hly ?_
    rw [length_erase_of_mem hk, hn, Nat.add_sub_cancel]

/-- What stands at the bottom of a recursion along steps is not asked if the recursion is deeper than
the chains of steps are long. -/
theorem ChainsEnd.iterate_eq {σ : Type} {step : σ → σ → Prop} (stands : σ → α → Prop)
    {F : (α → β) → α → β}
    (hF : ∀ {f g s x}, stands s x → (∀ s' y, step s s' → stands s' y → f y = g y) → F f x = F g x)
    {n : Nat} {s : σ} (h : ChainsEnd step n s) {x : α} (hx : stands s x) (f g : α → β) :
    F^[n + 1] f x = F^[n + 1] g x := by
  induction n generalizing s x with
  | zero => exact hF hx fun s' y hs => absurd hs (h s')
  | succ n ih =>
    rw [Function.iterate_succ_apply', Function.iterate_succ_apply' F (n + 1) g]
    exact hF hx fun s' y hs hy => ih (h s' hs) hy

/-! ## Results with a property -/

/-- The computation has a result, and the result has a property. -/
def Yields {ε α : Type} (P : α → Prop) (x : Except ε α) : Prop := ∃ a, x = .ok a ∧ P a

namespace Yields

variable {ε α β : Type} {P : α → Prop} {Q : β → Prop} {x : Except ε α}

theorem pure {a : α} (h : P a) : Yields P (pure a : Except ε α) := ⟨a, rfl, h⟩

theorem pure_false {Q : Prop} : Yields (fun b => b = true → Q) (Pure.pure false : Except ε Bool) :=
  .pure nofun

theorem pure_none {P : α → Prop} :
    Yields (fun x => ∀ a ∈ x, P a) (Pure.pure none : Except ε (Option α)) := .pure nofun

theorem bind {f : α → Except ε β} (hx : Yields P x) (hf : ∀ a, P a → Yields Q (f a)) :
    Yields Q (x >>= f) := by
  obtain ⟨a, rfl, ha⟩ := hx
  exact hf a ha

theorem mono {P' : α → Prop} (hx : Yields P x) (h : ∀ a, P a → P' a) : Yields P' x := by
  obtain ⟨a, ha, hP⟩ := hx
  exact ⟨a, ha, h a hP⟩

theorem of_eq_ok {a : α} (hx : Yields P x) (h : x = .ok a) : P a := by
  obtain ⟨b, hb, hP⟩ := hx
  cases h.symm.trans hb
  exact hP

end Yields

end RtlFlow
