import Mathlib
import RtlFlow.Flow.Subset
import RtlFlow.Proofs.Computation
import RtlFlow.Proofs.Table

/-!
# What signals depend on

A signal depends on the sources of its bindings and of its ranges, and on the clocks of its
bindings. The search finds all that some signals depend on in this way, step after step. It leaves
out what it has visited, and follows clocks without visiting them, so it ends if no chain of clocks
goes round in a circle.

Names are compared by matching. For the search to make sense, matching has to be an equivalence on
the names of the design.
-/

namespace RtlFlow

open List

variable {ps : List Path} {p : Path} {names : Path → Prop} {acc : List Path}

/-! ## Names up to matching -/

structure Matching (names : Path → Prop) : Prop where
  refl : ∀ {p}, names p → (p == p) = true
  symm : ∀ {p q}, names p → names q → (p == q) = true → (q == p) = true
  trans : ∀ {p q r}, names p → names q → names r → (p == q) = true → (q == r) = true →
    (p == r) = true

namespace Matching

variable {names : Path → Prop} {p q : Path} {r : Path}

theorem congr_left (h : Matching names) (hp : names p) (hq : names q) (hr : names r)
    (hpq : (p == q) = true) : (r == p) = (r == q) := by
  rw [Bool.eq_iff_iff]
  exact ⟨fun hrp => h.trans hr hp hq hrp hpq, fun hrq => h.trans hr hq hp hrq (h.symm hp hq hpq)⟩

theorem congr_right (h : Matching names) (hp : names p) (hq : names q) (hr : names r)
    (hpq : (p == q) = true) : (p == r) = (q == r) := by
  rw [Bool.eq_iff_iff]
  exact ⟨fun hpr => h.trans hq hp hr (h.symm hp hq hpq) hpr, fun hqr => h.trans hp hq hr hpq hqr⟩

theorem get?_congr {ν : Type} {t : Table Path ν} (h : Matching names)
    (hkeys : ∀ k ∈ t.keys, names k) (hp : names p) (hq : names q) (hpq : (p == q) = true) :
    t.get? p = t.get? q := by
  have hfind : t.entries.find? (fun e => e.1 == p) = t.entries.find? fun e => e.1 == q := by
    refine List.find?_congr fun e he => ?_
    exact h.congr_left hp hq (hkeys e.1 (mem_map_of_mem he)) hpq
  rw [Table.get?, Table.get?, hfind]

theorem contains_iff (h : Matching names) {ps : List Path} (hp : names p)
    (hps : ∀ q ∈ ps, names q) : ps.contains p = true ↔ ∃ q ∈ ps, (q == p) = true := by
  rw [contains_iff_exists_mem_beq]
  exact exists_congr fun q => and_congr_right fun hq =>
    ⟨h.symm hp (hps q hq), h.symm (hps q hq) hp⟩

end Matching

theorem mem_of_mem_distinctPaths (h : p ∈ distinctPaths ps) : p ∈ ps := by
  obtain ⟨new, hnew, hsub⟩ := @exists_foldl_append _ List.contains ps []
  rw [distinctPaths, hnew] at h
  exact hsub.subset h

theorem contains_foldl_distinctPaths (h : Matching names) (hp : names p) (hacc : ∀ q ∈ acc, names q)
    (hps : ∀ q ∈ ps, names q) :
    (ps.foldl (fun acc p => if acc.contains p then acc else acc ++ [p]) acc).contains p = true ↔
      acc.contains p = true ∨ ps.contains p = true := by
  induction ps generalizing acc with
  | nil => simp
  | cons q ps ih =>
    have hq := hps q mem_cons_self
    have hps' : ∀ q ∈ ps, names q := fun q hq => hps q (mem_cons_of_mem _ hq)
    rw [foldl_cons, contains_cons, Bool.or_eq_true]
    split
    · next hin =>
      rw [ih hacc hps']
      refine ⟨Or.imp_right .inr, ?_⟩
      rintro (hin' | hpq | hin')
      · exact .inl hin'
      · -- What matches `p` matches `q`, which is among the paths already.
        obtain ⟨r, hr, hqr⟩ := contains_iff_exists_mem_beq.mp hin
        exact .inl (contains_iff_exists_mem_beq.mpr
          ⟨r, hr, h.trans hp hq (hacc r hr) hpq hqr⟩)
      · exact .inr hin'
    · rw [ih (by simpa [or_imp, forall_and] using ⟨hacc, hq⟩) hps', contains_append,
        contains_cons]
      simp [or_assoc]

theorem contains_distinctPaths (h : Matching names) (hp : names p) (hps : ∀ q ∈ ps, names q) :
    (distinctPaths ps).contains p = true ↔ ps.contains p = true := by
  rw [distinctPaths, contains_foldl_distinctPaths h hp (by simp) hps]
  simp

/-! ## Tables of bindings -/

def Table.Has {ν : Type} (t : Table Path ν) (x : Path) : Prop := ∃ k ∈ t.keys, (k == x) = true

def Table.Distinct {ν : Type} (t : Table Path ν) : Prop :=
  t.keys.Pairwise fun k l => (k == l) = false

theorem Matching.put (h : Matching names) {ν : Type} {t : Table Path ν}
    (hkeys : ∀ k ∈ t.keys, names k) (ht : t.Distinct) {k : Path} (hk : names k) (v : ν) :
    (∃ l, (l == k) = true ∧ (l ∈ t.keys ∨ l = k) ∧
      ∀ e ∈ (t.put k v).entries, e = (l, v) ∨ e ∈ t.entries ∧ (e.1 == k) = false) ∧
    (t.put k v).Distinct ∧ ∀ x, names x → ((t.put k v).Has x ↔ t.Has x ∨ (k == x) = true) := by
  rcases t.put_cases k v with ⟨l₁, e, l₂, heq, he, -, hput⟩ | ⟨hnone, -, hput⟩
  · have hsame : (t.put k v).keys = t.keys := by simp [Table.keys, hput, heq]
    have hmem : e.1 ∈ t.keys := by simp [Table.keys, heq]
    refine ⟨⟨e.1, he, .inl hmem, fun f hf => ?_⟩, ?_, fun x hx => ?_⟩
    · by_cases hfe : f = (e.1, v)
      · exact .inl hfe
      -- The key of another entry does not match `k`, because it would match the key of `e`.
      have hf' : f ∈ l₁ ∨ f ∈ l₂ := by
        rw [hput] at hf
        simp only [mem_append, mem_cons] at hf
        tauto
      have hft : f ∈ t.entries := by
        rw [heq]
        simp only [mem_append, mem_cons]
        exact hf'.imp_right .inr
      have hfname := hkeys f.1 (mem_map_of_mem hft)
      refine .inr ⟨hft, ?_⟩
      rw [← h.congr_left (hkeys _ hmem) hk hfname he]
      rw [Table.Distinct, Table.keys, heq, map_append, map_cons, pairwise_append] at ht
      rcases hf' with hf | hf
      · exact ht.2.2 _ (mem_map_of_mem hf) _ mem_cons_self
      · have hef := (pairwise_cons.mp ht.2.1).1 _ (mem_map_of_mem hf)
        rw [Bool.eq_false_iff] at hef ⊢
        exact fun hfe => hef (h.symm hfname (hkeys _ hmem) hfe)
    · rw [Table.Distinct, hsame]
      exact ht
    · rw [Table.Has, hsame]
      refine ⟨.inl, ?_⟩
      rintro (hhas | hkx)
      · exact hhas
      · exact ⟨e.1, hmem, h.trans (hkeys _ hmem) hk hx he hkx⟩
  · have hmore : (t.put k v).keys = t.keys ++ [k] := by simp [Table.keys, hput]
    refine ⟨⟨k, h.refl hk, .inr rfl, fun f hf => ?_⟩, ?_, fun x hx => ?_⟩
    · rw [hput] at hf
      rcases mem_append.mp hf with hf | hf
      · exact .inr ⟨hf, hnone f hf⟩
      · exact .inl (mem_singleton.mp hf)
    · rw [Table.Distinct, hmore, pairwise_append]
      refine ⟨ht, pairwise_singleton .., fun l hl l' hl' => ?_⟩
      obtain ⟨f, hf, rfl⟩ := mem_map.mp hl
      rw [mem_singleton.mp hl']
      exact hnone f hf
    · simp [Table.Has, hmore, or_and_right, exists_or]

namespace Netlist

variable {held : List Binding} {k : Nat}

variable {name x y : Path} {next targets visited : List Path} {r s : Reach}
    {low : Path → List Binding} {t : Bindings} {b : Binding} {order : Path → List Path → List Path}

variable (n : Netlist) (d : Drivers)

/-- `y` is a source of `x`. -/
def IsSource (x y : Path) : Prop := ∃ ss, n.bindSources x = .ok ss ∧ y ∈ ss

/-- A binding waits for an edge of the clock `c`, which is not the clock of the top module. -/
def HasClock (b : Binding) (c : Ast) : Prop :=
  ∃ s, b.always = some s ∧ s.isClockEdge = true ∧ s.clock.name = c ∧
    (c != .path (Path.ofNames [n.top, d.clock])) = true

/-- `y` is the clock of a binding of `x`, and it is not the clock of the top module. -/
def IsClock (x y : Path) : Prop := ∃ b ∈ n.bindings x, n.HasClock d b (.path y)

/-- What can be reached from some signals by going to sources and clocks. -/
def Reached (targets : List Path) (x : Path) : Prop :=
  ∃ t ∈ targets, Relation.ReflTransGen (fun x y => n.IsSource x y ∨ n.IsClock d x y) t x

def Compared (names : Path → Prop) (p : Path) : Prop :=
  names p ∨ p ∈ n.terms.keys ∨ p ∈ n.binds.keys

/-- Some names make up a design of their own: their sources and clocks are declared names again, and
no chain of clocks goes round in a circle. -/
structure Regular (names : Path → Prop) : Prop where
  declared : ∀ {x}, names x → n.terms.contains x = true
  sources : ∀ {x}, names x → ∃ ss, n.bindSources x = .ok ss ∧ ∀ y ∈ ss, names y
  clocks : ∀ {x}, names x → ∀ b ∈ n.bindings x, ∀ c, n.HasClock d b c →
    ∃ y, c = .path y ∧ names y
  acyclic : ∀ {x y}, names x → Relation.TransGen (n.IsClock d) x y → (x == y) = false
  matching : Matching (n.Compared names)

def Respects (names : Path → Prop) (low : Path → List Binding) : Prop :=
  ∀ {x y}, names x → names y → (x == y) = true → low x = low y

/-- A table has bindings of some names: all of the bindings `low` of a name, and no others than those
of the name. -/
structure Lists (names : Path → Prop) (low : Path → List Binding) (t : Bindings) : Prop where
  distinct : t.Distinct
  entry : ∀ e ∈ t.entries, names e.1 ∧ e.2 ≠ [] ∧ (∀ b ∈ low e.1, b ∈ e.2) ∧
    ∀ b ∈ e.2, b ∈ n.bindings e.1

variable {n d} {names : Path → Prop}

theorem otherClock?_eq_some {c : Ast} : n.otherClock? d b = some c ↔ n.HasClock d b c := by
  rw [otherClock?, HasClock]
  cases b.always with
  | none => simp
  | some s =>
    simp only [Option.ite_none_right_eq_some, Bool.and_eq_true, Option.some.injEq, exists_eq_left']
    constructor
    · rintro ⟨⟨hedge, hother⟩, rfl⟩
      exact ⟨hedge, rfl, hother⟩
    · rintro ⟨hedge, rfl, hother⟩
      exact ⟨⟨hedge, hother⟩, rfl⟩

section

variable (h : n.Regular d names)
include h

theorem Regular.bindings_congr : Respects names n.bindings := by
  intro x y hx hy hxy
  rw [bindings, bindings, h.matching.get?_congr (fun k hk => .inr (.inr hk)) (.inl hx) (.inl hy) hxy]

theorem Regular.bindSources_congr (hx : names x) (hy : names y)
    (hxy : (x == y) = true) : n.bindSources x = n.bindSources y := by
  have hterm : n.terms.get? x = n.terms.get? y :=
    h.matching.get?_congr (fun k hk => .inr (.inl hk)) (.inl hx) (.inl hy) hxy
  rw [bindSources, bindSources, termSources, termSources, bindingSources, bindingSources, hterm,
    h.bindings_congr hx hy hxy]

omit h in
theorem Lists.named (ht : n.Lists names low t) : ∀ k ∈ t.keys, names k := by
  intro k hk
  obtain ⟨e, he, rfl⟩ := mem_map.mp hk
  exact (ht.entry e he).1

omit h in
theorem Lists.mono {low' : Path → List Binding} (ht : n.Lists names low t)
    (hlow : ∀ x, names x → ∀ b ∈ low' x, b ∈ low x) : n.Lists names low' t := by
  refine ⟨ht.distinct, fun e he => ?_⟩
  obtain ⟨hname, hne, hlower, hupper⟩ := ht.entry e he
  exact ⟨hname, hne, fun b hb => hlower b (hlow e.1 hname b hb), hupper⟩

theorem Lists.of_get? (hlow : Respects names low) (ht : n.Lists names low t) (hname : names name)
    (hget : t.get? name = some held) :
    held ≠ [] ∧ (∀ b ∈ low name, b ∈ held) ∧ ∀ b ∈ held, b ∈ n.bindings name := by
  obtain ⟨e, he, hename, rfl⟩ := Table.get?_eq_some hget
  obtain ⟨hkey, hentry⟩ := ht.entry e he
  rwa [hlow hkey hname hename, h.bindings_congr hkey hname hename] at hentry

theorem Lists.put {low' : Path → List Binding} (ht : n.Lists names low t)
    {k : Path} (hk : names k) {v : List Binding} (hne : v ≠ []) (hupper : ∀ b ∈ v, b ∈ n.bindings k)
    (hrespects : Respects names low') (hlower : ∀ b ∈ low' k, b ∈ v)
    (hother : ∀ x, names x → (x == k) = false → ∀ b ∈ low' x, b ∈ low x) :
    n.Lists names low' (t.put k v) ∧
      ∀ x, names x → ((t.put k v).Has x ↔ t.Has x ∨ (k == x) = true) := by
  obtain ⟨⟨l, hlk, hl, hmem⟩, hdistinct, hhas⟩ :=
    h.matching.put (fun k hk => .inl (ht.named k hk)) ht.distinct (.inl hk) v
  have hlname : names l := hl.elim (ht.named l) fun hl => hl ▸ hk
  refine ⟨⟨hdistinct, fun e he => ?_⟩, fun x hx => hhas x (.inl hx)⟩
  rcases hmem e he with rfl | ⟨he, hek⟩
  · rw [h.bindings_congr hlname hk hlk, hrespects hlname hk hlk]
    exact ⟨hlname, hne, hlower, hupper⟩
  · obtain ⟨hname, hne, hlower, hupper⟩ := ht.entry e he
    exact ⟨hname, hne, fun b hb => hlower b (hother e.1 hname hek b hb), hupper⟩

omit h in
theorem exists_appendNew (held new : List Binding) :
    ∃ more, appendNew held new = held ++ more ∧ more.Sublist new :=
  @exists_foldl_append Binding (fun held b => held.any (·.same b)) new held

theorem Lists.join (hlow : Respects names low) {u : Bindings}
    (ht : n.Lists names low t) (hu : n.Lists names low u) :
    n.Lists names low (joinTables t u) ∧
      ∀ x, names x → ((joinTables t u).Has x ↔ t.Has x ∨ u.Has x) := by
  obtain ⟨es⟩ := u
  rw [joinTables]
  induction es generalizing t with
  | nil => exact ⟨ht, fun x _ => by simp [Table.Has, Table.keys]⟩
  | cons e es ih =>
    have hes : n.Lists names low ⟨es⟩ :=
      ⟨(pairwise_cons.mp hu.distinct).2, fun f hf => hu.entry f (mem_cons_of_mem _ hf)⟩
    obtain ⟨hname, hne, hlower, hupper⟩ := hu.entry e mem_cons_self
    -- The list under the name of `e` is as it was, with what is new in `e` behind it.
    obtain ⟨hne, hupper, hlower⟩ : joinLists (t.get? e.1) e.2 ≠ [] ∧
        (∀ b ∈ joinLists (t.get? e.1) e.2, b ∈ n.bindings e.1) ∧
        ∀ b ∈ low e.1, b ∈ joinLists (t.get? e.1) e.2 := by
      cases hget : t.get? e.1 with
      | none => exact ⟨hne, hupper, hlower⟩
      | some held =>
        obtain ⟨hne', hlower', hupper'⟩ := ht.of_get? h hlow hname hget
        obtain ⟨more, hmore, hsub⟩ := exists_appendNew held e.2
        rw [joinLists, hmore]
        refine ⟨by simp [hne'], fun b hb => ?_, fun b hb => ?_⟩
        · exact (mem_append.mp hb).elim (hupper' b) fun hb => hupper b (hsub.subset hb)
        · exact mem_append_left _ (hlower' b hb)
    obtain ⟨hput, hhas⟩ := ht.put h hname hne hupper hlow hlower fun _ _ _ _ hb => hb
    obtain ⟨hjoin, hhas'⟩ := ih hput hes
    refine ⟨hjoin, fun x hx => (hhas' x hx).trans ?_⟩
    rw [hhas x hx, or_assoc]
    simp [Table.Has, Table.keys]

/-- The bindings that a table has at least, while those of one name are being put into it. -/
def partly (n : Netlist) (name : Path) (done : List Binding) (x : Path) : List Binding :=
  if x == name then done else n.bindings x

theorem Regular.respects_partly (hname : names name) (done : List Binding) :
    Respects names (n.partly name done) := by
  intro x y hx hy hxy
  rw [partly, partly, h.matching.congr_right (.inl hx) (.inl hy) (.inl hname) hxy,
    h.bindings_congr hx hy hxy]

theorem Lists.append (hname : names name) {done : List Binding}
    (ht : n.Lists names (n.partly name done) t) (hdone : done ≠ [] → t.Has name)
    (hb : b ∈ n.bindings name) :
    n.Lists names (n.partly name (done ++ [b])) (appendBinding t name b) ∧
      ∀ x, names x → ((appendBinding t name b).Has x ↔ t.Has x ∨ (name == x) = true) := by
  have hself : (name == name) = true := h.matching.refl (.inl hname)
  have hheld (held : List Binding) (hget : t.get? name = some held) :=
    ht.of_get? h (h.respects_partly hname _) hname hget
  rw [partly, if_pos hself] at hheld
  refine ht.put h hname (by simp) ?_ (h.respects_partly hname _) ?_ ?_
  · intro c hc
    rcases mem_append.mp hc with hc | hc
    · cases hget : t.get? name with
      | none => simp [hget] at hc
      | some held => exact (hheld held hget).2.2 c (by simpa [hget] using hc)
    · rw [mem_singleton.mp hc]
      exact hb
  · intro c hc
    rw [partly, if_pos hself, mem_append] at hc
    rw [mem_append]
    refine hc.imp_left fun hc => ?_
    cases hget : t.get? name with
    | none =>
      obtain ⟨k, hk, hkname⟩ := hdone (ne_nil_of_mem hc)
      simp [Table.get?_eq_none_iff.mp hget k hk] at hkname
    | some held => exact (hheld held hget).2.1 c hc
  · intro x _ hx c hc
    simpa [partly, hx] using hc

/-! ## Reaching -/

theorem Regular.of_isSource (hx : names x) (hxy : n.IsSource x y) :
    names y := by
  obtain ⟨ss, hss, hy⟩ := hxy
  obtain ⟨ss', hss', hall⟩ := h.sources hx
  obtain rfl := Except.ok.inj (hss.symm.trans hss')
  exact hall y hy

theorem Regular.of_isClock (hx : names x) (hxy : n.IsClock d x y) :
    names y := by
  obtain ⟨b, hb, hc⟩ := hxy
  obtain ⟨z, hz, hname⟩ := h.clocks hx b hb _ hc
  obtain rfl := Ast.path.inj hz
  exact hname

theorem Regular.of_clocks (hx : names x)
    (hxy : Relation.ReflTransGen (n.IsClock d) x y) : names y := by
  induction hxy with
  | refl => exact hx
  | tail _ hstep ih => exact h.of_isClock ih hstep

variable (n d names)

/-- All that was found in one place was found in another. -/
structure Reach.Le (r s : Reach) : Prop where
  binds : ∀ x, names x → r.binds.Has x → s.binds.Has x
  sources : ∀ x, n.Compared names x → r.sources.contains x = true → s.sources.contains x = true

/-- The bindings and the sources of a name and of all its clocks were found. -/
def Settled (r : Reach) (x : Path) : Prop :=
  ∀ y, Relation.ReflTransGen (n.IsClock d) x y →
    (n.bindings y ≠ [] → r.binds.Has y) ∧ ∀ z, n.IsSource y z → r.sources.contains z = true

/-- What a search has found, when it began with some sources visited: each other source is settled
and is a source of some name. -/
structure Invariant (low : Path → List Binding) (visited : List Path) (r : Reach) : Prop where
  lists : n.Lists names low r.binds
  named : ∀ p ∈ r.sources, names p
  kept : ∀ p, n.Compared names p → visited.contains p = true → r.sources.contains p = true
  found : ∀ p ∈ r.sources, p ∈ visited ∨ n.Settled d r p ∧ ∃ x, names x ∧ n.IsSource x p

variable {n d names}

omit h in
theorem Reach.Le.trans {t : Reach} (hrs : Reach.Le n names r s) (hst : Reach.Le n names s t) :
    Reach.Le n names r t :=
  ⟨fun x hx h => hst.binds x hx (hrs.binds x hx h),
    fun x hx h => hst.sources x hx (hrs.sources x hx h)⟩

theorem Settled.mono (hrs : Reach.Le n names r s) (hx : names x)
    (hr : n.Settled d r x) : n.Settled d s x := by
  intro y hxy
  have hy := h.of_clocks hx hxy
  obtain ⟨hbinds, hsources⟩ := hr y hxy
  exact ⟨fun hne => hrs.binds y hy (hbinds hne),
    fun z hz => hrs.sources z (.inl (h.of_isSource hy hz)) (hsources z hz)⟩

/-- What is found from some visited sources on is put to what was found before. The visited sources
are the old ones, and such as are settled now. -/
theorem Invariant.join (hrespects : Respects names low)
    (hlow : ∀ x, names x → ∀ b ∈ low x, b ∈ n.bindings x) {found : Reach}
    (hr : n.Invariant d names low visited r) (hfound : n.Invariant d names n.bindings next found)
    (hnamed : ∀ p ∈ next, names p)
    (hnext : ∀ p, n.Compared names p → r.sources.contains p = true → next.contains p = true)
    (hnew : ∀ p ∈ next, p ∈ r.sources ∨ n.Settled d found p ∧ ∃ x, names x ∧ n.IsSource x p)
    (hbinds : s.binds = joinTables r.binds found.binds)
    (hsources : s.sources = distinctPaths (next ++ found.sources)) :
    n.Invariant d names low visited s ∧ Reach.Le n names r s ∧ Reach.Le n names found s := by
  obtain ⟨hlists, hhas⟩ := hr.lists.join h hrespects (hfound.lists.mono hlow)
  rw [← hbinds] at hlists hhas
  have hnames : ∀ p ∈ next ++ found.sources, names p := fun p hp =>
    (mem_append.mp hp).elim (hnamed p) (hfound.named p)
  have hmem : ∀ p ∈ s.sources, p ∈ next ++ found.sources := by
    rw [hsources]
    exact fun p => mem_of_mem_distinctPaths
  have hcontains : ∀ p, n.Compared names p → (s.sources.contains p = true ↔
      next.contains p = true ∨ found.sources.contains p = true) := by
    intro p hp
    rw [hsources, contains_distinctPaths h.matching hp fun p hp => .inl (hnames p hp),
      contains_append, Bool.or_eq_true]
  have hleft : Reach.Le n names r s :=
    ⟨fun x hx hin => (hhas x hx).mpr (.inl hin),
      fun x hx hin => (hcontains x hx).mpr (.inl (hnext x hx hin))⟩
  have hright : Reach.Le n names found s :=
    ⟨fun x hx hin => (hhas x hx).mpr (.inr hin), fun x hx hin => (hcontains x hx).mpr (.inr hin)⟩
  refine ⟨⟨hlists, fun p hp => hnames p (hmem p hp), ?_, fun p hp => ?_⟩, hleft, hright⟩
  · exact fun p hp hin => hleft.sources p hp (hr.kept p hp hin)
  · have hnext' : p ∈ next → p ∈ visited ∨ n.Settled d s p ∧ ∃ x, names x ∧ n.IsSource x p := by
      refine fun hp => (hnew p hp).elim (fun hp => ?_) fun hs => ?_
      · exact (hr.found p hp).imp_right fun hs => ⟨hs.1.mono h hleft (hr.named p hp), hs.2⟩
      · exact .inr ⟨hs.1.mono h hright (hnamed p hp), hs.2⟩
    rcases mem_append.mp (hmem p hp) with hp | hp
    · exact hnext' hp
    · exact (hfound.found p hp).elim hnext' fun hs =>
        .inr ⟨hs.1.mono h hright (hfound.named p hp), hs.2⟩

/-! ## Ends -/

theorem Regular.exists_key (hx : names x) :
    ∃ k ∈ n.terms.keys, (k == x) = true := by
  obtain ⟨t, ht⟩ := Option.isSome_iff_exists.mp (h.declared hx)
  obtain ⟨e, he, hex, -⟩ := Table.get?_eq_some ht
  exact ⟨e.1, mem_map_of_mem he, hex⟩

theorem Regular.chainsEnd (hx : names x) : ChainsEnd (n.IsClock d) n.terms.size x := by
  have hsize : n.terms.size = n.terms.keys.length := (length_map _).symm
  rw [hsize]
  refine .of_keys (P := names) (fun k x => (k == x) = true) h.of_isClock (fun hx => h.exists_key hx) ?_ hx
  intro x y hx hy hxy k hk hkx hky
  have hkc : n.Compared names k := .inr (.inl hk)
  have hmatch : (x == y) = true :=
    h.matching.trans (.inl hx) hkc (.inl hy) (h.matching.symm hkc (.inl hx) hkx) hky
  rw [h.acyclic hx hxy] at hmatch
  cases hmatch

/-- How many declared names were not visited. -/
def unvisited (n : Netlist) (visited : List Path) : Nat :=
  n.terms.keys.countP fun k => !visited.contains k

omit h in
theorem unvisited_le_size (n : Netlist) (visited : List Path) : n.unvisited visited ≤ n.terms.size := by
  refine countP_le_length.trans ?_
  simp [Table.keys, Table.size]

omit h in
theorem countP_unvisited_le
    (hkept : ∀ p, n.Compared names p → visited.contains p = true → next.contains p = true)
    {keys : List Path} (hkeys : keys ⊆ n.terms.keys) :
    keys.countP (fun k => !next.contains k) ≤ keys.countP fun k => !visited.contains k := by
  refine countP_mono_left fun k hk hnext => ?_
  have hkept' := hkept k (.inr (.inl (hkeys hk)))
  revert hnext hkept'
  cases visited.contains k <;> simp

omit h in
theorem unvisited_le
    (hkept : ∀ p, n.Compared names p → visited.contains p = true → next.contains p = true) :
    n.unvisited next ≤ n.unvisited visited := countP_unvisited_le hkept (List.Subset.refl _)

theorem Regular.unvisited_lt (hvisited : ∀ p ∈ visited, names p)
    (hnext : ∀ p ∈ next, names p)
    (hkept : ∀ p, n.Compared names p → visited.contains p = true → next.contains p = true)
    (hx : names x) (hout : visited.contains x = false) (hin : next.contains x = true) :
    n.unvisited next < n.unvisited visited := by
  obtain ⟨k, hk, hkx⟩ := h.exists_key hx
  have hmatch := h.matching
  have hkc : n.Compared names k := .inr (.inl hk)
  have hout' : visited.contains k = false := by
    rw [Bool.eq_false_iff] at hout ⊢
    intro hkin
    obtain ⟨p, hp, hpk⟩ := (hmatch.contains_iff hkc fun q hq => .inl (hvisited q hq)).mp hkin
    exact hout ((hmatch.contains_iff (.inl hx) fun q hq => .inl (hvisited q hq)).mpr
      ⟨p, hp, hmatch.trans (.inl (hvisited p hp)) hkc (.inl hx) hpk hkx⟩)
  have hin' : next.contains k = true := by
    obtain ⟨p, hp, hpx⟩ := (hmatch.contains_iff (.inl hx) fun q hq => .inl (hnext q hq)).mp hin
    exact (hmatch.contains_iff hkc fun q hq => .inl (hnext q hq)).mpr
      ⟨p, hp, hmatch.trans (.inl (hnext p hp)) (.inl hx) hkc hpx (hmatch.symm hkc (.inl hx) hkx)⟩
  obtain ⟨l₁, l₂, hkeys⟩ := append_of_mem hk
  have h₁ := countP_unvisited_le hkept (show l₁ ⊆ n.terms.keys by simp [hkeys])
  have h₂ := countP_unvisited_le hkept
    (show l₂ ⊆ n.terms.keys by rw [hkeys]; exact fun p hp => by simp [hp])
  rw [unvisited, unvisited, hkeys, countP_append, countP_append, countP_cons,
    countP_cons]
  simp only [hin', hout', Bool.not_true, Bool.not_false, Bool.false_eq_true, if_false, if_true]
  omega

/-! ## Searches -/

/-- A search from a signal on ends, and has found what it should. -/
def Finds (n : Netlist) (d : Drivers) (names : Path → Prop)
    (go : List Path → Path → Result Reach) (visited : List Path) (x : Path) : Prop :=
  ∃ r, go visited x = .ok r ∧ n.Invariant d names n.bindings visited r ∧ n.Settled d r x

section

variable {go : List Path → Path → Result Reach} {visited : List Path} {r : Reach}
  {name : Path}
variable {done : List Binding}

theorem Regular.partly_subset (hname : names name)
    (hdone : done ⊆ n.bindings name) (x : Path) (hx : names x) (b : Binding)
    (hb : b ∈ n.partly name done x) : b ∈ n.bindings x := by
  rw [partly] at hb
  split at hb
  · next hxn =>
    rw [h.bindings_congr hx hname hxn]
    exact hdone hb
  · exact hb

theorem followBinding_spec (hname : names name) {b : Binding}
    (hdone : done ++ [b] ⊆ n.bindings name)
    (hr : n.Invariant d names (n.partly name done) visited r) (hhas : done ≠ [] → r.binds.Has name)
    (hgo : ∀ c, n.IsClock d name c → n.Finds d names go r.sources c) :
    ∃ s, n.followBinding d go name r b = .ok s ∧
      n.Invariant d names (n.partly name (done ++ [b])) visited s ∧ s.binds.Has name ∧
      Reach.Le n names r s ∧ ∀ c, n.HasClock d b (.path c) → n.Settled d s c := by
  have hb : b ∈ n.bindings name := hdone (by simp)
  obtain ⟨hlists, hhas'⟩ := hr.lists.append h hname hhas hb
  have hself : (appendBinding r.binds name b).Has name :=
    (hhas' name hname).mpr (.inr (h.matching.refl (.inl hname)))
  have hle : Reach.Le n names r { r with binds := appendBinding r.binds name b } :=
    ⟨fun x hx hin => (hhas' x hx).mpr (.inl hin), fun _ _ hin => hin⟩
  have hr' : n.Invariant d names (n.partly name (done ++ [b])) visited
      { r with binds := appendBinding r.binds name b } :=
    ⟨hlists, hr.named, hr.kept, fun p hp =>
      (hr.found p hp).imp_right fun hs => ⟨hs.1.mono h hle (hr.named p hp), hs.2⟩⟩
  cases hclock : n.otherClock? d b with
  | none =>
    refine ⟨_, ?_, hr', hself, hle, fun c hc => ?_⟩
    · simp only [followBinding, hclock]
      rfl
    · cases hclock.symm.trans (otherClock?_eq_some.mpr hc)
  | some a =>
    have hwaits := otherClock?_eq_some.mp hclock
    obtain ⟨c, rfl, hcname⟩ := h.clocks hname b hb a hwaits
    obtain ⟨found, hrun, hfound, hsettled⟩ := hgo c ⟨b, hb, hwaits⟩
    obtain ⟨hjoin, hleft, hright⟩ := hr'.join h (h.respects_partly hname _)
      (h.partly_subset hname hdone) hfound hr.named (fun _ _ hin => hin) (fun p hp => .inl hp)
      (s := Reach.join { r with binds := appendBinding r.binds name b } found) rfl rfl
    refine ⟨_, ?_, hjoin, hleft.binds name hname hself, hle.trans hleft, fun c' hc' => ?_⟩
    · simp only [followBinding, hclock, hrun]
      rfl
    · obtain rfl := Ast.path.inj (Option.some.inj (hclock.symm.trans (otherClock?_eq_some.mpr hc')))
      exact hsettled.mono h hright hcname

theorem followSource_spec (hname : names name) {p : Path}
    (hp : n.IsSource name p) (hr : n.Invariant d names n.bindings visited r)
    (hgo : visited.contains p = false →
      n.Finds d names go (distinctPaths (r.sources ++ [p])) p) :
    ∃ s, followSource go visited r p = .ok s ∧ n.Invariant d names n.bindings visited s ∧
      Reach.Le n names r s ∧ s.sources.contains p = true := by
  have hpname : names p := h.of_isSource hname hp
  rw [followSource]
  cases hin : visited.contains p with
  | true => exact ⟨r, rfl, hr, ⟨fun _ _ h => h, fun _ _ h => h⟩, hr.kept p (.inl hpname) hin⟩
  | false =>
    obtain ⟨found, hrun, hfound, hsettled⟩ := hgo hin
    have hall : ∀ q ∈ r.sources ++ [p], names q := by
      simpa [or_imp, forall_and] using ⟨hr.named, hpname⟩
    have hcontains : ∀ q, n.Compared names q →
        ((distinctPaths (r.sources ++ [p])).contains q = true ↔
          r.sources.contains q = true ∨ (q == p) = true) := by
      intro q hq
      rw [contains_distinctPaths h.matching hq fun q hq => .inl (hall q hq)]
      simp
    obtain ⟨hjoin, hleft, hright⟩ := hr.join h h.bindings_congr (fun _ _ _ hb => hb) hfound
      (fun q hq => hall q (mem_of_mem_distinctPaths hq))
      (fun q hq hqin => (hcontains q hq).mpr (.inl hqin))
      (fun q hq => by
        rcases mem_append.mp (mem_of_mem_distinctPaths hq) with hq | hq
        · exact .inl hq
        · rw [mem_singleton.mp hq]
          exact .inr ⟨hsettled, name, hname, hp⟩)
      (s := Reach.join { r with sources := distinctPaths (r.sources ++ [p]) } found) rfl rfl
    refine ⟨_, ?_, hjoin, hleft, ?_⟩
    · simp only [Bool.false_eq_true, if_false, hrun]
      rfl
    · exact hright.sources p (.inl hpname) (hfound.kept p (.inl hpname)
        ((hcontains p (.inl hpname)).mpr (.inr (h.matching.refl (.inl hpname)))))

theorem followBindings_spec (hname : names name)
    (hvisited : ∀ p ∈ visited, names p)
    (hgo : ∀ next c, n.IsClock d name c → (∀ p ∈ next, names p) →
      n.unvisited next ≤ n.unvisited visited → n.Finds d names go next c) :
    ∃ r, (n.bindings name).foldlM (n.followBinding d go name) { sources := visited } = .ok r ∧
      n.Invariant d names n.bindings visited r ∧ (n.bindings name ≠ [] → r.binds.Has name) ∧
      ∀ c, n.IsClock d name c → n.Settled d r c := by
  have hnone : n.Lists names (n.partly name []) {} := ⟨.nil, forall_mem_nil _⟩
  obtain ⟨r, hr, hinv, hhas, hclocks⟩ : ∃ r,
      (n.bindings name).foldlM (n.followBinding d go name) { sources := visited } = .ok r ∧
      n.Invariant d names (n.partly name (n.bindings name)) visited r ∧
      (n.bindings name ≠ [] → r.binds.Has name) ∧
      ∀ b ∈ n.bindings name, ∀ c, n.HasClock d b (.path c) → n.Settled d r c := by
    refine exists_foldlM_eq_ok (fun done r =>
      n.Invariant d names (n.partly name done) visited r ∧ (done ≠ [] → r.binds.Has name) ∧
      ∀ b ∈ done, ∀ c, n.HasClock d b (.path c) → n.Settled d r c) ?_ ?_
    · exact ⟨⟨hnone, hvisited, fun _ _ hin => hin, fun p hp => .inl hp⟩, by simp, by simp⟩
    · rintro done b r hdone ⟨hinv, hhas, hclocks⟩
      have hsub : done ++ [b] ⊆ n.bindings name := hdone.subset
      obtain ⟨s, hs, hinv', hhas', hle, hclock⟩ := followBinding_spec h hname hsub hinv hhas
        fun c hc => hgo r.sources c hc hinv.named (unvisited_le hinv.kept)
      refine ⟨s, hs, hinv', fun _ => hhas', fun b' hb' c hc => ?_⟩
      rcases mem_append.mp hb' with hb'' | hb''
      · exact (hclocks b' hb'' c hc).mono h hle
          (h.of_isClock hname ⟨b', hsub (mem_append_left _ hb''), hc⟩)
      · rw [mem_singleton.mp hb''] at hc
        exact hclock c hc
  have hlists : n.Lists names n.bindings r.binds := by
    refine hinv.lists.mono fun x hx b hb => ?_
    rw [partly]
    split
    · next hxname => rwa [← h.bindings_congr hx hname hxname]
    · exact hb
  refine ⟨r, hr, ⟨hlists, hinv.named, hinv.kept, hinv.found⟩, hhas, ?_⟩
  rintro c ⟨b, hb, hc⟩
  exact hclocks b hb c hc

theorem followSources_spec (hname : names name) {sources : List Path}
    (hsources : ∀ p ∈ sources, n.IsSource name p) (hvisited : ∀ p ∈ visited, names p)
    (hr : n.Invariant d names n.bindings visited r)
    (hgo : ∀ next p, n.IsSource name p → (∀ q ∈ next, names q) →
      n.unvisited next < n.unvisited visited → n.Finds d names go next p) :
    ∃ s, sources.foldlM (followSource go visited) r = .ok s ∧
      n.Invariant d names n.bindings visited s ∧ Reach.Le n names r s ∧
      ∀ p ∈ sources, s.sources.contains p = true := by
  refine exists_foldlM_eq_ok (fun done s => n.Invariant d names n.bindings visited s ∧
    Reach.Le n names r s ∧ ∀ p ∈ done, s.sources.contains p = true) ?_ ?_
  · exact ⟨hr, ⟨fun _ _ h => h, fun _ _ h => h⟩, by simp⟩
  · rintro done p s hdone ⟨hinv, hle, hcontains⟩
    have hsource : ∀ q ∈ done ++ [p], n.IsSource name q := fun q hq => hsources q (hdone.subset hq)
    have hp : n.IsSource name p := hsource p (by simp)
    have hpname : names p := h.of_isSource hname hp
    have hall : ∀ q ∈ s.sources ++ [p], names q := by
      simpa [or_imp, forall_and] using ⟨hinv.named, hpname⟩
    obtain ⟨t, ht, hinv', hle', hin⟩ := followSource_spec h hname hp hinv fun hout => by
      have hnext : ∀ q, n.Compared names q → (s.sources ++ [p]).contains q = true →
          (distinctPaths (s.sources ++ [p])).contains q = true := fun q hq =>
        (contains_distinctPaths h.matching hq fun q hq => .inl (hall q hq)).mpr
      refine hgo _ p hp (fun q hq => hall q (mem_of_mem_distinctPaths hq)) ?_
      refine h.unvisited_lt hvisited (fun q hq => hall q (mem_of_mem_distinctPaths hq))
        (fun q hq hqin => hnext q hq ?_) hpname hout (hnext p (.inl hpname) ?_)
      · rw [contains_append, hinv.kept q hq hqin]
        rfl
      · simp [h.matching.refl (.inl hpname)]
    refine ⟨t, ht, hinv', hle.trans hle', fun q hq => ?_⟩
    rcases mem_append.mp hq with hq' | hq'
    · exact hle'.sources q (.inl (h.of_isSource hname (hsource q hq))) (hcontains q hq')
    · rw [mem_singleton.mp hq']
      exact hin

end

/-- A search finds the bindings and sources of a signal and of all that it depends on, apart from
what was visited before. -/
theorem search_spec (horder : ∀ x ss, (order x ss).Perm ss) {fuel : Nat}
    (hname : names name) (hvisited : ∀ p ∈ visited, names p) (hk : ChainsEnd (n.IsClock d) k name)
    (hfuel : n.unvisited visited * (n.terms.size + 1) + k < fuel) :
    n.Finds d names (n.search d order fuel) visited name := by
  induction fuel generalizing k visited name with
  | zero => omega
  | succ fuel ih =>
    obtain ⟨sources, hsources, -⟩ := h.sources hname
    -- A clock has a shorter chain of clocks before it, and nothing that was visited is lost.
    have hgoClock : ∀ next c, n.IsClock d name c → (∀ p ∈ next, names p) →
        n.unvisited next ≤ n.unvisited visited →
        n.Finds d names (n.search d order fuel) next c := by
      intro next c hc hnext hle
      obtain _ | k := k
      · exact absurd hc (hk c)
      · have := Nat.mul_le_mul_right (n.terms.size + 1) hle
        exact ih (h.of_isClock hname hc) hnext (hk c hc) (by omega)
    -- A source was not visited before, and is now.
    have hgoSource : ∀ next p, n.IsSource name p → (∀ q ∈ next, names q) →
        n.unvisited next < n.unvisited visited →
        n.Finds d names (n.search d order fuel) next p := by
      intro next p hp hnext hlt
      have := Nat.mul_le_mul_right (n.terms.size + 1) (Nat.succ_le_of_lt hlt)
      rw [Nat.succ_mul] at this
      exact ih (h.of_isSource hname hp) hnext (h.chainsEnd (h.of_isSource hname hp)) (by omega)
    have hperm : ∀ p, p ∈ order name sources ↔ p ∈ sources := fun p => (horder name sources).mem_iff
    obtain ⟨r, hr, hinv, hhas, hclocks⟩ := followBindings_spec h hname hvisited hgoClock
    obtain ⟨s, hs, hinv', hle, hin⟩ := followSources_spec h hname
      (fun p hp => ⟨sources, hsources, (hperm p).mp hp⟩) hvisited hinv hgoSource
    refine ⟨s, ?_, hinv', fun y hy => ?_⟩
    · rw [search, if_neg (by simp [h.declared hname])]
      exact bind_eq_ok.mpr ⟨r, hr, bind_eq_ok.mpr ⟨sources, hsources, hs⟩⟩
    · rcases hy.cases_head with rfl | ⟨c, hc, hcy⟩
      · refine ⟨fun hne => hle.binds name hname (hhas hne), fun z hz => ?_⟩
        obtain ⟨ss, hss, hz⟩ := hz
        obtain rfl := Except.ok.inj (hss.symm.trans hsources)
        exact hin z ((hperm z).mpr hz)
      · exact (hclocks c hc).mono h hle (h.of_isClock hname hc) y hcy

theorem searchAll_spec (horder : ∀ x ss, (order x ss).Perm ss)
    (htargets : ∀ t ∈ targets, names t) :
    ∃ r, n.searchAll d order targets = .ok r ∧ n.Invariant d names n.bindings [] r ∧
      ∀ t ∈ targets, n.Settled d r t := by
  have hnone : n.Lists names n.bindings {} := ⟨.nil, forall_mem_nil _⟩
  refine exists_foldlM_eq_ok (fun done r => n.Invariant d names n.bindings [] r ∧
    ∀ t ∈ done, n.Settled d r t) ?_ ?_
  · exact ⟨⟨hnone, by simp, by simp, by simp⟩, by simp⟩
  · rintro done t r hdone ⟨hinv, hsettled⟩
    have hname : ∀ u ∈ done ++ [t], names u := fun u hu => htargets u (hdone.subset hu)
    have hfuel : n.unvisited r.sources * (n.terms.size + 1) + n.terms.size <
        (n.terms.size + 1) ^ 2 := by
      have := Nat.mul_le_mul_right (n.terms.size + 1) (n.unvisited_le_size r.sources)
      rw [Nat.pow_two, Nat.succ_mul]
      omega
    have ht := hname t (by simp)
    obtain ⟨found, hrun, hfound, hsettled'⟩ :=
      search_spec h horder ht hinv.named (h.chainsEnd ht) hfuel
    obtain ⟨hjoin, hleft, hright⟩ := hinv.join h h.bindings_congr (fun _ _ _ hb => hb) hfound
      hinv.named (fun _ _ hin => hin) (fun p hp => .inl hp) (s := r.join found) rfl rfl
    refine ⟨r.join found, ?_, hjoin, fun u hu => ?_⟩
    · rw [hrun]
      rfl
    · rcases mem_append.mp hu with hu' | hu'
      · exact (hsettled u hu').mono h hleft (hname u hu)
      · rw [mem_singleton.mp hu']
        exact hsettled'.mono h hright ht

/-! ## The closure -/

end

/-- All that can be reached from some signals: the bindings of each name that has some, and all
sources. -/
structure IsClosure (n : Netlist) (d : Drivers) (targets : List Path) (r : Reach) : Prop where
  distinct : r.binds.Distinct
  /-- The keys can be reached and have bindings, and nothing else can and has. -/
  key_reached : ∀ k ∈ r.binds.keys, n.Reached d targets k ∧ n.bindings k ≠ []
  reached_key : ∀ x, n.Reached d targets x → n.bindings x ≠ [] → r.binds.Has x
  bindings : ∀ e ∈ r.binds.entries, ∀ b, b ∈ e.2 ↔ b ∈ n.bindings e.1
  source_reached : ∀ p ∈ r.sources, ∃ x, n.Reached d targets x ∧ n.IsSource x p
  reached_source : ∀ x p, n.Reached d targets x → n.IsSource x p → r.sources.contains p = true

/-- The same bindings and sources were found, though perhaps in another order. -/
structure Reach.Agrees (r s : Reach) : Prop where
  binds : ∀ e ∈ r.binds.entries, ∃ f ∈ s.binds.entries, (f.1 == e.1) = true ∧
    ∀ b, b ∈ e.2 ↔ b ∈ f.2
  sources : ∀ p ∈ r.sources, s.sources.contains p = true

theorem Regular.of_reached (h : n.Regular d names) (htargets : ∀ t ∈ targets, names t)
    (hx : n.Reached d targets x) : names x := by
  obtain ⟨t, ht, hpath⟩ := hx
  induction hpath with
  | refl => exact htargets t ht
  | tail _ hstep ih => exact hstep.elim (h.of_isSource ih) (h.of_isClock ih)

theorem Regular.reached (h : n.Regular d names) (htargets : ∀ t ∈ targets, names t) :
    n.Regular d (n.Reached d targets) where
  declared hx := h.declared (h.of_reached htargets hx)
  sources {x} hx := by
    obtain ⟨ss, hss, -⟩ := h.sources (h.of_reached htargets hx)
    obtain ⟨t, ht, hpath⟩ := hx
    exact ⟨ss, hss, fun y hy => ⟨t, ht, hpath.tail (.inl ⟨ss, hss, hy⟩)⟩⟩
  clocks {x} hx b hb c hc := by
    obtain ⟨y, rfl, -⟩ := h.clocks (h.of_reached htargets hx) b hb c hc
    obtain ⟨t, ht, hpath⟩ := hx
    exact ⟨y, rfl, t, ht, hpath.tail (.inr ⟨b, hb, hc⟩)⟩
  acyclic hx hxy := h.acyclic (h.of_reached htargets hx) hxy
  matching := by
    have himp : ∀ {p}, n.Compared (n.Reached d targets) p → n.Compared names p :=
      fun hp => hp.imp_left (h.of_reached htargets)
    exact ⟨fun hp => h.matching.refl (himp hp), fun hp hq => h.matching.symm (himp hp) (himp hq),
      fun hp hq hr => h.matching.trans (himp hp) (himp hq) (himp hr)⟩

theorem exists_settled (h : n.Regular d names) (htargets : ∀ t ∈ targets, names t)
    (hinv : n.Invariant d names n.bindings [] r) (hsettled : ∀ t ∈ targets, n.Settled d r t)
    (hx : n.Reached d targets x) :
    ∃ v y, names v ∧ n.Settled d r v ∧ Relation.ReflTransGen (n.IsClock d) v y ∧ (y == x) = true := by
  obtain ⟨t, ht, hpath⟩ := hx
  induction hpath with
  | refl => exact ⟨t, t, htargets t ht, hsettled t ht, .refl, h.matching.refl (.inl (htargets t ht))⟩
  | @tail x z hpath hstep ih =>
    obtain ⟨v, y, hv, hvsettled, hvy, hyx⟩ := ih
    have hx : names x := h.of_reached htargets ⟨t, ht, hpath⟩
    have hy : names y := h.of_clocks hv hvy
    rcases hstep with ⟨ss, hss, hz⟩ | ⟨b, hb, hc⟩
    · -- A source of `x` is one of `y`, so it was found and is settled.
      have hsource : n.IsSource y z := ⟨ss, by rwa [h.bindSources_congr hy hx hyx], hz⟩
      have hzname : names z := h.of_isSource hy hsource
      obtain ⟨p, hp, hpz⟩ := (h.matching.contains_iff (.inl hzname)
        fun q hq => .inl (hinv.named q hq)).mp ((hvsettled y hvy).2 z hsource)
      have hpsettled := ((hinv.found p hp).resolve_left not_mem_nil).1
      exact ⟨p, p, hinv.named p hp, hpsettled, .refl, hpz⟩
    · have hclock : n.IsClock d y z := ⟨b, by rwa [h.bindings_congr hy hx hyx], hc⟩
      exact ⟨v, z, hv, hvsettled, hvy.tail hclock,
        h.matching.refl (.inl (h.of_isClock hy hclock))⟩

theorem Invariant.isClosure (h : n.Regular d (n.Reached d targets))
    (hinv : n.Invariant d (n.Reached d targets) n.bindings [] r)
    (hsettled : ∀ t ∈ targets, n.Settled d r t) : n.IsClosure d targets r := by
  have htargets : ∀ t ∈ targets, n.Reached d targets t := fun t ht => ⟨t, ht, .refl⟩
  refine ⟨hinv.lists.distinct, ?_, ?_, ?_, ?_, ?_⟩
  · intro k hk
    obtain ⟨e, he, rfl⟩ := mem_map.mp hk
    obtain ⟨hname, hne, -, hupper⟩ := hinv.lists.entry e he
    obtain ⟨b, hb⟩ := exists_mem_of_ne_nil _ hne
    exact ⟨hname, ne_nil_of_mem (hupper b hb)⟩
  · intro x hx hne
    obtain ⟨v, y, hv, hvsettled, hvy, hyx⟩ := exists_settled h htargets hinv hsettled hx
    have hy := h.of_clocks hv hvy
    rw [← h.bindings_congr hy hx hyx] at hne
    obtain ⟨k, hk, hky⟩ := (hvsettled y hvy).1 hne
    exact ⟨k, hk, h.matching.trans (.inl (hinv.lists.named k hk)) (.inl hy) (.inl hx) hky hyx⟩
  · intro e he b
    obtain ⟨-, -, hlower, hupper⟩ := hinv.lists.entry e he
    exact ⟨hupper b, hlower b⟩
  · intro p hp
    obtain ⟨-, x, hx, hxp⟩ := (hinv.found p hp).resolve_left not_mem_nil
    exact ⟨x, hx, hxp⟩
  · intro x p hx ⟨ss, hss, hp⟩
    obtain ⟨v, y, hv, hvsettled, hvy, hyx⟩ := exists_settled h htargets hinv hsettled hx
    rw [← h.bindSources_congr (h.of_clocks hv hvy) hx hyx] at hss
    exact (hvsettled y hvy).2 p ⟨ss, hss, hp⟩

theorem IsClosure.agrees (h : n.Regular d (n.Reached d targets)) (hr : n.IsClosure d targets r)
    (hs : n.IsClosure d targets s) : r.Agrees s where
  binds e he := by
    obtain ⟨hreached, hne⟩ := hr.key_reached e.1 (mem_map_of_mem he)
    obtain ⟨k, hk, hke⟩ := hs.reached_key e.1 hreached hne
    obtain ⟨f, hf, rfl⟩ := mem_map.mp hk
    refine ⟨f, hf, hke, fun b => ?_⟩
    rw [hr.bindings e he, hs.bindings f hf, h.bindings_congr (hs.key_reached f.1 hk).1 hreached hke]
  sources p hp := by
    obtain ⟨x, hx, hxp⟩ := hr.source_reached p hp
    exact hs.reached_source x p hx hxp

/-- The search ends, and it finds what can be reached from its targets by going to sources and clocks:
the names that have bindings, each with its bindings, and all sources. The order in which the sources
of a name are taken does not matter. -/
theorem searchAll_closure (h : n.Regular d names) (htargets : ∀ t ∈ targets, names t)
    (horder : ∀ x ss, (order x ss).Perm ss) :
    ∃ r, n.searchAll d order targets = .ok r ∧ n.IsClosure d targets r ∧
      ∀ order' : Path → List Path → List Path, (∀ x ss, (order' x ss).Perm ss) →
        ∃ s, n.searchAll d order' targets = .ok s ∧ r.Agrees s ∧ s.Agrees r := by
  have hreached := h.reached htargets
  have hfinds : ∀ order : Path → List Path → List Path, (∀ x ss, (order x ss).Perm ss) →
      ∃ r, n.searchAll d order targets = .ok r ∧ n.IsClosure d targets r := by
    intro order horder
    obtain ⟨r, hr, hinv, hsettled⟩ :=
      searchAll_spec hreached horder fun t ht => ⟨t, ht, .refl⟩
    exact ⟨r, hr, hinv.isClosure hreached hsettled⟩
  obtain ⟨r, hr, hclosure⟩ := hfinds order horder
  refine ⟨r, hr, hclosure, fun order' horder' => ?_⟩
  obtain ⟨s, hs, hclosure'⟩ := hfinds order' horder'
  exact ⟨s, hs, hclosure.agrees hreached hclosure', hclosure'.agrees hreached hclosure⟩

section Examples

def dividedNames : List Path :=
  ["CLK", "slow", "a", "b"].map fun s => Path.ofNames ["TOP", s]

/-- A register `a` that follows `b` at the edges of `slow`, which follows the clock. The signal `b`
follows `a` in turn. -/
def dividedClock : Netlist where
  terms := ⟨dividedNames.map fun p => (p, { name := p })⟩
  binds :=
    let signal (s : String) : Path := Path.ofNames ["TOP", s]
    ⟨[(signal "slow", [{ tree := .term (signal "CLK"), dest := signal "slow" }]),
      (signal "a", [{
        tree := .term (signal "b")
        dest := signal "a"
        always := some { clock := ⟨.path (signal "slow"), .text "posedge", .absent⟩ } }]),
      (signal "b", [{ tree := .op "Unot" [.term (signal "a")], dest := signal "b" }])]⟩

/-- From `b` the search comes to `a` and back, and through the clock of `a` to the clock of the
module. -/
theorem searchAll_closure_divided :
    ∃ r, dividedClock.searchAll {} (fun _ ss => ss.reverse) [Path.ofNames ["TOP", "b"]] = .ok r ∧
      dividedClock.IsClosure {} [Path.ofNames ["TOP", "b"]] r ∧
      ∀ order' : Path → List Path → List Path, (∀ x ss, (order' x ss).Perm ss) →
        ∃ s, dividedClock.searchAll {} order' [Path.ofNames ["TOP", "b"]] = .ok s ∧
          r.Agrees s ∧ s.Agrees r := by
  have heq : ∀ p ∈ dividedNames, ∀ q ∈ dividedNames, (p == q) = true ↔ p = q := by decide
  have hcompared : ∀ p, dividedClock.Compared (· ∈ dividedNames) p → p ∈ dividedNames := by
    have hterms : dividedClock.terms.keys = dividedNames := rfl
    have hbinds : dividedClock.binds.keys = dividedNames.tail := rfl
    rintro p (hp | hp | hp)
    exacts [hp, hterms ▸ hp, mem_of_mem_tail (hbinds ▸ hp)]
  -- Only the register has a clock of its own.
  have hclock : ∀ x ∈ dividedNames, ∀ b ∈ dividedClock.bindings x, ∀ c,
      dividedClock.HasClock {} b c →
      x = Path.ofNames ["TOP", "a"] ∧ c = .path (Path.ofNames ["TOP", "slow"]) := by
    rintro x hx b hb c ⟨s, hs, -, rfl, -⟩
    fin_cases hx
    · cases hb
    · obtain rfl := mem_singleton.mp hb
      cases hs
    · obtain rfl := mem_singleton.mp hb
      cases hs
      exact ⟨rfl, rfl⟩
    · obtain rfl := mem_singleton.mp hb
      cases hs
  have hregular : dividedClock.Regular {} (· ∈ dividedNames) := {
    declared := by decide
    sources := by
      intro x hx
      fin_cases hx
      · exact ⟨[], rfl, by simp⟩
      · exact ⟨[Path.ofNames ["TOP", "CLK"]], rfl, by simp [dividedNames]⟩
      · exact ⟨[Path.ofNames ["TOP", "b"]], rfl, by simp [dividedNames]⟩
      · exact ⟨[Path.ofNames ["TOP", "a"]], rfl, by simp [dividedNames]⟩
    clocks := fun hx b hb c hc => ⟨_, (hclock _ hx b hb c hc).2, by simp [dividedNames]⟩
    acyclic := by
      intro x y hx hxy
      obtain ⟨rfl, rfl⟩ : x = Path.ofNames ["TOP", "a"] ∧ y = Path.ofNames ["TOP", "slow"] := by
        induction hxy with
        | single hstep =>
          obtain ⟨b, hb, hc⟩ := hstep
          exact (hclock x hx b hb _ hc).imp_right Ast.path.inj
        | tail _ hstep ih =>
          obtain ⟨b, hb, hc⟩ := hstep
          rw [ih.2] at hb
          have := (hclock _ (by simp [dividedNames]) b hb _ hc).1
          simp [Path.ofNames] at this
      decide
    matching := {
      refl := fun hp => (heq _ (hcompared _ hp) _ (hcompared _ hp)).mpr rfl
      symm := fun hp hq h => (heq _ (hcompared _ hq) _ (hcompared _ hp)).mpr
        ((heq _ (hcompared _ hp) _ (hcompared _ hq)).mp h).symm
      trans := fun hp hq hr h h' => by
        rw [(heq _ (hcompared _ hp) _ (hcompared _ hq)).mp h]
        exact h' } }
  exact searchAll_closure hregular (by simp [dividedNames]) fun _ ss => ss.reverse_perm

end Examples

end Netlist

end RtlFlow
