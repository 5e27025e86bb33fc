import Mathlib
import RtlFlow.Design.Modules
import RtlFlow.Proofs.Computation
import RtlFlow.Proofs.Table

/-!
# Signals that are fed back

A block feeds another one if it assigns a name that the other one reads. The interesting signals of
a module are those on which a block decides and that are assigned again where the block leads to:
by the block itself if it has a clock, and else at the end of a chain of blocks without clocks. The
chains are followed without a note of the blocks that were visited. They come to an end because no
such chain goes round in a circle.

* `Module.Built`: modules as they are collected.
* `Module.FedBack`: the names that are fed back.
-/

namespace RtlFlow.Design

open List

variable {m : Module} {b c : AlwaysBlock} {x : String}

/-- Some name that `b` assigns is read by `c`. -/
def AlwaysBlock.Feeds (b c : AlwaysBlock) : Prop :=
  ∃ x ∈ b.state.keys, x ∈ c.control.keys ∨ x ∈ c.data.keys

theorem AlwaysBlock.reads_iff : c.reads b.state.keys = true ↔ b.Feeds c := by
  simp only [reads, Feeds, any_eq_true, mem_append, contains_iff_mem]
  exact exists_congr fun x => and_comm

namespace Module

/-! ## Collected modules -/

/-- A module that is put together step by step: with what it declares and contains, with new always
blocks, and with the names that the statements of the last block read, decide on and assign. -/
inductive Built : Module → Prop
  | new (d : Definition) : Built { toDefinition := d }
  | declare (d : Definition) (is ls : List Ast) (rs : Table Ast (Scalar × Scalar)) {m : Module}
      (h : Built m) :
      Built { m with toDefinition := d, instances := is, instanceLists := ls, limits := rs }
  | addBlock {m : Module} (node : Ast) {b : AlwaysBlock} (h : Built m) (hb : b.number = m.made) :
      Built (m.addBlock node b)
  | addData {m m' : Module} {t : Ast} (h : Built m) (ht : m.addData t = .ok m') : Built m'
  | addControl {m m' : Module} {t : Ast} (h : Built m) (ht : m.addControl t = .ok m') : Built m'
  | addState {m m' : Module} {t : Ast} (h : Built m) (ht : m.addState t = .ok m') : Built m'

/-- Nothing is interesting yet, and each always block has a number of its own. -/
structure Fresh (m : Module) : Prop where
  interesting : m.interesting = []
  numbers : (m.blocks.values.map AlwaysBlock.number).Nodup
  made : ∀ n ∈ m.blocks.values.map AlwaysBlock.number, n < m.made

theorem Fresh.congr {m' : Module} (h : m.Fresh) (hinteresting : m'.interesting = m.interesting)
    (hnumbers : m'.blocks.values.map AlwaysBlock.number = m.blocks.values.map AlwaysBlock.number)
    (hmade : m'.made = m.made) : m'.Fresh :=
  ⟨hinteresting.trans h.interesting, hnumbers ▸ h.numbers, hnumbers ▸ hmade ▸ h.made⟩

theorem Fresh.note {add : AlwaysBlock → String → AlwaysBlock} {m' : Module} {t : Ast}
    (h : m.Fresh) (ht : m.note add t = .ok m')
    (hadd : ∀ b name, (add b name).number = b.number) : m'.Fresh := by
  obtain ⟨⟨node, b⟩, hlast, ht⟩ := bind_eq_ok.mp ht
  obtain ⟨names, -, ht⟩ := bind_eq_ok.mp ht
  cases ht
  have hget : m.blocks.get? node = some b := by
    rw [lastBlock] at hlast
    split at hlast
    · cases hlast
    · split at hlast
      · cases hlast
        assumption
      · cases hlast
  have hnumber : (names.foldl add b).number = b.number :=
    names.foldlRecOn (motive := fun c => c.number = b.number) add rfl
      fun c hc name _ => (hadd c name).trans hc
  refine h.congr rfl ?_ rfl
  rcases m.blocks.put_cases node (names.foldl add b) with
    ⟨l₁, e, l₂, heq, -, hfound, hput⟩ | ⟨-, hnone, -⟩
  · rw [hget] at hfound
    cases hfound
    simp [Table.values, heq, hput, hnumber]
  · simp [hget] at hnone

theorem Fresh.addBlock {node : Ast} (h : m.Fresh) (hb : b.number = m.made) :
    (m.addBlock node b).Fresh := by
  obtain ⟨hinteresting, hnumbers, hmade⟩ := h
  have hnew : m.made ∉ m.blocks.values.map AlwaysBlock.number :=
    fun hmem => Nat.lt_irrefl _ (hmade _ hmem)
  -- The numbers are those that were there, less the one that is replaced, and the new one.
  obtain ⟨ns, hsub, hperm⟩ : ∃ ns, ns.Sublist (m.blocks.values.map AlwaysBlock.number) ∧
      ((m.blocks.put node b).values.map AlwaysBlock.number).Perm (m.made :: ns) := by
    rcases m.blocks.put_cases node b with ⟨l₁, e, l₂, heq, -, -, hput⟩ | ⟨-, -, hput⟩
    · refine ⟨(l₁ ++ l₂).map (AlwaysBlock.number ∘ Prod.snd), ?_, ?_⟩
      · simp [Table.values, heq]
      · simp [Table.values, hput, hb]
    · exact ⟨_, .refl _, by simp [Table.values, hput, hb]⟩
  refine ⟨hinteresting, hperm.nodup_iff.mpr ?_, fun n hn => ?_⟩
  · exact nodup_cons.mpr ⟨fun hmem => hnew (hsub.subset hmem), hnumbers.sublist hsub⟩
  · rcases mem_cons.mp (hperm.mem_iff.mp hn) with rfl | hn
    · exact Nat.lt_succ_self _
    · exact Nat.lt_succ_of_lt (hmade n (hsub.subset hn))

theorem Built.fresh (h : m.Built) : m.Fresh := by
  induction h with
  | new d => exact ⟨rfl, .nil, by simp [Table.values]⟩
  | declare d is ls rs _ ih => exact ih.congr rfl rfl rfl
  | addBlock node _ hb ih => exact ih.addBlock hb
  | addData _ ht ih => exact ih.note ht fun _ _ => rfl
  | addControl _ ht ih => exact ih.note ht fun _ _ => rfl
  | addState _ ht ih =>
    obtain ⟨_, -, ht⟩ := bind_eq_ok.mp ht
    obtain ⟨_, -, ht⟩ := bind_eq_ok.mp ht
    obtain ⟨m', hm', ht⟩ := bind_eq_ok.mp ht
    cases ht
    exact (ih.note hm' fun _ _ => rfl).congr rfl rfl rfl

theorem Fresh.number_eq_iff (h : m.Fresh) (hb : b ∈ m.blocks.values) (hc : c ∈ m.blocks.values) :
    c.number = b.number ↔ c = b :=
  ⟨fun heq => inj_on_of_nodup_map h.numbers hc hb heq, fun heq => heq ▸ rfl⟩

/-! ## Chains of blocks -/

variable (m)

/-- Two different blocks without clocks, of which the first feeds the second. -/
structure Through (b c : AlwaysBlock) : Prop where
  left : b ∈ m.blocks.values ∧ b.combinational = true
  right : c ∈ m.blocks.values ∧ c.combinational = true
  ne : b ≠ c
  feeds : b.Feeds c

def Acyclic : Prop := ∀ b, ¬ Relation.TransGen m.Through b b

/-- `x` is assigned where a chain of blocks without clocks, starting with `b`, leads to: by a block
with a clock that its last block feeds, or by the last block if it feeds itself. -/
def LeadsTo (b : AlwaysBlock) (x : String) : Prop :=
  ∃ d, Relation.ReflTransGen m.Through b d ∧
    ∃ c ∈ m.blocks.values, d.Feeds c ∧ (c.combinational = false ∨ c = d) ∧ x ∈ c.state.keys

def Returns (b : AlwaysBlock) (x : String) : Prop :=
  b.combinational = false ∧ x ∈ b.state.keys ∨ b.combinational = true ∧ m.LeadsTo b x

/-- Some block decides on `x`, and what it decides comes back to `x`. -/
def FedBack (x : String) : Prop := ∃ b ∈ m.blocks.values, x ∈ b.control.keys ∧ m.Returns b x

variable {m}

/-- A chain ends in the block where it starts, or it goes on with a block that this one feeds. -/
theorem leadsTo_iff (hb : b ∈ m.blocks.values) (hcomb : b.combinational = true) :
    m.LeadsTo b x ↔ ∃ c ∈ m.blocks.values, b.Feeds c ∧
      ((c.combinational = true ∧ c ≠ b) ∧ m.LeadsTo c x ∨
        (c.combinational = false ∨ c = b) ∧ x ∈ c.state.keys) := by
  constructor
  · rintro ⟨d, hbd, c, hc, hfeeds, hend, hx⟩
    rcases hbd.cases_head with rfl | ⟨e, hbe, hed⟩
    · exact ⟨c, hc, hfeeds, .inr ⟨hend, hx⟩⟩
    · exact ⟨e, hbe.right.1, hbe.feeds, .inl ⟨⟨hbe.right.2, hbe.ne.symm⟩, d, hed, c, hc, hfeeds,
        hend, hx⟩⟩
  · rintro ⟨c, hc, hfeeds, ⟨⟨hclock, hne⟩, d, hcd, hd⟩ | ⟨hend, hx⟩⟩
    · exact ⟨d, .head ⟨⟨hb, hcomb⟩, ⟨hc, hclock⟩, hne.symm, hfeeds⟩ hcd, hd⟩
    · exact ⟨b, .refl, c, hc, hfeeds, hend, hx⟩

theorem Acyclic.chainsEnd (h : m.Acyclic) (hb : b ∈ m.blocks.values) :
    ChainsEnd m.Through m.blocks.size b := by
  have hsize : m.blocks.size = m.blocks.values.length := (length_map _).symm
  rw [hsize]
  refine .of_keys (P := (· ∈ m.blocks.values)) Eq (fun _ hbc => hbc.right.1)
    (fun hc => ⟨_, hc, rfl⟩) ?_ hb
  rintro c _ _ _ hcd _ _ rfl rfl
  exact h _ hcd

theorem exists_fedStates_step (h : m.Fresh) (hb : b ∈ m.blocks.values)
    (hcomb : b.combinational = true) {n : Nat}
    (hnext : ∀ c, m.Through b c →
      ∃ states, m.fedStates n c = .ok states ∧ ∀ x, x ∈ states ↔ m.LeadsTo c x) :
    ∃ states, m.fedStates (n + 1) b = .ok states ∧ ∀ x, x ∈ states ↔ m.LeadsTo b x := by
  have hstep : ∀ c ∈ m.blocks.values, ∃ states,
      (if !c.reads b.state.keys then pure []
        else if c.combinational && c.number != b.number then m.fedStates n c
        else pure c.state.keys : Result (List String)) = .ok states ∧
      ∀ x, x ∈ states ↔ b.Feeds c ∧ ((c.combinational = true ∧ c ≠ b) ∧ m.LeadsTo c x ∨
        (c.combinational = false ∨ c = b) ∧ x ∈ c.state.keys) := by
    intro c hc
    have hother : (c.combinational && c.number != b.number) = true ↔
        c.combinational = true ∧ c ≠ b := by
      rw [Bool.and_eq_true, bne_iff_ne, Ne, h.number_eq_iff hb hc]
    have hend : (c.combinational = false ∨ c = b) ↔ ¬ (c.combinational = true ∧ c ≠ b) := by
      rw [not_and_or, not_not, Bool.not_eq_true]
    by_cases hfeeds : b.Feeds c
    · rw [AlwaysBlock.reads_iff.mpr hfeeds, Bool.not_true, if_neg Bool.false_ne_true]
      by_cases hthrough : c.combinational = true ∧ c ≠ b
      · rw [if_pos (hother.mpr hthrough)]
        obtain ⟨states, hstates, hmem⟩ :=
          hnext c ⟨⟨hb, hcomb⟩, ⟨hc, hthrough.1⟩, hthrough.2.symm, hfeeds⟩
        exact ⟨states, hstates, fun x => by simp [hmem, hfeeds, hthrough]⟩
      · rw [if_neg (mt hother.mp hthrough)]
        exact ⟨_, rfl, fun x => by simp only [hfeeds, hend, hthrough]; simp⟩
    · rw [if_pos (by simpa using mt AlwaysBlock.reads_iff.mp hfeeds)]
      exact ⟨[], rfl, by simp [hfeeds]⟩
  obtain ⟨lists, hlists, hleft, hright⟩ := exists_mapM_eq_ok hstep
  refine ⟨lists.flatten, by rw [fedStates, hlists]; rfl, fun x => ?_⟩
  rw [mem_flatten, leadsTo_iff hb hcomb]
  constructor
  · rintro ⟨list, hlist, hx⟩
    obtain ⟨c, hc, hmem⟩ := hright list hlist
    exact ⟨c, hc, (hmem x).mp hx⟩
  · rintro ⟨c, hc, hx⟩
    obtain ⟨list, hlist, hmem⟩ := hleft c hc
    exact ⟨list, hlist, (hmem x).mpr hx⟩

theorem exists_fedStates (h : m.Fresh) {n : Nat} (hn : ChainsEnd m.Through n b)
    (hb : b ∈ m.blocks.values) (hcomb : b.combinational = true) :
    ∃ states, m.fedStates (n + 1) b = .ok states ∧ ∀ x, x ∈ states ↔ m.LeadsTo b x := by
  induction n generalizing b with
  | zero => exact exists_fedStates_step h hb hcomb fun c hc => absurd hc (hn c)
  | succ n ih =>
    exact exists_fedStates_step h hb hcomb fun c hc => ih (hn c hc) hc.right.1 hc.right.2

/-! ## Interesting signals -/

theorem interestingIn_go_eq {states : List String}
    (h : (if b.combinational then m.fedStates (m.blocks.size + 1) b else pure b.state.keys) =
      .ok states) (names : List String) :
    interestingIn.go m b names = (names.filter states.contains, none) := by
  induction names with
  | nil => rfl
  | cons name names ih =>
    rw [interestingIn.go, h, ih, filter_cons]

theorem exists_interestingIn (h : m.Fresh) (hacyclic : m.Acyclic) (hb : b ∈ m.blocks.values) :
    ∃ names, m.interestingIn b = (names, none) ∧
      ∀ x, x ∈ names ↔ x ∈ b.control.keys ∧ m.Returns b x := by
  obtain ⟨states, hstates, hmem⟩ : ∃ states,
      (if b.combinational then m.fedStates (m.blocks.size + 1) b else pure b.state.keys) =
        .ok states ∧ ∀ x, x ∈ states ↔ m.Returns b x := by
    cases hcomb : b.combinational with
    | true =>
      simpa [Returns, hcomb] using exists_fedStates h (hacyclic.chainsEnd hb) hb hcomb
    | false => exact ⟨_, rfl, fun x => by simp [Returns, hcomb]⟩
  refine ⟨_, interestingIn_go_eq hstates _, fun x => ?_⟩
  rw [mem_filter, contains_iff_mem, hmem]

theorem nodup_eraseDups : ∀ names : List String, names.eraseDups.Nodup
  | [] => .nil
  | name :: names => by
    rw [eraseDups_cons]
    exact nodup_cons.mpr ⟨by simp, nodup_eraseDups _⟩
termination_by names => names.length
decreasing_by exact Nat.lt_succ_of_le (length_filter_le _ _)

theorem exists_findInteresting_go (h : m.Fresh) (hacyclic : m.Acyclic) {bs : List AlwaysBlock}
    (hbs : ∀ b ∈ bs, b ∈ m.blocks.values) (found : List String) :
    ∃ names, findInteresting.go m bs found = (names, none) ∧ names.Nodup ∧
      ∀ x, x ∈ names ↔ x ∈ found ∨ ∃ b ∈ bs, x ∈ b.control.keys ∧ m.Returns b x := by
  induction bs generalizing found with
  | nil => exact ⟨_, rfl, nodup_eraseDups _, by simp⟩
  | cons b bs ih =>
    obtain ⟨new, hnew, hmem⟩ := exists_interestingIn h hacyclic (hbs b mem_cons_self)
    obtain ⟨names, hnames, hnodup, hmems⟩ :=
      ih (fun b hb => hbs b (mem_cons_of_mem _ hb)) (found ++ new)
    refine ⟨names, by rw [findInteresting.go, hnew]; exact hnames, hnodup, fun x => ?_⟩
    rw [hmems, mem_append, hmem, or_assoc]
    simp

/-- If no chain of blocks without clocks goes round in a circle, the interesting signals of a module
are found. They are the names that are fed back, each of them once. -/
theorem findInteresting_fedBack (h : m.Built) (hacyclic : m.Acyclic) :
    ∃ m', m.findInteresting = (m', none) ∧ m'.interesting.Nodup ∧
      ∀ x, x ∈ m'.interesting ↔ m.FedBack x := by
  obtain ⟨names, hnames, hnodup, hmem⟩ :=
    exists_findInteresting_go h.fresh hacyclic (fun b hb => hb) m.interesting
  refine ⟨{ m with interesting := names }, by rw [findInteresting, hnames], hnodup, fun x => ?_⟩
  rw [hmem, h.fresh.interesting, FedBack]
  simp

section Examples

def namesOnce (names : List String) : Counts := ⟨names.map fun name => (name, 1)⟩

/-- `if(s) a = d;` and `b = a;` without a clock, and `s <= b;` with one. -/
def feedbackLoop : Module :=
  let block (n : Nat) (comb : Bool) (data control state : List String) (m : Module) : Module :=
    let node := Ast.mk .always 0 [.absent, .text (Text.ofInt n)]
    m.addBlock node ⟨node, comb, namesOnce data, namesOnce control, namesOnce state, n⟩
  block 2 false ["b"] [] ["s"] (block 1 true ["a"] [] ["b"] (block 0 true ["d"] ["s"] ["a"]
    { name := "TOP", body := .absent }))

theorem findInteresting_fedBack_loop :
    feedbackLoop.Built ∧ feedbackLoop.Acyclic ∧
      ∃ m', feedbackLoop.findInteresting = (m', none) ∧ m'.interesting.Nodup ∧
        ∀ x, x ∈ m'.interesting ↔ feedbackLoop.FedBack x := by
  have hbuilt : feedbackLoop.Built :=
    .addBlock _ (.addBlock _ (.addBlock _ (.new ⟨"TOP", .absent, {}, [], []⟩) rfl) rfl) rfl
  have hless : ∀ b c, feedbackLoop.Through b c → b.number < c.number := by
    rintro b c ⟨⟨hb, hcombB⟩, ⟨hc, hcombC⟩, hne, x, hx, hread⟩
    fin_cases hb <;> fin_cases hc <;> simp_all [namesOnce, Table.keys]
  have hacyclic : feedbackLoop.Acyclic := by
    intro b hb
    have hlt := hb.lift AlwaysBlock.number hless
    rw [Relation.transGen_eq_self] at hlt
    exact Nat.lt_irrefl _ hlt
  exact ⟨hbuilt, hacyclic, findInteresting_fedBack hbuilt hacyclic⟩

end Examples

end Module

end RtlFlow.Design
