import RtlFlow.Design.Definition
import RtlFlow.Flow.Term

/-!
# Frames

Every scope of a design has a frame: what the scope is, under which condition it is entered, what
is declared in it, and which assignments were made in it. The frames form a tree, and one of them
is current.
-/

namespace RtlFlow.Design

/-- Whether a scope lies in a call or in a while loop. -/
def isAside (p : Path) : Bool := p.labels.any fun l =>
  l.kind = .functioncall || l.kind = .taskcall || l.kind = .while

/-- Bindings under numbers. Two places that hold one number share one binding. -/
abbrev Slots := Array Binding

def inSlots (slots : Slots) (is : List Nat) : List Binding := is.filterMap fun i => slots[i]?

/-- Some bindings with one more. If one of them is for the slice already, that one gets the new
tree. -/
def putSlice (same : Binding → Binding → Result Bool) (b : Binding) :
    List Binding → Result (List Binding)
  | [] => pure [b]
  | c :: rest => do
    if ← same c b then return { c with tree := b.tree } :: rest
    return c :: (← putSlice same b rest)

/-- The same for bindings under numbers, with the number of the one that comes. -/
def putSlot (same : Binding → Binding → Result Bool) (b : Binding) (i : Nat) (slots : Slots) :
    List Nat → Result (List Nat × Slots)
  | [] => pure ([i], slots)
  | j :: rest => do
    if ← slots[j]?.elim (pure false) (same · b) then
      return (j :: rest, slots.modify j fun c => { c with tree := b.tree })
    let (rest, slots) ← putSlot same b i slots rest
    return (j :: rest, slots)

/-- Notes the binding with a number under a name. -/
def noteSlot (same : Binding → Binding → Result Bool) (table : Table Path (List Nat))
    (slots : Slots) (name : Path) (i : Nat) : Result (Table Path (List Nat) × Slots) := do
  match slots[i]? with
  | none => return (table, slots)
  | some b =>
    let (known, slots) ← putSlot same b i slots ((table.get? name).getD [])
    return (table.put name known, slots)

/-- The marks of a scope for the regions that it lies in. -/
structure Marks where
  isModule : Bool := false
  isFunctionCall : Bool := false
  isTaskCall : Bool := false
  isGenerate : Bool := false
  isAlways : Bool := false
  isInitial : Bool := false
deriving DecidableEq, Inhabited

namespace Marks

/-- The marks of a scope of a kind below. -/
def enter (m : Marks) : ScopeKind → Marks
  | .module => { isModule := true }
  | .generate => { isGenerate := true }
  | .always => { isGenerate := m.isGenerate, isAlways := true }
  | .functioncall =>
    { isFunctionCall := true, isGenerate := m.isGenerate, isAlways := m.isAlways }
  | .taskcall => { isTaskCall := true, isGenerate := m.isGenerate, isAlways := m.isAlways }
  | _ => { m with isModule := false }

/-- The key for new labels: a name after the marks. -/
def key (m : Marks) (name : String) : String :=
  let mark (b : Bool) (s : String) := if b then s else ""
  mark m.isModule "md_" ++ mark m.isGenerate "ge_" ++ mark m.isAlways "al_" ++
    mark m.isInitial "in_" ++ mark m.isFunctionCall "fc_" ++ mark m.isTaskCall "tc_" ++ name

end Marks

/-- A scope of a design. -/
structure Frame extends Marks where
  name : Path := {}
  previous : Path := {}
  next : List Path := []
  kind : String := "none"
  sensitivity : Option Sensitivity := none
  condition : Ast := .absent
  loop : Scalar := .none
  loopName : Ast := .absent
  moduleName : Ast := .absent
  vars : Variables := {}
  functions : Definitions := {}
  tasks : Definitions := {}
  blocking : Table Path (List Nat) := {}
  nonblocking : Bindings := {}
deriving Inhabited

namespace Frame

def isElse (f : Frame) : Bool := f.kind == "ifelse"

/-- An empty frame of a kind below a frame. -/
def inside (f : Frame) (kind : ScopeKind) : Frame := { toMarks := f.enter kind }

def addSignal (f : Frame) (t : Ast) : Result Frame := do
  return { f with vars := f.vars.addSignal (← nameOf t) t }

def addConst (f : Frame) (t : Ast) : Result Frame := do
  return { f with vars := f.vars.addConst (← nameOf t) t }

def addGenvar (f : Frame) (t : Ast) : Result Frame := do
  return { f with vars := f.vars.addGenvar (← nameOf t) (.atom (.int 0)) }

def addFunction (f : Frame) (t : Ast) : Result Frame := do
  return { f with functions := ← f.functions.define (← nameOf t) t }

def addTask (f : Frame) (t : Ast) : Result Frame := do
  return { f with tasks := ← f.tasks.define (← nameOf t) t }

def addFunctionPort (f : Frame) (t : Ast) : Result Frame := do
  return { f with functions := ← f.functions.update (·.addPort t) }

def addTaskPort (f : Frame) (t : Ast) : Result Frame := do
  return { f with tasks := ← f.tasks.update (·.addPort t) }

/-- Whether two bindings in a frame are for one slice: they have the same high end and the same
element. -/
def sameSlice (a b : Binding) : Result Bool := do
  if !(← a.msb.equal b.msb) then return false
  a.ptr.equal b.ptr

def blockingTo (f : Frame) (dst : Path) : List Nat := (f.blocking.get? dst).getD []

/-- Notes the binding with a number as a blocking assignment. -/
def setBlocking (f : Frame) (slots : Slots) (dst : Path) (i : Nat) :
    Result (Frame × Slots) := do
  let (blocking, slots) ← noteSlot sameSlice f.blocking slots dst i
  return ({ f with blocking }, slots)

/-- Notes a nonblocking assignment. -/
def addNonblocking (f : Frame) (dst : Path) (b : Binding) : Result Frame := do
  let known ← putSlice sameSlice b ((f.nonblocking.get? dst).getD [])
  return { f with nonblocking := f.nonblocking.put dst known }

end Frame

/-- The frames of a design, with the current one. -/
structure Frames where
  table : Table Path Frame := {}
  current : Path := {}
  inFunction : Bool := false
  inTask : Bool := false
  inForPre : Bool := false
  inForPost : Bool := false
  loopName : Ast := .absent
deriving Inhabited

namespace Frames

def at? (fs : Frames) (p : Path) : Result Frame := orThrow .noEntry (fs.table.get? p)

def here (fs : Frames) : Result Frame := fs.at? fs.current

def updateAt (fs : Frames) (p : Path) (step : Frame → Result Frame) :
    Result Frames := do
  return { fs with table := fs.table.put p (← step (← fs.at? p)) }

def update (fs : Frames) (step : Frame → Result Frame) : Result Frames :=
  fs.updateAt fs.current step

/-- Adds a frame below the current one and goes there. -/
def add (fs : Frames) (labels : List Label) (f : Frame) : Result Frames := do
  let p : Path := ⟨fs.current.labels ++ labels⟩
  if fs.table.contains p then throw (.definition ("Already Exists: " ++ p.dotted))
  let fs' ← if fs.current.labels.isEmpty then pure fs
    else fs.update fun g => pure { g with next := g.next ++ [p] }
  let f := { f with name := p, previous := fs.current }
  return { fs' with table := fs'.table.put p f, current := p }

def goTo (fs : Frames) (p : Path) : Frames := { fs with current := p }

def labelKey (fs : Frames) (name : String) : Result String := do return (← fs.here).key name

/-- Adds a signal to the current frame; an input in a declaration of a function or a task is one of
its ports. -/
def addSignal (fs : Frames) (t : Ast) : Result Frames :=
  if fs.inFunction && t.is .input then fs.update (·.addFunctionPort t)
  else if fs.inTask && t.is .input then fs.update (·.addTaskPort t)
  else fs.update (·.addSignal t)

/-! ## Whole tables -/

def collect {α : Type} (fs : Frames) (kind : ScopeKind) (names : Frame → List (String × α)) :
    Table Path α :=
  fs.table.entries.foldl (fun acc (p, f) =>
    (names f).foldl (fun acc (name, a) => acc.put (p.push ⟨name, kind, .none⟩) a) acc) {}

def allSignals (fs : Frames) : Table Path (List Ast) :=
  fs.collect .signal fun f => f.vars.signals.entries

def allConsts (fs : Frames) : Table Path (List Ast) :=
  fs.collect .signal fun f => f.vars.consts.entries

def allFunctions (fs : Frames) : Table Path Definition :=
  fs.collect .function fun f => f.functions.table.entries

def allTasks (fs : Frames) : Table Path Definition :=
  fs.collect .task fun f => f.tasks.table.entries

def allInstances (fs : Frames) : Result (List (Path × Ast)) := do
  let found ← fs.table.entries.mapM fun (p, f) =>
    match p.labels.getLast? with
    | some l => pure (if l.kind = .module then [(p, f.moduleName)] else [])
    | none => throw Fault.badPosition
  return found.flatten

def below {α : Type} (p : Path) (kind : ScopeKind) (names : List (String × α)) : Table Path α :=
  Table.ofList (names.map fun (name, a) => (p.push ⟨name, kind, .none⟩, a))

def constsAt (fs : Frames) (p : Path) : Result (Table Path (List Ast)) := do
  return below p .signal (← fs.at? p).vars.consts.entries

/-! ## Outwards -/

/-- Goes from a frame outwards to the first one where the search ends; the number bounds the
steps. -/
def climbBounded {α : Type} (fs : Frames) (search : Path → Frame → Option α) :
    Nat → Path → Result α
  | 0, _ => throw .tooDeep
  | n + 1, p => do
    let f ← fs.at? p
    match search p f with
    | some a => pure a
    | none => climbBounded fs search n f.previous

def climb {α : Type} (fs : Frames) (search : Path → Frame → Option α) (p : Path) :
    Result α :=
  fs.climbBounded search (fs.table.size + 1) p

/-- The nearest entry outwards, up to the module. -/
def nearest {α : Type} (fs : Frames) (entry : Frame → Option α) (p : Path) :
    Result (Option (Path × α)) :=
  fs.climb (fun p f => match entry f with
    | some a => some (some (p, a))
    | none => if f.isModule then some none else none) p

def nearestConst (fs : Frames) (name : String) (p : Path) :
    Result (Option (Path × List Ast)) :=
  fs.nearest (·.vars.consts.get? name) p

def nearestSignal (fs : Frames) (name : String) (p : Path) :
    Result (Option (Path × List Ast)) :=
  fs.nearest (·.vars.signals.get? name) p

/-- What the always block around the current frame waits for; nothing outside always blocks and in
calls. -/
def alwaysStatus (fs : Frames) : Result (Option Sensitivity) :=
  fs.climb (fun _ f =>
    if f.isFunctionCall || f.isTaskCall || !f.isAlways then some none
    else f.sensitivity.map some) fs.current

/-- The blocking assignments to a destination in the nearest frame of the always block that has
some. -/
def blockingTo (fs : Frames) (dst : Path) (p : Path) : Result (List Nat) :=
  fs.climb (fun _ f =>
    if !f.isAlways then some []
    else match f.blockingTo dst with
      | [] => none
      | found => some found) p

/-- The nonblocking assignments of the frame around the current one, inside an always block. -/
def previousNonblocking (fs : Frames) : Result Bindings := do
  let previous := (← fs.here).previous
  if previous.labels.isEmpty then return {}
  let f ← fs.at? previous
  return if f.isAlways then f.nonblocking else {}

/-- The conditions of the generate region around the current frame, outermost first: a loop
variable with its value, or a condition that holds. -/
def generateConditions (fs : Frames) : Result (List (Ast × Ast)) :=
  go (fs.table.size + 1) fs.current []
where
  go : Nat → Path → List (Ast × Ast) → Result (List (Ast × Ast))
    | 0, _, _ => throw .tooDeep
    | n + 1, p, inner => do
      let f ← fs.at? p
      if !f.isGenerate then return inner
      let here : List (Ast × Ast) := match f.loop with
        | .none =>
          if f.condition.isAbsent then []
          else if f.isElse then [(.absent, .mk .ulnot 0 [f.condition])]
          else [(.absent, f.condition)]
        | loop => [(f.loopName, .atom loop)]
      go n f.previous (here ++ inner)

/-! ## Downwards -/

def firstMatch (search : Path → Result (Option Path)) :
    List Path → Result (Option Path)
  | [] => pure none
  | p :: ps => do
    match ← search p with
    | some found => return some found
    | none => firstMatch search ps

/-- Searches below a frame for a hierarchical name. Frames that do not show in names are passed
over; an iteration of a loop is told by its value. The number bounds the steps. -/
def matchedBounded (fs : Frames) : Nat → Path → List Label → Result (Option Path)
  | 0, _, _ => throw .tooDeep
  | n + 1, p, target => do
    match p.labels.getLast? with
    | none => throw .badPosition
    | some last =>
      let onwards (target : List Label) : Result (Option Path) := do
        let f ← fs.at? p
        let found ← firstMatch (fun q => matchedBounded fs n q target) f.next
        return found.map fun q => ⟨last :: q.labels⟩
      let step (agrees : Label → Bool) : Result (Option Path) :=
        match target with
        | [] => throw .badPosition
        | [l] => pure (if agrees l then some ⟨[l]⟩ else none)
        | l :: rest => if agrees l then onwards rest else pure none
      if last.kind.isPrintable then step (fun l => last == l)
      else if last.kind = .for then
        match target with
        | [] => throw .badPosition
        | l :: _ => if l.kind = .for then step (fun l => last.loop.same l.loop) else onwards target
      else onwards target

def matched (fs : Frames) (p : Path) (target : List Label) : Result (Option Path) :=
  fs.matchedBounded (fs.table.size + 1) p target

end Frames

end RtlFlow.Design
