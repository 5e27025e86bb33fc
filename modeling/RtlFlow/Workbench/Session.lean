import RtlFlow.Workbench.Queries

/-!
# Sessions

A session keeps one thing and changes it by commands, one after the other. After every command the
thing is shown, also where the command has failed.
-/

namespace RtlFlow.Workbench

/-- A thing and the workbench around it. -/
structure Held (σ : Type) where
  thing : σ
  bench : Bench := {}

abbrev At (σ : Type) := EStateM Fault (Held σ)

namespace At

variable {σ : Type}

def work {α : Type} : Work α → At σ α := Work.within Held.bench fun h b => { h with bench := b }

instance : MonadLift Work (At σ) := ⟨work⟩

def thing : At σ σ := do return (← get).thing

def put (s : σ) : At σ Unit := modify fun h => { h with thing := s }

end At

section

variable {σ φ β : Type}

instance [Takes (At σ) φ β] : Takes (At σ) (Active.Store → φ) β :=
  ⟨fun f vs => do Takes.take (f (← get).bench.store) vs⟩

/-- A command that leaves the thing as it is. -/
def asks [Takes (At σ) φ β] [Showable β] (ps : List Parameter) (f : σ → φ) : Command (At σ) :=
  ⟨ps, fun vs => do (does ps (f (← At.thing))).run vs⟩

/-- A change of a part of the thing. -/
def changesIn {τ : Type} [Takes (At σ) φ τ] (part : σ → τ) (put : σ → τ → σ) (ps : List Parameter)
    (f : τ → φ) : Command (At σ) :=
  ⟨ps, fun vs => do
    let s ← At.thing
    At.put (put s (← Takes.take (f (part s)) vs))
    return .none⟩

def changes [Takes (At σ) φ σ] (ps : List Parameter) (f : σ → φ) : Command (At σ) :=
  changesIn id (fun _ s => s) ps f

def comparisons (form : σ → Value) : Commands (At σ) := [
  ("eq", asks ["other"] fun s store => equalIn store (form s)),
  ("ne", asks ["other"] fun s store => differIn store (form s)),
  ("samehash", asks ["other"] fun s => (form s).sameHash)]

/-- The two words for the short form of a thing. -/
def textCommands (f : Active.Store → σ → Result String) : Commands (At σ) :=
  ["str", "repr"].map fun word => (word, asks [] fun s store => f store s)

def fails (ps : List Parameter) : Command (At σ) := ⟨ps, fun _ => throw .wrongKind⟩

def differs (_ : σ) (v : Value) : Result Bool := do
  let _ ← v.sameHash .none
  return false

def plainCommands : Commands (At σ) := [
  ("eq", asks ["other"] fun _ (_ : Value) => false),
  ("ne", asks ["other"] fun _ (_ : Value) => true),
  ("samehash", asks ["other"] differs),
  ("len", fails []),
  ("list", fails []),
  ("getitem", fails ["key"]),
  ("slice", fails [may "start" .none, may "stop" .none, may "step" .none]),
  ("plus", fails ["other"])]

end

/-! ## Sessions -/

/-- A form of things: how one is made, which commands it takes before the plain ones, and how it is
shown. -/
structure Form (σ : Type) where
  parameters : List Parameter := []
  make : List Value → Work σ
  commands : Commands (At σ)
  shown : σ → Active.Store → Result Value

def Form.all {σ : Type} (f : Form σ) : Commands (At σ) := f.commands ++ plainCommands

/-- A thing with its form. -/
structure Session where
  {σ : Type}
  form : Form σ
  thing : σ

/-- The answer of a command, the thing after it, and the store to read both with. -/
structure Answer where
  result : Result Value
  shown : Result Value
  store : Active.Store

namespace Session

def start {σ : Type} (f : Form σ) (args : Work Arguments) (b : Bench) :
    Except Fault Session × Bench :=
  let make : Work σ := do
    let a ← args
    f.make (← a.values f.parameters)
  match Work.run make b with
  | (.ok s, b) => (.ok ⟨f, s⟩, b)
  | (.error e, b) => (.error e, b)

/-- Takes a command. What is changed before a fault stays changed. -/
def step (s : Session) (word : String) (args : Work Arguments) (b : Bench) :
    Answer × Session × Bench :=
  let call : At s.σ Value := do s.form.all.call word (← At.work args)
  let (r, h) := Work.run call ⟨s.thing, b⟩
  (⟨r, s.form.shown h.thing h.bench.store, h.bench.store⟩, { s with thing := h.thing }, h.bench)

def run (s : Session) : List (String × Work Arguments) → Bench → List Answer × Bench
  | [], b => ([], b)
  | (word, args) :: rest, b =>
    let (a, s', b') := s.step word args b
    let (as, b'') := run s' rest b'
    (a :: as, b'')

end Session

/-! ## Positions -/

/-- The number of an index into so many items; a negative one counts from the end. -/
def position (n : Nat) (i : Int) : Result Nat :=
  let j := if i < 0 then i + n else i
  if 0 ≤ j ∧ j < n then pure j.toNat else throw .badPosition

def sliceEnd (low high : Int) (n : Nat) (i : Int) : Int :=
  let j := if i < 0 then i + n else i
  if j < low then low else if j > high then high else j

def pick {α : Type} (items : List α) (start step : Int) (count : Nat) : List α :=
  (List.range count).filterMap fun (k : Nat) => items[(start + step * k).toNat]?

/-- The items of a list from a start up to a stop, which is left out, by steps. An open end is the
end of the list where the steps come from or go to. -/
def slice {α : Type} (items : List α) (start stop : Option Int) (step : Int) :
    Result (List α) :=
  let n := items.length
  if step = 0 then throw .badValue
  else if step > 0 then
    let i := (start.map (sliceEnd 0 n n)).getD 0
    let j := (stop.map (sliceEnd 0 n n)).getD n
    pure (pick items i step ((j - i + step - 1) / step).toNat)
  else
    let i := (start.map (sliceEnd (-1) (n - 1) n)).getD (n - 1)
    let j := (stop.map (sliceEnd (-1) (n - 1) n)).getD (-1)
    pure (pick items i step ((i - j - step - 1) / (-step)).toNat)

instance : Readable (Option Int) where
  read v := do
    match ← v.toScalar with
    | .none => return none
    | a => return some (← a.toInt)

end RtlFlow.Workbench
